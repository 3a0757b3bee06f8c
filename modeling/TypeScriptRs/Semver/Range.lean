import TypeScriptRs.Lib.Machine
import TypeScriptRs.Lib.Words
import TypeScriptRs.Semver.Version

/-! Version ranges: how they are read, tested and printed. -/
namespace TypeScriptRs.Semver
open Machine

def versionZero : Version := { prerelease := [['0']] }

def increment (n : Nat) : Outcome Nat :=
  if n + 1 < 2 ^ 32 then .ok (n + 1) else .panic "attempt to add with overflow"

def Version.incrementMajor (v : Version) : Outcome Version := do
  let major ← increment v.major
  pure { major := major }

def Version.incrementMinor (v : Version) : Outcome Version := do
  let minor ← increment v.minor
  pure { major := v.major, minor := minor }

def Version.incrementPatch (v : Version) : Outcome Version := do
  let patch ← increment v.patch
  pure { major := v.major, minor := v.minor, patch := patch }

inductive ComparatorOperator where
  | lessThan
  | lessThanEqual
  | equal
  | greaterThanEqual
  | greaterThan
  | tilde
  | caret
  deriving DecidableEq

def ComparatorOperator.asStr : ComparatorOperator → Text
  | .lessThan => ['<']
  | .lessThanEqual => ['<', '=']
  | .equal => ['=']
  | .greaterThanEqual => ['>', '=']
  | .greaterThan => ['>']
  | .tilde => ['~']
  | .caret => ['^']

structure VersionComparator where
  operator : ComparatorOperator
  operand : Version
  deriving DecidableEq

structure VersionRange where
  alternatives : List (List VersionComparator)
  deriving DecidableEq

def formatComparator (comparator : VersionComparator) : Text :=
  comparator.operator.asStr ++ comparator.operand.toText

def formatAlternative (comparators : List VersionComparator) : Text :=
  [' '].intercalate (comparators.map formatComparator)

def formatDisjunction (alternatives : List (List VersionComparator)) : Text :=
  let s := [' ', '|', '|', ' '].intercalate (alternatives.map formatAlternative)
  if s = [] then ['*'] else s

def VersionRange.toText (range : VersionRange) : Text := formatDisjunction range.alternatives

def testComparator (comparator : VersionComparator) (version : Version) : Outcome Bool :=
  let cmp := version.compare (some comparator.operand)
  match comparator.operator with
  | .lessThan => pure (cmp < 0)
  | .lessThanEqual => pure (cmp ≤ 0)
  | .equal => pure (cmp = 0)
  | .greaterThanEqual => pure (cmp ≥ 0)
  | .greaterThan => pure (cmp > 0)
  | operator => .panic ("Unexpected operator: " ++ String.ofList operator.asStr)

def testAlternative : List VersionComparator → Version → Outcome Bool
  | [], _ => pure true
  | comparator :: rest, version => do
    let passed ← testComparator comparator version
    if !passed then pure false else testAlternative rest version

def testAny : List (List VersionComparator) → Version → Outcome Bool
  | [], _ => pure false
  | alternative :: rest, version => do
    let passed ← testAlternative alternative version
    if passed then pure true else testAny rest version

def testDisjunction (alternatives : List (List VersionComparator)) (version : Version) : Outcome Bool :=
  if alternatives = [] then pure true else testAny alternatives version

def VersionRange.test (range : VersionRange) (version : Version) : Outcome Bool :=
  testDisjunction range.alternatives version

/-- `char::is_whitespace`. -/
def isWhitespace (c : Char) : Bool :=
  c.toNat ∈ [0x20, 0x85, 0xA0, 0x1680, 0x2028, 0x2029, 0x202F, 0x205F, 0x3000] || (0x9 ≤ c.toNat && c.toNat ≤ 0xD) ||
    (0x2000 ≤ c.toNat && c.toNat ≤ 0x200A)

def trim (text : Text) : Text := Words.trim isWhitespace text

def splitWhitespace (text : Text) : List Text := Words.words isWhitespace text

def isRangeAtom (text : Text) : Bool :=
  text ≠ [] && text.all fun c => isAsciiAlphanumeric c || c = '-' || c = '+' || c = '.' || c = '*'

/-- The search for a hyphen with a blank on either side, with the text that it has passed. -/
def findHyphen (before : Text) : Text → Option (Text × Text)
  | [] => none
  | c :: after =>
    if c = '-' && before.getLast?.any isWhitespace && after.head?.any isWhitespace && isRangeAtom (trim before) &&
        isRangeAtom (trim after) then some (trim before, trim after)
    else findHyphen (before ++ [c]) after

def parseHyphenRange (text : Text) : Option (Text × Text) := findHyphen [] text

/-- The operator that a text starts with, the longer ones first. -/
def stripOperator : Text → Option ComparatorOperator × Text
  | '<' :: '=' :: rest => (some .lessThanEqual, rest)
  | '>' :: '=' :: rest => (some .greaterThanEqual, rest)
  | '<' :: rest => (some .lessThan, rest)
  | '>' :: rest => (some .greaterThan, rest)
  | '=' :: rest => (some .equal, rest)
  | '~' :: rest => (some .tilde, rest)
  | '^' :: rest => (some .caret, rest)
  | text => (none, text)

def parseRange (text : Text) : Option (Option ComparatorOperator × Text) :=
  let rest := (stripOperator text).2.dropWhile isWhitespace
  if rest = [] || !isRangeAtom rest then none else some ((stripOperator text).1, rest)

def isWildcard (text : Text) : Bool := text = ['*'] || text = ['x'] || text = ['X']

def isXr (text : Text) : Bool := isWildcard text || isUintComponent text

def isQualifierPartList (text : Text) : Bool :=
  text ≠ [] && text.all fun c => isAsciiAlphanumeric c || c = '-' || c = '.'

def splitOptional (text : Text) (delimiter : Char) : Option (Text × Option Text) :=
  match text.splitOn delimiter with
  | [before] => some (before, none)
  | [before, after] => if after = [] || !isQualifierPartList after then none else some (before, some after)
  | _ => none

def splitOptionalFirst (text : Text) (delimiter : Char) : Option (Text × Option Text) :=
  if delimiter ∈ text then
    let after := (text.dropWhile (· ≠ delimiter)).tail
    if after = [] || !isQualifierPartList after then none else some (text.takeWhile (· ≠ delimiter), some after)
  else some (text, none)

structure PartialVersion where
  version : Version
  majorStr : Text
  minorStr : Text
  patchStr : Text
  deriving DecidableEq

def partialVersionDefault : PartialVersion := ⟨{}, [], [], []⟩

def coreNumbers (majorStr minorStr patchStr : Text) : Option (Nat × Nat × Nat) :=
  if isWildcard majorStr then some (0, 0, 0)
  else
    (getUintComponent majorStr).bind fun major =>
      if isWildcard minorStr then some (major, 0, 0)
      else
        (getUintComponent minorStr).bind fun minor =>
          if isWildcard patchStr then some (major, minor, 0)
          else (getUintComponent patchStr).map fun patch => (major, minor, patch)

def qualifierParts (text : Option Text) : List Text := (text.map fun s => s.splitOn '.').getD []

def partialOf (corePart : Text) (prereleaseStr buildStr : Option Text) : Option PartialVersion :=
  let parts := corePart.splitOn '.'
  if parts = [] || parts.length > 3 || parts.any fun part => !isXr part then none
  else if parts.length < 3 && (prereleaseStr.isSome || buildStr.isSome) then none
  else
    let majorStr := parts.headD []
    let minorStr := parts.getD 1 ['*']
    let patchStr := parts.getD 2 ['*']
    (coreNumbers majorStr minorStr patchStr).map fun numbers =>
      { version :=
          { major := numbers.1
            minor := numbers.2.1
            patch := numbers.2.2
            prerelease := qualifierParts prereleaseStr
            build := qualifierParts buildStr }
        majorStr := majorStr
        minorStr := minorStr
        patchStr := patchStr }

def readPartial (text : Text) : Option PartialVersion :=
  (splitOptional text '+').bind fun first =>
    (splitOptionalFirst first.1 '-').bind fun second => partialOf second.1 second.2 first.2

def parsePartial (text : Text) : PartialVersion × Bool :=
  match readPartial text with
  | some result => (result, true)
  | none => (partialVersionDefault, false)

/-- The first version above a partial one with a wildcard for its minor or patch number. -/
def nextVersion (result : PartialVersion) : Outcome Version :=
  if isWildcard result.minorStr then result.version.incrementMajor else result.version.incrementMinor

def caretVersion (result : PartialVersion) : Outcome Version :=
  if result.version.major > 0 || isWildcard result.minorStr then result.version.incrementMajor
  else if result.version.minor > 0 || isWildcard result.patchStr then result.version.incrementMinor
  else result.version.incrementPatch

/-- The comparators that a hyphen between two partial versions stands for. -/
def hyphenComparators (leftResult rightResult : PartialVersion) : Outcome (List VersionComparator) :=
  let lower : List VersionComparator :=
    if !isWildcard leftResult.majorStr then [⟨.greaterThanEqual, leftResult.version⟩] else []
  if !isWildcard rightResult.majorStr then
    if isWildcard rightResult.minorStr || isWildcard rightResult.patchStr then do
      let operand ← nextVersion rightResult
      pure (lower ++ [⟨.lessThan, operand⟩])
    else pure (lower ++ [⟨.lessThanEqual, rightResult.version⟩])
  else pure lower

def parseHyphen (left right : Text) : Outcome (List VersionComparator × Bool) :=
  let (leftResult, leftOk) := parsePartial left
  if !leftOk then pure ([], false)
  else
    let (rightResult, rightOk) := parsePartial right
    if !rightOk then pure ([], false)
    else do
      let comparators ← hyphenComparators leftResult rightResult
      pure (comparators, true)

/-- The comparators that an operator before a partial version stands for. -/
def comparatorsOf (operator : ComparatorOperator) (result : PartialVersion) : Outcome (List VersionComparator) :=
  if !isWildcard result.majorStr then
    let minorOrPatch := isWildcard result.minorStr || isWildcard result.patchStr
    match operator with
    | .tilde => do
      let secondVersion ← nextVersion result
      pure [⟨.greaterThanEqual, result.version⟩, ⟨.lessThan, secondVersion⟩]
    | .caret => do
      let secondVersion ← caretVersion result
      pure [⟨.greaterThanEqual, result.version⟩, ⟨.lessThan, secondVersion⟩]
    | .lessThan | .greaterThanEqual =>
      let version := if minorOrPatch then { result.version with prerelease := [['0']] } else result.version
      pure [⟨operator, version⟩]
    | .lessThanEqual | .greaterThan =>
      if minorOrPatch then do
        let version ← nextVersion result
        pure [⟨if operator = .lessThanEqual then .lessThan else .greaterThanEqual,
          { version with prerelease := [['0']] }⟩]
      else pure [⟨operator, result.version⟩]
    | .equal =>
      if minorOrPatch then do
        let secondVersion ← nextVersion result
        pure [⟨.greaterThanEqual, { result.version with prerelease := [['0']] }⟩,
          ⟨.lessThan, { secondVersion with prerelease := [['0']] }⟩]
      else pure [⟨.equal, result.version⟩]
  else if operator = .lessThan || operator = .greaterThan then pure [⟨.lessThan, versionZero⟩]
  else pure []

def parseComparator (op : Option ComparatorOperator) (text : Text) : Outcome (List VersionComparator × Bool) :=
  let (result, ok) := parsePartial text
  if !ok then pure ([], false)
  else do
    let comparators ← comparatorsOf (op.getD .equal) result
    pure (comparators, true)

/-- The loop over the words of a range; the parser returns when there is no result. -/
def parseSimples : List Text → Outcome (Option (List VersionComparator))
  | [] => pure (some [])
  | simple :: rest =>
    match parseRange (trim simple) with
    | none => pure none
    | some (op, text) => do
      let (parsedComparators, ok) ← parseComparator op text
      if ok then
        let later ← parseSimples rest
        pure (later.map fun comparators => parsedComparators ++ comparators)
      else pure none

def whenOk (parsed : List VersionComparator × Bool) : Option (List VersionComparator) :=
  if parsed.2 then some parsed.1 else none

def parseOne (r : Text) : Outcome (Option (List VersionComparator)) :=
  match parseHyphenRange r with
  | some (left, right) => do
    let parsed ← parseHyphen left right
    pure (whenOk parsed)
  | none => parseSimples (splitWhitespace r)

def parseRanges (alternatives : List (List VersionComparator)) :
    List Text → Outcome (List (List VersionComparator) × Bool)
  | [] => pure (alternatives, true)
  | r :: rest =>
    if trim r = [] then parseRanges alternatives rest
    else do
      match ← parseOne (trim r) with
      | none => pure ([], false)
      | some comparators => parseRanges (alternatives ++ [comparators]) rest

def parseAlternatives (text : Text) : Outcome (List (List VersionComparator) × Bool) :=
  parseRanges [] (Words.splitPair '|' (trim text))

def tryParseVersionRange (text : Text) : Outcome (VersionRange × Bool) := do
  let (alternatives, ok) ← parseAlternatives text
  pure (⟨alternatives⟩, ok)

example : tryParseVersionRange ">=1.x <3 || ~0.1-2".toList = .ok (⟨[]⟩, false) := by decide

example : tryParseVersionRange "1.2 - 3.4 || ~0.1".toList =
    .ok (⟨[[⟨.greaterThanEqual, ⟨1, 2, 0, [], []⟩⟩, ⟨.lessThan, ⟨3, 5, 0, [], []⟩⟩],
      [⟨.greaterThanEqual, ⟨0, 1, 0, [], []⟩⟩, ⟨.lessThan, ⟨0, 2, 0, [], []⟩⟩]]⟩, true) := by decide

end TypeScriptRs.Semver
