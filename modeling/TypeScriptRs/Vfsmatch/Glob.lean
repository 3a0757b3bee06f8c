import TypeScriptRs.Lib.Machine
import TypeScriptRs.Lib.Split
import TypeScriptRs.Lib.Utf8

/-! Include and exclude patterns, compiled and matched against the parts of a path. -/
namespace TypeScriptRs.Vfsmatch
open Machine Utf8

inductive Usage where
  | files
  | directories
  | exclude
  deriving DecidableEq

def toAsciiLowercase (text : Text) : Text := text.map Char.toLower

def eqIgnoreAsciiCase (a b : Text) : Bool := toAsciiLowercase a = toAsciiLowercase b

def canonicalFileName (path : Text) (caseSensitive : Bool) : Text := if caseSensitive then path else toAsciiLowercase path

def ensureTrailingSlash (value : Text) : Text :=
  if value ≠ [] ∧ value.getLast? ≠ some '/' then value ++ ['/'] else value

def trimEndSlashes (path : Text) : Text := (path.reverse.dropWhile (· = '/')).reverse

def removeTrailingDirectorySeparator (path : Text) : Text := if bytes path > 1 then trimEndSlashes path else path

def isRootedDiskPath : Text → Bool
  | '/' :: _ => true
  -- The second and third byte of the path.
  | c :: ':' :: '/' :: _ => c.utf8Size = 1
  | _ => false

def normalizeStep (result : List Text) (part : Text) : List Text :=
  if part = [] ∨ part = ['.'] then result
  else if part = ['.', '.'] then result.dropLast
  else result ++ [part]

def normalizePath (path : Text) : Text :=
  let path := path.map fun c => if c = '\\' then '/' else c
  let rooted := path.head? = some '/'
  let networkRoot := ['/', '/'].isPrefixOf path && !(['/', '/', '/'].isPrefixOf path)
  let joined := ['/'].intercalate ((path.splitOn '/').foldl normalizeStep [])
  if networkRoot then '/' :: '/' :: joined
  else if rooted then '/' :: joined
  else if joined = [] then ['.']
  else joined

def combinePaths (left right : Text) : Text :=
  if right = [] then normalizePath left
  else if isRootedDiskPath right then normalizePath right
  else normalizePath (trimEndSlashes left ++ '/' :: right)

def getNormalizedPathComponents (spec basePath : Text) : List Text :=
  let path := combinePaths basePath spec
  if path = ['/'] then [[]]
  else (if path.head? = some '/' then [[]] else []) ++ (path.splitOn '/').filter (· ≠ [])

def isHiddenPath (name : Text) : Bool := name.head? = some '.'

def isPackageFolder (name : Text) : Bool :=
  eqIgnoreAsciiCase name "node_modules".toList || eqIgnoreAsciiCase name "bower_components".toList ||
    eqIgnoreAsciiCase name "jspm_packages".toList

inductive Segment where
  | literal (text : Text)
  | star
  | question
  deriving DecidableEq

inductive Component where
  | literal (text : Text)
  | wildcard (segments : List Segment) (skipPackageFolders : Bool)
  | doubleAsterisk
  deriving DecidableEq

structure GlobPattern where
  components : List Component
  isExclude : Bool
  caseSensitive : Bool
  excludeMinJs : Bool

def literalSegment (text : Text) : List Segment := if text = [] then [] else [.literal text]

/-- The rest of a component, after the literal that is being read. -/
def parseSegmentsFrom (literal : Text) : Text → List Segment
  | [] => literalSegment literal
  | c :: value =>
    if c = '*' then literalSegment literal ++ .star :: parseSegmentsFrom [] value
    else if c = '?' then literalSegment literal ++ .question :: parseSegmentsFrom [] value
    else parseSegmentsFrom (literal ++ [c]) value

def parseSegments (value : Text) : List Segment := parseSegmentsFrom [] value

def parseComponent (value : Text) (isInclude : Bool) : Component :=
  if value = ['*', '*'] then .doubleAsterisk
  else if value.all fun c => c ≠ '*' ∧ c ≠ '?' then .literal value
  else .wildcard (parseSegments value) isInclude

def isImplicitGlob (lastPathComponent : Text) : Bool := lastPathComponent.all fun c => c ≠ '.' ∧ c ≠ '*' ∧ c ≠ '?'

def compileGlobPattern (spec basePath : Text) (usage : Usage) (caseSensitive : Bool) : Option GlobPattern :=
  let parts := getNormalizedPathComponents spec basePath
  if usage ≠ .exclude ∧ parts.getLast? = some ['*', '*'] then none
  else
    let parts := parts.modifyHead removeTrailingDirectorySeparator
    let parts := if parts.getLast?.any isImplicitGlob then parts ++ [['*', '*'], ['*']] else parts
    some {
      isExclude := usage = .exclude
      caseSensitive
      excludeMinJs := usage = .files
      components := parts.map fun part => parseComponent part (usage ≠ .exclude) }

def notBoundary : String := "byte index is not a char boundary"

def sliced (text : Option Text) : Outcome Text :=
  match text with
  | some text => .ok text
  | none => .panic notBoundary

namespace GlobPattern

def stringsEqual (p : GlobPattern) (a b : Text) : Bool := if p.caseSensitive then a = b else eqIgnoreAsciiCase a b

def hasMinJsSuffix (p : GlobPattern) (filename : Text) : Bool :=
  if p.caseSensitive then ".min.js".toList.isSuffixOf filename
  else (dropBytes filename (bytes filename - 7)).any (eqIgnoreAsciiCase · ".min.js".toList)

def patternMentionsMinSuffix (p : GlobPattern) (segments : List Segment) : Bool :=
  segments.any fun
    | .literal text =>
      let text := if p.caseSensitive then text else toAsciiLowercase text
      ".min.js".toList <:+: text ∨ ".min.".toList <:+: text
    | _ => false

def shouldIncludeMinJs (p : GlobPattern) (filename : Text) (segments : List Segment) : Bool :=
  if !p.excludeMinJs || !p.hasMinJsSuffix filename then true else p.patternMentionsMinSuffix segments

/-- The loop's variables: the segments after the last star, the name where that star ends, how many of
its characters the segments since then have matched, and the segments that are left. -/
structure Scan where
  star : Option (List Segment)
  starValue : Text
  read : Nat
  segments : List Segment

def Scan.value (s : Scan) : Text := s.starValue.drop s.read

/-- The last star takes one character more, if there is one that it can take. -/
def Scan.backtrack (s : Scan) : Option Scan :=
  match s.star, s.starValue with
  | some rest, c :: starValue => if c ≠ '/' then some ⟨some rest, starValue, 0, rest⟩ else none
  | _, _ => none

/-- A turn of the loop; without a next state the name does not match. -/
def turn (p : GlobPattern) (s : Scan) : Outcome (Option Scan) :=
  match s.segments with
  | .literal text :: rest =>
    if bytes text ≤ bytes s.value then do
      let part ← sliced (takeBytes s.value (bytes text))
      if p.stringsEqual text part then pure (some { s with read := s.read + part.length, segments := rest })
      else pure s.backtrack
    else .ok s.backtrack
  | .question :: rest =>
    if s.value.head? ≠ some '/' then .ok (some { s with read := s.read + 1, segments := rest }) else .ok s.backtrack
  | .star :: rest => .ok (some ⟨some rest, s.value, 0, rest⟩)
  | [] => .ok s.backtrack

/-- A star goes on, or the segments after the last one get fewer. -/
def Scan.Before (s s' : Scan) : Prop :=
  s'.starValue.length < s.starValue.length ∨
    (s'.starValue.length ≤ s.starValue.length ∧ s'.segments.length < s.segments.length)

theorem Scan.backtrack_before {s s' : Scan} (next : s.backtrack = some s') : s.Before s' := by
  unfold Scan.backtrack at next
  split at next
  · rename_i rest c starValue star shape
    split at next
    · cases next
      refine .inl ?_
      rw [shape, List.length_cons]
      exact Nat.lt_succ_self _
    · cases next
  · cases next

theorem turn_before {p : GlobPattern} {s s' : Scan} (next : p.turn s = .ok (some s')) : s.Before s' := by
  unfold turn at next
  split at next
  · rename_i text rest shape
    split at next
    · cases part : sliced (takeBytes s.value (bytes text)) with
      | ok part' =>
        rw [part, Outcome.monad_bind, Outcome.bind_ok] at next
        split at next
        · cases next
          exact .inr ⟨Nat.le_refl _, by rw [shape]; exact Nat.lt_succ_self _⟩
        · exact Scan.backtrack_before (Outcome.ok.inj next)
      | err m =>
        rw [part] at next
        cases next
      | panic m =>
        rw [part] at next
        cases next
    · exact Scan.backtrack_before (Outcome.ok.inj next)
  · rename_i rest shape
    split at next
    · cases next
      exact .inr ⟨Nat.le_refl _, by rw [shape]; exact Nat.lt_succ_self _⟩
    · exact Scan.backtrack_before (Outcome.ok.inj next)
  · rename_i rest shape
    cases next
    refine .inr ⟨?_, by rw [shape]; exact Nat.lt_succ_self _⟩
    unfold Scan.value
    rw [List.length_drop]
    omega
  · exact Scan.backtrack_before (Outcome.ok.inj next)

def matchSegmentsFrom (p : GlobPattern) (s : Scan) : Outcome Bool :=
  if s.value = [] then .ok (s.segments.all (· = .star))
  else
    match _next : p.turn s with
    | .ok (some s') => matchSegmentsFrom p s'
    | .ok none => .ok false
    | .err message => .err message
    | .panic message => .panic message
termination_by (s.starValue.length, s.segments.length)
decreasing_by
  rcases turn_before _next with shorter | ⟨same, fewer⟩
  · exact Prod.Lex.left _ _ shorter
  · rcases Nat.lt_or_eq_of_le same with shorter | equal
    · exact Prod.Lex.left _ _ shorter
    · rw [equal]
      exact Prod.Lex.right _ fewer

def matchSegments (p : GlobPattern) (segments : List Segment) (value : Text) : Outcome Bool :=
  p.matchSegmentsFrom ⟨none, value, 0, segments⟩

def matchWildcard (p : GlobPattern) (segments : List Segment) (value : Text) : Outcome Bool :=
  if !p.isExclude && isHiddenPath value && (segments.head? = some .star || segments.head? = some .question) then .ok false
  else
    match segments with
    | [.star, .literal suffix] =>
      if bytes suffix ≤ bytes value then do
        let last ← sliced (dropBytes value (bytes value - bytes suffix))
        pure (p.stringsEqual suffix last && p.shouldIncludeMinJs value segments)
      else .ok false
    | _ => do
      let matched ← p.matchSegments segments value
      pure (matched && p.shouldIncludeMinJs value segments)

def patternSatisfied (components : List Component) : Bool := components.all (· = .doubleAsterisk)

/-- The turns at a double asterisk: the components after it are tried first, then it takes a part. -/
def overParts (p : GlobPattern) (after : List Text → Outcome Bool) (atEnd : Bool) : List Text → Outcome Bool
  | [] => .ok atEnd
  | part :: parts => do
    let matched ← after (part :: parts)
    if matched then pure true
    else if !p.isExclude && (isHiddenPath part || isPackageFolder part) then pure false
    else overParts p after atEnd parts

/-- A component takes a part, and the components after it the rest. -/
def onePart (after : List Text → Outcome Bool) (prefixOnly : Bool) (takes : Text → Outcome Bool) :
    List Text → Outcome Bool
  | [] => .ok prefixOnly
  | part :: parts => do
    let taken ← takes part
    if taken then after parts else pure false

def takesWildcard (p : GlobPattern) (segments : List Segment) (skipPackageFolders : Bool) (part : Text) : Outcome Bool :=
  if skipPackageFolders && isPackageFolder part then .ok false else p.matchWildcard segments part

def matchPathParts (p : GlobPattern) (prefixOnly : Bool) : List Component → List Text → Outcome Bool
  | [] => fun parts => .ok (if parts = [] then true else p.isExclude && !prefixOnly)
  | .doubleAsterisk :: components =>
    p.overParts (matchPathParts p prefixOnly components) (prefixOnly || patternSatisfied components)
  | .literal text :: components =>
    onePart (matchPathParts p prefixOnly components) prefixOnly fun part => .ok (p.stringsEqual text part)
  | .wildcard segments skipPackageFolders :: components =>
    onePart (matchPathParts p prefixOnly components) prefixOnly (p.takesWildcard segments skipPackageFolders)

end GlobPattern

/-- The parts of a path: an empty one for a slash at its start, then the texts between slashes. -/
def pathParts (path : Text) : List Text :=
  (if path.head? = some '/' then [[]] else []) ++ (path.splitOn '/').filter (· ≠ [])

def GlobPattern.matchesParts (p : GlobPattern) (front name : Text) : Outcome Bool :=
  p.matchPathParts false p.components (pathParts (front ++ name))

def GlobPattern.matchesPrefixParts (p : GlobPattern) (front name : Text) : Outcome Bool :=
  p.matchPathParts true p.components (pathParts (front ++ name))

/-- Whether one of the patterns matches; those after it are not tried. -/
def anyMatches (test : GlobPattern → Outcome Bool) : List GlobPattern → Outcome Bool
  | [] => .ok false
  | p :: patterns => do
    let matched ← test p
    if matched then pure true else anyMatches test patterns

def positionMatches (test : GlobPattern → Outcome Bool) : Nat → List GlobPattern → Outcome (Option Nat)
  | _, [] => .ok none
  | index, p :: patterns => do
    let matched ← test p
    if matched then pure (some index) else positionMatches test (index + 1) patterns

structure GlobMatcher where
  includes : List GlobPattern
  excludes : List GlobPattern
  hadIncludes : Bool

def newGlobMatcher (includeSpecs excludeSpecs : List Text) (basePath : Text) (caseSensitive : Bool) (usage : Usage) :
    GlobMatcher where
  hadIncludes := includeSpecs ≠ []
  includes := includeSpecs.filterMap fun spec => compileGlobPattern spec basePath usage caseSensitive
  excludes := excludeSpecs.filterMap fun spec => compileGlobPattern spec basePath .exclude caseSensitive

def GlobMatcher.matchesFileParts (m : GlobMatcher) (front name : Text) : Outcome (Option Nat) := do
  let excluded ← anyMatches (·.matchesParts front name) m.excludes
  if excluded then pure none
  else if m.includes = [] then pure (if m.hadIncludes then none else some 0)
  else positionMatches (·.matchesParts front name) 0 m.includes

def GlobMatcher.matchesDirectoryParts (m : GlobMatcher) (front name : Text) : Outcome Bool := do
  let excluded ← anyMatches (·.matchesParts front name) m.excludes
  if excluded then pure false
  else if m.includes = [] then pure (!m.hadIncludes)
  else anyMatches (·.matchesPrefixParts front name) m.includes

example : (newGlobMatcher ["src/**/*.ts".toList] ["**/*.d.ts".toList] "/p".toList true .files).matchesFileParts
    "/p/src/é/".toList "a.ts".toList = .ok (some 0) := by decide +kernel

end TypeScriptRs.Vfsmatch
