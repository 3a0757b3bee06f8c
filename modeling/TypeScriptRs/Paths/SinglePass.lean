import TypeScriptRs.Lib.Machine
import TypeScriptRs.Paths.Components

/-! The other normalization: one pass over the text. -/
namespace TypeScriptRs.Paths
open Machine Utf8

def hasRelativeSegmentFrom : Text → Bool → Nat → Int → Bool
  | [], _, segmentLen, dotCount => (segmentLen = 1 && dotCount = 1) || (segmentLen = 2 && dotCount = 2)
  | c :: path, previousSlash, segmentLen, dotCount =>
    if c = '/' then
      if previousSlash then true
      else if (segmentLen = 1 ∧ dotCount = 1) ∨ (segmentLen = 2 ∧ dotCount = 2) then true
      else hasRelativeSegmentFrom path true 0 0
    else
      hasRelativeSegmentFrom path false (segmentLen + c.utf8Size)
        (if c = '.' then if dotCount ≥ 0 then dotCount + 1 else dotCount else -1)

def hasRelativePathSegment (path : Text) : Bool :=
  if path = [] then false
  else if path = ['.'] ∨ path = ['.', '.'] then true
  else if ['.', '/'].isPrefixOf path || ['.', '.', '/'].isPrefixOf path then true
  else if ['/', '.'].isSuffixOf path || ['/', '.', '.'].isSuffixOf path then true
  else hasRelativeSegmentFrom path false 0 0

/-- Every `/./`, from the left and without overlaps, becomes a slash. -/
def replaceDotSegments : Text → Text
  | '/' :: '.' :: '/' :: path => '/' :: replaceDotSegments path
  | c :: path => c :: replaceDotSegments path
  | [] => []

def stripDotSlash : Text → Text
  | '.' :: '/' :: path => path
  | path => path

def simpleNormalizePath (path : Text) : Option Text :=
  if !hasRelativePathSegment path then some path
  else
    let simplified := replaceDotSegments path
    let trimmed := stripDotSlash simplified
    if trimmed ≠ path ∧ hasRelativePathSegment trimmed = false ∧
        ¬(trimmed ≠ simplified ∧ trimmed.head? = some '/') then some trimmed
    else none

def notBoundary : String := "byte index is not a char boundary"

/-- A slice of a text, as far as its ends are between characters. -/
def sliced (text : Option Text) : Outcome Text :=
  match text with
  | some text => .ok text
  | none => .panic notBoundary

def find (text : Text) : Option Nat := if '/' ∈ text then some (bytes (text.takeWhile (· ≠ '/'))) else none

def rfind (text : Text) : Option Nat :=
  if '/' ∈ text then some (bytes (text.reverse.dropWhile (· ≠ '/')).tail) else none

def truncate (text : Text) (length : Nat) : Outcome Text :=
  if bytes text ≤ length then .ok text else sliced (takeBytes text length)

def skipSlashes (path : Text) (index : Nat) : Nat :=
  index + (((dropBytes path index).getD []).takeWhile (· = '/')).length

structure Pass where
  changed : Bool := false
  normalized : Text := []
  index : Nat
  normalizedUpTo : Nat
  seenNonDotDotSegment : Bool

def seenAfter (rootLength : Nat) (normalized : Text) : Bool :=
  (bytes normalized ≠ rootLength || rootLength ≠ 0) && normalized ≠ ['.', '.'] &&
    !(['/', '.', '.'].isSuffixOf normalized)

/-- The offset of the slash before the last segment of the text that was kept so far. -/
def lastCut (fileName root : Text) (normalizedUpTo : Nat) : Outcome Nat :=
  if normalizedUpTo > 0 then do
    let before ← sliced (takeBytes fileName (normalizedUpTo - 1))
    pure (((rfind before).map (max (bytes root))).getD (bytes root))
  else pure normalizedUpTo

def withoutLast (fileName root : Text) (s : Pass) : Outcome Text :=
  if !s.changed then do
    let upTo ← lastCut fileName root s.normalizedUpTo
    sliced (takeBytes fileName upTo)
  else
    match rfind s.normalized with
    | some lastSlash => truncate s.normalized (max (bytes root) lastSlash)
    | none => pure root

/-- A `..` that drops the segment before it. -/
def dropSegment (fileName root : Text) (s : Pass) : Outcome Pass := do
  let normalized ← withoutLast fileName root s
  pure { s with normalized := normalized, changed := true, seenNonDotDotSegment := seenAfter (bytes root) normalized }

def takeSegment (fileName root segment : Text) (index segmentEnd : Nat) (s : Pass) : Outcome Pass :=
  if segment = ['.'] then
    if !s.changed then do
      let normalized ← sliced (takeBytes fileName s.normalizedUpTo)
      pure { s with normalized := normalized, changed := true }
    else pure s
  else if segment = ['.', '.'] then
    if !s.seenNonDotDotSegment then
      if s.changed then
        pure { s with normalized :=
          s.normalized ++ (if bytes s.normalized = bytes root then ['.', '.'] else ['/', '.', '.']) }
      else pure { s with normalizedUpTo := index + 2 }
    else dropSegment fileName root s
  else if s.changed then
    pure { s with
      normalized := (if bytes s.normalized ≠ bytes root then s.normalized ++ ['/'] else s.normalized) ++ segment
      seenNonDotDotSegment := true }
  else pure { s with seenNonDotDotSegment := true, normalizedUpTo := segmentEnd }

/-- Slashes before a segment: more than one before it, so something is dropped. -/
def dropSlashes (fileName root : Text) (index : Nat) (s : Pass) : Outcome Pass :=
  if index > s.index ∧ s.changed = false then do
    let normalized ← sliced (takeBytes fileName (max (bytes root) (s.index - 1)))
    pure { s with normalized := normalized, changed := true }
  else pure s

def pass (fileName root : Text) : Nat → Pass → Outcome Pass
  | 0, s => .ok s
  | fuel + 1, s =>
    if s.index < bytes fileName then do
      let index := skipSlashes fileName s.index
      let s' ← dropSlashes fileName root index s
      if index > s.index ∧ index = bytes fileName then pure s'
      else do
        let rest ← sliced (dropBytes fileName (index + 1))
        let segmentEnd := ((find rest).map (index + 1 + ·)).getD (bytes fileName)
        let segment ← sliced (slice fileName index segmentEnd)
        let s' ← takeSegment fileName root segment index segmentEnd s'
        pass fileName root fuel { s' with index := segmentEnd + 1 }
    else .ok s

def removeTrailingDirectorySeparators : Nat → Text → Text
  | 0, path => path
  | fuel + 1, path =>
    if hasTrailingDirectorySeparator path then removeTrailingDirectorySeparators fuel (removeTrailingDirectorySeparator path)
    else path

def getNormalizedAbsolutePathInOnePass (fileName currentDirectory : Text) : Outcome Text :=
  let fileName := absoluteFileName fileName currentDirectory
  let rootLength := getRootLength fileName
  match simpleNormalizePath fileName with
  | some simpleNormalized =>
    let length := bytes simpleNormalized
    if length > rootLength then .ok (removeTrailingDirectorySeparator simpleNormalized)
    else if length = rootLength ∧ rootLength ≠ 0 then .ok (ensureTrailingDirectorySeparator simpleNormalized)
    else .ok simpleNormalized
  | none => do
    let length := bytes fileName
    let root ← sliced (takeBytes fileName rootLength)
    -- Every turn moves on by at least a byte.
    let s ← pass fileName root length
      { index := rootLength, normalizedUpTo := rootLength, seenNonDotDotSegment := rootLength ≠ 0 }
    if s.changed then pure s.normalized
    else if length > rootLength then pure (removeTrailingDirectorySeparators length fileName)
    else if length = rootLength then pure (ensureTrailingDirectorySeparator fileName)
    else pure []

example : getNormalizedAbsolutePathInOnePass "a/b/../né//.".toList "c:\\x".toList = .ok "c:/x/a/né".toList := by
  decide

end TypeScriptRs.Paths
