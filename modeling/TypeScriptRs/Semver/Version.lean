import Mathlib.Data.String.Basic
import TypeScriptRs.Lib.Decimal

/-! Versions, how they are compared, printed and read. Texts are lists of characters. -/
namespace TypeScriptRs.Semver
open Decimal

abbrev Text := List Char

structure Version where
  major : Nat := 0
  minor : Nat := 0
  patch : Nat := 0
  prerelease : List Text := []
  build : List Text := []
  deriving DecidableEq

def comparisonLessThan : Int := -1
def comparisonEqualTo : Int := 0
def comparisonGreaterThan : Int := 1

def orderingToComparison : Ordering → Int
  | .lt => comparisonLessThan
  | .eq => comparisonEqualTo
  | .gt => comparisonGreaterThan

def thenWith (first : Int) (next : Unit → Int) : Int := if first ≠ comparisonEqualTo then first else next ()

def isAsciiDigit (c : Char) : Bool := '0' ≤ c && c ≤ '9'

def isAsciiAlphanumeric (c : Char) : Bool := isAsciiDigit c || ('A' ≤ c && c ≤ 'Z') || ('a' ≤ c && c ≤ 'z')

def isNumericIdentifier (text : Text) : Bool :=
  text = ['0'] ||
    match text with
    | [] => false
    | first :: rest => '1' ≤ first && first ≤ '9' && rest.all isAsciiDigit

def isUintComponent (text : Text) : Bool := isNumericIdentifier text

def digitValue (c : Char) : Nat := c.toNat - 48

/-- `u32::from_str`: digits, after at most a plus sign, as long as they fit. -/
def getUintComponent (text : Text) : Option Nat :=
  let digits := match text with
    | '+' :: rest => rest
    | _ => text
  if digits ≠ [] ∧ digits.all isAsciiDigit = true ∧ valueOf (digits.map digitValue) < 2 ^ 32 then
    some (valueOf (digits.map digitValue))
  else none

def comparePreReleaseIdentifier (left right : Text) : Int :=
  let compareResult := orderingToComparison (cmp left right)
  if compareResult = comparisonEqualTo then compareResult
  else if isNumericIdentifier left || isNumericIdentifier right then
    if !isNumericIdentifier right then comparisonLessThan
    else if !isNumericIdentifier left then comparisonGreaterThan
    else
      match getUintComponent left, getUintComponent right with
      | some leftAsNumber, some rightAsNumber => orderingToComparison (cmp leftAsNumber rightAsNumber)
      | _, _ =>
        -- One of the numbers overflows: the longer one is larger.
        let lenCompare := orderingToComparison (cmp left.length right.length)
        if lenCompare = comparisonEqualTo then compareResult else lenCompare
  else compareResult

/-- The first pair of identifiers that differ decides, then the number of them. -/
def compareIdentifiers : List Text → List Text → Int
  | l :: left, r :: right =>
    let result := comparePreReleaseIdentifier l r
    if result ≠ comparisonEqualTo then result else compareIdentifiers left right
  | left, right => orderingToComparison (cmp left.length right.length)

def comparePreReleaseIdentifiers (left right : List Text) : Int :=
  if left = [] then if right = [] then comparisonEqualTo else comparisonGreaterThan
  else if right = [] then comparisonLessThan
  else compareIdentifiers left right

def Version.compare (a : Version) : Option Version → Int
  | none => comparisonGreaterThan
  | some b =>
    thenWith (orderingToComparison (cmp a.major b.major)) fun _ =>
      thenWith (orderingToComparison (cmp a.minor b.minor)) fun _ =>
        thenWith (orderingToComparison (cmp a.patch b.patch)) fun _ =>
          comparePreReleaseIdentifiers a.prerelease b.prerelease

def digitChar (d : Nat) : Char := Char.ofNat (48 + d)

def decimal (n : Nat) : Text := (digitsOf n).map digitChar

def join (parts : List Text) : Text := ['.'].intercalate parts

def Version.toText (v : Version) : Text :=
  decimal v.major ++ '.' :: decimal v.minor ++ '.' :: decimal v.patch ++
    (if v.prerelease ≠ [] then '-' :: join v.prerelease else []) ++
    (if v.build ≠ [] then '+' :: join v.build else [])

structure SemverParseError where
  origInput : Text
  deriving DecidableEq

def splitOnce (text : Text) (delimiter : Char) (origInput : Text) :
    Except SemverParseError (Text × Option Text) :=
  match text.splitOn delimiter with
  | [before] => .ok (before, none)
  | [before, after] => if after = [] then .error ⟨origInput⟩ else .ok (before, some after)
  | _ => .error ⟨origInput⟩

def splitOnceFirst (text : Text) (delimiter : Char) (origInput : Text) :
    Except SemverParseError (Text × Option Text) :=
  if delimiter ∈ text then
    let after := (text.dropWhile (· ≠ delimiter)).tail
    if after = [] then .error ⟨origInput⟩ else .ok (text.takeWhile (· ≠ delimiter), some after)
  else .ok (text, none)

def isPrereleasePart (text : Text) : Bool :=
  isNumericIdentifier text ||
    match text with
    | [] => false
    | first :: rest =>
      (('A' ≤ first && first ≤ 'Z') || ('a' ≤ first && first ≤ 'z') || first = '-') &&
        rest.all fun c => isAsciiAlphanumeric c || c = '-'

def isPrerelease (text : Text) : Bool := text ≠ [] && (text.splitOn '.').all isPrereleasePart

def isBuildPart (text : Text) : Bool := text ≠ [] && text.all fun c => isAsciiAlphanumeric c || c = '-'

def isBuild (text : Text) : Bool := text ≠ [] && (text.splitOn '.').all isBuildPart

def uintOr (origInput : Text) (part : Text) : Except SemverParseError Nat :=
  match getUintComponent part with
  | some n => .ok n
  | none => .error ⟨origInput⟩

def identifiersOr (origInput : Text) (wellFormed : Text → Bool) : Option Text → Except SemverParseError (List Text)
  | none => .ok []
  | some text => if !wellFormed text then .error ⟨origInput⟩ else .ok (text.splitOn '.')

def tryParseVersion (text : Text) : Except SemverParseError Version := do
  let (versionPart, buildStr) ← splitOnce text '+' text
  let (corePart, prereleaseStr) ← splitOnceFirst versionPart '-' text
  let coreParts := corePart.splitOn '.'
  if coreParts = [] ∨ coreParts.length > 3 then throw ⟨text⟩
  if coreParts.any fun part => !isUintComponent part then throw ⟨text⟩
  if coreParts.length < 3 ∧ (prereleaseStr.isSome || buildStr.isSome) = true then throw ⟨text⟩
  let major ← uintOr text (coreParts.headD [])
  let minor ← if coreParts.length > 1 then uintOr text (coreParts.getD 1 []) else pure 0
  let patch ← if coreParts.length > 2 then uintOr text (coreParts.getD 2 []) else pure 0
  let prerelease ← identifiersOr text isPrerelease prereleaseStr
  let build ← identifiersOr text isBuild buildStr
  pure ⟨major, minor, patch, prerelease, build⟩

example : tryParseVersion "1.2.3-pre.4+build.5".toList =
    .ok ⟨1, 2, 3, ["pre".toList, ['4']], ["build".toList, ['5']]⟩ := by decide

example : (⟨1, 2, 3, ["pre".toList, ['4']], ["build".toList]⟩ : Version).toText = "1.2.3-pre.4+build".toList := by
  decide

end TypeScriptRs.Semver
