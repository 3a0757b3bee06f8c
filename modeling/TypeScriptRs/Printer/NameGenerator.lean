import TypeScriptRs.Lib.HashMap
import TypeScriptRs.Lib.Run
import TypeScriptRs.Lib.Utf8
import TypeScriptRs.Semver.Version

/-! The generator of names that the emitter makes up. -/
namespace TypeScriptRs.Printer
open Utf8
open Semver (decimal)

abbrev TempFlags := Nat

def tempFlagsAuto : TempFlags := 0x00000000

def tempFlagsCountMask : TempFlags := 0x0FFFFFFF

/-- The name `_i` is preferred, or has been given. -/
def tempFlagsI : TempFlags := 0x10000000

def removeLeadingHash : Text → Text
  | '#' :: text => text
  | text => text

def ensureLeadingHash : Text → Text
  | '#' :: text => '#' :: text
  | text => '#' :: text

def formatGeneratedName (privateName : Bool) (pre base suf : Text) : Text :=
  let name := removeLeadingHash pre ++ removeLeadingHash base ++ removeLeadingHash suf
  if privateName then ensureLeadingHash name else name

/-- The counter of a temporary: the scope's own, or one of the names with the same fixed portions. -/
inductive Counter where
  | simple
  | formatted (key : Text)
  deriving DecidableEq

def counterOf (privateName : Bool) (pre suf : Text) : Counter :=
  if pre = [] ∧ suf = [] then .simple
  else
    let key := formatGeneratedName privateName pre [] suf
    .formatted (if privateName then ensureLeadingHash key else key)

/-- A name that was handed out. Only a temporary has a counter. -/
structure Generated where
  name : Text
  reservedInNestedScopes : Bool
  counter : Option Counter

/-- The list of the names generated while a scope is the innermost one is history: the code keeps none. -/
structure NameGenerationScope where
  tempFlags : TempFlags := tempFlagsAuto
  formattedNameTempFlags : HashMap Text TempFlags := ∅
  reservedNames : Finset Text := ∅
  names : List Generated := []

/-- A stack of scopes is the list of them, the innermost first. -/
structure NameGenerator where
  fileLevelIdentifiers : Option (Finset Text)
  hasGlobalName : Option (Text → Bool)
  nameGenerationScope : List NameGenerationScope := []
  privateNameGenerationScope : List NameGenerationScope := []
  generatedNames : Finset Text := ∅

namespace NameGenerationScope

def flagsOf (scope : NameGenerationScope) : Counter → TempFlags
  | .simple => scope.tempFlags
  | .formatted key => (scope.formattedNameTempFlags.lookup key).getD tempFlagsAuto

def setFlagsOf (scope : NameGenerationScope) (flags : TempFlags) : Counter → NameGenerationScope
  | .simple => { scope with tempFlags := flags }
  | .formatted key => { scope with formattedNameTempFlags := scope.formattedNameTempFlags.insert key flags }

def reserve (scope : NameGenerationScope) (name : Text) : NameGenerationScope :=
  { scope with reservedNames := insert name scope.reservedNames }

def note (scope : NameGenerationScope) (given : Generated) : NameGenerationScope :=
  { scope with names := given :: scope.names }

variable (scope : NameGenerationScope)

theorem flagsOf_setFlagsOf (flags : TempFlags) (c c' : Counter) :
    (scope.setFlagsOf flags c).flagsOf c' = if c' = c then flags else scope.flagsOf c' := by
  cases c with
  | simple => cases c' <;> rfl
  | formatted key =>
    cases c' with
    | simple => rfl
    | formatted key' =>
      simp only [setFlagsOf, flagsOf, HashMap.lookup_insert_if, Counter.formatted.injEq]
      split <;> rfl

@[simp] theorem names_setFlagsOf (flags : TempFlags) (c : Counter) :
    (scope.setFlagsOf flags c).names = scope.names := by cases c <;> rfl

@[simp] theorem reservedNames_setFlagsOf (flags : TempFlags) (c : Counter) :
    (scope.setFlagsOf flags c).reservedNames = scope.reservedNames := by cases c <;> rfl

@[simp] theorem flagsOf_reserve (name : Text) : (scope.reserve name).flagsOf = scope.flagsOf := by
  funext c
  cases c <;> rfl

@[simp] theorem flagsOf_note (given : Generated) : (scope.note given).flagsOf = scope.flagsOf := by
  funext c
  cases c <;> rfl

end NameGenerationScope

namespace NameGenerator

def scopes (g : NameGenerator) (privateName : Bool) : List NameGenerationScope :=
  if privateName then g.privateNameGenerationScope else g.nameGenerationScope

/-- Change the innermost scope, which is created if there is none. -/
def changeInnermost (f : NameGenerationScope → NameGenerationScope) : List NameGenerationScope → List NameGenerationScope
  | [] => [f {}]
  | scope :: next => f scope :: next

def modifyScope (g : NameGenerator) (privateName : Bool) (f : NameGenerationScope → NameGenerationScope) : NameGenerator :=
  if privateName then { g with privateNameGenerationScope := changeInnermost f g.privateNameGenerationScope }
  else { g with nameGenerationScope := changeInnermost f g.nameGenerationScope }

def pushScope (g : NameGenerator) (reuseTempVariableScope : Bool) : NameGenerator :=
  { g with
    privateNameGenerationScope := {} :: g.privateNameGenerationScope
    nameGenerationScope := if reuseTempVariableScope then g.nameGenerationScope else {} :: g.nameGenerationScope }

def popScope (g : NameGenerator) (reuseTempVariableScope : Bool) : NameGenerator :=
  { g with
    privateNameGenerationScope := g.privateNameGenerationScope.tail
    nameGenerationScope := if reuseTempVariableScope then g.nameGenerationScope else g.nameGenerationScope.tail }

/-- `get_temp_flags` and `get_temp_flags_for_formatted_name`. -/
def getTempFlags (g : NameGenerator) (privateName : Bool) (counter : Counter) : TempFlags :=
  match g.scopes privateName with
  | [] => tempFlagsAuto
  | scope :: _ => scope.flagsOf counter

/-- `set_temp_flags` and `set_temp_flags_for_formatted_name`. -/
def setTempFlags (g : NameGenerator) (privateName : Bool) (counter : Counter) (flags : TempFlags) : NameGenerator :=
  g.modifyScope privateName fun scope => scope.setFlagsOf flags counter

def reserveName (g : NameGenerator) (name : Text) (privateName isScoped temp : Bool) : NameGenerator :=
  let g := g.modifyScope privateName id
  if privateName || isScoped then g.modifyScope privateName fun scope => scope.reserve name
  else if !temp then { g with generatedNames := insert name g.generatedNames }
  else g

def isReservedName (g : NameGenerator) (name : Text) (privateName : Bool) : Bool :=
  name ∈ g.generatedNames || (g.scopes privateName).any fun scope => name ∈ scope.reservedNames

def isFileLevelUniqueNameInCurrentFile (g : NameGenerator) (name : Text) : Bool :=
  (g.hasGlobalName.all fun f => !f name) && g.fileLevelIdentifiers.all fun identifiers => name ∉ identifiers

def isUniqueName (g : NameGenerator) (name : Text) (privateName : Bool) : Bool :=
  g.isFileLevelUniqueNameInCurrentFile name && !g.isReservedName name privateName

def checkUniqueName (g : NameGenerator) (name : Text) (privateName fileLevel : Bool) : Bool :=
  if fileLevel then g.isFileLevelUniqueNameInCurrentFile name else g.isUniqueName name privateName

end NameGenerator

/-- `_a` to `_z`, then `_0` and so on. -/
def tempName (count : Nat) : Text :=
  if count < 26 then ['_', Char.ofNat (97 + count)] else '_' :: decimal (count - 26)

/-- The loop of `make_temp_variable_name`: the name and the flags after it, or nothing when the flags overflow. -/
def nextTemp (accept : Text → Bool) (format : Text → Text) : Nat → TempFlags → Option (Text × TempFlags)
  | 0, _ => none
  | fuel + 1, tempFlags =>
    let count := tempFlags &&& tempFlagsCountMask
    -- skip over 'i' and 'n'
    if count ≠ 8 ∧ count ≠ 13 ∧ accept (format (tempName count)) = true then
      some (format (tempName count), tempFlags + 1)
    else nextTemp accept format fuel (tempFlags + 1)

/-- The loop of `make_unique_name`, or nothing when its counter overflows. -/
def nextUnique (accept : Text → Bool) (format : Text → Text) (base : Text) : Nat → Nat → Option Text
  | 0, _ => none
  | fuel + 1, i =>
    if accept (format (base ++ decimal i)) then some (format (base ++ decimal i))
    else nextUnique accept format base fuel (i + 1)

namespace NameGenerator

def makeTempVariableName (g : NameGenerator) (flags : TempFlags) (reservedInNestedScopes privateName : Bool)
    (pre suf : Text) : Option (Text × NameGenerator) :=
  let counter := counterOf privateName pre suf
  let tempFlags := g.getTempFlags privateName counter
  let fullName := formatGeneratedName privateName pre ['_', 'i'] suf
  if flags ≠ 0 ∧ tempFlags &&& flags = 0 ∧ g.isUniqueName fullName privateName = true then
    some (fullName, (g.reserveName fullName privateName reservedInNestedScopes true).setTempFlags privateName counter
      (tempFlags ||| flags))
  else
    (nextTemp (g.isUniqueName · privateName) (formatGeneratedName privateName pre · suf) (2 ^ 31 - 1 - tempFlags) tempFlags).map
      fun found => (found.1, (g.reserveName found.1 privateName reservedInNestedScopes true).setTempFlags privateName
        counter found.2)

def numberedBase (base : Text) : Text :=
  if base ≠ [] ∧ base.getLast? ≠ some '_' then base ++ ['_'] else base

def makeUniqueName (g : NameGenerator) (baseName : Text) (fileLevel optimistic isScoped privateName : Bool)
    (pre suf : Text) : Option (Text × NameGenerator) :=
  let baseName := removeLeadingHash baseName
  let fullName := formatGeneratedName privateName pre baseName suf
  if optimistic && g.checkUniqueName fullName privateName fileLevel then
    some (fullName, g.reserveName fullName privateName isScoped false)
  else
    (nextUnique (g.checkUniqueName · privateName fileLevel) (formatGeneratedName privateName pre · suf)
      (numberedBase baseName) (2 ^ 31 - 1) 1).map
      fun fullName => (fullName, g.reserveName fullName privateName isScoped false)

inductive Action where
  | pushScope (reuseTempVariableScope : Bool)
  | popScope (reuseTempVariableScope : Bool)
  | makeTempVariableName (flags : TempFlags) (reservedInNestedScopes privateName : Bool) (pre suf : Text)
  | makeUniqueName (baseName : Text) (optimistic isScoped privateName : Bool) (pre suf : Text)

/-- One call. A name that it gives is noted in the scope that is the innermost of its kind. -/
def step (g : NameGenerator) : Action → Option NameGenerator
  | .pushScope reuse => some (g.pushScope reuse)
  | .popScope reuse => some (g.popScope reuse)
  | .makeTempVariableName flags reserved privateName pre suf =>
    (g.makeTempVariableName flags reserved privateName pre suf).map fun made =>
      made.2.modifyScope privateName (·.note ⟨made.1, reserved, some (counterOf privateName pre suf)⟩)
  | .makeUniqueName baseName optimistic isScoped privateName pre suf =>
    (g.makeUniqueName baseName false optimistic isScoped privateName pre suf).map fun made =>
      made.2.modifyScope privateName (·.note ⟨made.1, isScoped, none⟩)

end NameGenerator

end TypeScriptRs.Printer
