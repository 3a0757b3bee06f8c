import TypeScriptRs.Resolver.Keys

/-! The directory of the package that a path lies in. -/
namespace TypeScriptRs.Resolver
open Utf8 Machine Paths List

def nodeModules : Text := "/node_modules/".toList

/-- The text after the last `/node_modules/` of a path, and that before it. -/
structure InNodeModules (path before text : Text) : Prop where
  shape : path = before ++ (nodeModules ++ text)
  last : ∀ before' text', path = before' ++ (nodeModules ++ text') → before'.length ≤ before.length

/-- The name of a package is the first component, or the first two of a scoped one. The last component of
the path of a file is not part of a name. -/
def packageName (isFolder : Bool) (text : Text) : Text :=
  match text.splitOn '/' with
  | [] => []
  | [name] => if isFolder then name else []
  | first :: second :: rest =>
    if first.head? = some '@' then if rest = [] ∧ isFolder = false then first else first ++ '/' :: second else first

/-- The name begins with a character of one byte, and in a folder a scope is followed by a name. -/
def Readable (isFolder : Bool) (text : Text) : Prop :=
  ∃ c rest, text = c :: rest ∧ c.utf8Size = 1 ∧ c ≠ '/' ∧ (isFolder = true → c = '@' → '/' ∈ rest)

section
variable {before text : Text} {first front rest path : Text} {c : Char}

theorem find_free {text : Text} (free : '/' ∉ text) : find text = none := if_neg free

theorem find_cut (free : '/' ∉ first) (rest : Text) : find (first ++ '/' :: rest) = some (bytes first) := by
  unfold find
  rw [if_pos (by simp), Split.takeWhile_append_cons free]

theorem moveToNext_found (one : c.utf8Size = 1) (free : '/' ∉ first) (isFolder : Bool) :
    moveToNextDirectorySeparatorIfAvailable (front ++ c :: (first ++ '/' :: rest)) (bytes front) isFolder =
      some (bytes (front ++ c :: first)) := by
  unfold moveToNextDirectorySeparatorIfAvailable
  have cut : dropBytes (front ++ c :: (first ++ '/' :: rest)) (bytes front + 1) = some (first ++ '/' :: rest) := by
    rw [dropBytes_add, ← one]
    exact dropBytes_append [c] _
  rw [cut, Option.map_some, find_cut free]
  show some (bytes front + 1 + bytes first) = some (bytes (front ++ c :: first))
  rw [bytes_append, bytes_cons, one, Nat.add_assoc]

theorem moveToNext_none (one : c.utf8Size = 1) (free : '/' ∉ rest) (isFolder : Bool) :
    moveToNextDirectorySeparatorIfAvailable (front ++ c :: rest) (bytes front) isFolder =
      some (if isFolder then bytes (front ++ c :: rest) else bytes front) := by
  unfold moveToNextDirectorySeparatorIfAvailable
  have cut : dropBytes (front ++ c :: rest) (bytes front + 1) = some rest := by
    rw [dropBytes_add, ← one]
    exact dropBytes_append [c] _
  rw [cut, Option.map_some, find_free free]

theorem InNodeModules.cut (inside : InNodeModules path before text) :
    cutAtLast nodeModules path = some (before, nodeModules ++ text) :=
  cutAtLast_of_last inside.shape (prefix_append _ _) fun b r shape begins => by
    obtain ⟨rest, rfl⟩ := begins
    exact inside.last b rest shape

theorem InNodeModules.of_cut (cut : cutAtLast nodeModules path = some (before, nodeModules ++ text)) :
    InNodeModules path before text := by
  obtain ⟨shape, _, last⟩ := cutAtLast_last cut
  exact ⟨shape, fun b r shape' => last b (nodeModules ++ r) shape' (prefix_append _ _)⟩
end

section
variable {text : Text} {first second : Text}

theorem packageName_single (free : '/' ∉ text) (isFolder : Bool) : packageName isFolder text = if isFolder then text else [] := by
  unfold packageName
  rw [splitOn_eq_singleton free]

theorem packageName_plain (free : '/' ∉ first) (unscoped : first.head? ≠ some '@') (rest : Text) (isFolder : Bool) :
    packageName isFolder (first ++ '/' :: rest) = first := by
  unfold packageName
  rw [Split.splitOn_append_free free]
  obtain ⟨second, more, pieces⟩ := exists_cons_of_ne_nil (splitOn_ne_nil '/' rest)
  rw [pieces]
  exact if_neg unscoped

theorem packageName_scope (free : '/' ∉ first) (inScope : first.head? = some '@') (free' : '/' ∉ second) (isFolder : Bool) :
    packageName isFolder (first ++ '/' :: second) = if isFolder then first ++ '/' :: second else first := by
  unfold packageName
  rw [Split.splitOn_append_free free, splitOn_eq_singleton free']
  cases isFolder <;> simp [inScope]

theorem packageName_scoped (free : '/' ∉ first) (inScope : first.head? = some '@') (free' : '/' ∉ second)
    (rest : Text) (isFolder : Bool) :
    packageName isFolder (first ++ '/' :: (second ++ '/' :: rest)) = first ++ '/' :: second := by
  unfold packageName
  rw [Split.splitOn_append_free free, Split.splitOn_append_free free']
  simp [inScope, splitOn_ne_nil]
end

variable {resolved before text : Text} {isFolder : Bool} {c : Char} {rest first : Text}

theorem separator_size : '/'.utf8Size = 1 := by decide

theorem bytes_nodeModules : bytes nodeModules = "/node_modules/".length := by decide

theorem parse_eq (inside : InNodeModules (replaceAll '\\' ['/'] resolved) before text) {index : Nat}
    (first : moveToNextDirectorySeparatorIfAvailable (before ++ nodeModules ++ text) (bytes (before ++ nodeModules)) isFolder = some index) :
    parseNodeModuleFromPath resolved isFolder = ofSlice (
      if text.head? = some '@' then
        (moveToNextDirectorySeparatorIfAvailable (before ++ nodeModules ++ text) index isFolder).bind (takeBytes (before ++ nodeModules ++ text))
      else takeBytes (before ++ nodeModules ++ text) index) := by
  have scope : "/node_modules/@".toList.isPrefixOf (nodeModules ++ text) = decide (text.head? = some '@') := by
    cases text with
    | nil => rfl
    | cons c text =>
      show (('@' == c) && true) = decide (some c = some '@')
      by_cases same : c = '@'
      · subst same
        rfl
      · simp [same, Ne.symm same]
  have start : bytes before + "/node_modules/".length = bytes (before ++ nodeModules) := by rw [bytes_append, bytes_nodeModules]
  have cut : cutAtLast "/node_modules/".toList (replaceAll '\\' ['/'] resolved) = _ := inside.cut
  unfold parseNodeModuleFromPath
  simp only [cut]
  rw [inside.shape, ← append_assoc]
  simp only [start, first, scope, decide_eq_true_eq]
  by_cases at_ : text.head? = some '@'
  · rfl
  · rfl

theorem parse_outside (outside : ∀ before text, replaceAll '\\' ['/'] resolved ≠ before ++ (nodeModules ++ text)) :
    parseNodeModuleFromPath resolved isFolder = pure [] := by
  have nowhere : cutAtLast "/node_modules/".toList (replaceAll '\\' ['/'] resolved) = none :=
    cutAtLast_eq_none.mpr fun before rest shape begins => by
      obtain ⟨text, rfl⟩ := begins
      exact outside before text shape
  unfold parseNodeModuleFromPath
  simp only [nowhere]

theorem parse_single (inside : InNodeModules (replaceAll '\\' ['/'] resolved) before (c :: rest))
    (one : c.utf8Size = 1) (free : '/' ∉ rest) (plain : isFolder = true → c ≠ '@') :
    parseNodeModuleFromPath resolved isFolder = pure (before ++ nodeModules ++ if isFolder then c :: rest else []) := by
  have next : moveToNextDirectorySeparatorIfAvailable (before ++ nodeModules ++ c :: rest) (bytes (before ++ nodeModules)) isFolder = _ :=
    moveToNext_none one free isFolder
  rw [parse_eq inside next]
  cases isFolder with
  | false =>
    simp only [Bool.false_eq_true, ↓reduceIte, next, Option.bind_some, takeBytes_append, ite_self, append_nil]
    rfl
  | true =>
    have unscoped : (c :: rest).head? ≠ some '@' := fun same => plain rfl (Option.some.inj same)
    have whole := takeBytes_append (before ++ nodeModules ++ c :: rest) []
    rw [append_nil] at whole
    simp only [↓reduceIte, if_neg unscoped, whole]
    rfl

section
variable (inside : InNodeModules (replaceAll '\\' ['/'] resolved) before (c :: first ++ '/' :: rest))
include inside

theorem parse_plain (one : c.utf8Size = 1) (free : '/' ∉ first) (unscoped : c ≠ '@') :
    parseNodeModuleFromPath resolved isFolder = pure (before ++ nodeModules ++ c :: first) := by
  have next : moveToNextDirectorySeparatorIfAvailable (before ++ nodeModules ++ c :: (first ++ '/' :: rest))
      (bytes (before ++ nodeModules)) isFolder = _ := moveToNext_found one free isFolder
  rw [parse_eq inside next]
  have notScope : (c :: first ++ '/' :: rest).head? ≠ some '@' := fun same => unscoped (Option.some.inj same)
  have shape : before ++ nodeModules ++ (c :: first ++ '/' :: rest) = (before ++ nodeModules ++ c :: first) ++ '/' :: rest := by simp
  rw [if_neg notScope, shape, takeBytes_append]
  rfl

theorem parse_scope (free : '/' ∉ first) (scope : c = '@') : parseNodeModuleFromPath resolved isFolder =
      ofSlice ((moveToNextDirectorySeparatorIfAvailable ((before ++ nodeModules ++ c :: first) ++ '/' :: rest)
        (bytes (before ++ nodeModules ++ c :: first)) isFolder).bind
          (takeBytes ((before ++ nodeModules ++ c :: first) ++ '/' :: rest))) := by
  subst scope
  have next : moveToNextDirectorySeparatorIfAvailable (before ++ nodeModules ++ '@' :: (first ++ '/' :: rest))
      (bytes (before ++ nodeModules)) isFolder = _ := moveToNext_found (by decide) free isFolder
  rw [parse_eq inside next]
  have shape : before ++ nodeModules ++ ('@' :: first ++ '/' :: rest) = (before ++ nodeModules ++ '@' :: first) ++ '/' :: rest := by simp
  rw [if_pos (by rfl), shape]

theorem parse_scoped (free : '/' ∉ c :: first) (scope : c = '@') :
    parseNodeModuleFromPath resolved isFolder = pure (before ++ nodeModules ++ packageName isFolder (c :: first ++ '/' :: rest)) := by
  have head : (c :: first).head? = some '@' := congrArg some scope
  rw [parse_scope inside (fun listed => free (mem_cons_of_mem _ listed)) scope]
  generalize c :: first = name at free head ⊢
  by_cases further : '/' ∈ rest
  · obtain ⟨second, others, rfl, free'⟩ := eq_append_cons_of_mem further
    have shape : before ++ nodeModules ++ name ++ '/' :: (second ++ '/' :: others) =
        (before ++ nodeModules ++ (name ++ '/' :: second)) ++ '/' :: others := by simp
    have stop : before ++ nodeModules ++ name ++ '/' :: second = before ++ nodeModules ++ (name ++ '/' :: second) := by simp
    rw [packageName_scoped free head free', moveToNext_found separator_size free', Option.bind_some, stop, shape, takeBytes_append]
    rfl
  rw [packageName_scope free head further, moveToNext_none separator_size further, Option.bind_some]
  cases isFolder with
  | false =>
    simp only [Bool.false_eq_true, ↓reduceIte, takeBytes_append]
    rfl
  | true =>
    have whole := takeBytes_append (before ++ nodeModules ++ name ++ '/' :: rest) []
    rw [append_nil] at whole
    simp only [↓reduceIte, whole]
    rw [append_assoc]
    rfl
end

theorem parse_inside (inside : InNodeModules (replaceAll '\\' ['/'] resolved) before text) (readable : Readable isFolder text) :
    parseNodeModuleFromPath resolved isFolder = pure (before ++ nodeModules ++ packageName isFolder text) := by
  obtain ⟨c, rest, rfl, one, separate, named⟩ := readable
  by_cases listed : '/' ∈ rest
  · obtain ⟨first, more, rfl, free⟩ := eq_append_cons_of_mem listed
    have free' : '/' ∉ c :: first := by simp [Ne.symm separate, free]
    by_cases scope : c = '@'
    · exact parse_scoped inside free' scope
    · have unscoped : (c :: first).head? ≠ some '@' := fun same => scope (Option.some.inj same)
      rw [← cons_append, packageName_plain free' unscoped]
      exact parse_plain inside one free scope
  · have free : '/' ∉ c :: rest := by simp [Ne.symm separate, listed]
    rw [packageName_single free]
    exact parse_single inside one listed fun folder same => listed (named folder same)

theorem parseNodeModuleFromPath_spec (resolved : Text) (isFolder : Bool) :
    ((∀ before text, replaceAll '\\' ['/'] resolved ≠ before ++ (nodeModules ++ text)) →
      parseNodeModuleFromPath resolved isFolder = pure []) ∧
    ∀ before text, InNodeModules (replaceAll '\\' ['/'] resolved) before text → Readable isFolder text →
      parseNodeModuleFromPath resolved isFolder = pure (before ++ nodeModules ++ packageName isFolder text) :=
  ⟨parse_outside, fun _ _ => parse_inside⟩

theorem parseNodeModuleFromPath_spec_scoped :
    parseNodeModuleFromPath "/p/node_modules/@s/n/x.js".toList false = pure "/p/node_modules/@s/n".toList :=
  (parseNodeModuleFromPath_spec _ false).2 "/p".toList "@s/n/x.js".toList (InNodeModules.of_cut rfl)
    ⟨'@', "s/n/x.js".toList, rfl, by decide, by decide, fun folder => by cases folder⟩

/-- For a file the last component is left out, and the path is cut right after `/node_modules/`. -/
theorem fileName_passedOver :
    ¬ ∀ resolved isFolder, parseNodeModuleFromPath resolved isFolder = pure [] ∨
      ∃ before text, InNodeModules (replaceAll '\\' ['/'] resolved) before text ∧
        parseNodeModuleFromPath resolved isFolder = pure (before ++ nodeModules ++ packageName true text) := by
  intro named
  have found : parseNodeModuleFromPath "/node_modules/foo.js".toList false = pure nodeModules := rfl
  obtain none | ⟨before, text, inside, same⟩ := named "/node_modules/foo.js".toList false
  · cases congrFun none (freshState [])
  rw [found] at same
  have shape : nodeModules = before ++ nodeModules ++ packageName true text := by
    injection congrFun same (freshState []) with parts
    exact (Prod.mk.inj parts).1
  have sizes := congrArg List.length shape
  simp only [length_append] at sizes
  have atFront : before = [] := eq_nil_of_length_eq_zero (by omega)
  have noName : packageName true text = [] := eq_nil_of_length_eq_zero (by omega)
  subst atFront
  have whole : nodeModules ++ "foo.js".toList = nodeModules ++ text := inside.shape
  have rest : "foo.js".toList = text := append_cancel_left whole
  subst rest
  exact absurd noName (by decide)

end TypeScriptRs.Resolver
