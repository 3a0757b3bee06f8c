import TypeScriptRs.Lib.HashMap

/-! A table of the directories above a set of files, each with its children. -/
namespace Ancestors

variable {P M N : Type} [DecidableEq P]

abbrev Index (P N : Type) := HashMap P (HashMap P N)

/-- List a child and the directories above it, with the names that `up` and `name` give them. -/
def add (parent : P → P) (up : M → M) (name : M → N) : Nat → P → M → Index P N → Index P N
  | 0, _, _, index => index
  | fuel + 1, p, m, index =>
    if parent p = p then index
    else match index.lookup (parent p) with
      | some entry => index.insert (parent p) (entry.insert p (name m))
      | none => add parent up name fuel (parent p) (up m) (index.insert (parent p) (Finmap.singleton p (name m)))

/-- Take a child out of its directory, which goes too when it has no others. -/
def remove (parent : P → P) : Nat → P → Index P N → Index P N
  | 0, _, index => index
  | fuel + 1, p, index =>
    match index.lookup (parent p) with
    | none => index
    | some entry =>
      if (entry.erase p).keys = ∅ then remove parent fuel (parent p) (index.erase (parent p))
      else index.insert (parent p) (entry.erase p)

def Child (parent : P → P) (d c : P) : Prop := parent c = d ∧ c ≠ d

/-- A file is in a directory or below it, or is the directory itself. -/
def Within (parent : P → P) : P → P → Prop := Relation.ReflTransGen (Child parent)

def Above (parent : P → P) : P → P → Prop := Relation.TransGen (Child parent)

/-- The directories are those above the files, and each lists its immediate children. -/
structure Indexes (parent : P → P) (index : Index P N) (files : P → Prop) : Prop where
  directories : ∀ d, d ∈ index ↔ ∃ f, files f ∧ Above parent d f
  children : ∀ d entry, index.lookup d = some entry →
    ∀ c, c ∈ entry ↔ Child parent d c ∧ ∃ f, files f ∧ Within parent c f

def Lists (index : Index P N) (d c : P) : Prop := ∃ entry, index.lookup d = some entry ∧ c ∈ entry

section
variable {parent : P → P} {index : Index P N} {files : P → Prop} {d c : P}

/-- What each entry of a table has to do with the entries next to it. -/
structure Sound (parent : P → P) (index : Index P N) : Prop where
  nonempty : ∀ d entry, index.lookup d = some entry → ∃ c, c ∈ entry
  child : ∀ d c, Lists index d c → Child parent d c

theorem Lists.mem (listed : Lists index d c) : d ∈ index := by
  obtain ⟨entry, found, -⟩ := listed
  exact Finmap.mem_of_lookup_eq_some found

theorem Sound.lists (sound : Sound parent index) (inside : d ∈ index) : ∃ c, Lists index d c := by
  obtain ⟨entry, found⟩ := Finmap.mem_iff.mp inside
  obtain ⟨c, member⟩ := sound.nonempty d entry found
  exact ⟨c, entry, found, member⟩

variable {size : P → Nat} (shrinks : ∀ p, parent p = p ∨ size (parent p) < size p)
include shrinks

omit [DecidableEq P] in
theorem size_lt_of_child (child : Child parent d c) : size d < size c := by
  obtain ⟨rfl, other⟩ := child
  rcases shrinks c with root | smaller
  · exact absurd root.symm other
  · exact smaller

section
variable (sound : Sound parent index) (grounded : ∀ d c, Lists index d c → files c ∨ c ∈ index)
include sound grounded

/-- When every child that is listed is a file or a directory of the table, every directory has a file below it. -/
theorem Sound.above_file (inside : d ∈ index) : ∃ f, files f ∧ Above parent d f := by
  -- the table is finite, and children have a greater size
  have bounded (d : P) (inside : d ∈ index) : size d ≤ index.keys.sup size := Finset.le_sup (Finmap.mem_keys.mpr inside)
  generalize index.keys.sup size = bound at bounded
  obtain ⟨left, distance⟩ : ∃ left, left = bound - size d := ⟨_, rfl⟩
  induction left using Nat.strongRecOn generalizing d with
  | ind left ih =>
    obtain ⟨c, listed⟩ := sound.lists inside
    have child := sound.child d c listed
    have larger := size_lt_of_child shrinks child
    rcases grounded d c listed with file | directory
    · exact ⟨c, file, .single child⟩
    · have last := bounded c directory
      obtain ⟨f, file, above⟩ := ih (bound - size c) (by omega) directory rfl
      exact ⟨f, file, .head child above⟩

theorem Sound.indexes (complete : ∀ c f, files f → Within parent c f → parent c ≠ c → Lists index (parent c) c) :
    Indexes parent index files where
  directories := by
    intro d
    constructor
    · exact fun inside => sound.above_file shrinks grounded inside
    · rintro ⟨f, file, above⟩
      obtain ⟨c, child, below⟩ := Relation.TransGen.head'_iff.mp above
      obtain ⟨rfl, other⟩ := child
      exact (complete c f file below other.symm).mem
  children := by
    intro d entry found c
    constructor
    · intro member
      have listed : Lists index d c := ⟨entry, found, member⟩
      refine ⟨sound.child d c listed, ?_⟩
      rcases grounded d c listed with file | directory
      · exact ⟨c, file, .refl⟩
      · obtain ⟨f, file, above⟩ := sound.above_file shrinks grounded directory
        exact ⟨f, file, above.to_reflTransGen⟩
    · rintro ⟨⟨rfl, other⟩, f, file, below⟩
      obtain ⟨entry', found', member⟩ := complete c f file below other.symm
      obtain rfl := Option.some_injective _ (found.symm.trans found')
      exact member
end

omit shrinks in
theorem Indexes.lists_iff (indexes : Indexes parent index files) (d c : P) :
    Lists index d c ↔ Child parent d c ∧ ∃ f, files f ∧ Within parent c f := by
  constructor
  · rintro ⟨entry, found, member⟩
    exact (indexes.children d entry found c).mp member
  · rintro ⟨child, f, file, below⟩
    obtain ⟨entry, found⟩ := Finmap.mem_iff.mp ((indexes.directories d).mpr ⟨f, file, .head' child below⟩)
    exact ⟨entry, found, (indexes.children d entry found c).mpr ⟨child, f, file, below⟩⟩

omit shrinks in
theorem Indexes.sound (indexes : Indexes parent index files) : Sound parent index where
  nonempty := by
    intro d entry found
    obtain ⟨f, file, above⟩ := (indexes.directories d).mp (Finmap.mem_of_lookup_eq_some found)
    obtain ⟨c, child, below⟩ := Relation.TransGen.head'_iff.mp above
    exact ⟨c, (indexes.children d entry found c).mpr ⟨child, f, file, below⟩⟩
  child := fun d c listed => ((indexes.lists_iff d c).mp listed).1

omit shrinks in
theorem Indexes.grounded (indexes : Indexes parent index files) (listed : Lists index d c) : files c ∨ c ∈ index := by
  obtain ⟨-, f, file, below⟩ := (indexes.lists_iff d c).mp listed
  rcases Relation.ReflTransGen.cases_head_iff.mp below with rfl | ⟨next, child, rest⟩
  · exact .inl file
  · exact .inr ((indexes.directories c).mpr ⟨f, file, .head' child rest⟩)
end

section
variable {parent : P → P} {index : Index P N} {files : P → Prop} {size : P → Nat} {p : P} {fuel : Nat} {m : M}

theorem lists_insert (d : P) (entry : HashMap P N) (d' c : P) :
    Lists (index.insert d entry) d' c ↔ if d' = d then c ∈ entry else Lists index d' c := by
  unfold Lists
  rw [HashMap.lookup_insert_if]
  split
  · simp
  · rfl

/-- A table that is right but for the place of `p` in its directory. -/
structure Hanging (parent : P → P) (index : Index P N) (files : P → Prop) (p : P) : Prop where
  sound : Sound parent index
  grounded : ∀ d c, Lists index d c → files c ∨ c ∈ index
  known : files p ∨ p ∈ index
  file : ∀ f, files f → f = p ∨ parent f = f ∨ Lists index (parent f) f
  directory : ∀ d ∈ index, d = p ∨ parent d = d ∨ Lists index (parent d) d

theorem Hanging.indexes (shrinks : ∀ p, parent p = p ∨ size (parent p) < size p)
    (hanging : Hanging parent index files p) (placed : parent p = p ∨ Lists index (parent p) p) :
    Indexes parent index files := by
  refine hanging.sound.indexes shrinks hanging.grounded fun c f file below => ?_
  have here (q : P) (known : files q ∨ q ∈ index) (inner : parent q ≠ q) : Lists index (parent q) q := by
    have stands : q = p ∨ parent q = q ∨ Lists index (parent q) q := known.elim (hanging.file q) (hanging.directory q)
    rcases stands with rfl | root | listed
    · exact placed.resolve_left inner
    · exact absurd root inner
    · exact listed
  induction below using Relation.ReflTransGen.head_induction_on with
  | refl => exact here f (.inl file)
  | head child _ ih =>
    obtain ⟨rfl, other⟩ := child
    exact here _ (.inr (ih other.symm).mem)

theorem Hanging.place (hanging : Hanging parent index files p) (inner : parent p ≠ p) {entry : HashMap P N}
    (held : ∀ c, c ∈ entry ↔ c = p ∨ Lists index (parent p) c) :
    Hanging parent (index.insert (parent p) entry) files (parent p) := by
  have lists (d c : P) : Lists (index.insert (parent p) entry) d c ↔ (d = parent p ∧ c = p) ∨ Lists index d c := by
    rw [lists_insert]
    split
    · rename_i same
      rw [same, held c]
      simp
    · rename_i other
      simp [other]
  have mem (d : P) : d ∈ index.insert (parent p) entry ↔ d = parent p ∨ d ∈ index := Finmap.mem_insert
  refine ⟨⟨?_, ?_⟩, ?_, .inr ((mem _).mpr (.inl rfl)), ?_, ?_⟩
  · intro d entry' found
    rw [HashMap.lookup_insert_if] at found
    split at found
    · cases found
      exact ⟨p, (held p).mpr (.inl rfl)⟩
    · exact hanging.sound.nonempty d entry' found
  · intro d c listed
    rcases (lists d c).mp listed with ⟨rfl, rfl⟩ | before
    · exact ⟨rfl, inner.symm⟩
    · exact hanging.sound.child d c before
  · intro d c listed
    have known : files c ∨ c ∈ index := by
      rcases (lists d c).mp listed with ⟨-, rfl⟩ | before
      · exact hanging.known
      · exact hanging.grounded d c before
    exact known.imp_right fun inside => (mem c).mpr (.inr inside)
  · intro f file
    rcases hanging.file f file with rfl | root | listed
    · exact .inr (.inr ((lists _ _).mpr (.inl ⟨rfl, rfl⟩)))
    · exact .inr (.inl root)
    · exact .inr (.inr ((lists _ _).mpr (.inr listed)))
  intro d inside
  rcases (mem d).mp inside with rfl | before
  · exact .inl rfl
  · rcases hanging.directory d before with rfl | root | listed
    · exact .inr (.inr ((lists _ _).mpr (.inl ⟨rfl, rfl⟩)))
    · exact .inr (.inl root)
    · exact .inr (.inr ((lists _ _).mpr (.inr listed)))

variable (shrinks : ∀ p, parent p = p ∨ size (parent p) < size p) (up : M → M) (name : M → N)
include shrinks up name

theorem add_indexes (hanging : Hanging parent index files p) (enough : size p < fuel) :
    Indexes parent (add parent up name fuel p m index) files := by
  induction fuel generalizing p m index with
  | zero => cases enough
  | succ fuel ih =>
    rw [add]
    split
    · rename_i root
      exact hanging.indexes shrinks (.inl root)
    rename_i inner
    have smaller := (shrinks p).resolve_left inner
    split
    · rename_i entry found
      have held (c : P) : c ∈ entry.insert p (name m) ↔ c = p ∨ Lists index (parent p) c := by
        rw [Finmap.mem_insert]
        refine or_congr_right ⟨fun member => ⟨entry, found, member⟩, ?_⟩
        rintro ⟨entry', found', member⟩
        obtain rfl := Option.some_injective _ (found.symm.trans found')
        exact member
      -- the directory was there, so it has its own place
      have placed := (hanging.directory (parent p) (Finmap.mem_of_lookup_eq_some found)).resolve_left inner
      refine (hanging.place inner held).indexes shrinks (placed.imp_right fun listed => ?_)
      rw [lists_insert]
      split
      · rename_i same
        rw [same] at listed
        exact (held _).mpr (.inr listed)
      · exact listed
    · rename_i absent
      have held (c : P) : c ∈ (Finmap.singleton p (name m) : HashMap P N) ↔ c = p ∨ Lists index (parent p) c := by
        rw [Finmap.mem_singleton]
        refine ⟨.inl, fun listed => listed.resolve_right ?_⟩
        rintro ⟨entry, found, -⟩
        rw [absent] at found
        cases found
      exact ih (hanging.place inner held) (by omega)

theorem Indexes.add (indexes : Indexes parent index files) (enough : size p < fuel) :
    Indexes parent (add parent up name fuel p m index) fun f => f = p ∨ files f := by
  have listed (c f : P) (file : files f) (below : Within parent c f) (inner : parent c ≠ c) : Lists index (parent c) c :=
    (indexes.lists_iff _ _).mpr ⟨⟨rfl, inner.symm⟩, f, file, below⟩
  refine add_indexes shrinks up name ⟨indexes.sound, ?_, .inl (.inl rfl), ?_, ?_⟩ enough
  · exact fun d c listed => (indexes.grounded listed).imp_left .inr
  · rintro f (rfl | file)
    · exact .inl rfl
    · by_cases root : parent f = f
      · exact .inr (.inl root)
      · exact .inr (.inr (listed f f file .refl root))
  intro d inside
  obtain ⟨f, file, above⟩ := (indexes.directories d).mp inside
  by_cases root : parent d = d
  · exact .inr (.inl root)
  · exact .inr (.inr (listed d f file above.to_reflTransGen root))
end

variable {parent : P → P} {index : Index P N} {kept gone : P → Prop}

/-- A table of the kept files that may still have files to be removed, and directories of them. -/
structure Shrinking (parent : P → P) (index : Index P N) (kept gone : P → Prop) : Prop where
  sound : Sound parent index
  grounded : ∀ d c, Lists index d c → kept c ∨ gone c ∨ c ∈ index
  complete : ∀ c f, kept f → Within parent c f → parent c ≠ c → Lists index (parent c) c
  stays : ∀ d ∈ index, kept d → parent d ≠ d → ∃ f, kept f ∧ Above parent d f

theorem lists_erase (d d' c : P) : Lists (index.erase d) d' c ↔ d' ≠ d ∧ Lists index d' c := by
  unfold Lists
  rw [HashMap.lookup_erase_if]
  split
  · rename_i same
    simp [same]
  · rename_i other
    simp [other]

/-- Removing what is neither kept nor above what is kept. `p` itself may be listed without being there any more. -/
theorem remove_shrinking {fuel : Nat} {p : P} (sound : Sound parent index)
    (grounded : ∀ d c, Lists index d c → c = p ∨ kept c ∨ gone c ∨ c ∈ index)
    (complete : ∀ c f, kept f → Within parent c f → parent c ≠ c → Lists index (parent c) c)
    (stays : ∀ d ∈ index, kept d → parent d ≠ d → ∃ f, kept f ∧ Above parent d f)
    (unused : parent p ≠ p → ∀ f, kept f → ¬Within parent p f) (enough : index.keys.card < fuel) :
    Shrinking parent (remove parent fuel p index) kept gone := by
  induction fuel generalizing p index with
  | zero => cases enough
  | succ fuel ih =>
    rw [remove]
    split
    · rename_i absent
      refine ⟨sound, fun d c listed => (grounded d c listed).resolve_left ?_, complete, stays⟩
      rintro rfl
      obtain ⟨rfl, -⟩ := sound.child d c listed
      obtain ⟨entry, found, -⟩ := listed
      rw [absent] at found
      cases found
    rename_i entry found
    have held (c : P) : c ∈ entry ↔ Lists index (parent p) c := by
      refine ⟨fun member => ⟨entry, found, member⟩, ?_⟩
      rintro ⟨entry', found', member⟩
      obtain rfl := Option.some_injective _ (found.symm.trans found')
      exact member
    have inside : parent p ∈ index := Finmap.mem_of_lookup_eq_some found
    -- a child of this directory that is kept, or above what is, is another one
    have other (c f : P) (file : kept f) (below : Within parent c f) (inner : parent c ≠ c) : c ≠ p := by
      rintro rfl
      exact unused inner f file below
    split
    · rename_i empty
      have only (c : P) (listed : Lists index (parent p) c) : c = p := by
        by_contra another
        have member : c ∈ entry.erase p := Finmap.mem_erase.mpr ⟨another, (held c).mpr listed⟩
        rw [← Finmap.mem_keys, empty] at member
        cases member
      refine ih ⟨?_, ?_⟩ ?_ ?_ ?_ ?_ ?_
      · intro d entry' found'
        rw [HashMap.lookup_erase_if] at found'
        split at found'
        · cases found'
        · exact sound.nonempty d entry' found'
      · exact fun d c listed => sound.child d c ((lists_erase _ _ _).mp listed).2
      · intro d c listed
        obtain ⟨away, before⟩ := (lists_erase _ _ _).mp listed
        rcases grounded d c before with rfl | file | file | directory
        · exact absurd (sound.child d c before).1.symm away
        · exact .inr (.inl file)
        · exact .inr (.inr (.inl file))
        · by_cases same : c = parent p
          · exact .inl same
          · exact .inr (.inr (.inr (Finmap.mem_erase.mpr ⟨same, directory⟩)))
      · intro c f file below inner
        have listed := complete c f file below inner
        refine (lists_erase _ _ _).mpr ⟨fun same => ?_, listed⟩
        rw [same] at listed
        exact other c f file below inner (only c listed)
      · exact fun d member => stays d (Finmap.mem_erase.mp member).2
      · intro inner f file below
        -- below a kept directory there is a kept file, and its child here would be listed
        have deeper : ∃ f, kept f ∧ Above parent (parent p) f := by
          rcases Relation.ReflTransGen.cases_head_iff.mp below with rfl | ⟨c, child, rest⟩
          · exact stays _ inside file inner
          · exact ⟨f, file, .head' child rest⟩
        obtain ⟨f', file', above⟩ := deeper
        obtain ⟨c, ⟨same, away⟩, rest⟩ := Relation.TransGen.head'_iff.mp above
        have inner' : parent c ≠ c := fun root => away (root.symm.trans same)
        have listed := complete c f' file' rest inner'
        rw [same] at listed
        exact other c f' file' rest inner' (only c listed)
      · have smaller : (index.erase (parent p)).keys.card < index.keys.card := by
          rw [Finmap.keys_erase]
          exact Finset.card_erase_lt_of_mem (Finmap.mem_keys.mpr inside)
        omega
    · rename_i others
      have lists (d c : P) : Lists (index.insert (parent p) (entry.erase p)) d c ↔ Lists index d c ∧ ¬(d = parent p ∧ c = p) := by
        rw [lists_insert]
        split
        · rename_i same
          rw [same, Finmap.mem_erase, held c]
          simp [and_comm]
        · rename_i away
          simp [away]
      refine ⟨⟨?_, ?_⟩, ?_, ?_, ?_⟩
      · intro d entry' found'
        rw [HashMap.lookup_insert_if] at found'
        split at found'
        · cases found'
          obtain ⟨c, member⟩ := Finset.nonempty_iff_ne_empty.mpr others
          exact ⟨c, Finmap.mem_keys.mp member⟩
        · exact sound.nonempty d entry' found'
      · exact fun d c listed => sound.child d c ((lists d c).mp listed).1
      · intro d c listed
        obtain ⟨before, away⟩ := (lists d c).mp listed
        rcases grounded d c before with rfl | file | file | directory
        · exact absurd ⟨(sound.child d c before).1.symm, rfl⟩ away
        · exact .inl file
        · exact .inr (.inl file)
        · exact .inr (.inr (Finmap.mem_insert.mpr (.inr directory)))
      · intro c f file below inner
        exact (lists _ _).mpr ⟨complete c f file below inner, fun same => other c f file below inner same.2⟩
      · intro d member
        rcases Finmap.mem_insert.mp member with rfl | before
        · exact stays _ inside
        · exact stays d before

theorem Shrinking.remove {p : P} (shrinking : Shrinking parent index kept fun f => f = p ∨ gone f)
    (unused : parent p ≠ p → ∀ f, kept f → ¬Within parent p f) {fuel : Nat} (enough : index.keys.card < fuel) :
    Shrinking parent (remove parent fuel p index) kept gone := by
  refine remove_shrinking shrinking.sound (fun d c listed => ?_) shrinking.complete shrinking.stays unused enough
  rcases shrinking.grounded d c listed with file | (same | file) | directory
  · exact .inr (.inl file)
  · exact .inl same
  · exact .inr (.inr (.inl file))
  · exact .inr (.inr (.inr directory))

theorem Shrinking.indexes {size : P → Nat} (shrinks : ∀ p, parent p = p ∨ size (parent p) < size p)
    (shrinking : Shrinking parent index kept fun _ => False) : Indexes parent index kept := by
  refine shrinking.sound.indexes shrinks (fun d c listed => ?_) shrinking.complete
  rcases shrinking.grounded d c listed with file | none_ | directory
  · exact .inl file
  · exact none_.elim
  · exact .inr directory

theorem Indexes.shrinking {files : P → Prop} (indexes : Indexes parent index files) (cover : ∀ f, files f → kept f ∨ gone f)
    (present : ∀ f, kept f → files f)
    (stays : ∀ d f, kept d → parent d ≠ d → files f → Above parent d f → ∃ f, kept f ∧ Above parent d f) :
    Shrinking parent index kept gone where
  sound := indexes.sound
  grounded := by
    intro d c listed
    rcases indexes.grounded listed with file | directory
    · rcases cover c file with stays | goes
      · exact .inl stays
      · exact .inr (.inl goes)
    · exact .inr (.inr directory)
  complete := by
    intro c f file below inner
    exact (indexes.lists_iff _ _).mpr ⟨⟨rfl, inner.symm⟩, f, present f file, below⟩
  stays := by
    intro d inside file inner
    obtain ⟨f, file', above⟩ := (indexes.directories d).mp inside
    exact stays d f file inner file' above

end Ancestors
