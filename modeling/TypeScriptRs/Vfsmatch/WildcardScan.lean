import TypeScriptRs.Vfsmatch.Decomposition

/-! The scan of a name along the segments of a component. -/
namespace TypeScriptRs.Vfsmatch
open Machine Utf8 List

section
variable {p : GlobPattern} {segments before done rest earlier : List Segment} {segment : Segment} {name a d value part x y : Text}

/-- Segments read from a place come to the end of the name, or to a star. -/
def Settles (p : GlobPattern) (segments : List Segment) (name a : Text) : Prop :=
  ∃ done rest d, segments = done ++ rest ∧ Starless done ∧ Decomposes p done d ∧
    (name = a ++ d ∨ (rest.head? = some .star ∧ a ++ d <+: name))

/-- A place of the scan: the segments up to the last star take one part of the name, those read since then the next, and
with less for that star the segments after it do not settle. -/
structure Place (p : GlobPattern) (segments : List Segment) (name : Text) (before done rest : List Segment) (a d value : Text) :
    Prop where
  segments_eq : segments = before ++ (done ++ rest)
  name_eq : name = a ++ (d ++ value)
  last : before = [] ∨ ∃ earlier, before = earlier ++ [.star]
  taken : Decomposes p before a
  read : Decomposes p done d
  starless : Starless done
  first : ∀ a' x, a = a' ++ x → x ≠ [] → Decomposes p before a' → ¬Settles p (done ++ rest) name a'

/-- The scan comes to a literal whose length ends inside a character of the name. -/
def Cut (p : GlobPattern) (segments : List Segment) (name : Text) : Prop :=
  ∃ before done text rest a d value, Place p segments name before done (.literal text :: rest) a d value ∧
    bytes text ≤ bytes value ∧ takeBytes value (bytes text) = none

def scanAt (before done rest : List Segment) (d value : Text) : GlobPattern.Scan :=
  ⟨if before = [] then none else some (done ++ rest), d ++ value, d.length, rest⟩

theorem scanAt_value : (scanAt before done rest d value).value = value := by
  exact drop_left

theorem first_star (segments : List Segment) :
    ∃ done rest, segments = done ++ rest ∧ Starless done ∧ (rest = [] ∨ rest.head? = some .star) := by
  induction segments with
  | nil => exact ⟨[], [], rfl, by simp [Starless], .inl rfl⟩
  | cons segment segments ih =>
    by_cases star : segment = .star
    · exact ⟨[], segment :: segments, rfl, by simp [Starless], .inr (by rw [star]; rfl)⟩
    obtain ⟨done, rest, rfl, starless, ends⟩ := ih
    refine ⟨segment :: done, rest, rfl, ?_, ends⟩
    intro listed
    rcases mem_cons.mp listed with same | listed
    · exact star same.symm
    · exact starless listed

theorem Decomposes.settles (decomposed : Decomposes p segments y) (same : name = a ++ y) : Settles p segments name a := by
  obtain ⟨done, rest, rfl, starless, ends⟩ := first_star segments
  obtain ⟨d, value, rfl, read, later⟩ := decomposed.split
  refine ⟨done, rest, d, rfl, starless, read, ?_⟩
  rcases ends with rfl | star
  · obtain rfl := Decomposes.nil_iff.mp later
    rw [append_nil] at same
    exact .inl same
  · refine .inr ⟨star, value, ?_⟩
    rw [same, append_assoc]

theorem Place.beyond (place : Place p segments name before done rest a d value) {a' : Text} (taken : Decomposes p before a')
    (settles : Settles p (done ++ rest) name a') (inside : a' <+: name) : a <+: a' := by
  have here : a <+: name := ⟨d ++ value, place.name_eq.symm⟩
  rcases prefix_or_prefix_of_prefix here inside with longer | ⟨x, shorter⟩
  · exact longer
  · by_cases none : x = []
    · rw [none, append_nil] at shorter
      rw [shorter]
    · exact absurd settles (place.first a' x shorter.symm none taken)

theorem Place.decomposes (place : Place p segments name before done rest a d value) (whole : Decomposes p segments name) :
    ∃ x y, name = a ++ x ++ y ∧ Decomposes p before (a ++ x) ∧ Decomposes p (done ++ rest) y := by
  rw [place.segments_eq] at whole
  obtain ⟨a', y, same, taken, later⟩ := whole.split
  obtain ⟨x, rfl⟩ := place.beyond taken (later.settles same) ⟨y, same.symm⟩
  exact ⟨x, y, same, taken, later⟩

theorem Place.at_end (place : Place p segments name before done rest a d []) : Decomposes p segments name ↔ Decomposes p rest [] := by
  constructor
  · intro whole
    obtain ⟨x, y, same, -, later⟩ := place.decomposes whole
    obtain ⟨d', value', rfl, read, left⟩ := later.split
    have spans := (read.length place.starless).trans (place.read.length place.starless).symm
    have lengths := congrArg List.length (place.name_eq.symm.trans same)
    simp only [length_append, length_nil] at lengths
    have none : value' = [] := eq_nil_of_length_eq_zero (by omega)
    rw [← none]
    exact left
  · intro left
    rw [place.segments_eq, place.name_eq]
    exact place.taken.append (place.read.append left)

theorem Place.read_one (place : Place p segments name before done (segment :: rest) a d (part ++ value)) (star : segment ≠ .star)
    (reads : Decomposes p [segment] part) : Place p segments name before (done ++ [segment]) rest a (d ++ part) value where
  segments_eq := by simp [place.segments_eq]
  name_eq := by simp [place.name_eq]
  last := place.last
  taken := place.taken
  read := place.read.append reads
  starless := by
    intro listed
    rcases mem_append.mp listed with listed | listed
    · exact place.starless listed
    · exact star (mem_singleton.mp listed).symm
  first := by
    rw [append_assoc]
    exact place.first

theorem Place.next_star (place : Place p segments name before done (.star :: rest) a d value) :
    Place p segments name (before ++ done ++ [.star]) [] rest (a ++ d) [] value where
  segments_eq := by simp [place.segments_eq]
  name_eq := by simp [place.name_eq]
  last := .inr ⟨before ++ done, rfl⟩
  taken := by
    have empty : Decomposes p [.star] ([] ++ []) := .star (by simp) .nil
    have all := (place.taken.append place.read).append empty
    rw [append_nil, append_nil] at all
    exact all
  read := .nil
  starless := by simp [Starless]
  first := by
    intro a' x same some_ taken settles
    obtain ⟨y, run, rfl, front, star⟩ := taken.split
    obtain ⟨a₁, d₁, rfl, front, read⟩ := front.split
    have inside : a₁ ++ d₁ <+: name := by
      refine ⟨run ++ x ++ value, ?_⟩
      have whole := place.name_eq
      rw [← append_assoc, same] at whole
      rw [whole]
      simp
    obtain ⟨z, rfl⟩ := place.beyond front ⟨done, .star :: rest, d₁, rfl, place.starless, read, .inr ⟨rfl, inside⟩⟩
      ((prefix_append a₁ d₁).trans inside)
    -- The segments read take as much there as here.
    have spans := (read.length place.starless).trans (place.read.length place.starless).symm
    have lengths := congrArg List.length same
    simp only [length_append] at lengths
    exact some_ (eq_nil_of_length_eq_zero (by omega))
end

section
variable {p : GlobPattern} {segments before done rest earlier : List Segment} {segment : Segment} {name a d value part x y : Text}

/-- No segment is read here, none cuts a character, and there is no star to take up. -/
structure Stuck (p : GlobPattern) (rest : List Segment) (value : Text) : Prop where
  some_ : value ≠ []
  star : rest.head? ≠ some .star
  reads : ∀ segment later part after, rest = segment :: later → value = part ++ after → ¬Decomposes p [segment] part
  whole : ∀ text later, rest = .literal text :: later → bytes text ≤ bytes value → takeBytes value (bytes text) ≠ none

theorem Place.reads_on (place : Place p segments name before done rest a d value) {more : List Segment} {block : Text}
    (read : Decomposes p (done ++ more) block) (inside : a ++ block <+: name) :
    ∃ part, block = d ++ part ∧ Decomposes p more part ∧ part <+: value := by
  obtain ⟨d', part, rfl, read', later⟩ := read.split
  rw [place.name_eq] at inside
  obtain ⟨after, same⟩ := (prefix_append_right_inj a).mp inside
  rw [append_assoc] at same
  obtain ⟨rfl, rfl⟩ := read'.part_unique place.starless place.read same
  exact ⟨part, rfl, later, after, rfl⟩

section
variable (stuck : Stuck p rest value) (place : Place p segments name before done rest a d value)
include stuck place

theorem Stuck.not_reads {more back : List Segment} {block : Text} (read : Decomposes p (done ++ segment :: more) block) (inside : a ++ block <+: name)
    (same : rest = segment :: back) : False := by
  obtain ⟨part, -, later, front⟩ := place.reads_on read inside
  have later' : Decomposes p ([segment] ++ more) part := later
  obtain ⟨one, others, rfl, reads, -⟩ := later'.split
  obtain ⟨after, rfl⟩ := (prefix_append one others).trans front
  exact stuck.reads segment back one after same rfl reads

theorem Stuck.not_settles : ¬Settles p (done ++ rest) name a := by
  rintro ⟨done', rest', d', same, starless', read', ends⟩
  have some_ : 0 < value.length := length_pos_iff.mpr stuck.some_
  have inside : a ++ d' <+: name := by
    rcases ends with end_ | ⟨-, inside⟩
    · rw [end_]
    · exact inside
  have short : name ≠ a ++ d' ∨ d.length < d'.length := by
    by_cases end_ : name = a ++ d'
    · have lengths := congrArg List.length (place.name_eq.symm.trans end_)
      simp only [length_append] at lengths
      omega
    · exact .inl end_
  rcases append_eq_append_iff.mp same with ⟨more, rfl, shape⟩ | ⟨more, rfl, shape⟩
  · cases more with
    | nil =>
      rw [append_nil] at read'
      have spans := (read'.length place.starless).trans (place.read.length place.starless).symm
      rcases ends with end_ | ⟨star, -⟩
      · rcases short with other | longer
        · exact other end_
        · omega
      · exact stuck.star (shape ▸ star)
    | cons segment more => exact stuck.not_reads place read' inside shape
  have fewer : span done' ≤ span (done' ++ more) := by
    rw [span_append]
    exact Nat.le_add_right _ _
  have spans := place.read.length place.starless
  have spans' := read'.length starless'
  rcases ends with end_ | ⟨star, -⟩
  · rcases short with other | longer
    · exact other end_
    · omega
  cases more with
  | nil =>
    rw [nil_append] at shape
    exact stuck.star (shape ▸ star)
  | cons segment more =>
    rw [shape] at star
    obtain rfl := Option.some.inj star
    exact place.starless (by simp)
end

theorem Place.again {c : Char} {w : Text} (place : Place p segments name before done rest a d value) (stuck : Stuck p rest value)
    (some_ : before ≠ []) (next : d ++ value = c :: w) (slash : c ≠ '/') :
    Place p segments name before [] (done ++ rest) (a ++ [c]) [] w where
  segments_eq := place.segments_eq
  name_eq := by simp [place.name_eq, next]
  last := place.last
  taken := by
    obtain none | ⟨earlier, rfl⟩ := place.last
    · exact absurd none some_
    obtain ⟨a₁, run, rfl, front, star⟩ := place.taken.split
    cases star with
    | @star run _ _ free later =>
      obtain rfl := Decomposes.nil_iff.mp later
      have more : Decomposes p [.star] ((run ++ [c]) ++ []) := .star (by simp [free, Ne.symm slash]) .nil
      have all := front.append more
      rw [append_nil, ← append_assoc] at all
      rw [append_nil]
      exact all
  read := .nil
  starless := by simp [Starless]
  first := by
    intro a' x same more taken
    rcases eq_nil_or_concat x with rfl | ⟨x', c', rfl⟩
    · exact absurd rfl more
    rw [concat_eq_append, ← append_assoc] at same
    obtain ⟨rfl, -⟩ := append_inj' same rfl
    by_cases none : x' = []
    · rw [none, append_nil] at place
      exact stuck.not_settles place
    · exact place.first a' x' rfl none taken

inductive Moves (p : GlobPattern) (before done rest : List Segment) (d value : Text) : Outcome (Option GlobPattern.Scan) → Prop
  | reads {segment : Segment} {later : List Segment} {part after : Text} : rest = segment :: later → value = part ++ after →
      segment ≠ .star → Decomposes p [segment] part →
      Moves p before done rest d value (.ok (some (scanAt before (done ++ [segment]) later (d ++ part) after)))
  | star {later : List Segment} : rest = .star :: later →
      Moves p before done rest d value (.ok (some (scanAt (before ++ done ++ [.star]) [] later [] value)))
  | again {c : Char} {w : Text} : Stuck p rest value → before ≠ [] → d ++ value = c :: w → c ≠ '/' →
      Moves p before done rest d value (.ok (some (scanAt before [] (done ++ rest) [] w)))
  | stops : Stuck p rest value → before = [] → Moves p before done rest d value (.ok none)
  | cuts {text : Text} {later : List Segment} : rest = .literal text :: later → bytes text ≤ bytes value →
      takeBytes value (bytes text) = none → Moves p before done rest d value (.panic notBoundary)

theorem Stuck.moves (stuck : Stuck p rest value) (free : '/' ∉ d ++ value) :
    Moves p before done rest d value (.ok (scanAt before done rest d value).backtrack) := by
  cases shape : d ++ value with
  | nil => exact absurd (append_eq_nil_iff.mp shape).2 stuck.some_
  | cons c w =>
    have slash : c ≠ '/' := by
      rintro rfl
      rw [shape] at free
      exact free mem_cons_self
    by_cases starless : before = []
    · have back : (scanAt before done rest d value).backtrack = none := by
        simp [scanAt, starless, GlobPattern.Scan.backtrack]
      rw [back]
      exact .stops stuck starless
    · have back : (scanAt before done rest d value).backtrack = some (scanAt before [] (done ++ rest) [] w) := by
        simp [scanAt, starless, GlobPattern.Scan.backtrack, shape, slash]
      rw [back]
      exact .again stuck starless shape slash

theorem decomposes_literal_iff {text : Text} : Decomposes p [.literal text] part ↔ p.stringsEqual text part = true := by
  constructor
  · intro reads
    cases reads with
    | @literal _ part' _ _ equal later =>
      obtain rfl := Decomposes.nil_iff.mp later
      rw [append_nil]
      exact equal
  · intro equal
    have one : Decomposes p [.literal text] (part ++ []) := .literal equal .nil
    rw [append_nil] at one
    exact one

theorem turn_moves (some_ : value ≠ []) (free : '/' ∉ d ++ value) :
    Moves p before done rest d value (p.turn (scanAt before done rest d value)) := by
  unfold GlobPattern.turn
  rw [scanAt_value]
  have segments_eq : (scanAt before done rest d value).segments = rest := rfl
  rw [segments_eq]
  cases rest with
  | nil => exact Stuck.moves ⟨some_, by simp, by simp, by simp⟩ free
  | cons segment later =>
    cases segment with
    | star =>
      have next : (⟨some later, value, 0, later⟩ : GlobPattern.Scan) = scanAt (before ++ done ++ [.star]) [] later [] value := by
        simp [scanAt]
      dsimp only
      rw [next]
      exact .star rfl
    | question =>
      cases value with
      | nil => exact absurd rfl some_
      | cons c after =>
        have slash : c ≠ '/' := by
          rintro rfl
          exact free (by simp)
        have next : ({ scanAt before done (.question :: later) d (c :: after) with
            read := (scanAt before done (.question :: later) d (c :: after)).read + 1, segments := later } : GlobPattern.Scan) =
              scanAt before (done ++ [.question]) later (d ++ [c]) after := by
          simp [scanAt]
        dsimp only
        rw [if_pos (by simpa using slash), next]
        exact .reads rfl rfl (by simp) (.question slash .nil)
    | literal text =>
      dsimp only
      by_cases fits : bytes text ≤ bytes value
      · rw [if_pos fits]
        cases cut : takeBytes value (bytes text) with
        | none => exact .cuts rfl fits cut
        | some part =>
          obtain ⟨after, dropped, rfl⟩ := takeBytes_eq_some cut
          rw [sliced, Outcome.monad_bind, Outcome.bind_ok]
          by_cases equal : p.stringsEqual text part = true
          · have next : ({ scanAt before done (.literal text :: later) d (part ++ after) with
                read := (scanAt before done (.literal text :: later) d (part ++ after)).read + part.length,
                segments := later } : GlobPattern.Scan) =
                  scanAt before (done ++ [.literal text]) later (d ++ part) after := by
              simp [scanAt]
            rw [if_pos equal, next]
            exact .reads rfl rfl (by simp) (decomposes_literal_iff.mpr equal)
          rw [if_neg equal]
          refine Stuck.moves ⟨some_, by simp, ?_, ?_⟩ free
          · intro segment later' part' after' same shape reads
            obtain ⟨rfl, rfl⟩ := List.cons.inj same
            have equal' := decomposes_literal_iff.mp reads
            rw [shape, (stringsEqual_sizes equal').2, takeBytes_append] at cut
            obtain rfl := Option.some.inj cut
            exact equal equal'
          · intro text' later' same _ none
            cases same
            rw [cut] at none
            cases none
      · rw [if_neg fits]
        refine Stuck.moves ⟨some_, by simp, ?_, ?_⟩ free
        · intro segment later' part' after' same shape reads
          obtain ⟨rfl, rfl⟩ := List.cons.inj same
          have size := (stringsEqual_sizes (decomposes_literal_iff.mp reads)).2
          rw [shape, bytes_append, size] at fits
          exact fits (Nat.le_add_right _ _)
        · intro text' later' same fits' none
          cases same
          exact fits fits'
end

section
variable {p : GlobPattern} {segments before done rest : List Segment} {name a d value : Text}

theorem takeBytes_none {n : Nat} (fits : n ≤ bytes value) (cut : takeBytes value n = none) : value ≠ [] := by
  rintro rfl
  obtain rfl := Nat.le_zero.mp fits
  cases cut

theorem Place.free (place : Place p segments name before done rest a d value) (free : '/' ∉ name) : '/' ∉ d ++ value := by
  intro listed
  rw [place.name_eq] at free
  exact free (mem_append_right a listed)

theorem Filled.left (filled : Filled segments) (place : Place p segments name before done rest a d value) : Filled rest := by
  intro listed
  apply filled
  rw [place.segments_eq]
  simp [listed]

theorem all_star_iff (filled : Filled rest) : rest.all (· = .star) = true ↔ Decomposes p rest [] := by
  rw [decomposes_nil_iff filled]
  simp

theorem Stuck.not_decomposes (stuck : Stuck p rest value) (place : Place p segments name [] done rest a d value) :
    ¬Decomposes p segments name := by
  intro whole
  obtain ⟨x, y, same, taken, later⟩ := place.decomposes whole
  obtain ⟨rfl, rfl⟩ := append_eq_nil_iff.mp (Decomposes.nil_iff.mp taken)
  exact stuck.not_settles place (later.settles same)

theorem scan_answers (filled : Filled segments) (free : '/' ∉ name) (place : Place p segments name before done rest a d value) :
    (∃ b, p.matchSegmentsFrom (scanAt before done rest d value) = .ok b ∧ (b = true ↔ Decomposes p segments name)) ∨
      (p.matchSegmentsFrom (scanAt before done rest d value) = .panic notBoundary ∧ Cut p segments name) := by
  have free' := place.free free
  have moves : value ≠ [] → Moves p before done rest d value (p.turn (scanAt before done rest d value)) :=
    fun some_ => turn_moves some_ free'
  have value_eq : (scanAt before done rest d value).value = value := scanAt_value
  have rest_eq : (scanAt before done rest d value).segments = rest := rfl
  generalize scanAt before done rest d value = s at moves value_eq rest_eq
  fun_induction GlobPattern.matchSegmentsFrom p s generalizing before done rest a d value with
  | case1 s ends =>
    rw [ends] at value_eq
    subst value_eq
    refine .inl ⟨_, rfl, ?_⟩
    rw [rest_eq, place.at_end]
    exact all_star_iff (filled.left place)
  | case2 s go s' next ih =>
    have moved := moves (value_eq ▸ go)
    rw [next] at moved
    have later : ∀ {before' done' rest' : List Segment} {a' d' value' : Text}, s' = scanAt before' done' rest' d' value' →
        Place p segments name before' done' rest' a' d' value' →
        (∃ b, p.matchSegmentsFrom s' = .ok b ∧ (b = true ↔ Decomposes p segments name)) ∨
          (p.matchSegmentsFrom s' = .panic notBoundary ∧ Cut p segments name) := by
      rintro before' done' rest' a' d' value' rfl place'
      have free'' := place'.free free
      exact ih place' free'' (fun some_ => turn_moves some_ free'') scanAt_value rfl
    cases moved with
    | reads same shape star reads =>
      subst same
      subst shape
      exact later rfl (place.read_one star reads)
    | star same =>
      subst same
      exact later rfl place.next_star
    | again stuck some_ shape slash => exact later rfl (place.again stuck some_ shape slash)
  | case3 s go next =>
    have moved := moves (value_eq ▸ go)
    rw [next] at moved
    cases moved with
    | stops stuck same =>
      subst same
      exact .inl ⟨false, rfl, iff_of_false Bool.false_ne_true (stuck.not_decomposes place)⟩
  | case4 s go m next =>
    have moved := moves (value_eq ▸ go)
    rw [next] at moved
    cases moved
  | case5 s go m next =>
    have moved := moves (value_eq ▸ go)
    rw [next] at moved
    cases moved with
    | cuts same fits cut =>
      subst same
      exact .inr ⟨rfl, before, done, _, _, a, d, value, place, fits, cut⟩
end

variable {p : GlobPattern} {segments before done rest front read back : List Segment} {name a d value f r left text : Text}
variable {later more : List Segment} {tail : Text}

/-- A place that the scan is still to come to: by reading on, with more for the last star, or after the next star. -/
inductive Ahead (p : GlobPattern) (before done : List Segment) (a : Text) (front read : List Segment) (f : Text) : Prop
  | here {more : List Segment} : front = before → f = a → read = done ++ more → Ahead p before done a front read f
  | longer {x : Text} : front = before → f = a ++ x → x ≠ [] → Ahead p before done a front read f
  | beyond {more later : List Segment} {start block tail : Text} : front = before ++ (done ++ more) ++ .star :: later →
      Starless more → f = start ++ block ++ tail → Decomposes p before start → Decomposes p (done ++ more) block →
      Decomposes p (.star :: later) tail → a <+: start → Ahead p before done a front read f

theorem Ahead.start {start : Text} (same : front = before ++ later)
    (last : later = [] ∨ ∃ earlier, later = earlier ++ [.star]) (parts : f = start ++ tail) (taken : Decomposes p before start)
    (others : Decomposes p later tail) (inside : a <+: start) : Ahead p before [] a front read f := by
  rcases last with rfl | ⟨earlier, rfl⟩
  · obtain rfl := Decomposes.nil_iff.mp others
    obtain ⟨x, rfl⟩ := inside
    rw [append_nil] at same parts
    by_cases none : x = []
    · rw [none, append_nil] at parts
      exact .here same parts rfl
    · exact .longer same parts none
  obtain ⟨more, rest, split, starless, ends⟩ := first_star (earlier ++ [.star])
  have star : rest.head? = some .star := by
    rcases ends with rfl | star
    · rw [append_nil] at split
      rw [← split] at starless
      exact absurd (by simp) starless
    · exact star
  obtain ⟨after, rfl⟩ := List.head?_eq_some_iff.mp star
  rw [split] at others same
  obtain ⟨block, tail', rfl, front', left⟩ := others.split
  refine .beyond (by simp [same]) starless ?_ taken front' left inside
  simp [parts]

variable (place : Place p segments name before done rest a d value) (cut : Place p segments name front read (.literal text :: back) f r left)
include place cut

theorem Ahead.rest_eq (same : front = before) (same' : read = done ++ more) : rest = more ++ .literal text :: back := by
  have whole := place.segments_eq.symm.trans cut.segments_eq
  rw [same, same', append_assoc] at whole
  exact append_cancel_left (append_cancel_left whole)

theorem Ahead.left_eq (same : f = a) (same' : read = done ++ more) :
    ∃ part, r = d ++ part ∧ Decomposes p more part ∧ value = part ++ left := by
  have inside : a ++ r <+: name := ⟨left, by rw [cut.name_eq, same, append_assoc]⟩
  have reads := cut.read
  rw [same'] at reads
  obtain ⟨part, shape, reads', -⟩ := place.reads_on reads inside
  have whole := place.name_eq.symm.trans cut.name_eq
  rw [same, shape, append_assoc] at whole
  exact ⟨part, shape, reads', append_cancel_left (append_cancel_left whole)⟩

theorem Ahead.not_settles {x : Text} (same : front = before) (shape : f = a ++ x) (more : x ≠ []) : ¬Settles p (done ++ rest) name a := by
  have whole := place.segments_eq.symm.trans cut.segments_eq
  rw [same] at whole
  rw [append_cancel_left whole]
  refine cut.first a x shape more ?_
  rw [same]
  exact place.taken

theorem Ahead.rest_beyond (shape : front = before ++ (done ++ more) ++ .star :: later) :
    ∃ after, rest = more ++ .star :: after := by
  have whole := place.segments_eq.symm.trans cut.segments_eq
  rw [shape, append_assoc, append_assoc, append_assoc] at whole
  exact ⟨_, append_cancel_left (append_cancel_left whole)⟩

omit place in
theorem Ahead.inside {start block : Text} (parts : f = start ++ block ++ tail) : start ++ block <+: name := by
  refine ⟨tail ++ (r ++ left), ?_⟩
  rw [cut.name_eq, parts]
  simp

theorem Ahead.value_ne (is_ahead : Ahead p before done a front read f) (some_ : left ≠ []) : value ≠ [] := by
  rintro rfl
  cases is_ahead with
  | here same same' shape =>
    obtain ⟨part, -, -, none⟩ := Ahead.left_eq place cut same' shape
    exact some_ (append_eq_nil_iff.mp none.symm).2
  | longer same shape more =>
    apply Ahead.not_settles place cut same shape more
    refine ⟨done, rest, d, rfl, place.starless, place.read, .inl ?_⟩
    rw [place.name_eq, append_nil]
  | @beyond more later start block tail shape starless parts taken reads others inside =>
    have none : Starless (done ++ more) := by
      intro listed
      rcases mem_append.mp listed with listed | listed
      · exact place.starless listed
      · exact starless listed
    have spans := reads.length none
    have spans' := place.read.length place.starless
    have sizes := inside.length_le
    have lengths := congrArg List.length (place.name_eq.symm.trans cut.name_eq)
    have some' := length_pos_iff.mpr some_
    rw [span_append] at spans
    rw [parts] at lengths
    simp only [length_append, length_nil] at lengths
    omega

theorem Ahead.star {later : List Segment} (same : rest = .star :: later) (is_ahead : Ahead p before done a front read f) :
    Ahead p (before ++ done ++ [.star]) [] (a ++ d) front read f := by
  cases is_ahead with
  | @here more same' same'' shape' =>
    have rest_eq := Ahead.rest_eq place cut same' shape'
    cases more with
    | nil => cases same.symm.trans rest_eq
    | cons segment more =>
      obtain ⟨rfl, -⟩ := List.cons.inj (same.symm.trans rest_eq)
      exact absurd (by simp [shape']) cut.starless
  | @longer x same' shape' more =>
    refine absurd ?_ (Ahead.not_settles place cut same' shape' more)
    refine ⟨done, rest, d, rfl, place.starless, place.read, .inr ⟨by rw [same]; rfl, value, ?_⟩⟩
    rw [place.name_eq, append_assoc]
  | @beyond more later' start block tail shape' starless parts taken reads others inside =>
    obtain ⟨after', rest_eq⟩ := Ahead.rest_beyond place cut shape'
    cases more with
    | cons segment more =>
      obtain ⟨rfl, -⟩ := List.cons.inj (same.symm.trans rest_eq)
      exact absurd mem_cons_self starless
    | nil =>
      rw [append_nil] at reads
      cases others with
      | @star run tail' _ slashless others =>
        have spans := (reads.length place.starless).trans (place.read.length place.starless).symm
        have within : a ++ d <+: start ++ block := by
          refine prefix_of_prefix_length_le ⟨value, by rw [place.name_eq, append_assoc]⟩ (Ahead.inside cut parts) ?_
          have sizes := inside.length_le
          simp only [length_append]
          omega
        have more := (taken.append reads).append (Decomposes.star slashless Decomposes.nil)
        refine Ahead.start (by simp [shape']) ?_ (by simp [parts]) more others (within.trans (prefix_append _ _))
        rcases eq_nil_or_concat later' with rfl | ⟨earlier, last, rfl⟩
        · exact .inl rfl
        rcases cut.last with none | ⟨earlier', ends⟩
        · rw [none] at shape'
          simp at shape'
        have ends' : (before ++ (done ++ []) ++ .star :: earlier) ++ [last] = earlier' ++ [.star] := by
          rw [← ends, shape']
          simp
        obtain ⟨-, same_⟩ := append_inj' ends' rfl
        exact .inr ⟨earlier, by rw [concat_eq_append, (List.cons.inj same_).1]⟩

variable (cutting : takeBytes left (bytes text) = none)
include cutting

theorem Ahead.reads {segment : Segment} {part after : Text} (same : rest = segment :: later)
    (shape : value = part ++ after) (star : segment ≠ .star) (one : Decomposes p [segment] part)
    (is_ahead : Ahead p before done a front read f) : Ahead p before (done ++ [segment]) a front read f := by
  cases is_ahead with
  | @here more same' same'' shape' =>
    obtain ⟨part', -, reads, parts⟩ := Ahead.left_eq place cut same'' shape'
    have rest_eq := Ahead.rest_eq place cut same' shape'
    cases more with
    | nil =>
      -- The cut is not here, since the literal is read.
      obtain rfl := Decomposes.nil_iff.mp reads
      obtain rfl := (List.cons.inj (same.symm.trans rest_eq)).1
      rw [nil_append] at parts
      rw [← parts, shape, (stringsEqual_sizes (decomposes_literal_iff.mp one)).2, takeBytes_append] at cutting
      cases cutting
    | cons segment' more =>
      obtain ⟨rfl, -⟩ := List.cons.inj (same.symm.trans rest_eq)
      have read_eq : read = done ++ [segment] ++ more := by rw [shape', append_assoc, singleton_append]
      exact .here same' same'' read_eq
  | longer same' shape' more => exact .longer same' shape' more
  | @beyond more later' start block tail shape' starless parts taken reads others inside =>
    obtain ⟨after', rest_eq⟩ := Ahead.rest_beyond place cut shape'
    cases more with
    | nil => exact absurd (List.cons.inj (same.symm.trans rest_eq)).1 star
    | cons segment' more =>
      obtain ⟨rfl, -⟩ := List.cons.inj (same.symm.trans rest_eq)
      refine .beyond ?_ (fun listed => starless (mem_cons_of_mem _ listed)) parts taken ?_
        others inside
      · simp [shape']
      · rw [append_assoc]
        exact reads

theorem Ahead.again {c : Char} {w : Text} (fits : bytes text ≤ bytes left) (stuck : Stuck p rest value) (next : d ++ value = c :: w)
    (is_ahead : Ahead p before done a front read f) : Ahead p before [] (a ++ [c]) front read f := by
  have first : ∀ {c' : Char} {x y : Text}, name = a ++ c' :: x ++ y → c' = c := by
    intro c' x y same
    rw [place.name_eq, next, append_assoc] at same
    exact (List.cons.inj (append_cancel_left same)).1.symm
  cases is_ahead with
  | @here more same same' shape =>
    obtain ⟨part, parts, reads, shape'⟩ := Ahead.left_eq place cut same' shape
    have rest_eq := Ahead.rest_eq place cut same shape
    cases more with
    | nil =>
      obtain rfl := Decomposes.nil_iff.mp reads
      subst shape'
      exact absurd cutting (stuck.whole text back rest_eq fits)
    | cons segment more =>
      have reads' := cut.read
      rw [shape] at reads'
      exact (stuck.not_reads place reads' ⟨left, by rw [cut.name_eq, same', append_assoc]⟩ rest_eq).elim
  | @longer x same shape more =>
    cases x with
    | nil => exact absurd rfl more
    | cons c' x =>
      obtain rfl := first (cut.name_eq.trans (by rw [shape]))
      have shape' : f = a ++ [c'] ++ x := by rw [shape, append_assoc, singleton_append]
      by_cases ends : x = []
      · rw [ends, append_nil] at shape'
        exact .here same shape' rfl
      · exact .longer same shape' ends
  | @beyond more later start block tail shape starless parts taken reads others inside =>
    obtain ⟨x, rfl⟩ := inside
    obtain ⟨after, rest_eq⟩ := Ahead.rest_beyond place cut shape
    have inside := Ahead.inside cut parts
    cases x with
    | nil =>
      rw [append_nil] at inside
      cases more with
      | nil => exact absurd (by rw [rest_eq]; rfl) stuck.star
      | cons segment more => exact (stuck.not_reads place reads inside rest_eq).elim
    | cons c' x =>
      obtain ⟨y, whole⟩ := inside
      obtain rfl := @first c' x (block ++ y) (by rw [← whole, append_assoc])
      refine .beyond shape ?_ parts taken reads others ⟨x, by simp⟩
      intro listed
      rcases mem_append.mp listed with listed | listed
      · exact place.starless listed
      · exact starless listed

theorem Ahead.not_stopped (fits : bytes text ≤ bytes left) (stuck : Stuck p rest value) (starless : before = [])
    (is_ahead : Ahead p before done a front read f) : False := by
  obtain ⟨c, w, shape⟩ := exists_cons_of_ne_nil fun none => stuck.some_ (append_eq_nil_iff.mp none).2
  have least : ∀ {x y : Text}, Decomposes p before x → x ≠ a ++ [c] ++ y := by
    rintro x y taken rfl
    rw [starless] at taken
    have none := Decomposes.nil_iff.mp taken
    simp at none
  have least' : ∀ {y : Text}, front = before → f ≠ a ++ [c] ++ y := fun same => least (same ▸ cut.taken)
  cases Ahead.again place cut cutting fits stuck shape is_ahead with
  | here same same' => exact @least' [] same (by rw [same', append_nil])
  | longer same same' => exact least' same same'
  | beyond _ _ _ taken _ _ inside =>
    obtain ⟨y, rfl⟩ := inside
    exact least taken rfl

theorem scan_cuts (free : '/' ∉ name) (fits : bytes text ≤ bytes left) (is_ahead : Ahead p before done a front read f) :
    p.matchSegmentsFrom (scanAt before done rest d value) = .panic notBoundary := by
  have free' := place.free free
  have moves : value ≠ [] → Moves p before done rest d value (p.turn (scanAt before done rest d value)) :=
    fun some_ => turn_moves some_ free'
  have value_eq : (scanAt before done rest d value).value = value := scanAt_value
  generalize scanAt before done rest d value = s at moves value_eq
  fun_induction GlobPattern.matchSegmentsFrom p s generalizing before done rest a d value with
  | case1 s ends =>
    rw [ends] at value_eq
    exact absurd value_eq.symm (Ahead.value_ne place cut is_ahead (takeBytes_none fits cutting))
  | case2 s go s' next ih =>
    have moved := moves (value_eq ▸ go)
    rw [next] at moved
    have later : ∀ {before' done' rest' : List Segment} {a' d' value' : Text}, s' = scanAt before' done' rest' d' value' →
        Place p segments name before' done' rest' a' d' value' → Ahead p before' done' a' front read f →
        p.matchSegmentsFrom s' = .panic notBoundary := by
      rintro before' done' rest' a' d' value' rfl place' is_ahead'
      have free'' := place'.free free
      exact ih place' is_ahead' free'' (fun some_ => turn_moves some_ free'') scanAt_value
    cases moved with
    | reads same shape star reads =>
      have ahead' := Ahead.reads place cut cutting same shape star reads is_ahead
      subst same
      subst shape
      exact later rfl (place.read_one star reads) ahead'
    | star same =>
      have ahead' := Ahead.star place cut same is_ahead
      subst same
      exact later rfl place.next_star ahead'
    | again stuck some_ shape slash =>
      exact later rfl (place.again stuck some_ shape slash) (Ahead.again place cut cutting fits stuck shape is_ahead)
  | case3 s go next =>
    have moved := moves (value_eq ▸ go)
    rw [next] at moved
    cases moved with
    | stops stuck same => exact (Ahead.not_stopped place cut cutting fits stuck same is_ahead).elim
  | case4 s go m next =>
    have moved := moves (value_eq ▸ go)
    rw [next] at moved
    cases moved
  | case5 s go m next =>
    have moved := moves (value_eq ▸ go)
    rw [next] at moved
    cases moved with
    | cuts => rfl

end TypeScriptRs.Vfsmatch
