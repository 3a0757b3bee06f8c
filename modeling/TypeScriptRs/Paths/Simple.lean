import TypeScriptRs.Paths.Relative
import TypeScriptRs.Paths.Loop

/-! Texts in which nothing, or only single dots, has to be dropped. -/
namespace TypeScriptRs.Paths
open Machine Utf8 List

section
variable {segment text : Text}

/-- The dots counted in a segment, or a mark that it has other characters. -/
def dotsOf (segment : Text) : Int := if ∀ c ∈ segment, c = '.' then segment.length else -1

theorem dotsOf_concat (part : Text) (c : Char) :
    dotsOf (part ++ [c]) = if c = '.' then if dotsOf part ≥ 0 then dotsOf part + 1 else dotsOf part else -1 := by
  by_cases all : ∀ x ∈ part, x = '.'
  · have count : dotsOf part = part.length := if_pos all
    rw [count, if_pos (Int.natCast_nonneg _), dotsOf]
    by_cases dot : c = '.'
    · have every : ∀ x ∈ part ++ [c], x = '.' := by
        intro x listed
        rcases mem_append.mp listed with old | new
        · exact all x old
        · rw [mem_singleton.mp new, dot]
      rw [if_pos dot, if_pos every]
      simp
    · rw [if_neg dot, if_neg fun every => dot (every c (by simp))]
  · have mark : dotsOf part = -1 := if_neg all
    rw [mark, dotsOf, if_neg fun every => all fun x listed => every x (mem_append_left _ listed)]
    simp

theorem segment_test (segment : Text) (n : Nat) : (bytes segment = n ∧ dotsOf segment = n) ↔ segment = List.replicate n '.' := by
  constructor
  · rintro ⟨-, dots⟩
    unfold dotsOf at dots
    split at dots
    · rename_i all
      have length : segment.length = n := by omega
      rw [← length]
      exact eq_replicate_of_mem all
    · omega
  · rintro rfl
    refine ⟨by rw [bytes_replicate]; exact Nat.mul_one n, ?_⟩
    unfold dotsOf
    rw [if_pos fun c listed => eq_of_mem_replicate listed, length_replicate]

def Dots (segment : Text) : Prop := segment = ['.'] ∨ segment = ['.', '.']

instance (segment : Text) : Decidable (Dots segment) := inferInstanceAs (Decidable (_ ∨ _))

theorem dots_test (segment : Text) : ((bytes segment = 1 ∧ dotsOf segment = 1) ∨ (bytes segment = 2 ∧ dotsOf segment = 2)) ↔
    Dots segment := by
  have one := segment_test segment 1
  have two := segment_test segment 2
  exact or_congr one two

theorem hasRelativeSegmentFrom_segment (free : '/' ∉ segment) (part more : Text) (previous : Bool) :
    hasRelativeSegmentFrom (segment ++ '/' :: more) previous (bytes part) (dotsOf part) =
      if (previous = true ∧ segment = []) ∨ Dots (part ++ segment) then true
      else hasRelativeSegmentFrom more true 0 0 := by
  induction segment generalizing part previous with
  | nil =>
    rw [nil_append, hasRelativeSegmentFrom, if_pos rfl, append_nil]
    cases previous with
    | true => simp
    | false =>
      have test := dots_test part
      simp only [Bool.false_eq_true, if_false, false_and, false_or]
      exact if_congr test rfl rfl
  | cons c segment ih =>
    have other : c ≠ '/' := fun same => free (by rw [same]; simp)
    have size : bytes part + c.utf8Size = bytes (part ++ [c]) := by
      rw [bytes_append, bytes_cons, bytes_nil]
      omega
    rw [cons_append, hasRelativeSegmentFrom, if_neg other, size, ← dotsOf_concat,
      ih (fun listed => free (mem_cons_of_mem _ listed)), append_assoc]
    simp

theorem hasRelativeSegmentFrom_last (free : '/' ∉ segment) (part : Text) (previous : Bool) :
    hasRelativeSegmentFrom segment previous (bytes part) (dotsOf part) = decide (Dots (part ++ segment)) := by
  induction segment generalizing part previous with
  | nil =>
    have test := dots_test part
    rw [hasRelativeSegmentFrom, append_nil, Bool.eq_iff_iff, decide_eq_true_iff, ← test]
    simp
  | cons c segment ih =>
    have other : c ≠ '/' := fun same => free (by rw [same]; simp)
    have size : bytes part + c.utf8Size = bytes (part ++ [c]) := by
      rw [bytes_append, bytes_cons, bytes_nil]
      omega
    rw [hasRelativeSegmentFrom, if_neg other, size, ← dotsOf_concat,
      ih (fun listed => free (mem_cons_of_mem _ listed)), append_assoc]
    rfl

/-- Text in which nothing is to be dropped: regular components, with or without a slash after them. -/
def Clean (text : Text) : Prop := ∃ components last, text = lead components ++ last ∧
  (∀ c ∈ components, '/' ∉ c ∧ c ≠ [] ∧ ¬Dots c) ∧ '/' ∉ last ∧ ¬Dots last

theorem lead_cons (component : Text) (components : List Text) :
    lead (component :: components) = component ++ '/' :: lead components := by
  unfold lead
  rw [if_neg (cons_ne_nil _ _)]
  by_cases none : components = []
  · rw [if_pos none, none]
    have single : join [component] = component := intercalate_singleton
    rw [single]
  · rw [if_neg none, join_cons component none]
    simp

theorem clean_join (pieces : List Text) (free : ∀ c ∈ pieces, '/' ∉ c)
    (fine : hasRelativeSegmentFrom (join pieces) true 0 0 = false) : Clean (join pieces) := by
  have start : dotsOf [] = 0 := by simp [dotsOf]
  induction pieces with
  | nil => exact ⟨[], [], rfl, by simp, by simp, by decide⟩
  | cons piece pieces ih =>
    have here := free piece (by simp)
    have later : ∀ c ∈ pieces, '/' ∉ c := fun c listed => free c (mem_cons_of_mem _ listed)
    cases pieces with
    | nil =>
      have single : join [piece] = piece := intercalate_singleton
      rw [single] at fine ⊢
      have test := hasRelativeSegmentFrom_last here [] true
      rw [bytes_nil, start, fine] at test
      exact ⟨[], piece, rfl, by simp, here, of_decide_eq_false test.symm⟩
    | cons second pieces =>
      have test := hasRelativeSegmentFrom_segment here [] (join (second :: pieces)) true
      rw [join_cons piece (cons_ne_nil _ _)] at fine ⊢
      rw [bytes_nil, start, fine, nil_append] at test
      split at test
      · cases test
      rename_i other
      obtain ⟨components, last, shape, regular, free', notDots⟩ := ih later test.symm
      refine ⟨piece :: components, last, by rw [shape, lead_cons]; simp, ?_, free', notDots⟩
      intro c listed
      rcases mem_cons.mp listed with rfl | old
      · exact ⟨here, fun none => other (.inl ⟨rfl, none⟩), fun dots => other (.inr dots)⟩
      · exact regular c old

theorem clean_text (fine : hasRelativeSegmentFrom text true 0 0 = false) : Clean text := by
  have pieces : join (text.splitOn '/') = text := intercalate_splitOn '/'
  rw [← pieces] at fine ⊢
  exact clean_join _ (fun c listed => Split.not_mem_of_mem_splitOn listed) fine

theorem hasRelativeSegmentFrom_head (head : text.head? ≠ some '/') (length : Nat) (dots : Int) :
    hasRelativeSegmentFrom text false length dots = hasRelativeSegmentFrom text true length dots := by
  cases text with
  | nil => rfl
  | cons c text =>
    have other : c ≠ '/' := fun same => head (congrArg some same)
    rw [hasRelativeSegmentFrom, if_neg other, hasRelativeSegmentFrom, if_neg other]

theorem hasRelativeSegmentFrom_after (front rest : Text) {previous : Bool} {length : Nat} {dots : Int}
    (fine : hasRelativeSegmentFrom (front ++ '/' :: rest) previous length dots = false) :
    hasRelativeSegmentFrom rest true 0 0 = false := by
  induction front generalizing previous length dots with
  | nil =>
    rw [nil_append, hasRelativeSegmentFrom, if_pos rfl] at fine
    split at fine
    · cases fine
    · split at fine
      · cases fine
      · exact fine
  | cons c front ih =>
    rw [cons_append, hasRelativeSegmentFrom] at fine
    split at fine
    · split at fine
      · cases fine
      · split at fine
        · cases fine
        · exact ih fine
    · exact ih fine

theorem hasRelativeSegmentFrom_double (front rest : Text) : ∀ previous length dots,
    hasRelativeSegmentFrom (front ++ '/' :: '/' :: rest) previous length dots = true := by
  intro previous length dots
  by_contra fine
  have after := hasRelativeSegmentFrom_after front ('/' :: rest) (Bool.eq_false_iff.mpr fine)
  rw [hasRelativeSegmentFrom, if_pos rfl] at after
  cases after

theorem hasRelativeSegmentFrom_of_path {path : Text} (fine : hasRelativePathSegment path = false) :
    hasRelativeSegmentFrom path false 0 0 = false := by
  unfold hasRelativePathSegment at fine
  split at fine
  · rename_i none
    rw [none]
    rfl
  split at fine
  · cases fine
  split at fine
  · cases fine
  · split at fine
    · cases fine
    · exact fine

theorem clean_rest {root rest : Text} (open_ : Open root) (head : root = [] → rest.head? ≠ some '/')
    (fine : hasRelativePathSegment (root ++ rest) = false) : Clean rest := by
  have loop := hasRelativeSegmentFrom_of_path fine
  rcases open_ with rfl | ⟨front, rfl⟩
  · rw [nil_append, hasRelativeSegmentFrom_head (head rfl)] at loop
    exact clean_text loop
  · rw [append_assoc, singleton_append] at loop
    exact clean_text (hasRelativeSegmentFrom_after front rest loop)
end

section
variable {root rest text : Text} {components : List Text}

def finish (rootLength : Nat) (path : Text) : Text :=
  if bytes path > rootLength then removeTrailingDirectorySeparator path
  else if bytes path = rootLength ∧ rootLength ≠ 0 then ensureTrailingDirectorySeparator path
  else path

theorem mem_lead {component : Text} (listed : component ∈ components) {c : Char} (inside : c ∈ component) :
    c ∈ lead components := by
  rw [lead, if_neg (ne_nil_of_mem listed)]
  exact mem_append_left _ (Split.mem_intercalate_of_mem listed inside)

theorem bytes_root_lt (root : Text) {rest : Text} (some_ : rest ≠ []) : bytes (root ++ rest) > bytes root := by
  have positive := bytes_pos some_
  rw [bytes_append]
  omega

theorem removeTrailing_lead (root : Text) (some_ : components ≠ []) :
    removeTrailingDirectorySeparator (root ++ lead components) = root ++ join components := by
  have shape : root ++ lead components = root ++ join components ++ ['/'] := by
    rw [lead, if_neg some_, append_assoc]
  have trailing : hasTrailingDirectorySeparator (root ++ join components ++ ['/']) = true :=
    hasTrailingDirectorySeparator_of_getLast List.getLast?_concat
  rw [shape, removeTrailingDirectorySeparator, if_pos trailing, dropLast_concat]

theorem removeTrailing_join (root : Text) (proper : ∀ c ∈ components, Proper c) (some_ : components ≠ []) :
    removeTrailingDirectorySeparator (root ++ join components) = root ++ join components := by
  have trailing := hasTrailingDirectorySeparator_join root proper some_
  rw [removeTrailingDirectorySeparator, trailing]
  rfl

theorem reduceText_lead (reduced : List Text) (regular : ∀ c ∈ components, Proper c ∧ c ≠ ['.', '.']) (last : Text) :
    reduceText root reduced (lead components ++ last) = reduceText root (reduced ++ components) last := by
  induction components generalizing reduced with
  | nil => simp [lead]
  | cons component components ih =>
    obtain ⟨here, notUp⟩ := regular component (by simp)
    have cut : component ++ '/' :: lead components ++ last = component ++ '/' :: (lead components ++ last) := by simp
    rw [lead_cons, cut, reduceText_append, reduceText_free here.free,
      reduceStep_regular here.filled here.notDot notUp, ih _ fun c listed => regular c (mem_cons_of_mem _ listed)]
    simp

theorem ensureTrailing_open (open_ : Open root) (some_ : root ≠ []) : ensureTrailingDirectorySeparator root = root := by
  rcases open_ with none | ⟨front, rfl⟩
  · exact absurd none some_
  · exact if_pos (hasTrailingDirectorySeparator_of_getLast List.getLast?_concat)

def Writes (components : List Text) (text : Text) : Prop := text = join components ∨ (components ≠ [] ∧ text = lead components)

theorem Writes.reduceText (writes : Writes components text) (regular : ∀ c ∈ components, Proper c ∧ c ≠ ['.', '.']) :
    reduceText root [] text = components := by
  rcases writes with rfl | ⟨some_, rfl⟩
  · rw [reduceText_join _ _ fun c listed => (regular c listed).1, foldl_regular _ _ regular, nil_append]
  · have reduced : Paths.reduceText root [] (lead components ++ []) = Paths.reduceText root ([] ++ components) [] :=
      reduceText_lead [] regular []
    rwa [append_nil, reduceText_nil, nil_append] at reduced

theorem writes_clean (clean : Clean text) (slashed : Slashed text) : ∃ components, Writes components text ∧
    ∀ c ∈ components, Proper c ∧ c ≠ ['.', '.'] := by
  obtain ⟨components, last, rfl, each, free, notDots⟩ := clean
  have regular : ∀ c ∈ components, Proper c ∧ c ≠ ['.', '.'] := by
    intro c listed
    obtain ⟨free', filled, notDots'⟩ := each c listed
    have plain : Slashed c := fun inside => slashed (mem_append_left _ (mem_lead listed inside))
    exact ⟨⟨filled, free', plain, fun dot => notDots' (.inl dot)⟩, fun up => notDots' (.inr up)⟩
  by_cases none : last = []
  · refine ⟨components, ?_, regular⟩
    rw [none, append_nil]
    by_cases empty : components = []
    · rw [empty]
      exact .inl rfl
    · exact .inr ⟨empty, rfl⟩
  refine ⟨components ++ [last], .inl (join_concat components last).symm, fun c listed => ?_⟩
  rcases mem_append.mp listed with old | new
  · exact regular c old
  · rw [mem_singleton.mp new]
    exact ⟨⟨none, free, fun inside => slashed (mem_append_right _ inside), fun dot => notDots (.inl dot)⟩,
      fun up => notDots (.inr up)⟩

theorem finish_clean (open_ : Open root) (clean : Clean rest) (slashed : Slashed rest) :
    finish (bytes root) (root ++ rest) = root ++ join (reduceText root [] rest) := by
  obtain ⟨components, writes, regular⟩ := writes_clean clean slashed
  have proper : ∀ c ∈ components, Proper c := fun c listed => (regular c listed).1
  rw [writes.reduceText regular]
  unfold finish
  by_cases none : components = []
  · have empty : join [] = [] := rfl
    rcases writes with rfl | ⟨some_, -⟩
    · rw [none, empty, append_nil, if_neg (Nat.lt_irrefl _)]
      split
      · rename_i rooted
        exact ensureTrailing_open open_ fun noRoot => rooted.2 (by rw [noRoot]; rfl)
      · rfl
    · exact absurd none some_
  · rcases writes with rfl | ⟨-, rfl⟩
    · rw [if_pos (bytes_root_lt root (join_ne_nil none proper))]
      exact removeTrailing_join root proper none
    · have some_ : lead components ≠ [] := by
        rw [lead, if_neg none]
        simp
      rw [if_pos (bytes_root_lt root some_), removeTrailing_lead root none]
end

variable {front text : Text}

theorem reduceText_dot (root : Text) (reduced : List Text) (text : Text) :
    reduceText root reduced ('.' :: '/' :: text) = reduceText root reduced text := by
  have single : reduceText root reduced ['.'] = reduced := reduceText_free (by decide) reduced
  have cut : reduceText root reduced (['.'] ++ '/' :: text) = _ := reduceText_append reduced ['.'] text
  rwa [single] at cut

theorem reduceText_replaceDotSegments (root part text : Text) (free : '/' ∉ part) (reduced : List Text) :
    reduceText root reduced (part ++ replaceDotSegments text) = reduceText root reduced (part ++ text) := by
  fun_induction replaceDotSegments text generalizing part reduced with
  | case1 path ih =>
    have later := ih [] (by simp) (reduceStep root reduced part)
    rw [reduceText_append, reduceText_append, reduceText_free free, reduceText_dot]
    exact later
  | case2 c path other ih =>
    by_cases slash : c = '/'
    · have later := ih [] (by simp) (reduceStep root reduced part)
      rw [slash, reduceText_append, reduceText_append, reduceText_free free]
      exact later
    have free' : '/' ∉ part ++ [c] := by
      intro listed
      rcases mem_append.mp listed with old | new
      · exact free old
      · exact slash (mem_singleton.mp new).symm
    have later := ih (part ++ [c]) free' reduced
    simpa using later
  | case3 => rfl

theorem replaceDotSegments_head (text : Text) : (replaceDotSegments text).head? = text.head? := by
  fun_induction replaceDotSegments text <;> rfl

theorem replaceDotSegments_slash (text : Text) : ∃ rest, replaceDotSegments ('/' :: text) = '/' :: rest := by
  have head := replaceDotSegments_head ('/' :: text)
  cases shape : replaceDotSegments ('/' :: text) with
  | nil =>
    rw [shape] at head
    cases head
  | cons c rest =>
    rw [shape] at head
    cases Option.some.inj head
    exact ⟨rest, rfl⟩

theorem replaceDotSegments_front (free : '/' ∉ front) (text : Text) :
    replaceDotSegments (front ++ text) = front ++ replaceDotSegments text := by
  induction front with
  | nil => rfl
  | cons c front ih =>
    have other : c ≠ '/' := fun same => free (by rw [same]; simp)
    have step : replaceDotSegments (c :: (front ++ text)) = c :: replaceDotSegments (front ++ text) := by
      rw [replaceDotSegments]
      rintro path rfl
      exact absurd rfl other
    rw [cons_append, step, ih fun listed => free (mem_cons_of_mem _ listed)]
    rfl

theorem replaceDotSegments_double {back : Text} (shape : text = front ++ '/' :: '/' :: back) :
    ∃ front' back', replaceDotSegments text = front' ++ '/' :: '/' :: back' := by
  fun_induction replaceDotSegments text generalizing front with
  | case1 path ih =>
    match front, shape with
    | [], shape => cases shape
    | [_], shape => cases shape
    | [_, _], shape =>
      cases shape
      obtain ⟨rest, kept⟩ := replaceDotSegments_slash back
      exact ⟨[], rest, by rw [kept]; rfl⟩
    | _ :: _ :: _ :: front, shape =>
      cases shape
      obtain ⟨front', back', later⟩ := ih rfl
      exact ⟨'/' :: front', back', by rw [later]; rfl⟩
  | case2 c path other ih =>
    match front, shape with
    | [], shape =>
      cases shape
      obtain ⟨rest, kept⟩ := replaceDotSegments_slash back
      exact ⟨[], rest, by rw [kept]; rfl⟩
    | _ :: front, shape =>
      cases shape
      obtain ⟨front', back', later⟩ := ih rfl
      exact ⟨c :: front', back', by rw [later]; rfl⟩
  | case3 => exact absurd shape.symm (by simp)

theorem mem_replaceDotSegments {c : Char} (listed : c ∈ replaceDotSegments text) : c ∈ text := by
  fun_induction replaceDotSegments text with
  | case1 path ih =>
    rcases mem_cons.mp listed with rfl | later
    · simp
    · simp [ih later]
  | case2 d path other ih =>
    rcases mem_cons.mp listed with rfl | later
    · simp
    · simp [ih later]
  | case3 => cases listed

def isRootName (front : Text) : Bool :=
  match front with
  | [] => true
  | [c] => c = '^'
  | [v, c] => isVolumeCharacter v && c = ':'
  | _ => false

theorem isRootName_free (name : isRootName front = true) : '/' ∉ front := by
  unfold isRootName at name
  split at name
  · simp
  · simp [of_decide_eq_true name]
  · rename_i v c
    obtain ⟨letter, colon⟩ := Bool.and_eq_true_iff.mp name
    have other : v ≠ '/' := by
      rintro rfl
      exact absurd letter (by decide)
    simp [of_decide_eq_true colon, other.symm]
  · cases name

theorem rootOf_single {path : Text} (slashed : Slashed path) (single : ¬∃ front back, path = front ++ '/' :: '/' :: back) :
    rootOf path = [] ∨ (∃ front, isRootName front = true ∧ rootOf path = front ++ ['/']) ∨
      (∃ v, isVolumeCharacter v = true ∧ path = [v, ':']) := by
  have url : (urlRootOf path).1 = [] := by
    unfold urlRootOf
    split
    · rename_i found
      exact absurd (findScheme_double (by rw [found]; rfl)) single
    · rfl
  have separator : ∀ c ∈ path, isAnyDirectorySeparator c = true → c = '/' := fun c listed => slashed.slash listed
  unfold rootOf encodedRoot
  split
  · exact .inl rfl
  · rename_i c
    split
    · rename_i sep
      exact .inr (.inl ⟨[], rfl, by simp [separator c (by simp) sep]⟩)
    · exact .inl rfl
  rename_i c d rest
  split
  · rename_i sep
    have slash := separator c (by simp) sep
    split
    · exact .inr (.inl ⟨[], rfl, by simp [slash]⟩)
    · rename_i same
      have second : d = '/' := (not_not.mp same).trans slash
      exact absurd ⟨[], rest, by rw [slash, second]; rfl⟩ single
  split
  · rename_i volume
    split
    · exact .inr (.inr ⟨c, volume.1, by rw [volume.2]⟩)
    rename_i s more
    split
    · rename_i sep
      refine .inr (.inl ⟨[c, d], ?_, by simp [separator s (by simp) sep]⟩)
      simp [isRootName, volume]
    · exact .inl url
  · split
    · rename_i untitled
      exact .inr (.inl ⟨['^'], rfl, by simp [untitled.1, untitled.2]⟩)
    · exact .inl url

end TypeScriptRs.Paths
