import TypeScriptRs.Vfsmatch.WildcardScan

/-! Which names a component with wildcards matches, and for which names its matcher answers. -/
namespace TypeScriptRs.Vfsmatch
open Machine Utf8

section
variable {p : GlobPattern} {segments : List Segment} {name : Text}

theorem Place.initial : Place p segments name [] [] segments [] [] name where
  segments_eq := rfl
  name_eq := rfl
  last := .inl rfl
  taken := .nil
  read := .nil
  starless := by simp [Starless]
  first a' x same more := absurd (List.append_eq_nil_iff.mp same.symm).2 more

theorem Ahead.initial {before done rest : List Segment} {a d value : Text} (cut : Place p segments name before done rest a d value) :
    Ahead p [] [] [] before done a :=
  Ahead.start rfl cut.last rfl .nil cut.taken List.prefix_rfl

theorem matchSegments_cut (free : '/' ∉ name) (cut : Cut p segments name) : p.matchSegments segments name = .panic notBoundary := by
  obtain ⟨before, done, text, rest, a, d, value, place, fits, cutting⟩ := cut
  exact scan_cuts Place.initial place cutting free fits (Ahead.initial place)

theorem matchSegments_answers (filled : Filled segments) (free : '/' ∉ name) :
    (∃ b, p.matchSegments segments name = .ok b ∧ (b = true ↔ Decomposes p segments name)) ∨
      (p.matchSegments segments name = .panic notBoundary ∧ Cut p segments name) :=
  scan_answers filled free Place.initial
end

section
variable {p : GlobPattern} {segments : List Segment} {name : Text}

/-- Hidden names are not for a component that begins with a wildcard. -/
def IsHidden (p : GlobPattern) (segments : List Segment) (name : Text) : Prop :=
  p.isExclude = false ∧ (∃ rest, name = '.' :: rest) ∧ (segments.head? = some .star ∨ segments.head? = some .question)

/-- A minified file is not for a component that does not speak of such files. -/
def IsMinified (p : GlobPattern) (segments : List Segment) (name : Text) : Prop :=
  p.excludeMinJs = true ∧ (∃ stem last, name = stem ++ last ∧ p.stringsEqual last ".min.js".toList = true) ∧
    ∀ text, .literal text ∈ segments → ¬".min.".toList <:+: (if p.caseSensitive then text else toAsciiLowercase text)

def Matches (p : GlobPattern) (segments : List Segment) (name : Text) : Prop :=
  Decomposes p segments name ∧ ¬IsHidden p segments name ∧ ¬IsMinified p segments name

/-- The matcher cuts no character of a name: it does not look at the name, or compares its end only, or scans it. -/
def Uncut (p : GlobPattern) (segments : List Segment) (name : Text) : Prop :=
  IsHidden p segments name ∨
    (∃ suffix, segments = [.star, .literal suffix] ∧
      (bytes suffix ≤ bytes name → ∃ stem last, name = stem ++ last ∧ bytes last = bytes suffix)) ∨
    ((∀ suffix, segments ≠ [.star, .literal suffix]) ∧ ¬Cut p segments name)

theorem isHidden_iff : (!p.isExclude && isHiddenPath name && (segments.head? = some .star || segments.head? = some .question)) = true ↔
    IsHidden p segments name := by
  unfold IsHidden isHiddenPath
  cases name with
  | nil => simp
  | cons c name =>
    simp only [Bool.and_eq_true, Bool.not_eq_true', List.head?_cons, Option.some.injEq, decide_eq_true_eq, Bool.or_eq_true,
      List.cons.injEq, exists_and_left, exists_eq', and_true, and_assoc]

theorem hasMinJsSuffix_iff :
    p.hasMinJsSuffix name = true ↔ ∃ stem last, name = stem ++ last ∧ p.stringsEqual last ".min.js".toList = true := by
  unfold GlobPattern.hasMinJsSuffix GlobPattern.stringsEqual
  by_cases exact : p.caseSensitive = true
  · rw [if_pos exact, List.isSuffixOf_iff_suffix]
    simp only [if_pos exact, decide_eq_true_eq, exists_eq_right]
    exact exists_congr fun stem => eq_comm
  rw [if_neg exact, Option.any_eq_true]
  simp only [if_neg exact]
  constructor
  · rintro ⟨last, cut, equal⟩
    obtain ⟨stem, same, -⟩ := dropBytes_eq_some cut
    exact ⟨stem, last, same, equal⟩
  rintro ⟨stem, last, rfl, equal⟩
  have same : toAsciiLowercase last = toAsciiLowercase ".min.js".toList := of_decide_eq_true equal
  have size : bytes last = 7 := by
    rw [← bytes_lowercase, same]
    rfl
  refine ⟨last, ?_, equal⟩
  rw [bytes_append, size, Nat.add_sub_cancel, dropBytes_append]

theorem patternMentionsMinSuffix_iff : p.patternMentionsMinSuffix segments = true ↔
    ∃ text, .literal text ∈ segments ∧ ".min.".toList <:+: (if p.caseSensitive then text else toAsciiLowercase text) := by
  unfold GlobPattern.patternMentionsMinSuffix
  rw [List.any_eq_true]
  constructor
  · rintro ⟨segment, listed, mentions⟩
    cases segment with
    | literal text =>
      refine ⟨text, listed, ?_⟩
      rcases of_decide_eq_true mentions with long | short
      · have front : ".min.".toList <:+: ".min.js".toList := ⟨[], ['j', 's'], rfl⟩
        exact front.trans long
      · exact short
    | star => cases mentions
    | question => cases mentions
  · rintro ⟨text, listed, mentions⟩
    exact ⟨.literal text, listed, decide_eq_true (.inr mentions)⟩

theorem shouldIncludeMinJs_iff : p.shouldIncludeMinJs name segments = true ↔ ¬IsMinified p segments name := by
  unfold GlobPattern.shouldIncludeMinJs IsMinified
  rw [← hasMinJsSuffix_iff]
  cases p.excludeMinJs with
  | false => simp
  | true =>
    cases p.hasMinJsSuffix name with
    | false => simp
    | true => simp [patternMentionsMinSuffix_iff]

theorem decomposes_suffix_iff (free : '/' ∉ name) {suffix : Text} :
    Decomposes p [.star, .literal suffix] name ↔ ∃ stem last, name = stem ++ last ∧ p.stringsEqual suffix last = true := by
  constructor
  · intro whole
    have whole' : Decomposes p ([.star] ++ [.literal suffix]) name := whole
    obtain ⟨stem, last, same, -, reads⟩ := whole'.split
    exact ⟨stem, last, same, decomposes_literal_iff.mp reads⟩
  · rintro ⟨stem, last, rfl, equal⟩
    exact .star (fun listed => free (List.mem_append_left _ listed)) (decomposes_literal_iff.mpr equal)
end

variable {p : GlobPattern} {segments : List Segment} {name : Text}

def AnswersRightly (p : GlobPattern) (segments : List Segment) (name : Text) : Prop :=
  ∃ b, p.matchWildcard segments name = .ok b ∧ (b = true ↔ Matches p segments name)

theorem answersRightly_hidden (hidden : IsHidden p segments name) : AnswersRightly p segments name := by
  refine ⟨false, ?_, iff_of_false Bool.false_ne_true fun matches_ => matches_.2.1 hidden⟩
  unfold GlobPattern.matchWildcard
  rw [if_pos (isHidden_iff.mpr hidden)]

theorem answersRightly_of {b : Bool} (shown : ¬IsHidden p segments name) (right : b = true ↔ Decomposes p segments name) :
    (b && p.shouldIncludeMinJs name segments) = true ↔ Matches p segments name := by
  rw [Bool.and_eq_true, shouldIncludeMinJs_iff, right]
  exact and_congr_right fun _ => (and_iff_right shown).symm

theorem matchWildcard_suffix {suffix : Text} (shown : ¬IsHidden p [.star, .literal suffix] name) :
    p.matchWildcard [.star, .literal suffix] name =
      if bytes suffix ≤ bytes name then
        (sliced (dropBytes name (bytes name - bytes suffix))).bind fun last =>
          .ok (p.stringsEqual suffix last && p.shouldIncludeMinJs name [.star, .literal suffix])
      else .ok false := by
  unfold GlobPattern.matchWildcard
  rw [if_neg fun hidden => shown (isHidden_iff.mp hidden)]
  rfl

theorem matchWildcard_scan (shown : ¬IsHidden p segments name) (other : ∀ suffix, segments ≠ [.star, .literal suffix]) :
    p.matchWildcard segments name =
      (p.matchSegments segments name).bind fun matched => .ok (matched && p.shouldIncludeMinJs name segments) := by
  unfold GlobPattern.matchWildcard
  rw [if_neg fun hidden => shown (isHidden_iff.mp hidden)]
  split
  · exact absurd rfl (other _)
  · rfl

theorem answersRightly_suffix (free : '/' ∉ name) {suffix : Text} (shown : ¬IsHidden p [.star, .literal suffix] name) :
    AnswersRightly p [.star, .literal suffix] name ↔
      (bytes suffix ≤ bytes name → ∃ stem last, name = stem ++ last ∧ bytes last = bytes suffix) := by
  unfold AnswersRightly
  rw [matchWildcard_suffix shown]
  by_cases fits : bytes suffix ≤ bytes name
  · rw [if_pos fits]
    constructor
    · rintro ⟨b, answer, -⟩ -
      cases cut : dropBytes name (bytes name - bytes suffix) with
      | none =>
        rw [cut] at answer
        cases answer
      | some last =>
        obtain ⟨stem, rfl, size⟩ := dropBytes_eq_some cut
        refine ⟨stem, last, rfl, ?_⟩
        rw [bytes_append] at size fits
        omega
    intro whole
    obtain ⟨stem, last, rfl, size⟩ := whole fits
    have cut : dropBytes (stem ++ last) (bytes (stem ++ last) - bytes suffix) = some last := by
      rw [bytes_append, size, Nat.add_sub_cancel, dropBytes_append]
    rw [cut]
    refine ⟨_, rfl, answersRightly_of shown ?_⟩
    rw [decomposes_suffix_iff free]
    constructor
    · intro equal
      exact ⟨stem, last, rfl, equal⟩
    rintro ⟨stem', last', same, equal⟩
    have cut' : dropBytes (stem ++ last) (bytes (stem ++ last) - bytes suffix) = some last' := by
      rw [same, bytes_append, (stringsEqual_sizes equal).2, Nat.add_sub_cancel, dropBytes_append]
    rw [cut] at cut'
    obtain rfl := Option.some.inj cut'
    exact equal
  · rw [if_neg fits]
    refine iff_of_true ⟨false, rfl, iff_of_false Bool.false_ne_true ?_⟩ fun fits' => absurd fits' fits
    intro matches_
    obtain ⟨stem, last, rfl, equal⟩ := (decomposes_suffix_iff free).mp matches_.1
    rw [bytes_append, (stringsEqual_sizes equal).2] at fits
    exact fits (Nat.le_add_left _ _)

theorem answersRightly_scan (filled : Filled segments) (free : '/' ∉ name) (shown : ¬IsHidden p segments name)
    (other : ∀ suffix, segments ≠ [.star, .literal suffix]) : AnswersRightly p segments name ↔ ¬Cut p segments name := by
  unfold AnswersRightly
  rw [matchWildcard_scan shown other]
  constructor
  · rintro ⟨b, answer, -⟩ cut
    rw [matchSegments_cut free cut] at answer
    cases answer
  intro uncut
  rcases matchSegments_answers filled free with ⟨b, answer, right⟩ | ⟨-, cut⟩
  · rw [answer]
    exact ⟨_, rfl, answersRightly_of shown right⟩
  · exact absurd cut uncut

/-- The matcher of a component answers, and rightly, unless it cuts a character of the name. -/
theorem answersRightly_iff (p : GlobPattern) (component name : Text) (free : '/' ∉ name) :
    AnswersRightly p (parseSegments component) name ↔ Uncut p (parseSegments component) name := by
  have filled : Filled (parseSegments component) := parseSegmentsFrom_filled [] component
  generalize parseSegments component = segments at filled
  unfold Uncut
  by_cases hidden : IsHidden p segments name
  · exact iff_of_true (answersRightly_hidden hidden) (.inl hidden)
  rw [or_iff_right hidden]
  by_cases short : ∃ suffix, segments = [.star, .literal suffix]
  · obtain ⟨suffix, rfl⟩ := short
    rw [answersRightly_suffix free hidden]
    simp
  · have other : ∀ suffix, segments ≠ [.star, .literal suffix] := fun suffix same => short ⟨suffix, same⟩
    rw [answersRightly_scan filled free hidden other]
    simp [other]

def includePattern (component : Text) : GlobPattern where
  components := [parseComponent component true]
  isExclude := false
  caseSensitive := true
  excludeMinJs := true

theorem answersRightly_iff_letters : AnswersRightly (includePattern "a*b?c*".toList) (parseSegments "a*b?c*".toList) "aébécd".toList ↔
    Uncut (includePattern "a*b?c*".toList) (parseSegments "a*b?c*".toList) "aébécd".toList :=
  answersRightly_iff (includePattern "a*b?c*".toList) "a*b?c*".toList "aébécd".toList (by decide)

theorem matchSegmentsFrom_next {s s' : GlobPattern.Scan} (some_ : s.value ≠ []) (next : p.turn s = .ok (some s')) :
    p.matchSegmentsFrom s = p.matchSegmentsFrom s' := by
  rw [GlobPattern.matchSegmentsFrom, if_neg some_]
  split <;> simp_all

theorem matchSegmentsFrom_panics {s : GlobPattern.Scan} {message : String} (some_ : s.value ≠ []) (next : p.turn s = .panic message) :
    p.matchSegmentsFrom s = .panic message := by
  rw [GlobPattern.matchSegmentsFrom, if_neg some_]
  split <;> simp_all

/-- The end of the one name, and a part of the other, is cut inside a character of two bytes. -/
theorem wideName_panics :
    (includePattern "*.ts".toList).matchWildcard (parseSegments "*.ts".toList) "é.d".toList = .panic notBoundary ∧
      (includePattern "a*.ts".toList).matchSegments (parseSegments "a*.ts".toList) "aéé".toList = .panic notBoundary ∧
      ¬∀ (p : GlobPattern) (component name : Text), '/' ∉ name → AnswersRightly p (parseSegments component) name := by
  have ends : (includePattern "*.ts".toList).matchWildcard (parseSegments "*.ts".toList) "é.d".toList = .panic notBoundary := by
    decide +kernel
  refine ⟨ends, ?_, ?_⟩
  · have literal : (includePattern "a*.ts".toList).turn ⟨none, "aéé".toList, 0, parseSegments "a*.ts".toList⟩ =
        .ok (some ⟨none, "aéé".toList, 1, [.star, .literal ".ts".toList]⟩) := by rfl
    have star : (includePattern "a*.ts".toList).turn ⟨none, "aéé".toList, 1, [.star, .literal ".ts".toList]⟩ =
        .ok (some ⟨some [.literal ".ts".toList], "éé".toList, 0, [.literal ".ts".toList]⟩) := by rfl
    unfold GlobPattern.matchSegments
    rw [matchSegmentsFrom_next (by decide) literal, matchSegmentsFrom_next (by decide) star]
    exact matchSegmentsFrom_panics (by decide) rfl
  intro always
  obtain ⟨b, answer, -⟩ := always (includePattern "*.ts".toList) "*.ts".toList "é.d".toList (by decide)
  cases answer

end TypeScriptRs.Vfsmatch
