import TypeScriptRs.Paths.SinglePass

/-! Patterns with at most one star, and the choice of the best of them for a name. -/
namespace TypeScriptRs.Core
open Utf8 Machine Paths List

/-- A text with the offset of its star, or with -1 when it has none. The default is invalid. -/
structure Pattern where
  text : Text := []
  starIndex : Int := 0
  deriving DecidableEq

def tryParsePattern (pattern : Text) : Pattern :=
  if '*' ∉ pattern then ⟨pattern, -1⟩
  else
    let before := pattern.takeWhile (· ≠ '*')
    if '*' ∈ pattern.drop (before.length + 1) then {} else ⟨pattern, bytes before⟩

namespace Pattern

/-- `as usize`, of an index that is not negative. -/
def starOffset (p : Pattern) : Nat := p.starIndex.toNat

def isValid (p : Pattern) : Bool := p.starIndex = -1 || p.starIndex < bytes p.text

/-- The slices of the text are taken one after the other, and only as far as they are needed. -/
def matches_ (p : Pattern) (candidate : Text) : Outcome Bool :=
  if p.starIndex = -1 then .ok (p.text = candidate)
  else if p.starOffset ≤ bytes candidate then do
    let before ← sliced (takeBytes p.text p.starOffset)
    if before.isPrefixOf candidate then do
      let after ← sliced (dropBytes p.text (p.starOffset + 1))
      pure (after.isSuffixOf candidate)
    else pure false
  else .ok false

end Pattern

section
variable {T : Type} (getPattern : T → Pattern) (candidate : Text)

/-- One turn of the loop, on the best value so far and the length of its text before the star. -/
def improve (best : T × Int) (value : T) : Outcome (T × Int) :=
  let pattern := getPattern value
  if pattern.starIndex = -1 ∨ best.2 < pattern.starIndex then do
    if ← pattern.matches_ candidate then pure (value, pattern.starIndex) else pure best
  else .ok best

def findBestPatternMatch [Inhabited T] (values : List T) : Outcome T := do
  let best ← values.foldlM (improve getPattern candidate) (default, -1)
  pure best.1
end

/-- The two kinds of patterns that are parsed from a text with at most one star. -/
inductive Parsed : Pattern → Prop
  | exact (text : Text) : Parsed ⟨text, -1⟩
  | starred (before after : Text) : Parsed ⟨before ++ '*' :: after, bytes before⟩

theorem parsed_tryParsePattern {text : Text} (one : text.count '*' ≤ 1) : Parsed (tryParsePattern text) := by
  unfold tryParsePattern
  split
  · exact .exact text
  rename_i starred
  have shape := Split.takeWhile_cut (not_not.mp starred)
  generalize text.takeWhile (· ≠ '*') = before at shape ⊢
  generalize (text.dropWhile (· ≠ '*')).tail = after at shape
  subst shape
  have rest : (before ++ '*' :: after).drop (before.length + 1) = after := by simp [drop_append]
  rw [count_append, count_cons_self] at one
  have free : '*' ∉ after := count_eq_zero.mp (by omega)
  dsimp only
  rw [rest, if_neg free]
  exact .starred before after

theorem matches_exact (text candidate : Text) : Pattern.matches_ ⟨text, -1⟩ candidate = .ok (text = candidate) := rfl

theorem matches_starred (before after candidate : Text) : Pattern.matches_ ⟨before ++ '*' :: after, bytes before⟩ candidate =
      .ok (before.isPrefixOf candidate && after.isSuffixOf candidate) := by
  have index : ((bytes before : Nat) : Int) ≠ -1 := by omega
  have cut : dropBytes (before ++ '*' :: after) (bytes before + 1) = some after := by
    rw [dropBytes_add]
    exact dropBytes_append ['*'] after
  unfold Pattern.matches_ Pattern.starOffset
  simp only [index, if_false, Int.toNat_natCast, takeBytes_append, cut]
  cases found : before.isPrefixOf candidate with
  | true =>
    have fits : bytes before ≤ bytes candidate := by
      obtain ⟨rest, shape⟩ := List.isPrefixOf_iff_prefix.mp found
      rw [← shape, bytes_append]
      exact Nat.le_add_right _ _
    rw [if_pos fits]
    simp only [sliced, Outcome.monad_bind, Outcome.monad_pure, Outcome.bind_ok, found, if_true, Bool.true_and]
  | false =>
    simp only [sliced, Outcome.monad_bind, Outcome.monad_pure, Outcome.bind_ok, found, Bool.false_eq_true, if_false, Bool.false_and,
      ite_self]

theorem Parsed.matches_ok {p : Pattern} (parsed : Parsed p) (candidate : Text) : ∃ result, p.matches_ candidate = .ok result := by
  cases parsed with
  | exact text => exact ⟨_, matches_exact text candidate⟩
  | starred before after => exact ⟨_, matches_starred before after candidate⟩

theorem Parsed.starIndex_cases {p : Pattern} (parsed : Parsed p) : p.starIndex = -1 ∨ 0 ≤ p.starIndex := by
  cases parsed with
  | exact text => exact .inl rfl
  | starred before after => exact .inr (Int.natCast_nonneg _)

variable {T : Type} {getPattern : T → Pattern} {candidate : Text} {values : List T} {value e : T}

def ExactMatch (getPattern : T → Pattern) (candidate : Text) (value : T) : Prop := getPattern value = ⟨candidate, -1⟩

instance (getPattern : T → Pattern) (candidate : Text) (value : T) : Decidable (ExactMatch getPattern candidate value) :=
  inferInstanceAs (Decidable (getPattern value = ⟨candidate, -1⟩))

def Matches (getPattern : T → Pattern) (candidate : Text) (value : T) : Prop := (getPattern value).matches_ candidate = .ok true

theorem ExactMatch.matches_ (exact_ : ExactMatch getPattern candidate value) : Matches getPattern candidate value := by
  unfold Matches
  rw [exact_, matches_exact]
  exact congrArg Outcome.ok (decide_eq_true rfl)

theorem exactMatch_of_matches (unstarred : (getPattern value).starIndex = -1)
    (fits : Matches getPattern candidate value) : ExactMatch getPattern candidate value := by
  have plain : getPattern value = ⟨(getPattern value).text, -1⟩ := by rw [← unstarred]
  unfold Matches at fits
  rw [plain, matches_exact] at fits
  rw [ExactMatch, plain, of_decide_eq_true (Outcome.ok.inj fits)]

theorem improve_eq (best : T × Int) (value : T) (parsed : Parsed (getPattern value)) :
    (improve getPattern candidate best value = .ok (value, (getPattern value).starIndex) ∧ Matches getPattern candidate value ∧
      ((getPattern value).starIndex = -1 ∨ best.2 < (getPattern value).starIndex)) ∨
    (improve getPattern candidate best value = .ok best ∧
      (Matches getPattern candidate value → (getPattern value).starIndex ≠ -1 ∧ (getPattern value).starIndex ≤ best.2)) := by
  obtain ⟨result, found⟩ := parsed.matches_ok candidate
  unfold improve Matches
  by_cases better : (getPattern value).starIndex = -1 ∨ best.2 < (getPattern value).starIndex
  · cases result with
    | true => exact .inl ⟨by rw [if_pos better, found]; rfl, found, better⟩
    | false =>
      refine .inr ⟨by rw [if_pos better, found]; rfl, fun fits => ?_⟩
      cases fits.symm.trans found
  · refine .inr ⟨if_neg better, fun _ => ?_⟩
    omega

/-- The best value of a part of the list without exact matches, or the one that the search came with. -/
def Scanned (getPattern : T → Pattern) (candidate : Text) (start : T) (done : List T) (best : T × Int) : Prop :=
  (best = (start, -1) ∧ ∀ v ∈ done, ¬ Matches getPattern candidate v) ∨
  (best.1 ∈ done ∧ Matches getPattern candidate best.1 ∧ best.2 = (getPattern best.1).starIndex ∧ 0 ≤ best.2 ∧
    ∀ v ∈ done, Matches getPattern candidate v → (getPattern v).starIndex ≤ best.2)

theorem Scanned.turn {start : T} {done : List T} {best : T × Int} (scanned : Scanned getPattern candidate start done best)
    (parsed : Parsed (getPattern value)) (inexact : ¬ ExactMatch getPattern candidate value) :
    ∃ best', improve getPattern candidate best value = .ok best' ∧ Scanned getPattern candidate start (done ++ [value]) best' := by
  have starred : Matches getPattern candidate value → 0 ≤ (getPattern value).starIndex := fun fits =>
    parsed.starIndex_cases.resolve_left fun unstarred => inexact (exactMatch_of_matches unstarred fits)
  rcases improve_eq best value parsed with ⟨taken, fits, better⟩ | ⟨kept, least⟩
  · have longer : best.2 < (getPattern value).starIndex := better.resolve_left (by have := starred fits; omega)
    refine ⟨_, taken, .inr ⟨by simp, fits, rfl, starred fits, fun v member fits' => ?_⟩⟩
    rcases mem_append.mp member with before | last
    · rcases scanned with ⟨-, unmatched⟩ | ⟨-, -, -, -, longest⟩
      · exact absurd fits' (unmatched v before)
      · exact (longest v before fits').trans longer.le
    · rw [mem_singleton.mp last]
  refine ⟨best, kept, ?_⟩
  rcases scanned with ⟨rfl, unmatched⟩ | ⟨member, fits, length, long, longest⟩
  · refine .inl ⟨rfl, fun v member fits => ?_⟩
    rcases mem_append.mp member with before | last
    · exact unmatched v before fits
    · rw [mem_singleton.mp last] at fits
      have short : (getPattern value).starIndex ≤ -1 := (least fits).2
      have := starred fits
      omega
  · refine .inr ⟨mem_append_left _ member, fits, length, long, fun v member' fits' => ?_⟩
    rcases mem_append.mp member' with before | last
    · exact longest v before fits'
    · rw [mem_singleton.mp last] at fits' ⊢
      exact (least fits').2

theorem scan (start : T) (parsed : ∀ v ∈ values, Parsed (getPattern v)) (inexact : ∀ v ∈ values, ¬ ExactMatch getPattern candidate v) :
    ∃ best, values.foldlM (improve getPattern candidate) (start, -1) = .ok best ∧ Scanned getPattern candidate start values best := by
  have run := foldlM_done (P := Scanned getPattern candidate start) values
    (fun done best value member now => now.turn (parsed value member) (inexact value member)) [] (start, -1)
  simpa using run (.inl ⟨rfl, by simp⟩)

theorem last_exact (values : List T) :
    (∀ v ∈ values, ¬ ExactMatch getPattern candidate v) ∨ ∃ before e after, values = before ++ e :: after ∧
      ExactMatch getPattern candidate e ∧ ∀ v ∈ after, ¬ ExactMatch getPattern candidate v := by
  induction values with
  | nil => exact .inl (by simp)
  | cons v values ih =>
    rcases ih with none | ⟨before, e, after, rfl, exact_, rest⟩
    · by_cases here : ExactMatch getPattern candidate v
      · exact .inr ⟨[], v, values, rfl, here, none⟩
      · exact .inl (forall_mem_cons.mpr ⟨here, none⟩)
    · exact .inr ⟨v :: before, e, after, rfl, exact_, rest⟩

theorem improve_exact (best : T × Int) (exact_ : ExactMatch getPattern candidate e) :
    improve getPattern candidate best e = .ok (e, -1) := by
  unfold improve
  rw [exact_, if_pos (.inl rfl), matches_exact, decide_eq_true rfl]
  rfl

theorem scan_to_exact (before : List T) (parsed : ∀ v ∈ before, Parsed (getPattern v))
    (exact_ : ExactMatch getPattern candidate e) (best : T × Int) :
    (before ++ [e]).foldlM (improve getPattern candidate) best = .ok (e, -1) := by
  obtain ⟨best', run, -⟩ := foldlM_done (P := fun _ _ => True) before (fun done best value member _ => by
    rcases @improve_eq T getPattern candidate best value (parsed value member) with ⟨taken, -⟩ | ⟨kept, -⟩
    · exact ⟨_, taken, trivial⟩
    · exact ⟨_, kept, trivial⟩) [] best trivial
  rw [foldlM_append, run, Outcome.monad_bind, Outcome.bind_ok, foldlM_cons, improve_exact best' exact_]
  rfl

structure IsBest [Inhabited T] (getPattern : T → Pattern) (candidate : Text) (values : List T) (result : T) : Prop where
  exact_ : (∃ v ∈ values, ExactMatch getPattern candidate v) → result ∈ values ∧ ExactMatch getPattern candidate result
  longest : (∀ v ∈ values, ¬ ExactMatch getPattern candidate v) → (∃ v ∈ values, Matches getPattern candidate v) →
    result ∈ values ∧ Matches getPattern candidate result ∧
      ∀ v ∈ values, Matches getPattern candidate v → (getPattern v).starIndex ≤ (getPattern result).starIndex
  invalid : (∀ v ∈ values, ¬ Matches getPattern candidate v) → result = default

/-- No pattern with a star matches after the last exact match. -/
def ExactLast (getPattern : T → Pattern) (candidate : Text) (values : List T) : Prop :=
  ∀ before e after, values = before ++ e :: after → ExactMatch getPattern candidate e →
    (∀ v ∈ after, ¬ ExactMatch getPattern candidate v) → ∀ v ∈ after, ¬ Matches getPattern candidate v

theorem exactLast_iff {before after : List T} (exact_ : ExactMatch getPattern candidate e)
    (rest : ∀ v ∈ after, ¬ ExactMatch getPattern candidate v) :
    ExactLast getPattern candidate (before ++ e :: after) ↔ ∀ v ∈ after, ¬ Matches getPattern candidate v := by
  constructor
  · exact fun last => last before e after rfl exact_ rest
  intro unmatched before' e' after' shape exact' rest'
  -- the last exact match is the same in both
  rcases append_eq_append_iff.mp shape with ⟨middle, rfl, shape'⟩ | ⟨middle, rfl, shape'⟩
  · cases middle with
    | nil =>
      cases shape'
      exact unmatched
    | cons first middle =>
      cases shape'
      exact absurd exact' (rest e' (by simp))
  cases middle with
  | nil =>
    cases shape'
    exact unmatched
  | cons first middle =>
    cases shape'
    exact absurd exact_ (rest' e (by simp))

variable [Inhabited T]

/-- The search returns a result, which is the best exactly if no starred match follows the last exact one. -/
theorem findBestPatternMatch_isBest_iff
    (patterns : ∀ v ∈ values, ∃ text, text.count '*' ≤ 1 ∧ getPattern v = tryParsePattern text) :
    ∃ result, findBestPatternMatch getPattern candidate values = .ok result ∧
      (IsBest getPattern candidate values result ↔ ExactLast getPattern candidate values) := by
  have parsed : ∀ v ∈ values, Parsed (getPattern v) := by
    intro v member
    obtain ⟨text, one, shape⟩ := patterns v member
    exact shape ▸ parsed_tryParsePattern one
  unfold findBestPatternMatch
  rcases @last_exact T getPattern candidate values with inexact | ⟨before, e, after, rfl, exact_, rest⟩
  · obtain ⟨best, run, scanned⟩ := scan default parsed inexact
    refine ⟨best.1, by rw [run]; rfl, iff_of_true ⟨fun ⟨v, member, exact_⟩ => absurd exact_ (inexact v member), ?_, ?_⟩ ?_⟩
    · rintro - ⟨v, member, fits⟩
      rcases scanned with ⟨-, unmatched⟩ | ⟨listed, fits', length, -, longest⟩
      · exact absurd fits (unmatched v member)
      · exact ⟨listed, fits', length ▸ longest⟩
    · intro unmatched
      rcases scanned with ⟨rfl, -⟩ | ⟨listed, fits, -⟩
      · rfl
      · exact absurd fits (unmatched _ listed)
    · rintro before e after rfl exact_ -
      exact absurd exact_ (inexact e (by simp))
  obtain ⟨best, run, scanned⟩ := scan e (fun v member => parsed v (by simp [member])) rest
  have whole : (before ++ e :: after).foldlM (improve getPattern candidate) (default, -1) = .ok best := by
    rw [append_cons, foldlM_append, scan_to_exact before (fun v member => parsed v (by simp [member])) exact_]
    exact run
  refine ⟨best.1, by rw [whole]; rfl, ?_⟩
  rw [exactLast_iff exact_ rest]
  rcases scanned with ⟨rfl, unmatched⟩ | ⟨listed, fits, -⟩
  · refine iff_of_true ⟨fun _ => ⟨by simp, exact_⟩, fun inexact => ?_, fun none => ?_⟩ unmatched
    · exact absurd exact_ (inexact e (by simp))
    · exact absurd exact_.matches_ (none e (by simp))
  · refine iff_of_false (fun best_ => ?_) fun unmatched => unmatched _ listed fits
    exact rest _ listed (best_.exact_ ⟨e, by simp, exact_⟩).2

instance : Inhabited Pattern := ⟨{}⟩

theorem findBestPatternMatch_isBest_iff_two :
    ∃ result, findBestPatternMatch id "foo".toList [tryParsePattern "f*".toList, tryParsePattern "foo".toList] = .ok result ∧
      (IsBest id "foo".toList [tryParsePattern "f*".toList, tryParsePattern "foo".toList] result ↔
        ExactLast id "foo".toList [tryParsePattern "f*".toList, tryParsePattern "foo".toList]) :=
  findBestPatternMatch_isBest_iff (by
    intro v member
    rcases mem_pair.mp member with rfl | rfl
    · exact ⟨"f*".toList, by decide, rfl⟩
    · exact ⟨"foo".toList, by decide, rfl⟩)

/-- The exact pattern is lost when a starred one comes after it. -/
theorem starredAfterExact_wins :
    findBestPatternMatch id "foo".toList [tryParsePattern "foo".toList, tryParsePattern "f*".toList] = .ok (tryParsePattern "f*".toList) ∧
    ¬ IsBest id "foo".toList [tryParsePattern "foo".toList, tryParsePattern "f*".toList] (tryParsePattern "f*".toList) := by
  refine ⟨by decide, fun best => ?_⟩
  exact absurd (best.exact_ ⟨tryParsePattern "foo".toList, by simp, by decide⟩).2 (by decide)

end TypeScriptRs.Core
