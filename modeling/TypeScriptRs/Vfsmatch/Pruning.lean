import TypeScriptRs.Vfsmatch.Walk

/-! No directory is left out that has a matching file below it. -/
namespace TypeScriptRs.Vfsmatch
open Machine Utf8 List Outcome

section
variable {p : GlobPattern} {after after' : List Text → Outcome Bool} {takes : Text → Outcome Bool} {atEnd : Bool}

/-- The pattern of an include as directories are tested by it. -/
def GlobPattern.forDirectories (p : GlobPattern) : GlobPattern := { p with excludeMinJs := false }

theorem bind_ne_false {test : Outcome Bool} {next : Bool → Outcome Bool} (go : ∀ b, test = .ok b → next b ≠ .ok false) :
    test.bind next ≠ .ok false := by
  cases test with
  | ok b => exact go b rfl
  | err m => exact fun same => by cases same
  | panic m => exact fun same => by cases same

theorem onePart_cons (after : List Text → Outcome Bool) (prefixOnly : Bool) (takes : Text → Outcome Bool) (part : Text)
    (parts : List Text) : GlobPattern.onePart after prefixOnly takes (part :: parts) =
      (takes part).bind fun taken => if taken then after parts else .ok false := rfl

theorem overParts_cons (after : List Text → Outcome Bool) (atEnd : Bool) (part : Text) (parts : List Text) :
    p.overParts after atEnd (part :: parts) = (after (part :: parts)).bind fun matched =>
      if matched then .ok true
      else if !p.isExclude && (isHiddenPath part || isPackageFolder part) then .ok false
      else p.overParts after atEnd parts := rfl

theorem matchPathParts_doubleAsterisk (prefixOnly : Bool) (components : List Component) :
    p.matchPathParts prefixOnly (.doubleAsterisk :: components) =
      p.overParts (p.matchPathParts prefixOnly components) (prefixOnly || GlobPattern.patternSatisfied components) := rfl

theorem matchPathParts_literal (prefixOnly : Bool) (text : Text) (components : List Component) :
    p.matchPathParts prefixOnly (.literal text :: components) =
      GlobPattern.onePart (p.matchPathParts prefixOnly components) prefixOnly fun part => .ok (p.stringsEqual text part) := rfl

theorem matchPathParts_wildcard (prefixOnly : Bool) (segments : List Segment) (skip : Bool) (components : List Component) :
    p.matchPathParts prefixOnly (.wildcard segments skip :: components) =
      GlobPattern.onePart (p.matchPathParts prefixOnly components) prefixOnly (p.takesWildcard segments skip) := rfl

theorem matchSegments_forDirectories (segments : List Segment) (value : Text) :
    p.forDirectories.matchSegments segments value = p.matchSegments segments value := by
  unfold GlobPattern.matchSegments
  generalize (⟨none, value, 0, segments⟩ : GlobPattern.Scan) = s
  fun_induction GlobPattern.matchSegmentsFrom p s with
  | case1 s done => rw [GlobPattern.matchSegmentsFrom, if_pos done]
  | case2 s go s' next ih =>
    rw [GlobPattern.matchSegmentsFrom, if_neg go]
    have same : p.forDirectories.turn s = .ok (some s') := next
    split <;> simp_all
  | case3 s go next =>
    rw [GlobPattern.matchSegmentsFrom, if_neg go]
    have same : p.forDirectories.turn s = .ok none := next
    split <;> simp_all
  | case4 s go m next =>
    rw [GlobPattern.matchSegmentsFrom, if_neg go]
    have same : p.forDirectories.turn s = .err m := next
    split <;> simp_all
  | case5 s go m next =>
    rw [GlobPattern.matchSegmentsFrom, if_neg go]
    have same : p.forDirectories.turn s = .panic m := next
    split <;> simp_all

theorem shouldIncludeMinJs_forDirectories (value : Text) (segments : List Segment) :
    p.forDirectories.shouldIncludeMinJs value segments = true := by
  simp [GlobPattern.shouldIncludeMinJs, GlobPattern.forDirectories]

theorem matchWildcard_forDirectories {segments : List Segment} {value : Text}
    (matched : p.matchWildcard segments value = .ok true) : p.forDirectories.matchWildcard segments value = .ok true := by
  unfold GlobPattern.matchWildcard at matched ⊢
  split at matched
  · cases matched
  rename_i visible
  have visible' : ¬(!p.forDirectories.isExclude && isHiddenPath value &&
      (segments.head? = some .star || segments.head? = some .question)) = true := visible
  rw [if_neg visible']
  split at matched
  · rename_i suffix
    split at matched
    · rename_i long
      obtain ⟨last, cut, result⟩ := bind_eq_ok matched
      have both := Bool.and_eq_true_iff.mp (Outcome.ok.inj result)
      have equal : p.forDirectories.stringsEqual suffix last = true := both.1
      rw [if_pos long, cut, monad_bind, bind_ok, shouldIncludeMinJs_forDirectories, equal]
      rfl
    · cases matched
  · rename_i other
    obtain ⟨b, found, result⟩ := bind_eq_ok matched
    have both := Bool.and_eq_true_iff.mp (Outcome.ok.inj result)
    rw [matchSegments_forDirectories, found, monad_bind, bind_ok, shouldIncludeMinJs_forDirectories,
      both.1]
    rfl

theorem onePart_prefix {takes' : Text → Outcome Bool} (taken : ∀ part, takes part = .ok true → takes' part = .ok true)
    (later : ∀ parts more, after (parts ++ more) = .ok true → after' parts ≠ .ok false) (parts more : List Text)
    (matched : GlobPattern.onePart after false takes (parts ++ more) = .ok true) :
    GlobPattern.onePart after' true takes' parts ≠ .ok false := by
  cases parts with
  | nil => simp [GlobPattern.onePart]
  | cons part parts =>
    obtain ⟨b, took, result⟩ := bind_eq_ok matched
    cases b with
    | false => cases result
    | true =>
      rw [onePart_cons, taken part took]
      exact later parts more result

theorem overParts_prefix {q : GlobPattern} (kind : q.isExclude = p.isExclude)
    (later : ∀ parts more, after (parts ++ more) = .ok true → after' parts ≠ .ok false) (parts more : List Text)
    (matched : p.overParts after atEnd (parts ++ more) = .ok true) : q.overParts after' true parts ≠ .ok false := by
  induction parts with
  | nil => simp [GlobPattern.overParts]
  | cons part parts ih =>
    obtain ⟨b, first, result⟩ := bind_eq_ok matched
    rw [overParts_cons, kind]
    refine bind_ne_false fun b' first' => ?_
    cases b' with
    | true => simp
    | false =>
      cases b with
      | true => exact absurd first' (later (part :: parts) more first)
      | false =>
        rw [if_neg Bool.false_ne_true] at result ⊢
        split at result
        · cases result
        · rename_i visible
          rw [if_neg visible]
          exact ih result

theorem matchPathParts_prefix (kind : p.isExclude = false) (components : List Component) : ∀ parts more,
    p.matchPathParts false components (parts ++ more) = .ok true →
      p.forDirectories.matchPathParts true components parts ≠ .ok false := by
  induction components with
  | nil =>
    intro parts more matched
    cases parts with
    | nil => simp [GlobPattern.matchPathParts]
    | cons part parts => simp [GlobPattern.matchPathParts, kind] at matched
  | cons component components ih =>
    intro parts more matched
    cases component with
    | doubleAsterisk =>
      have same : p.forDirectories.isExclude = p.isExclude := rfl
      rw [matchPathParts_doubleAsterisk] at matched ⊢
      exact overParts_prefix same ih parts more matched
    | literal text =>
      rw [matchPathParts_literal] at matched ⊢
      exact onePart_prefix (fun _ same => same) ih parts more matched
    | wildcard segments skip =>
      rw [matchPathParts_wildcard] at matched ⊢
      refine onePart_prefix (fun part taken => ?_) ih parts more matched
      unfold GlobPattern.takesWildcard at taken ⊢
      split at taken
      · cases taken
      · rename_i other
        rw [if_neg other]
        exact matchWildcard_forDirectories taken

theorem matchPathParts_satisfied (kind : p.isExclude = true) {components : List Component}
    (satisfied : GlobPattern.patternSatisfied components = true) (parts : List Text) :
    p.matchPathParts false components parts = .ok true := by
  induction components generalizing parts with
  | nil => simp [GlobPattern.matchPathParts, kind]
  | cons component components ih =>
    unfold GlobPattern.patternSatisfied at satisfied
    rw [all_cons] at satisfied
    obtain ⟨here, later⟩ := Bool.and_eq_true_iff.mp satisfied
    cases of_decide_eq_true here
    cases parts with
    | nil =>
      have all : GlobPattern.patternSatisfied components = true := later
      simp [GlobPattern.matchPathParts, GlobPattern.overParts, all]
    | cons part parts =>
      unfold GlobPattern.matchPathParts GlobPattern.overParts
      rw [ih later]
      rfl

section
variable (later : ∀ parts more, after parts = .ok true → after (parts ++ more) ≠ .ok false)
include later

theorem onePart_below (parts more : List Text) (matched : GlobPattern.onePart after false takes parts = .ok true) :
    GlobPattern.onePart after false takes (parts ++ more) ≠ .ok false := by
  cases parts with
  | nil => cases matched
  | cons part parts =>
    rw [onePart_cons] at matched
    obtain ⟨b, took, result⟩ := bind_eq_ok matched
    cases b with
    | false => cases result
    | true =>
      rw [cons_append, onePart_cons, took]
      exact later parts more result

theorem overParts_below (whole : atEnd = true → ∀ parts, p.overParts after atEnd parts = .ok true) (parts more : List Text)
    (matched : p.overParts after atEnd parts = .ok true) : p.overParts after atEnd (parts ++ more) ≠ .ok false := by
  induction parts with
  | nil =>
    rw [nil_append, whole (Outcome.ok.inj matched) more]
    simp
  | cons part parts ih =>
    obtain ⟨b, first, result⟩ := bind_eq_ok matched
    rw [cons_append, overParts_cons]
    refine bind_ne_false fun b' first' => ?_
    cases b' with
    | true => simp
    | false =>
      cases b with
      | true => exact absurd first' (later (part :: parts) more first)
      | false =>
        rw [if_neg Bool.false_ne_true] at result ⊢
        split at result
        · cases result
        · rename_i visible
          rw [if_neg visible]
          exact ih result
end

theorem matchPathParts_below (kind : p.isExclude = true) (components : List Component) : ∀ parts more,
    p.matchPathParts false components parts = .ok true →
      p.matchPathParts false components (parts ++ more) ≠ .ok false := by
  induction components with
  | nil =>
    simp [GlobPattern.matchPathParts, kind]
  | cons component components ih =>
    intro parts more matched
    cases component with
    | literal text =>
      rw [matchPathParts_literal] at matched ⊢
      exact onePart_below ih parts more matched
    | wildcard segments skip =>
      rw [matchPathParts_wildcard] at matched ⊢
      exact onePart_below ih parts more matched
    | doubleAsterisk =>
      have whole : (false || GlobPattern.patternSatisfied components) = true → ∀ parts,
          p.matchPathParts false (.doubleAsterisk :: components) parts = .ok true := by
        intro satisfied parts
        refine matchPathParts_satisfied kind ?_ parts
        simpa [GlobPattern.patternSatisfied] using satisfied
      rw [matchPathParts_doubleAsterisk] at matched whole ⊢
      exact overParts_below ih whole parts more matched
end

variable {usage : Usage} {p : GlobPattern} {test : GlobPattern → Outcome Bool} {patterns : List GlobPattern} {index : Nat}
  {front : Text}

theorem compileGlobPattern_directories (spec basePath : Text) (caseSensitive : Bool) :
    compileGlobPattern spec basePath .directories caseSensitive =
      (compileGlobPattern spec basePath .files caseSensitive).map GlobPattern.forDirectories := by
  unfold compileGlobPattern
  by_cases last : (getNormalizedPathComponents spec basePath).getLast? = some ['*', '*']
  · rw [if_pos ⟨by decide, last⟩, if_pos ⟨by decide, last⟩]
    rfl
  have kept : ∀ usage : Usage,
      ¬(usage ≠ .exclude ∧ (getNormalizedPathComponents spec basePath).getLast? = some ['*', '*']) :=
    fun _ both => last both.2
  rw [if_neg (kept _), if_neg (kept _)]
  rfl

theorem compileGlobPattern_isExclude {spec basePath : Text} {caseSensitive : Bool}
    (compiled : compileGlobPattern spec basePath usage caseSensitive = some p) :
    p.isExclude = decide (usage = .exclude) ∧ p.caseSensitive = caseSensitive := by
  unfold compileGlobPattern at compiled
  dsimp only at compiled
  split at compiled
  · cases compiled
  · cases compiled
    exact ⟨rfl, rfl⟩

theorem anyMatches_true (found : anyMatches test patterns = .ok true) : ∃ p ∈ patterns, test p = .ok true := by
  induction patterns with
  | nil => cases found
  | cons p patterns ih =>
    obtain ⟨b, here, result⟩ := bind_eq_ok found
    cases b with
    | true => exact ⟨p, by simp, here⟩
    | false =>
      obtain ⟨p', listed, later⟩ := ih result
      exact ⟨p', mem_cons_of_mem _ listed, later⟩

theorem anyMatches_false (none : anyMatches test patterns = .ok false) : ∀ p ∈ patterns, test p = .ok false := by
  induction patterns with
  | nil => simp
  | cons p patterns ih =>
    obtain ⟨b, here, result⟩ := bind_eq_ok none
    cases b with
    | true => cases result
    | false =>
      intro p' listed
      rcases mem_cons.mp listed with rfl | later
      · exact here
      · exact ih result p' later

theorem positionMatches_some {start : Nat} (found : positionMatches test start patterns = .ok (some index)) :
    ∃ p ∈ patterns, test p = .ok true ∧ start ≤ index ∧ index < start + patterns.length := by
  induction patterns generalizing start with
  | nil => cases found
  | cons p patterns ih =>
    obtain ⟨b, here, result⟩ := bind_eq_ok found
    cases b with
    | true =>
      cases result
      exact ⟨p, by simp, here, Nat.le_refl _, by simp⟩
    | false =>
      obtain ⟨p', listed, later, low, high⟩ := ih result
      refine ⟨p', mem_cons_of_mem _ listed, later, by omega, ?_⟩
      rw [length_cons]
      omega

variable {includes excludes : List Text} {basePath : Text} {caseSensitive : Bool}

theorem includes_directories : (newGlobMatcher includes excludes basePath caseSensitive .directories).includes =
    (newGlobMatcher includes excludes basePath caseSensitive .files).includes.map GlobPattern.forDirectories := by
  unfold newGlobMatcher
  dsimp only
  rw [map_filterMap]
  congr 1
  funext spec
  exact compileGlobPattern_directories spec basePath caseSensitive

theorem includes_kind (other : usage ≠ .exclude)
    (listed : p ∈ (newGlobMatcher includes excludes basePath caseSensitive usage).includes) : p.isExclude = false := by
  obtain ⟨spec, -, compiled⟩ := mem_filterMap.mp listed
  rw [(compileGlobPattern_isExclude compiled).1]
  exact decide_eq_false other

theorem excludes_kind
    (listed : p ∈ (newGlobMatcher includes excludes basePath caseSensitive usage).excludes) : p.isExclude = true := by
  obtain ⟨spec, -, compiled⟩ := mem_filterMap.mp listed
  rw [(compileGlobPattern_isExclude compiled).1]
  rfl

theorem pathParts_append (some_ : front ≠ []) (back : Text) :
    pathParts (front ++ '/' :: back) = pathParts front ++ (back.splitOn '/').filter (· ≠ []) := by
  have head : (front ++ '/' :: back).head? = front.head? := by
    obtain ⟨c, front, rfl⟩ := exists_cons_of_ne_nil some_
    rfl
  unfold pathParts
  rw [head, splitOn_append_cons_self, filter_append, append_assoc]

theorem matchesDirectoryParts_of_file {name front' file back : Text} (some_ : front ++ name ≠ [])
    (below : front' ++ file = front ++ name ++ '/' :: back)
    (accepted : (newGlobMatcher includes excludes basePath caseSensitive .files).matchesFileParts front' file =
      .ok (some index)) :
    (newGlobMatcher includes excludes basePath caseSensitive .directories).matchesDirectoryParts front name ≠ .ok false := by
  have parts : pathParts (front' ++ file) = pathParts (front ++ name) ++ (back.splitOn '/').filter (· ≠ []) := by
    rw [below]
    exact pathParts_append some_ back
  obtain ⟨excluded, none, result⟩ := bind_eq_ok accepted
  cases excluded with
  | true => cases result
  | false =>
    refine bind_ne_false fun excluded' result' => ?_
    cases excluded' with
    | true =>
      obtain ⟨p, listed, matched⟩ := anyMatches_true result'
      have rejected := anyMatches_false none p listed
      unfold GlobPattern.matchesParts at rejected
      rw [parts] at rejected
      exact absurd rejected (matchPathParts_below (excludes_kind listed) _ _ _ matched)
    | false =>
      rw [if_neg Bool.false_ne_true] at result ⊢
      split at result
      · rename_i empty
        have had : (newGlobMatcher includes excludes basePath caseSensitive .files).hadIncludes = false := by
          cases had : (newGlobMatcher includes excludes basePath caseSensitive .files).hadIncludes with
          | false => rfl
          | true =>
            rw [had] at result
            cases result
        have had' : (newGlobMatcher includes excludes basePath caseSensitive .directories).hadIncludes = false := had
        rw [includes_directories, empty, map_nil, if_pos rfl, had']
        simp [monad_pure]
      · rename_i filled
        obtain ⟨p, listed, matched, -⟩ := positionMatches_some result
        unfold GlobPattern.matchesParts at matched
        rw [parts] at matched
        have passes := matchPathParts_prefix (includes_kind (by decide) listed) _ _ _ matched
        rw [includes_directories, if_neg (by simpa using filled)]
        intro none
        exact passes (anyMatches_false none p.forDirectories (mem_map_of_mem listed))

end TypeScriptRs.Vfsmatch
