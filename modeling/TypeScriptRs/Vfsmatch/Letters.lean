import TypeScriptRs.Vfsmatch.Pruning

/-! Names that differ in case only, where case is ignored. -/
namespace TypeScriptRs.Vfsmatch
open Machine Utf8 List

theorem toLower_slash (c : Char) : c.toLower = '/' ↔ c = '/' := toLower_eq_iff (by decide) c

theorem toLower_dot (c : Char) : c.toLower = '.' ↔ c = '.' := toLower_eq_iff (by decide) c

theorem toLower_backslash (c : Char) : c.toLower = '\\' ↔ c = '\\' := toLower_eq_iff (by decide) c

theorem lowercase_lowercase (text : Text) : toAsciiLowercase (toAsciiLowercase text) = toAsciiLowercase text := by
  unfold toAsciiLowercase
  rw [map_map]
  exact map_congr_left fun c _ => toLower_toLower c

theorem bytes_lowercase (text : Text) : bytes (toAsciiLowercase text) = bytes text := bytes_map toLower_utf8Size text

theorem lowercase_head (text : Text) (x : Char) (mark : ∀ c : Char, c.toLower = x ↔ c = x) :
    (toAsciiLowercase text).head? = some x ↔ text.head? = some x := by
  cases text with
  | nil => exact Iff.rfl
  | cons c text =>
    have head : (toAsciiLowercase (c :: text)).head? = some c.toLower := rfl
    rw [head, List.head?_cons, Option.some_inj, Option.some_inj]
    exact mark c

section
variable {p : GlobPattern} {after : List Text → Outcome Bool}

theorem eqIgnoreAsciiCase_lowercase (a b : Text) : eqIgnoreAsciiCase a (toAsciiLowercase b) = eqIgnoreAsciiCase a b := by
  unfold eqIgnoreAsciiCase
  rw [lowercase_lowercase]

theorem eqIgnoreAsciiCase_lowercase_left (a b : Text) : eqIgnoreAsciiCase (toAsciiLowercase a) b = eqIgnoreAsciiCase a b := by
  unfold eqIgnoreAsciiCase
  rw [lowercase_lowercase]

theorem isHiddenPath_lowercase (name : Text) : isHiddenPath (toAsciiLowercase name) = isHiddenPath name := by
  unfold isHiddenPath
  rw [decide_eq_decide]
  exact lowercase_head name '.' toLower_dot

theorem isPackageFolder_lowercase (name : Text) : isPackageFolder (toAsciiLowercase name) = isPackageFolder name := by
  unfold isPackageFolder
  rw [eqIgnoreAsciiCase_lowercase_left, eqIgnoreAsciiCase_lowercase_left, eqIgnoreAsciiCase_lowercase_left]

variable (ignores : p.caseSensitive = false)
include ignores

theorem stringsEqual_lowercase (a b : Text) : p.stringsEqual a (toAsciiLowercase b) = p.stringsEqual a b := by
  unfold GlobPattern.stringsEqual
  rw [ignores, if_neg Bool.false_ne_true, if_neg Bool.false_ne_true, eqIgnoreAsciiCase_lowercase]

theorem shouldIncludeMinJs_lowercase (name : Text) (segments : List Segment) :
    p.shouldIncludeMinJs (toAsciiLowercase name) segments = p.shouldIncludeMinJs name segments := by
  have suffix : p.hasMinJsSuffix (toAsciiLowercase name) = p.hasMinJsSuffix name := by
    unfold GlobPattern.hasMinJsSuffix
    have cut : dropBytes (toAsciiLowercase name) (bytes name - 7) =
        (dropBytes name (bytes name - 7)).map toAsciiLowercase := dropBytes_map toLower_utf8Size name _
    rw [ignores, if_neg Bool.false_ne_true, if_neg Bool.false_ne_true, bytes_lowercase, cut]
    cases dropBytes name (bytes name - 7) with
    | none => rfl
    | some last => exact eqIgnoreAsciiCase_lowercase_left last _
  unfold GlobPattern.shouldIncludeMinJs
  rw [suffix]

def GlobPattern.Scan.lowercase (s : GlobPattern.Scan) : GlobPattern.Scan := { s with starValue := toAsciiLowercase s.starValue }

omit ignores in
theorem Scan.value_lowercase (s : GlobPattern.Scan) : s.lowercase.value = toAsciiLowercase s.value := by
  unfold GlobPattern.Scan.value GlobPattern.Scan.lowercase toAsciiLowercase
  exact map_drop.symm

omit ignores in
theorem Scan.backtrack_lowercase (s : GlobPattern.Scan) : s.lowercase.backtrack = s.backtrack.map GlobPattern.Scan.lowercase := by
  obtain ⟨star, starValue, read, segments⟩ := s
  cases star with
  | none => rfl
  | some rest =>
    cases starValue with
    | nil => rfl
    | cons c starValue =>
      have shape : toAsciiLowercase (c :: starValue) = c.toLower :: toAsciiLowercase starValue := rfl
      unfold GlobPattern.Scan.backtrack GlobPattern.Scan.lowercase
      dsimp only
      rw [shape]
      by_cases slash : c = '/'
      · simp [slash]
      · have other : c.toLower ≠ '/' := fun same => slash ((toLower_slash c).mp same)
        simp [slash, other]

theorem turn_lowercase (s : GlobPattern.Scan) :
    p.turn s.lowercase = (p.turn s).bind fun next => .ok (next.map GlobPattern.Scan.lowercase) := by
  unfold GlobPattern.turn
  rw [Scan.value_lowercase, Scan.backtrack_lowercase]
  have segments : s.lowercase.segments = s.segments := rfl
  rw [segments]
  cases s.segments with
  | nil => rfl
  | cons segment rest =>
    cases segment with
    | star =>
      rfl
    | question =>
      dsimp only
      by_cases slash : s.value.head? = some '/'
      · have slash' := (lowercase_head s.value '/' toLower_slash).mpr slash
        rw [if_neg (by simp [slash']), if_neg (by simp [slash])]
        rfl
      · have slash' : (toAsciiLowercase s.value).head? ≠ some '/' :=
          fun same => slash ((lowercase_head s.value '/' toLower_slash).mp same)
        rw [if_pos slash', if_pos slash]
        rfl
    | literal text =>
      have cut : takeBytes (toAsciiLowercase s.value) (bytes text) =
        (takeBytes s.value (bytes text)).map toAsciiLowercase := takeBytes_map toLower_utf8Size s.value _
      dsimp only
      rw [bytes_lowercase, cut]
      split
      · cases takeBytes s.value (bytes text) with
        | none => rfl
        | some part =>
          have length : (toAsciiLowercase part).length = part.length := length_map _
          simp only [Option.map_some, sliced, Outcome.monad_bind, Outcome.bind_ok, stringsEqual_lowercase ignores, length]
          cases p.stringsEqual text part <;> rfl
      · rfl

theorem matchSegmentsFrom_lowercase (s : GlobPattern.Scan) : p.matchSegmentsFrom s.lowercase = p.matchSegmentsFrom s := by
  have empty : ∀ s : GlobPattern.Scan, s.lowercase.value = [] ↔ s.value = [] := by
    intro s
    rw [Scan.value_lowercase]
    exact map_eq_nil_iff
  fun_induction GlobPattern.matchSegmentsFrom p s with
  | case1 s done =>
    rw [GlobPattern.matchSegmentsFrom, if_pos ((empty s).mpr done)]
    rfl
  | case2 s go s' next ih =>
    have next' := turn_lowercase ignores s
    rw [GlobPattern.matchSegmentsFrom, if_neg fun done => go ((empty s).mp done)]
    split <;> simp_all
  | case3 s go next =>
    have next' := turn_lowercase ignores s
    rw [GlobPattern.matchSegmentsFrom, if_neg fun done => go ((empty s).mp done)]
    split <;> simp_all
  | case4 s go m next =>
    have next' := turn_lowercase ignores s
    rw [GlobPattern.matchSegmentsFrom, if_neg fun done => go ((empty s).mp done)]
    split <;> simp_all [Outcome.bind]
  | case5 s go m next =>
    have next' := turn_lowercase ignores s
    rw [GlobPattern.matchSegmentsFrom, if_neg fun done => go ((empty s).mp done)]
    split <;> simp_all [Outcome.bind]

theorem matchWildcard_lowercase (segments : List Segment) (name : Text) :
    p.matchWildcard segments (toAsciiLowercase name) = p.matchWildcard segments name := by
  have rest : p.matchSegments segments (toAsciiLowercase name) = p.matchSegments segments name :=
    matchSegmentsFrom_lowercase ignores ⟨none, name, 0, segments⟩
  unfold GlobPattern.matchWildcard
  rw [isHiddenPath_lowercase, bytes_lowercase, shouldIncludeMinJs_lowercase ignores, rest]
  split
  · rfl
  split
  · rename_i suffix _
    have cut : dropBytes (toAsciiLowercase name) (bytes name - bytes suffix) =
      (dropBytes name (bytes name - bytes suffix)).map toAsciiLowercase := dropBytes_map toLower_utf8Size name _
    rw [cut]
    split
    · cases dropBytes name (bytes name - bytes suffix) with
      | none => rfl
      | some last => simp only [Option.map_some, sliced, Outcome.monad_bind, Outcome.bind_ok, stringsEqual_lowercase ignores]
    · rfl
  · rfl

omit ignores in
theorem onePart_lowercase {prefixOnly : Bool} {takes : Text → Outcome Bool}
    (taken : ∀ part, takes (toAsciiLowercase part) = takes part)
    (later : ∀ parts, after (parts.map toAsciiLowercase) = after parts) (parts : List Text) :
    GlobPattern.onePart after prefixOnly takes (parts.map toAsciiLowercase) = GlobPattern.onePart after prefixOnly takes parts := by
  cases parts with
  | nil => rfl
  | cons part parts => rw [map_cons, onePart_cons, onePart_cons, taken, later]

omit ignores in
theorem overParts_lowercase {atEnd : Bool}
    (later : ∀ parts, after (parts.map toAsciiLowercase) = after parts) (parts : List Text) :
    p.overParts after atEnd (parts.map toAsciiLowercase) = p.overParts after atEnd parts := by
  induction parts with
  | nil => rfl
  | cons part parts ih =>
    have here := later (part :: parts)
    rw [map_cons] at here ⊢
    rw [overParts_cons, overParts_cons, here, isHiddenPath_lowercase, isPackageFolder_lowercase, ih]

theorem matchPathParts_lowercase (prefixOnly : Bool) (components : List Component) (parts : List Text) :
    p.matchPathParts prefixOnly components (parts.map toAsciiLowercase) = p.matchPathParts prefixOnly components parts := by
  induction components generalizing parts with
  | nil => simp [GlobPattern.matchPathParts]
  | cons component components ih =>
    cases component with
    | doubleAsterisk => exact overParts_lowercase ih parts
    | literal text =>
      refine onePart_lowercase (fun part => ?_) ih parts
      rw [stringsEqual_lowercase ignores]
    | wildcard segments skip =>
      refine onePart_lowercase (fun part => ?_) ih parts
      unfold GlobPattern.takesWildcard
      rw [isPackageFolder_lowercase, matchWildcard_lowercase ignores]

omit ignores in
theorem pathParts_lowercase (path : Text) : pathParts (toAsciiLowercase path) = (pathParts path).map toAsciiLowercase := by
  have head := lowercase_head path '/' toLower_slash
  have pieces : (toAsciiLowercase path).splitOn '/' = (path.splitOn '/').map toAsciiLowercase :=
    Split.splitOn_map toLower_slash path
  have kept : (fun part : Text => decide (part ≠ [])) ∘ toAsciiLowercase = fun part => decide (part ≠ []) := by
    funext part
    simp [toAsciiLowercase]
  unfold pathParts
  rw [pieces, map_append, filter_map, kept]
  congr 1
  by_cases slash : path.head? = some '/'
  · rw [if_pos slash, if_pos (head.mpr slash)]
    rfl
  · rw [if_neg slash, if_neg fun same => slash (head.mp same)]
    rfl

theorem matchPathParts_alike {path path' : Text} (alike : toAsciiLowercase path = toAsciiLowercase path') (prefixOnly : Bool)
    (components : List Component) :
    p.matchPathParts prefixOnly components (pathParts path) = p.matchPathParts prefixOnly components (pathParts path') := by
  rw [← matchPathParts_lowercase ignores, ← matchPathParts_lowercase ignores prefixOnly components (pathParts path'),
    ← pathParts_lowercase, ← pathParts_lowercase, alike]
end

variable {includes excludes : List Text} {basePath : Text} {caseSensitive : Bool} {usage : Usage}
variable {p : GlobPattern} {test test' : GlobPattern → Outcome Bool} {patterns : List GlobPattern}

theorem patterns_caseSensitive (listed : p ∈ (newGlobMatcher includes excludes basePath caseSensitive usage).includes ∨
      p ∈ (newGlobMatcher includes excludes basePath caseSensitive usage).excludes) : p.caseSensitive = caseSensitive := by
  rcases listed with listed | listed
  · obtain ⟨spec, -, compiled⟩ := mem_filterMap.mp listed
    exact (compileGlobPattern_isExclude compiled).2
  · obtain ⟨spec, -, compiled⟩ := mem_filterMap.mp listed
    exact (compileGlobPattern_isExclude compiled).2

theorem anyMatches_congr (same : ∀ p ∈ patterns, test p = test' p) : anyMatches test patterns = anyMatches test' patterns := by
  induction patterns with
  | nil => rfl
  | cons p patterns ih =>
    unfold anyMatches
    rw [same p (by simp), ih fun q listed => same q (mem_cons_of_mem _ listed)]

theorem positionMatches_congr (start : Nat)
    (same : ∀ p ∈ patterns, test p = test' p) : positionMatches test start patterns = positionMatches test' start patterns := by
  induction patterns generalizing start with
  | nil => rfl
  | cons p patterns ih =>
    unfold positionMatches
    rw [same p (by simp), ih _ fun q listed => same q (mem_cons_of_mem _ listed)]

variable {front front' name : Text} (alike : canonicalFileName front caseSensitive = canonicalFileName front' caseSensitive)
include alike

theorem matchPathParts_canonical (same : p.caseSensitive = caseSensitive) (prefixOnly : Bool) :
    p.matchPathParts prefixOnly p.components (pathParts (front ++ name)) =
      p.matchPathParts prefixOnly p.components (pathParts (front' ++ name)) := by
  unfold canonicalFileName at alike
  cases caseSensitive with
  | true =>
    rw [if_pos rfl, if_pos rfl] at alike
    rw [alike]
  | false =>
    rw [if_neg Bool.false_ne_true, if_neg Bool.false_ne_true] at alike
    refine matchPathParts_alike same ?_ prefixOnly p.components
    unfold toAsciiLowercase at alike ⊢
    rw [map_append, map_append, alike]

theorem matchesFileParts_canonical : (newGlobMatcher includes excludes basePath caseSensitive usage).matchesFileParts front name =
      (newGlobMatcher includes excludes basePath caseSensitive usage).matchesFileParts front' name := by
  generalize shape : newGlobMatcher includes excludes basePath caseSensitive usage = m
  have excluded : anyMatches (·.matchesParts front name) m.excludes = anyMatches (·.matchesParts front' name) m.excludes :=
    anyMatches_congr fun p listed => matchPathParts_canonical alike (patterns_caseSensitive (.inr (shape ▸ listed))) false
  have included : positionMatches (·.matchesParts front name) 0 m.includes =
      positionMatches (·.matchesParts front' name) 0 m.includes :=
    positionMatches_congr 0 fun p listed =>
      matchPathParts_canonical alike (patterns_caseSensitive (.inl (shape ▸ listed))) false
  unfold GlobMatcher.matchesFileParts
  rw [excluded, included]

theorem matchesDirectoryParts_canonical :
    (newGlobMatcher includes excludes basePath caseSensitive usage).matchesDirectoryParts front name =
      (newGlobMatcher includes excludes basePath caseSensitive usage).matchesDirectoryParts front' name := by
  generalize shape : newGlobMatcher includes excludes basePath caseSensitive usage = m
  have excluded : anyMatches (·.matchesParts front name) m.excludes = anyMatches (·.matchesParts front' name) m.excludes :=
    anyMatches_congr fun p listed => matchPathParts_canonical alike (patterns_caseSensitive (.inr (shape ▸ listed))) false
  have included : anyMatches (·.matchesPrefixParts front name) m.includes =
      anyMatches (·.matchesPrefixParts front' name) m.includes :=
    anyMatches_congr fun p listed => matchPathParts_canonical alike (patterns_caseSensitive (.inl (shape ▸ listed))) true
  unfold GlobMatcher.matchesDirectoryParts
  rw [excluded, included]

end TypeScriptRs.Vfsmatch
