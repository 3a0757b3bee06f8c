import TypeScriptRs.Lsconv.UriEscapes

/-! The URIs of watched directories. The URI parser is a parameter. -/
namespace TypeScriptRs.Project.Watch
open Utf8 Machine Paths Lsconv List

def generated (fileName : Text) : Text :=
  let normalized := normalizeSlashes fileName
  if "file://".toList.isPrefixOf normalized then normalized
  else if "/".toList.isPrefixOf normalized then "file://".toList ++ normalized
  else "file:///".toList ++ normalized

def fileNameToDocumentUri (uriFromStr : Text → Option Text) (fileName : Text) : Outcome Text :=
  match uriFromStr (generated fileName) with
  | some uri => .ok uri
  | none => .panic "generated file URI should parse"

/-- What the code relies on: a URI is kept as it is written, and a file URI may have any path without escapes. -/
structure UriParser (uriFromStr : Text → Option Text) : Prop where
  keeps : ∀ text uri, uriFromStr text = some uri → uri = text
  file : ∀ path, (∀ c ∈ path, isUnreserved c = true ∨ c = '/') →
    uriFromStr ("file:///".toList ++ path) = some ("file:///".toList ++ path)

theorem length_escapedPath (path : Text) : path.length ≤ (escapedPath path).length ∧
    ((escapedPath path).length = path.length → ∀ c ∈ path, isUnreserved c = true ∨ c = '/') := by
  induction path with
  | nil => exact ⟨le_refl 0, fun _ c listed => absurd listed not_mem_nil⟩
  | cons c path ih =>
    obtain ⟨longer, plain⟩ := ih
    have here : 1 ≤ (if c = '/' then ['/'] else escapeChar c).length ∧
        ((if c = '/' then ['/'] else escapeChar c).length = 1 → isUnreserved c = true ∨ c = '/') := by
      split
      · rename_i slash
        exact ⟨le_refl 1, fun _ => .inr slash⟩
      · exact ⟨(length_escapeChar c).1, fun one => .inl ((length_escapeChar c).2 one)⟩
    have cut : (escapedPath (c :: path)).length =
        (if c = '/' then ['/'] else escapeChar c).length + (escapedPath path).length := by
      rw [escapedPath, flatMap_cons, length_append, escapedPath]
    rw [cut, length_cons]
    constructor
    · omega
    · intro same d listed
      rcases mem_cons.mp listed with rfl | listed
      · exact here.2 (by omega)
      · exact plain (by omega) d listed

theorem escapedPath_eq_slash {path rest : Text} (escaped : escapedPath path = '/' :: rest) :
    ∃ path', path = '/' :: path' ∧ rest = escapedPath path' := by
  cases path with
  | nil => cases escaped
  | cons c path =>
    by_cases slash : c = '/'
    · subst slash
      exact ⟨path, rfl, (List.cons.inj escaped).2.symm⟩
    have cut : escapedPath (c :: path) = escapeChar c ++ escapedPath path := by
      rw [escapedPath, flatMap_cons, if_neg slash, escapedPath]
    obtain ⟨d, more, made⟩ := exists_cons_of_length_pos (length_escapeChar c).1
    rw [cut, made, cons_append] at escaped
    have plain := plain_escapeChar (c := c) (d := d) (by rw [made]; exact mem_cons_self)
    rw [(List.cons.inj escaped).1] at plain
    exact absurd plain slash_notPlain

theorem escapedPath_plain {path : Text} (plain : ∀ c ∈ path, isUnreserved c = true ∨ c = '/') : escapedPath path = path := by
  have same : ∀ c ∈ path, (if c = '/' then ['/'] else escapeChar c) = [c] := by
    intro c listed
    split
    · rename_i slash
      rw [slash]
    · rename_i other
      exact if_pos ((plain c listed).resolve_right other)
  rw [escapedPath, flatMap_congr same]
  exact flatMap_singleton' path

theorem trimDoubleSlashes_notDouble (path rest : Text) : trimDoubleSlashes path ≠ '/' :: '/' :: rest := by
  induction path using trimDoubleSlashes.induct with
  | case1 path ih => exact ih
  | case2 path single =>
    rw [trimDoubleSlashes_single fun rest same => single rest same]
    exact fun same => single rest same

variable {f : Text}

theorem generated_file (f : Text) : ∃ rest, generated f = "file://".toList ++ rest := by
  unfold generated
  dsimp only
  split
  · rename_i file
    obtain ⟨rest, same⟩ := List.isPrefixOf_iff_prefix.mp file
    exact ⟨rest, same.symm⟩
  · split
    · exact ⟨_, rfl⟩
    · exact ⟨'/' :: normalizeSlashes f, rfl⟩

theorem generated_other {c : Char} {rest : Text} (notFile : c ≠ 'f') (notSlash : c ≠ '/') (notBackslash : c ≠ '\\') :
    generated (c :: rest) = "file:///".toList ++ c :: normalizeSlashes rest := by
  have cut : normalizeSlashes (c :: rest) = c :: normalizeSlashes rest := by
    rw [normalizeSlashes, map_cons, if_neg notBackslash, normalizeSlashes]
  unfold generated
  rw [cut]
  rw [if_neg, if_neg]
  · intro slash
    obtain ⟨_, same⟩ := List.isPrefixOf_iff_prefix.mp slash
    exact notSlash (List.cons.inj same).1.symm
  · intro file
    obtain ⟨_, same⟩ := List.isPrefixOf_iff_prefix.mp file
    exact notFile (List.cons.inj same).1.symm

/-- A name with one slash at its start, and nothing to escape. -/
def Plain (f : Text) : Prop := ∃ rest, f = '/' :: rest ∧ rest.head? ≠ some '/' ∧ ∀ c ∈ rest, isUnreserved c = true ∨ c = '/'

theorem bundled_disagree (bundled : isBundled f = true) : Lsconv.fileNameToDocumentUri f ≠ .ok (generated f) := by
  have result : Lsconv.fileNameToDocumentUri f = .ok f := if_pos bundled
  obtain ⟨rest, starts⟩ := List.isPrefixOf_iff_prefix.mp bundled
  obtain ⟨rest', file⟩ := generated_file f
  rw [result, file, ← starts]
  intro same
  have heads := (List.cons.inj (Outcome.ok.inj same)).1
  exact absurd heads (by decide)

theorem dynamic_disagree (dynamic : Lsconv.isDynamicFileName f = true) : Lsconv.fileNameToDocumentUri f ≠ .ok (generated f) := by
  obtain ⟨rest, starts⟩ := List.isPrefixOf_iff_prefix.mp dynamic
  have starts' : '^' :: '/' :: rest = f := starts
  subst starts'
  have length : (generated ('^' :: '/' :: rest)).length = rest.length + 10 := by
    rw [generated_other (by decide) (by decide) (by decide), length_append, length_cons, length_normalizeSlashes,
      length_cons]
    have start : "file:///".toList.length = 8 := rfl
    omega
  intro same
  have bundled : ¬isBundled ('^' :: '/' :: rest) = true := by
    intro starts
    obtain ⟨_, same⟩ := List.isPrefixOf_iff_prefix.mp starts
    exact absurd (List.cons.inj same).1 (by decide)
  unfold Lsconv.fileNameToDocumentUri at same
  rw [if_neg bundled, if_pos dynamic] at same
  split at same
  · cases same
  rename_i scheme after first
  split at same
  · cases same
  rename_i authority path second
  have total : rest.length = scheme.length + authority.length + path.length + 2 := by
    have one := congrArg List.length (splitOnce_eq first).1
    have two := congrArg List.length (splitOnce_eq second).1
    simp only [drop_succ_cons, drop_zero, length_append, length_cons] at one two
    omega
  split at same
  · have lengths := congrArg List.length (Outcome.ok.inj same)
    simp only [length_append, length_cons] at lengths
    omega
  have lengths := congrArg List.length (Outcome.ok.inj same)
  simp only [length_append, length_cons] at lengths
  have mark : "://".toList.length = 3 := rfl
  omega

theorem volume_disagree {c : Char} (letter : isVolumeCharacter c = true) (rest : Text) :
    Lsconv.fileNameToDocumentUri (c :: ':' :: rest) ≠ .ok (generated (c :: ':' :: rest)) := by
  have bundled : isBundled (c :: ':' :: rest) = false := by
    change (_ && (false && _)) = false
    rw [Bool.false_and, Bool.and_false]
  have lower : isVolumeCharacter c.toLower = true := by
    have letters : ∀ n < 26, isVolumeCharacter (Char.ofNat (97 + n)) = true := by decide
    rcases toLower_cases c with same | ⟨n, small, -, lower⟩
    · rwa [same]
    · rw [lower]
      exact letters n small
  have volume : splitVolumePath (c :: ':' :: rest) = some ([c.toLower, ':'], rest) := if_pos letter
  have result : Lsconv.fileNameToDocumentUri (c :: ':' :: rest) =
      .ok ("file:///".toList ++ (c.toLower :: '%' :: ('3' :: 'A' :: escapedPath (trimDoubleSlashes rest)))) := by
    unfold Lsconv.fileNameToDocumentUri
    rw [bundled, isDynamicFileName_volume, volume]
    simp only [Option.getD_some, ne_eq, reduceCtorEq, not_false_eq_true, if_true, if_false, Bool.false_eq_true, join_parts,
      extraEscapeReplace_volume lower]
    rfl
  have normalized : normalizeSlashes (c :: ':' :: rest) = c :: ':' :: normalizeSlashes rest := by
    rw [normalizeSlashes, map_cons, map_cons, if_neg, if_neg (by decide), normalizeSlashes]
    rintro rfl
    exact absurd letter (by decide)
  have other : generated (c :: ':' :: rest) = "file:///".toList ++ c :: ':' :: normalizeSlashes rest := by
    unfold generated
    rw [normalized]
    rw [if_neg, if_neg]
    · intro slash
      obtain ⟨_, same⟩ := List.isPrefixOf_iff_prefix.mp slash
      exact (letter_unreserved letter).2.1 (List.cons.inj same).1.symm
    · intro file
      obtain ⟨_, same⟩ := List.isPrefixOf_iff_prefix.mp file
      exact absurd (List.cons.inj (List.cons.inj same).2).1 (by decide)
  rw [result, other]
  intro same
  have tails := append_cancel_left (Outcome.ok.inj same)
  exact absurd (List.cons.inj (List.cons.inj tails).2).1 (by decide)

theorem head_of_trimmed {path rest : Text} (trimmed : trimDoubleSlashes path = '/' :: rest) : path.head? = some '/' := by
  induction path using trimDoubleSlashes.induct with
  | case1 path ih => rfl
  | case2 path single =>
    rw [trimDoubleSlashes_single fun rest same => single rest same] at trimmed
    rw [trimmed]
    rfl

theorem plain_of_escaped (same : escapedPath (trimDoubleSlashes f) = normalizeSlashes f)
    (rooted : "/".toList.isPrefixOf (normalizeSlashes f) = true) : Plain f := by
  obtain ⟨rest, starts⟩ := List.isPrefixOf_iff_prefix.mp rooted
  have begins : normalizeSlashes f = '/' :: rest := starts.symm
  rw [begins] at same
  obtain ⟨path, trimmed, rfl⟩ := escapedPath_eq_slash same
  have head := head_of_trimmed trimmed
  cases f with
  | nil => cases head
  | cons c f =>
    obtain rfl := Option.some.inj head
    have whole : normalizeSlashes f = escapedPath path := (List.cons.inj begins).2
    have single : f.head? ≠ some '/' := by
      intro second
      obtain ⟨f, rfl⟩ : ∃ more, f = '/' :: more := by
        cases f with
        | nil => cases second
        | cons d more => exact ⟨more, by rw [Option.some.inj second]⟩
      obtain ⟨more, rfl, -⟩ := escapedPath_eq_slash whole.symm
      exact trimDoubleSlashes_notDouble _ more trimmed
    have kept : trimDoubleSlashes ('/' :: f) = '/' :: f := by
      apply trimDoubleSlashes_single
      intro more same
      rw [(List.cons.inj same).2] at single
      exact single rfl
    rw [kept] at trimmed
    obtain rfl := (List.cons.inj trimmed).2
    refine ⟨f, rfl, single, (length_escapedPath f).2 ?_⟩
    rw [← whole, length_normalizeSlashes]

theorem generated_plain {rest : Text} (plain : ∀ c ∈ rest, isUnreserved c = true ∨ c = '/') :
    generated ('/' :: rest) = "file:///".toList ++ rest := by
  have slashed : '\\' ∉ '/' :: rest := by
    intro listed
    rcases mem_cons.mp listed with same | inside
    · exact absurd same (by decide)
    · exact absurd (plain _ inside) (by decide)
  unfold generated
  rw [normalizeSlashes_eq slashed]
  rfl

theorem trimmed_agree_iff (f : Text) : "file://".toList ++ escapedPath (trimDoubleSlashes f) = generated f ↔ Plain f := by
  constructor
  · intro same
    unfold generated at same
    dsimp only at same
    split at same
    · rename_i file
      -- The name is longer when it is escaped.
      have trimmed : trimDoubleSlashes f = f := by
        apply trimDoubleSlashes_single
        rintro rest rfl
        exact absurd file Bool.false_ne_true
      have lengths := congrArg List.length same
      rw [trimmed, length_append, length_normalizeSlashes] at lengths
      have longer := (length_escapedPath f).1
      have start : "file://".toList.length = 7 := rfl
      omega
    · split at same
      · have tails := append_cancel_left same
        exact plain_of_escaped tails (by assumption)
      rename_i unrooted
      have tails : escapedPath (trimDoubleSlashes f) = '/' :: normalizeSlashes f :=
        @List.append_cancel_left _ "file://".toList _ _ same
      obtain ⟨rest, trimmed, -⟩ := escapedPath_eq_slash tails
      refine absurd ?_ unrooted
      obtain ⟨more, rfl⟩ := List.head?_eq_some_iff.mp (head_of_trimmed trimmed)
      rfl
  · rintro ⟨rest, rfl, single, plain⟩
    have trimmed : trimDoubleSlashes ('/' :: rest) = '/' :: rest := by
      apply trimDoubleSlashes_single
      intro more same
      rw [(List.cons.inj same).2] at single
      exact single rfl
    rw [trimmed, escapedPath_slash, escapedPath_plain plain, generated_plain plain]
    rfl

theorem Plain.ordinary (plain : Plain f) : isBundled f = false ∧ Lsconv.isDynamicFileName f = false ∧ splitVolumePath f = none := by
  obtain ⟨rest, rfl, -⟩ := plain
  exact ⟨rfl, rfl, splitVolumePath_slash rest⟩

theorem documentUri_generated_iff (f : Text) : Lsconv.fileNameToDocumentUri f = .ok (generated f) ↔ Plain f := by
  by_cases bundled : isBundled f = true
  · exact iff_of_false (bundled_disagree bundled) fun plain => absurd (plain.ordinary.1.symm.trans bundled) Bool.false_ne_true
  by_cases dynamic : Lsconv.isDynamicFileName f = true
  · exact iff_of_false (dynamic_disagree dynamic) fun plain => absurd (plain.ordinary.2.1.symm.trans dynamic) Bool.false_ne_true
  cases split_ : splitVolumePath f with
  | some parts =>
    refine iff_of_false ?_ fun plain => by rw [plain.ordinary.2.2] at split_; cases split_
    unfold splitVolumePath at split_
    split at split_
    · split at split_
      · rename_i letter
        exact volume_disagree letter _
      · cases split_
    · cases split_
  | none =>
    have result : Lsconv.fileNameToDocumentUri f = .ok ("file://".toList ++ escapedPath (trimDoubleSlashes f)) := by
      unfold Lsconv.fileNameToDocumentUri
      rw [if_neg bundled, if_neg dynamic, split_]
      simp only [Option.getD_none, ne_eq, not_true, if_false, append_nil, join_parts]
    rw [result, Outcome.ok.injEq, trimmed_agree_iff]

/-- The two conversions agree on the names that start with one slash and have nothing to escape. -/
theorem fileNameToDocumentUri_agree_iff {uriFromStr : Text → Option Text} (parser : UriParser uriFromStr) (f : Text) :
    (∃ uri, fileNameToDocumentUri uriFromStr f = .ok uri ∧ Lsconv.fileNameToDocumentUri f = .ok uri) ↔ Plain f := by
  constructor
  · rintro ⟨uri, watched, document⟩
    unfold fileNameToDocumentUri at watched
    split at watched
    · rename_i uri' parsed
      obtain rfl := Outcome.ok.inj watched
      rw [parser.keeps _ _ parsed] at document
      exact (documentUri_generated_iff f).mp document
    · cases watched
  · intro plain
    refine ⟨generated f, ?_, (documentUri_generated_iff f).mpr plain⟩
    obtain ⟨rest, rfl, -, unescaped⟩ := plain
    unfold fileNameToDocumentUri
    rw [generated_plain unescaped, parser.file rest unescaped]

def isUriCharacter (c : Char) : Bool := isUnreserved c || c ∈ ":/?#[]@!$&'()*+,;=%".toList

def parseUri (text : Text) : Option Text := if text.all isUriCharacter then some text else none

theorem fileNameToDocumentUri_agree_directory :
    ∃ uri, fileNameToDocumentUri parseUri "/home/a_1".toList = .ok uri ∧
      Lsconv.fileNameToDocumentUri "/home/a_1".toList = .ok uri := by
  have parser : UriParser parseUri := by
    constructor
    · intro text uri parsed
      unfold parseUri at parsed
      split at parsed
      · exact (Option.some.inj parsed).symm
      · cases parsed
    intro path plain
    refine if_pos (all_eq_true.mpr fun c listed => ?_)
    unfold isUriCharacter
    rcases mem_append.mp listed with start | inside
    · have all : ("file:///".toList.all fun c => isUnreserved c || decide (c ∈ ":/?#[]@!$&'()*+,;=%".toList)) = true := by decide
      exact all_eq_true.mp all c start
    · rcases plain c inside with unreserved | rfl
      · rw [unreserved, Bool.true_or]
      · decide
  exact (fileNameToDocumentUri_agree_iff parser "/home/a_1".toList).mpr
    ⟨"home/a_1".toList, rfl, by decide, by decide⟩

/-- No URI is made for a directory with a space in its name, which documents may have. -/
theorem fileNameToDocumentUri_space : ¬∀ f, rootOf f ≠ [] →
    ∃ uri, fileNameToDocumentUri parseUri f = .ok uri ∧ Lsconv.fileNameToDocumentUri f = .ok uri := by
  intro always
  obtain ⟨uri, made, -⟩ := always "/a b".toList (by decide)
  have panics : fileNameToDocumentUri parseUri "/a b".toList = .panic "generated file URI should parse" := by decide +kernel
  rw [panics] at made
  cases made

end TypeScriptRs.Project.Watch
