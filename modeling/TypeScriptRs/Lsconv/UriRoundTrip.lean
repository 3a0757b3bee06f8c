import TypeScriptRs.Lsconv.UriEscapes

/-! File names that are turned into document URIs and back. -/
namespace TypeScriptRs.Lsconv
open Utf8 Machine Paths List

section
variable {components : List Text}

def IsNormalized (f : Text) : Prop := getNormalizedAbsolutePath f [] = f

instance (f : Text) : Decidable (IsNormalized f) := inferInstanceAs (Decidable (_ = _))

def IsPosix (f : Text) : Prop :=
  IsNormalized f ∧ rootOf f = ['/'] ∧ ∀ c, isVolumeCharacter c = true → (getPathComponents f [])[1]? ≠ some [c, ':']

def IsDrive (f : Text) : Prop :=
  IsNormalized f ∧ ∃ c, ('a' ≤ c ∧ c ≤ 'z') ∧ (rootOf f = [c, ':'] ∨ rootOf f = [c, ':', '/'])

def IsUnc (f : Text) : Prop := IsNormalized f ∧ "//".toList <+: rootOf f

def isSchemeCharacter (c : Char) : Bool := c.isAlphanum || c = '+' || c = '-' || c = '.'

def IsUri (uri : Text) : Prop :=
  ∃ scheme rest, uri = scheme ++ ':' :: rest ∧ scheme ≠ [] ∧ ∀ c ∈ scheme, isSchemeCharacter c = true

def IsDynamic (urlPath : Text → Option Text) (f : Text) : Prop :=
  isDynamicFileName f = true ∧ ∃ uri, IsUri uri ∧ fileName urlPath uri = .ok f

/-- What a file name comes back under: no drive that is only the start of its first
component, no server name to escape, no authority that stands for none before two slashes. -/
structure Kept (accepts : Text → Bool) (f : Text) : Prop where
  posix : ∀ c rest, f = '/' :: c :: ':' :: rest → isVolumeCharacter c = false
  unc : ∀ rest, f = '/' :: '/' :: rest → ∃ server path, rest = server ++ '/' :: path ∧ server ≠ [] ∧
    (∀ c ∈ server, isUnreserved c = true) ∧ accepts server = true
  dynamic : ∀ scheme rest, f = "^/".toList ++ scheme ++ '/' :: nulAuthority ++ "///".toList ++ rest → '/' ∈ scheme

variable {f : Text}

theorem IsNormalized.shape (normal : IsNormalized f) : Slashed f ∧ rootOf f ++ join (reducedOf f) = f := by
  unfold IsNormalized at normal
  rw [getNormalizedAbsolutePath_eq, absoluteFileName_target] at normal
  have before := slashed_normalizeSlashes f
  have slashed : Slashed f := by
    intro listed
    rw [← normal] at listed
    rcases mem_append.mp listed with root | rest
    · apply before
      rw [← rootOf_append_afterRoot (normalizeSlashes f)]
      exact mem_append_left _ root
    · rcases Split.mem_intercalate rest with slash | ⟨piece, member, inside⟩
      · exact absurd slash (by decide)
      · exact (reducedOf_proper before piece member).slashed inside
  rw [normalizeSlashes_of_slashed slashed] at normal
  exact ⟨slashed, normal⟩

theorem IsNormalized.regular (normal : IsNormalized f) (rooted : rootOf f ≠ []) : ∀ c ∈ reducedOf f, Proper c ∧ c ≠ ['.', '.'] :=
  regular_reducedOf normal.shape.1 rooted (nil_append _).symm

section
variable (regular : ∀ c ∈ components, Proper c ∧ c ≠ ['.', '.'])
include regular

theorem single_join (rest : Text) : '/' :: join components ≠ '/' :: '/' :: rest := by
  intro same
  have tail := (List.cons.inj same).2
  by_cases none : components = []
  · rw [none] at tail
    cases tail
  · apply head_join (fun c listed => (regular c listed).1) none
    rw [tail]
    rfl

theorem exists_components : ∃ pieces, pieces ≠ [] ∧ Components pieces ∧ join pieces = join components := by
  by_cases none : components = []
  · refine ⟨[[]], by simp, ⟨by simp, by simp, by simp⟩, ?_⟩
    rw [none]
    rfl
  · exact ⟨components, none, Components.of_regular regular, rfl⟩

theorem canonical_join : Canonical (escapedPath ('/' :: join components)) := by
  obtain ⟨pieces, some_, shape, same⟩ := exists_components regular
  rw [← same]
  exact canonical_escapedPath shape some_
end

theorem canonical_normalized (normal : IsNormalized f) (root : rootOf f = ['/']) : Canonical (escapedPath f) := by
  have regular := normal.regular (by rw [root]; simp)
  have whole := normal.shape.2
  rw [root, singleton_append] at whole
  rw [← whole]
  exact canonical_join regular

theorem fixWindowsUriPath_cases (path : Text) :
    (fixWindowsUriPath path = path ∧ ∀ c rest, path = '/' :: c :: ':' :: rest → isVolumeCharacter c = false) ∨
      ∃ c rest, path = '/' :: c :: ':' :: rest ∧ isVolumeCharacter c = true ∧
        fixWindowsUriPath path = c.toLower :: ':' :: rest := by
  by_cases volume : ∃ c rest, path = '/' :: c :: ':' :: rest ∧ isVolumeCharacter c = true
  · obtain ⟨c, rest, rfl, letter⟩ := volume
    refine .inr ⟨c, rest, rfl, letter, ?_⟩
    have alpha : c.isAlpha = true := (isAlpha_eq c).trans letter
    have cut : splitVolume (c :: ':' :: rest) = ([c.toLower, ':'], rest) := if_pos alpha
    change (if (splitVolume (c :: ':' :: rest)).1 ≠ [] then (splitVolume (c :: ':' :: rest)).1 ++ (splitVolume (c :: ':' :: rest)).2
      else '/' :: c :: ':' :: rest) = _
    rw [cut, if_pos (by simp)]
    rfl
  refine .inl ⟨?_, fun c rest shape => ?_⟩
  · unfold fixWindowsUriPath
    split
    · rename_i rest
      have whole : splitVolume rest = ([], rest) := by
        unfold splitVolume
        split
        · rename_i c rest
          rw [isAlpha_eq]
          exact if_neg fun letter => volume ⟨c, rest, rfl, letter⟩
        · rfl
      rw [whole]
      rfl
    · rfl
  · exact Bool.eq_false_iff.mpr fun letter => volume ⟨c, rest, shape, letter⟩

theorem length_fixWindowsUriPath (path : Text) : (fixWindowsUriPath path).length ≤ path.length := by
  rcases fixWindowsUriPath_cases path with ⟨same, -⟩ | ⟨c, rest, shape, -, fixed⟩
  · rw [same]
  · rw [fixed, shape]
    simp

theorem fixWindowsUriPath_eq_iff (path : Text) :
    fixWindowsUriPath path = path ↔ ∀ c rest, path = '/' :: c :: ':' :: rest → isVolumeCharacter c = false := by
  rcases fixWindowsUriPath_cases path with ⟨same, none⟩ | ⟨c, rest, shape, letter, fixed⟩
  · exact ⟨fun _ => none, fun _ => same⟩
  constructor
  · intro same
    rw [fixed, shape] at same
    have length := congrArg List.length same
    simp at length
  · intro none
    rw [none c rest shape] at letter
    cases letter
end

section
variable {urlPath : Text → Option Text} {accepts : Text → Bool} {f : Text} {c : Char} {scheme authority path path' : Text}

theorem posix_iff (parser : UrlParser urlPath accepts) (posix : IsPosix f) :
    (fileNameToDocumentUri f).bind (fileName urlPath) = .ok f ↔ Kept accepts f := by
  obtain ⟨normal, root, -⟩ := posix
  have regular := normal.regular (by rw [root]; simp)
  have whole := normal.shape.2
  rw [root, singleton_append] at whole
  generalize reducedOf f = components at regular whole
  subst whole
  have single := single_join regular
  rw [fileNameToDocumentUri_slash, trimDoubleSlashes_single single, Outcome.bind_ok,
    fileName_rooted parser (canonical_join regular), Outcome.ok.injEq, fixWindowsUriPath_eq_iff]
  constructor
  · intro plain
    exact ⟨plain, fun rest shape => absurd shape (single rest), fun scheme rest shape => by cases shape⟩
  · exact Kept.posix

theorem toLower_of_lower (least : 'a' ≤ c) : c.toLower = c := by
  refine dif_neg ?_
  rintro ⟨-, upper⟩
  have lower : 'a'.val ≤ c.val := least
  exact absurd (UInt32.le_trans lower upper) (by decide)

theorem Components.cons {piece : Text} {pieces : List Text} (free : '/' ∉ piece)
    (named : piece ≠ ['.'] ∧ piece ≠ ['.', '.']) (filled : piece ≠ []) (components : Components pieces) :
    Components (piece :: pieces) := by
  constructor
  · exact forall_mem_cons.mpr ⟨free, components.free⟩
  · exact forall_mem_cons.mpr ⟨named, components.named⟩
  intro other listed
  cases pieces with
  | nil => cases listed
  | cons next pieces =>
    rcases mem_cons.mp listed with rfl | listed
    · exact filled
    · exact components.filled other listed

theorem drive_shape (normal : IsNormalized f) (notSlash : c ≠ '/') (root : rootOf f = [c, ':'] ∨ rootOf f = [c, ':', '/']) :
    ∃ rest, f = c :: ':' :: rest ∧ (∀ more, rest ≠ '/' :: '/' :: more) ∧ Canonical (escapedPath ('/' :: f)) := by
  have free : '/' ∉ [c, ':'] := by simp [Ne.symm notSlash]
  have named : [c, ':'] ≠ ['.'] ∧ [c, ':'] ≠ ['.', '.'] := by simp
  rcases root with root | root
  · rcases rootOf_trailing normal.shape.1 with none | whole | trailing
    · rw [root] at none
      cases none
    · rw [root] at whole
      have canonical := canonical_escapedPath (Components.cons free named (by simp) ⟨by simp, by simp, by simp⟩)
        (cons_ne_nil _ [])
      exact ⟨[], whole.symm, by simp, whole ▸ canonical⟩
    · rw [root] at trailing
      cases trailing
  have regular := normal.regular (by rw [root]; simp)
  have whole := normal.shape.2
  rw [root] at whole
  obtain ⟨pieces, some_, components, same⟩ := exists_components regular
  have cut : join ([c, ':'] :: pieces) = f := by
    rw [← whole, ← same]
    exact Split.intercalate_cons _ some_
  refine ⟨'/' :: join (reducedOf f), whole.symm, single_join regular, ?_⟩
  have canonical := canonical_escapedPath (Components.cons free named (by simp) components) (cons_ne_nil _ _)
  rwa [cut] at canonical

theorem drive_iff (parser : UrlParser urlPath accepts) (drive : IsDrive f) :
    (fileNameToDocumentUri f).bind (fileName urlPath) = .ok f ↔ Kept accepts f := by
  obtain ⟨normal, c, ⟨least, greatest⟩, root⟩ := drive
  have letter : isVolumeCharacter c = true := by simp [isVolumeCharacter, least, greatest]
  have lower := toLower_of_lower least
  obtain ⟨-, notSlash, -⟩ := letter_unreserved letter
  obtain ⟨rest, rfl, single, canonical⟩ := drive_shape normal notSlash root
  have fixed : fixWindowsUriPath ('/' :: c :: ':' :: rest) = c :: ':' :: rest := by
    rcases fixWindowsUriPath_cases ('/' :: c :: ':' :: rest) with ⟨-, none⟩ | ⟨d, more, shape, -, fixed⟩
    · rw [none c rest rfl] at letter
      cases letter
    · obtain ⟨rfl, rfl⟩ : c = d ∧ rest = more := by simpa using shape
      rw [fixed, lower]
  rw [fileNameToDocumentUri_drive letter lower, trimDoubleSlashes_single single, Outcome.bind_ok,
    fileName_rooted parser canonical, fixed]
  constructor
  · intro
    constructor
    · intro d more shape
      exact absurd (List.cons.inj shape).1 notSlash
    · intro more shape
      exact absurd (List.cons.inj shape).1 notSlash
    · intro scheme more shape
      have second := (List.cons.inj (List.cons.inj shape).2).1
      exact absurd second (by decide)
  · intro
    rfl

theorem unc_shape (unc : IsUnc f) : ∃ server path, '/' ∉ server ∧ f = '/' :: '/' :: server ++ path ∧
    (path = [] ∨ ∃ components, (∀ c ∈ components, Proper c ∧ c ≠ ['.', '.']) ∧ path = '/' :: join components) := by
  obtain ⟨normal, more, root⟩ := unc
  have rooted : rootOf f ≠ [] := by
    rw [← root]
    simp
  have regular := normal.regular rooted
  have whole := normal.shape.2
  generalize reducedOf f = components at regular whole
  have start : f = '/' :: '/' :: (more ++ join components) := by
    rw [← whole, ← root]
    rfl
  have encoded : rootOf f = if '/' ∈ more ++ join components then '/' :: '/' :: (more ++ join components).takeWhile (· ≠ '/') ++ ['/']
      else f := by
    rw [rootOf, start, encodedRoot_two, if_pos (by decide), if_neg (by simp)]
    split
    · rfl
    · rfl
  by_cases slash : '/' ∈ more ++ join components
  · rw [if_pos slash] at encoded
    refine ⟨(more ++ join components).takeWhile (· ≠ '/'), '/' :: join components, Split.not_mem_takeWhile _ _, ?_,
      .inr ⟨components, regular, rfl⟩⟩
    rw [← whole, encoded]
    simp
  · exact ⟨more ++ join components, [], slash, by rw [start, append_nil], .inl rfl⟩

theorem unc_iff (parser : UrlParser urlPath accepts) (unc : IsUnc f) :
    (fileNameToDocumentUri f).bind (fileName urlPath) = .ok f ↔ Kept accepts f := by
  obtain ⟨server, path, free, rfl, shape⟩ := unc_shape unc
  have canonical : Canonical (escapedPath path) := by
    rcases shape with rfl | ⟨components, regular, rfl⟩
    · exact canonical_nil
    · exact canonical_join regular
  have rest : path = [] ∨ ∃ rest, path = '/' :: rest := shape.imp_right fun ⟨components, _, same⟩ => ⟨join components, same⟩
  rw [cons_append, cons_append, fileNameToDocumentUri_slash, trimDoubleSlashes, Outcome.bind_ok]
  by_cases some_ : server = []
  · subst some_
    rw [nil_append]
    constructor
    · intro same
      have shorter : ∃ short : Text, fileName urlPath ("file://".toList ++ escapedPath (trimDoubleSlashes path)) =
          .ok (fixWindowsUriPath short) ∧ short.length < ('/' :: '/' :: path).length := by
        rcases shape with rfl | ⟨components, regular, rfl⟩
        · have parsed := parser.path [] [] (by simp) canonical_nil
          rw [parser.noAuthority, if_pos rfl, if_pos rfl, append_nil] at parsed
          have slash : percentDecodePath ['/'] = ['/'] := percentDecodePath_escapedPath ['/']
          refine ⟨['/'], ?_, by simp⟩
          change fileName urlPath ("file://".toList ++ []) = _
          rw [fileName_file, parsed, fileUriAuthority_file]
          dsimp only
          rw [slash]
          rfl
        · refine ⟨'/' :: join components, ?_, by simp⟩
          rw [trimDoubleSlashes_single (single_join regular)]
          exact fileName_rooted parser canonical
      obtain ⟨short, result, length⟩ := shorter
      rw [result] at same
      have fixed := length_fixWindowsUriPath short
      rw [Outcome.ok.inj same] at fixed
      omega
    · intro kept
      obtain ⟨server, after, cut, filled, unreserved, -⟩ := kept.unc path rfl
      obtain ⟨c, server, rfl⟩ := exists_cons_of_ne_nil filled
      rcases rest with rfl | ⟨rest, rfl⟩
      · cases cut
      · have slash := unreserved c mem_cons_self
        rw [← (List.cons.inj cut).1] at slash
        cases slash
  have single : ∀ more, server ++ path ≠ '/' :: '/' :: more := by
    intro more same
    obtain ⟨c, server, rfl⟩ := exists_cons_of_ne_nil some_
    apply free
    rw [(List.cons.inj same).1]
    exact mem_cons_self
  rw [trimDoubleSlashes_single single, fileName_server parser some_ free rest canonical]
  constructor
  · intro same
    split at same
    · rename_i accepted
      have equal : pathEscape server ++ (if path = [] then ['/'] else path) = server ++ path :=
        @List.append_cancel_left _ "//".toList _ _ (by rw [← append_assoc]; exact Outcome.ok.inj same)
      rcases rest with rfl | ⟨rest, rfl⟩
      · rw [if_pos rfl, append_nil] at equal
        refine absurd ?_ free
        rw [← equal]
        simp
      have plain := append_cancel_right equal
      rw [plain] at accepted
      constructor
      · intro c more start
        obtain ⟨-, start⟩ := List.cons.inj start
        rw [← (List.cons.inj start).1]
        decide
      · intro more start
        have here : server ++ '/' :: rest = more := by simpa using start
        exact ⟨server, rest, here.symm, some_, (pathEscape_eq_iff server).mp plain, accepted⟩
      · intro scheme more start
        cases start
    · cases same
  · intro kept
    obtain ⟨server', after, cut, -, unreserved, accepted⟩ := kept.unc (server ++ path) rfl
    have free' : '/' ∉ server' := fun listed => absurd (unreserved '/' listed) (by decide)
    rcases rest with rfl | ⟨rest, rfl⟩
    · rw [append_nil] at cut
      refine absurd ?_ free
      rw [cut]
      simp
    have same : server = server' := by
      rw [← Split.takeWhile_append_cons free rest, cut, Split.takeWhile_append_cons free' after]
    rw [← same] at unreserved accepted
    rw [(pathEscape_eq_iff server).mpr unreserved, if_pos accepted, if_neg (by simp)]
    rfl

theorem isPrefixOf_cases (start text : Text) : (start.isPrefixOf text = true ∧ ∃ rest, text = start ++ rest) ∨
    (start.isPrefixOf text = false ∧ ∀ rest, text ≠ start ++ rest) := by
  by_cases leads : start.isPrefixOf text = true
  · obtain ⟨rest, shape⟩ := List.isPrefixOf_iff_prefix.mp leads
    exact .inl ⟨leads, rest, shape.symm⟩
  · refine .inr ⟨Bool.eq_false_iff.mpr leads, fun rest shape => leads ?_⟩
    exact List.isPrefixOf_iff_prefix.mpr ⟨rest, shape.symm⟩

theorem percentDecodePath_slash (path : Text) : percentDecodePath ('/' :: path) = '/' :: percentDecodePath path := by
  unfold percentDecodePath
  rw [encoded_cons, percentDecode_ascii (by decide) (by decide), fromUtf8Lossy_char]

theorem fileName_file_notDynamic (parser : UrlParser urlPath accepts) {rest : Text}
    (named : fileName urlPath ("file://".toList ++ rest) = .ok f) : isDynamicFileName f = false := by
  rw [fileName_file] at named
  split at named
  · cases named
  rename_i parsed found
  have head := parser.absolute rest parsed found
  obtain ⟨path, rfl⟩ : ∃ path, parsed = '/' :: path := by
    cases parsed with
    | nil => cases head
    | cons c path => exact ⟨path, by rw [Option.some.inj head]⟩
  have fixed : isDynamicFileName (fixWindowsUriPath (percentDecodePath ('/' :: path))) = false := by
    rw [percentDecodePath_slash]
    rcases fixWindowsUriPath_cases ('/' :: percentDecodePath path) with ⟨same, -⟩ | ⟨c, rest, -, -, fixed⟩
    · rw [same]
      rfl
    · rw [fixed]
      exact isDynamicFileName_volume _ _
  split at named
  · split at named
    · cases named
      rfl
    · cases named
      exact fixed
  · cases named
    exact fixed

theorem dynamic_shape (parser : UrlParser urlPath accepts) (dynamic : IsDynamic urlPath f) : ∃ scheme rest, '/' ∉ scheme ∧
    ':' ∉ scheme ∧ fileName urlPath (scheme ++ ':' :: rest) = .ok f ∧
    ((∃ authority path, rest = '/' :: '/' :: authority ++ '/' :: path ∧ '/' ∉ authority ∧
        f = "^/".toList ++ scheme ++ '/' :: authority ++ '/' :: path) ∨
      (∀ more, rest ≠ '/' :: '/' :: more) ∧ f = "^/".toList ++ scheme ++ '/' :: nulAuthority ++ '/' :: rest) := by
  obtain ⟨dynamic, uri, ⟨scheme, rest, rfl, -, characters⟩, named⟩ := dynamic
  have free : '/' ∉ scheme := fun listed => absurd (characters '/' listed) (by decide)
  have colon : ':' ∉ scheme := fun listed => absurd (characters ':' listed) (by decide)
  have result := named
  unfold fileName isBundled at result
  rcases isPrefixOf_cases "bundled:///".toList (scheme ++ ':' :: rest) with ⟨leads, more, shape⟩ | ⟨leads, -⟩
  · rw [if_pos leads] at result
    obtain rfl := Outcome.ok.inj result
    rw [shape] at dynamic
    cases dynamic
  rw [if_neg (Bool.eq_false_iff.mp leads)] at result
  rcases isPrefixOf_cases "file://".toList (scheme ++ ':' :: rest) with ⟨leads, more, shape⟩ | ⟨leads, -⟩
  · rw [shape] at named
    rw [fileName_file_notDynamic parser named] at dynamic
    cases dynamic
  rw [if_neg (Bool.eq_false_iff.mp leads), splitOnce_append colon] at result
  dsimp only at result
  refine ⟨scheme, rest, free, colon, named, ?_⟩
  rcases isPrefixOf_cases "//".toList rest with ⟨leads, more, rfl⟩ | ⟨leads, single⟩
  · rw [if_pos leads] at result
    split at result
    · cases result
    rename_i authority path cut
    obtain ⟨shape, freeAuthority⟩ := splitOnce_eq cut
    have rest : more = authority ++ '/' :: path := shape
    refine .inl ⟨authority, path, ?_, freeAuthority, (Outcome.ok.inj result).symm⟩
    rw [rest]
    rfl
  · rw [if_neg (Bool.eq_false_iff.mp leads)] at result
    exact .inr ⟨single, (Outcome.ok.inj result).symm⟩

theorem fileNameToDocumentUri_dynamic (free : '/' ∉ scheme) (freeAuthority : '/' ∉ authority)
    (path : Text) : fileNameToDocumentUri ("^/".toList ++ scheme ++ '/' :: authority ++ '/' :: path) =
      if authority = nulAuthority then .ok (scheme ++ ':' :: path) else .ok (scheme ++ "://".toList ++ authority ++ '/' :: path) := by
  have shape : "^/".toList ++ scheme ++ '/' :: authority ++ '/' :: path = '^' :: '/' :: (scheme ++ '/' :: (authority ++ '/' :: path)) := by
    simp
  rw [shape]
  unfold fileNameToDocumentUri
  rw [if_neg (show ¬isBundled ('^' :: '/' :: (scheme ++ '/' :: (authority ++ '/' :: path))) = true from by intro yes; cases yes),
    if_pos (show isDynamicFileName ('^' :: '/' :: (scheme ++ '/' :: (authority ++ '/' :: path))) = true from rfl)]
  have rest : ('^' :: '/' :: (scheme ++ '/' :: (authority ++ '/' :: path))).drop 2 = scheme ++ '/' :: (authority ++ '/' :: path) := rfl
  rw [rest, splitOnce_append free]
  dsimp only
  rw [splitOnce_append freeAuthority]

theorem scheme_unique (scheme' : Text) (colon : ':' ∉ scheme) (colon' : ':' ∉ scheme')
    (same : scheme ++ ':' :: path = scheme' ++ ':' :: path') : path = path' := by
  have cut := splitOnce_append colon path
  rw [same, splitOnce_append colon' path'] at cut
  exact (Prod.mk.inj (Option.some.inj cut)).2.symm

theorem fileName_ofScheme (colon : ':' ∉ scheme) (single : ∀ more, path ≠ '/' :: '/' :: more) :
    fileName urlPath (scheme ++ ':' :: path) = .ok ("^/".toList ++ scheme ++ '/' :: nulAuthority ++ '/' :: path) := by
  unfold fileName isBundled
  rcases isPrefixOf_cases "bundled:///".toList (scheme ++ ':' :: path) with ⟨-, more, shape⟩ | ⟨leads, -⟩
  · have rest : path = '/' :: '/' :: '/' :: more := scheme_unique "bundled".toList colon (by decide) shape
    exact absurd rest (single _)
  rw [if_neg (Bool.eq_false_iff.mp leads)]
  rcases isPrefixOf_cases "file://".toList (scheme ++ ':' :: path) with ⟨-, more, shape⟩ | ⟨leads, -⟩
  · have rest : path = '/' :: '/' :: more := scheme_unique "file".toList colon (by decide) shape
    exact absurd rest (single _)
  rw [if_neg (Bool.eq_false_iff.mp leads), splitOnce_append colon]
  dsimp only
  rcases isPrefixOf_cases "//".toList path with ⟨-, more, shape⟩ | ⟨leads, -⟩
  · exact absurd shape (single more)
  · rw [if_neg (Bool.eq_false_iff.mp leads)]

theorem fileName_ofSlashes (parser : UrlParser urlPath accepts) (colon : ':' ∉ scheme) (more : Text)
    (shape : path = '/' :: '/' :: more) :
    fileName urlPath (scheme ++ ':' :: path) ≠ .ok ("^/".toList ++ scheme ++ '/' :: nulAuthority ++ '/' :: path) := by
  intro named
  have result := named
  unfold fileName isBundled at result
  rcases isPrefixOf_cases "bundled:///".toList (scheme ++ ':' :: path) with ⟨leads, rest, same⟩ | ⟨leads, -⟩
  · rw [if_pos leads, same] at result
    cases result
  rw [if_neg (Bool.eq_false_iff.mp leads)] at result
  rcases isPrefixOf_cases "file://".toList (scheme ++ ':' :: path) with ⟨leads, rest, same⟩ | ⟨leads, -⟩
  · rw [same] at named
    have not := fileName_file_notDynamic parser named
    cases not
  rw [if_neg (Bool.eq_false_iff.mp leads), splitOnce_append colon, shape] at result
  dsimp only at result
  rw [if_pos (show "//".toList.isPrefixOf ('/' :: '/' :: more) = true from rfl)] at result
  split at result
  · cases result
  rename_i authority rest cut
  obtain ⟨whole, -⟩ := splitOnce_eq cut
  have length : more = authority ++ '/' :: rest := whole
  have lengths := congrArg List.length (Outcome.ok.inj result)
  rw [length] at lengths
  simp only [length_append, length_cons] at lengths
  omega

theorem dynamic_unique {scheme' authority' : Text} (free : '/' ∉ scheme) (free' : '/' ∉ scheme')
    (freeAuthority : '/' ∉ authority) (freeAuthority' : '/' ∉ authority')
    (same : "^/".toList ++ scheme ++ '/' :: authority ++ '/' :: path = "^/".toList ++ scheme' ++ '/' :: authority' ++ '/' :: path') :
    authority = authority' ∧ path = path' := by
  simp only [append_assoc, cons_append] at same
  have rest := append_cancel_left same
  have outer := splitOnce_append free (authority ++ '/' :: path)
  rw [rest, splitOnce_append free'] at outer
  have inner := splitOnce_append freeAuthority path
  rw [← (Prod.mk.inj (Option.some.inj outer)).2, splitOnce_append freeAuthority'] at inner
  obtain ⟨first, second⟩ := Prod.mk.inj (Option.some.inj inner)
  exact ⟨first.symm, second.symm⟩

theorem free_nulAuthority : '/' ∉ nulAuthority := by decide

theorem kept_dynamic (free : '/' ∉ scheme) (freeAuthority : '/' ∉ authority)
    (plain : authority = nulAuthority → ∀ more, path ≠ '/' :: '/' :: more) :
    Kept accepts ("^/".toList ++ scheme ++ '/' :: authority ++ '/' :: path) := by
  constructor
  · intro c rest start
    cases start
  · intro rest start
    cases start
  intro scheme' rest start
  by_contra free'
  have cut : "^/".toList ++ scheme' ++ '/' :: nulAuthority ++ "///".toList ++ rest =
      "^/".toList ++ scheme' ++ '/' :: nulAuthority ++ '/' :: ('/' :: '/' :: rest) := by
    rw [append_assoc]
    rfl
  obtain ⟨nul, slashes⟩ := dynamic_unique free free' freeAuthority free_nulAuthority (start.trans cut)
  exact plain nul rest slashes

theorem nulAuthority_iff (parser : UrlParser urlPath accepts) (free : '/' ∉ scheme) (colon : ':' ∉ scheme) (path : Text) :
    (fileNameToDocumentUri ("^/".toList ++ scheme ++ '/' :: nulAuthority ++ '/' :: path)).bind (fileName urlPath) =
        .ok ("^/".toList ++ scheme ++ '/' :: nulAuthority ++ '/' :: path) ↔
      Kept accepts ("^/".toList ++ scheme ++ '/' :: nulAuthority ++ '/' :: path) := by
  rw [fileNameToDocumentUri_dynamic free free_nulAuthority, if_pos rfl, Outcome.bind_ok]
  by_cases slashes : ∃ more, path = '/' :: '/' :: more
  · obtain ⟨more, shape⟩ := slashes
    constructor
    · intro same
      exact absurd same (fileName_ofSlashes parser colon more shape)
    · intro kept
      refine absurd (kept.dynamic scheme more ?_) free
      rw [shape, append_assoc _ "///".toList]
      rfl
  · have single : ∀ more, path ≠ '/' :: '/' :: more := fun more shape => slashes ⟨more, shape⟩
    constructor
    · intro
      exact kept_dynamic free free_nulAuthority fun _ => single
    · intro
      exact fileName_ofScheme colon single

theorem dynamic_iff (parser : UrlParser urlPath accepts) (dynamic : IsDynamic urlPath f) :
    (fileNameToDocumentUri f).bind (fileName urlPath) = .ok f ↔ Kept accepts f := by
  obtain ⟨scheme, rest, free, colon, named, ⟨authority, path, shape, freeAuthority, rfl⟩ | ⟨-, rfl⟩⟩ := dynamic_shape parser dynamic
  · by_cases nul : authority = nulAuthority
    · rw [nul]
      exact nulAuthority_iff parser free colon path
    have back : scheme ++ "://".toList ++ authority ++ '/' :: path = scheme ++ ':' :: rest := by
      rw [shape, append_assoc, append_assoc]
      rfl
    rw [fileNameToDocumentUri_dynamic free freeAuthority, if_neg nul, Outcome.bind_ok, back]
    constructor
    · intro
      exact kept_dynamic free freeAuthority fun same => absurd same nul
    · intro
      exact named
  · exact nulAuthority_iff parser free colon rest

/-- A file name comes back from its URI exactly when it is one of those that are kept. -/
theorem documentUri_roundTrip_iff (parser : UrlParser urlPath accepts)
    (named : IsPosix f ∨ IsDrive f ∨ IsUnc f ∨ IsDynamic urlPath f) :
    (fileNameToDocumentUri f).bind (fileName urlPath) = .ok f ↔ Kept accepts f := by
  rcases named with posix | drive | unc | dynamic
  · exact posix_iff parser posix
  · exact drive_iff parser drive
  · exact unc_iff parser unc
  · exact dynamic_iff parser dynamic
end

/-- A parser that takes every authority for the name of a host. -/
def hostUrlPath (uri : Text) : Option Text :=
  if "file://".toList.isPrefixOf uri then
    let path := (uri.drop 7).dropWhile (· ≠ '/')
    some (if path = [] then ['/'] else path)
  else none

theorem hostUrlPath_file (rest : Text) : hostUrlPath ("file://".toList ++ rest) =
    some (if rest.dropWhile (· ≠ '/') = [] then ['/'] else rest.dropWhile (· ≠ '/')) := rfl

theorem hostParser : UrlParser hostUrlPath fun _ => true := by
  constructor
  · intro authority path plain canonical
    have skipped : ∀ c ∈ authority, decide (c ≠ '/') = true := by
      intro c listed
      refine decide_eq_true ?_
      rintro rfl
      exact slash_notPlain (plain _ listed)
    have left : (authority ++ path).dropWhile (· ≠ '/') = path := by
      rw [dropWhile_append_of_pos skipped]
      cases path with
      | nil => rfl
      | cons c path =>
        have slash : c = '/' := Option.some.inj (canonical.rooted.resolve_left (by simp))
        rw [slash]
        rfl
    rw [append_assoc, hostUrlPath_file, left]
    rfl
  · rfl
  intro rest path found
  rw [hostUrlPath_file] at found
  obtain rfl := Option.some.inj found
  split
  · rfl
  rename_i some_
  obtain ⟨c, path, shape⟩ := exists_cons_of_ne_nil some_
  have slash := head_dropWhile_not (· ≠ '/') some_
  simp only [shape, head_cons, decide_eq_false_iff_not, ne_eq, not_not] at slash
  rw [shape, slash]
  rfl

theorem documentUri_roundTrip_drive :
    (fileNameToDocumentUri "d:/work (1)/ü.ts".toList).bind (fileName hostUrlPath) = .ok "d:/work (1)/ü.ts".toList :=
  (documentUri_roundTrip_iff hostParser (.inr (.inl ⟨by decide, 'd', by decide, .inr (by decide)⟩))).mpr (by
    constructor
    · intro c rest start
      cases start
    · intro rest start
      cases start
    · intro scheme rest start
      cases start)

/-- A first component that only starts like a drive loses its root; a server name comes back escaped. -/
theorem documentUri_lost :
    IsPosix "/c:x/a.ts".toList ∧
      (fileNameToDocumentUri "/c:x/a.ts".toList).bind (fileName hostUrlPath) = .ok "c:x/a.ts".toList ∧
    IsUnc "//süd/share/a.ts".toList ∧
      (fileNameToDocumentUri "//süd/share/a.ts".toList).bind (fileName hostUrlPath) = .ok "//s%C3%BCd/share/a.ts".toList := by
  have posix : IsPosix "/c:x/a.ts".toList := by
    refine ⟨by decide, by decide, fun c _ => ?_⟩
    intro same
    cases same
  refine ⟨posix, ?_, ⟨by decide, by decide⟩, ?_⟩
  · change (fileNameToDocumentUri ('/' :: "c:x/a.ts".toList)).bind _ = _
    have single : ∀ rest, '/' :: "c:x/a.ts".toList ≠ '/' :: '/' :: rest := by
      intro rest start
      cases start
    have canonical : Canonical (escapedPath ('/' :: "c:x/a.ts".toList)) := canonical_normalized (by decide) (by decide)
    rw [fileNameToDocumentUri_slash, trimDoubleSlashes_single single, Outcome.bind_ok, fileName_rooted hostParser canonical]
    rfl
  change (fileNameToDocumentUri ('/' :: '/' :: ("süd".toList ++ "/share/a.ts".toList))).bind _ = _
  have single : ∀ rest, "süd".toList ++ "/share/a.ts".toList ≠ '/' :: '/' :: rest := by
    intro rest start
    cases start
  have escaped : pathEscape "süd".toList = "s%C3%BCd".toList := by decide
  have canonical : Canonical (escapedPath "/share/a.ts".toList) := canonical_normalized (by decide) (by decide)
  have free : '/' ∉ "süd".toList := by decide
  have rest : "/share/a.ts".toList = [] ∨ ∃ rest, "/share/a.ts".toList = '/' :: rest := .inr ⟨"share/a.ts".toList, rfl⟩
  have result := fileName_server hostParser (by decide) free rest canonical
  rw [fileNameToDocumentUri_slash, trimDoubleSlashes, trimDoubleSlashes_single single, Outcome.bind_ok, result, escaped]
  rfl

end TypeScriptRs.Lsconv
