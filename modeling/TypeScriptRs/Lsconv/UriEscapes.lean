import TypeScriptRs.Lsconv.DocumentUri
import TypeScriptRs.Paths.Relative

/-! What a file name is escaped to, and what a URL parser leaves of it. -/
namespace TypeScriptRs.Lsconv
open Utf8 Machine Paths List

section
variable {c : Char} {value : Text}

theorem hexValue_hexDigit : ∀ n < 16, String.utf8EncodeChar (hexDigit n) = [UInt8.ofNat (hexDigit n).toNat] ∧
    hexValue (UInt8.ofNat (hexDigit n).toNat) = some (UInt8.ofNat n) := by decide

theorem isUnreserved_hexDigit : ∀ n < 16, isUnreserved (hexDigit n) = true := by decide

theorem nibbles : ∀ n < 256, UInt8.ofNat (n / 16) <<< 4 ||| UInt8.ofNat (n % 16) = UInt8.ofNat n := by decide +kernel

theorem percentDecode_escapeByte (byte : UInt8) (rest : List UInt8) :
    percentDecode (encoded (escapeByte byte) ++ rest) = byte :: percentDecode rest := by
  have bound := byte.toNat_lt
  obtain ⟨high, highValue⟩ := hexValue_hexDigit (byte.toNat / 16) (by omega)
  obtain ⟨low, lowValue⟩ := hexValue_hexDigit (byte.toNat % 16) (by omega)
  have percent : String.utf8EncodeChar '%' = [37] := by decide
  have both := nibbles byte.toNat bound
  rw [UInt8.ofNat_toNat] at both
  simp only [escapeByte, encoded_cons, encoded_nil, percent, high, low, append_nil, cons_append, nil_append]
  rw [percentDecode, if_pos rfl, highValue, lowValue]
  dsimp only
  rw [both]

theorem percentDecode_escapeBytes (bytes rest : List UInt8) :
    percentDecode (encoded (bytes.flatMap escapeByte) ++ rest) = bytes ++ percentDecode rest := by
  induction bytes with
  | nil => rfl
  | cons byte bytes ih =>
    rw [flatMap_cons, encoded_append, append_assoc, percentDecode_escapeByte, ih, cons_append]

theorem percentDecode_plain {byte : UInt8} (plain : byte ≠ 37) (rest : List UInt8) :
    percentDecode (byte :: rest) = byte :: percentDecode rest := by
  match rest with
  | [] => rfl
  | [_] => rfl
  | _ :: _ :: _ => rw [percentDecode, if_neg plain]

theorem isUnreserved_ascii (unreserved : isUnreserved c = true) : c.toNat < 128 ∧ c ≠ '%' := by
  constructor
  · simp only [isUnreserved, Char.isAlphanum, Char.isDigit, Bool.or_eq_true, isAlpha_iff,
      Bool.and_eq_true, decide_eq_true_eq] at unreserved
    rcases unreserved with (((((upper | lower) | digit) | rfl) | rfl) | rfl) | rfl
    · exact Nat.lt_of_le_of_lt upper.2 (by decide)
    · exact Nat.lt_of_le_of_lt lower.2 (by decide)
    · exact Nat.lt_of_le_of_lt digit.2 (by decide)
    all_goals decide
  · rintro rfl
    exact absurd unreserved (by decide)

theorem percentDecode_ascii (ascii : c.toNat < 128) (other : c ≠ '%') (rest : List UInt8) :
    percentDecode (String.utf8EncodeChar c ++ rest) = String.utf8EncodeChar c ++ percentDecode rest := by
  rw [utf8EncodeChar_ascii ascii]
  apply percentDecode_plain
  intro same
  have number := congrArg UInt8.toNat same
  rw [UInt8.toNat_ofNat_of_lt' (by change c.toNat < 256; omega)] at number
  exact other (Char.toNat_inj.mp number)

/-- The escaped path of a file name: its slashes are left as they are. -/
def escapedPath (path : Text) : Text := path.flatMap fun c => if c = '/' then ['/'] else escapeChar c

@[simp] theorem escapedPath_nil : escapedPath [] = [] := rfl

@[simp] theorem escapedPath_slash (path : Text) : escapedPath ('/' :: path) = '/' :: escapedPath path := rfl

theorem escapedPath_append (a b : Text) : escapedPath (a ++ b) = escapedPath a ++ escapedPath b := flatMap_append

theorem escapedPath_free {part : Text} (free : '/' ∉ part) : escapedPath part = pathEscape part := by
  apply flatMap_congr
  intro c listed
  refine if_neg ?_
  rintro rfl
  exact free listed

theorem percentDecode_escapedPath (path : Text) : percentDecode (encoded (escapedPath path)) = encoded path := by
  induction path with
  | nil => rfl
  | cons c path ih =>
    have cut : escapedPath (c :: path) = (if c = '/' then ['/'] else escapeChar c) ++ escapedPath path := rfl
    rw [cut, encoded_append, encoded_cons]
    split
    · rename_i slash
      subst slash
      rw [encoded_cons, encoded_nil, append_nil, percentDecode_ascii (by decide) (by decide), ih]
    rw [escapeChar]
    split
    · rename_i unreserved
      obtain ⟨ascii, other⟩ := isUnreserved_ascii unreserved
      rw [encoded_cons, encoded_nil, append_nil, percentDecode_ascii ascii other, ih]
    · rw [percentDecode_escapeBytes, ih]

theorem percentDecodePath_escapedPath (path : Text) : percentDecodePath (escapedPath path) = path := by
  rw [percentDecodePath, percentDecode_escapedPath, fromUtf8Lossy_encoded]

theorem plain_escapeChar {d : Char} (listed : d ∈ escapeChar c) : isUnreserved d = true ∨ d = '%' := by
  unfold escapeChar at listed
  split at listed
  · rename_i unreserved
    obtain rfl := mem_singleton.mp listed
    exact .inl unreserved
  obtain ⟨byte, -, inside⟩ := mem_flatMap.mp listed
  have bound := byte.toNat_lt
  simp only [escapeByte, mem_cons, not_mem_nil, or_false] at inside
  rcases inside with rfl | rfl | rfl
  · exact .inr rfl
  · exact .inl (isUnreserved_hexDigit _ (by omega))
  · exact .inl (isUnreserved_hexDigit _ (by omega))

theorem plain_pathEscape : ∀ c ∈ pathEscape value, isUnreserved c = true ∨ c = '%' := by
  intro c listed
  obtain ⟨d, -, inside⟩ := mem_flatMap.mp listed
  exact plain_escapeChar inside

theorem slash_notPlain : ¬(isUnreserved '/' = true ∨ '/' = '%') := by decide

theorem pathEscape_free (value : Text) : '/' ∉ pathEscape value := fun listed => slash_notPlain (plain_pathEscape _ listed)

theorem replaceChar_free {escape : Char × Text} (free : escape.1 ∉ value) : replaceChar value escape = value := by
  unfold replaceChar
  have same : ∀ c ∈ value, (if c = escape.1 then escape.2 else [c]) = [c] := by
    intro c listed
    refine if_neg ?_
    rintro rfl
    exact free listed
  rw [flatMap_congr same]
  exact flatMap_singleton' value

theorem replaceChars_free {escapes : List (Char × Text)} (free : ∀ escape ∈ escapes, escape.1 ∉ value) :
    escapes.foldl replaceChar value = value := by
  induction escapes with
  | nil => rfl
  | cons escape escapes ih =>
    rw [foldl_cons, replaceChar_free (free escape mem_cons_self)]
    exact ih fun other listed => free other (mem_cons_of_mem _ listed)

theorem extraEscapes_notPlain : ∀ escape ∈ extraEscapes, ¬(isUnreserved escape.1 = true ∨ escape.1 = '%') := by decide

theorem extraEscapeReplace_plain (plain : ∀ c ∈ value, isUnreserved c = true ∨ c = '%') : extraEscapeReplace value = value :=
  replaceChars_free fun escape listed inside => extraEscapes_notPlain escape listed (plain _ inside)

theorem join_escaped {pieces : List Text} (free : ∀ piece ∈ pieces, '/' ∉ piece) :
    join ((pieces.map pathEscape).map extraEscapeReplace) = escapedPath (join pieces) := by
  induction pieces with
  | nil => rfl
  | cons piece pieces ih =>
    have rest := ih fun other listed => free other (mem_cons_of_mem _ listed)
    have here := escapedPath_free (free piece mem_cons_self)
    cases pieces with
    | nil =>
      have single : ∀ text : Text, join [text] = text := fun text => intercalate_singleton
      rw [map_singleton, map_singleton, single, single, here, extraEscapeReplace_plain plain_pathEscape]
    | cons other pieces =>
      have cut : join (piece :: other :: pieces) = piece ++ '/' :: join (other :: pieces) :=
        Split.intercalate_cons piece (by simp)
      rw [cut, escapedPath_append, escapedPath_slash, ← rest, here, map_cons, map_cons,
        extraEscapeReplace_plain plain_pathEscape]
      exact Split.intercalate_cons _ (by simp)

theorem join_parts (path : Text) : join (((path.splitOn '/').map pathEscape).map extraEscapeReplace) = escapedPath path := by
  have whole : join (path.splitOn '/') = path := intercalate_splitOn '/'
  rw [join_escaped fun _ listed => Split.not_mem_of_mem_splitOn listed, whole]

theorem length_escapeChar (c : Char) : 1 ≤ (escapeChar c).length ∧ ((escapeChar c).length = 1 → isUnreserved c = true) := by
  unfold escapeChar
  split
  · rename_i unreserved
    exact ⟨le_refl 1, fun _ => unreserved⟩
  have size := c.utf8Size_pos
  have length : ((String.utf8EncodeChar c).flatMap escapeByte).length = 3 * c.utf8Size := by
    have each : ∀ byte ∈ String.utf8EncodeChar c, (escapeByte byte).length = 3 := fun _ _ => rfl
    rw [length_flatMap, map_congr_left each, map_const', sum_replicate_nat, String.length_utf8EncodeChar,
      Nat.mul_comm]
  constructor
  · omega
  · omega

theorem length_pathEscape (value : Text) : value.length ≤ (pathEscape value).length ∧
    ((pathEscape value).length = value.length → ∀ c ∈ value, isUnreserved c = true) := by
  induction value with
  | nil => exact ⟨le_refl 0, fun _ c listed => absurd listed not_mem_nil⟩
  | cons c value ih =>
    obtain ⟨longer, unreserved⟩ := ih
    obtain ⟨some_, one⟩ := length_escapeChar c
    have cut : (pathEscape (c :: value)).length = (escapeChar c).length + (pathEscape value).length := by
      rw [pathEscape, flatMap_cons, length_append, pathEscape]
    rw [cut, length_cons]
    constructor
    · omega
    · intro same d listed
      rcases mem_cons.mp listed with rfl | listed
      · exact one (by omega)
      · exact unreserved (by omega) d listed

theorem pathEscape_eq_iff (value : Text) : pathEscape value = value ↔ ∀ c ∈ value, isUnreserved c = true := by
  constructor
  · intro same
    exact (length_pathEscape value).2 (congrArg List.length same)
  · intro unreserved
    have same : ∀ c ∈ value, escapeChar c = [c] := fun c listed => if_pos (unreserved c listed)
    rw [pathEscape, flatMap_congr same]
    exact flatMap_singleton' value
end

section
variable {c : Char}

theorem trimDoubleSlashes_single {path : Text} (single : ∀ rest, path ≠ '/' :: '/' :: rest) : trimDoubleSlashes path = path := by
  unfold trimDoubleSlashes
  split
  · exact absurd rfl (single _)
  · rfl

theorem splitVolumePath_slash (rest : Text) : splitVolumePath ('/' :: rest) = none := by
  unfold splitVolumePath
  split
  · rename_i shape
    obtain ⟨rfl, -⟩ := List.cons.inj shape
    exact if_neg (by decide)
  · rfl

theorem fileNameToDocumentUri_slash (rest : Text) :
    fileNameToDocumentUri ('/' :: rest) = .ok ("file://".toList ++ escapedPath (trimDoubleSlashes ('/' :: rest))) := by
  have bundled : isBundled ('/' :: rest) = false := rfl
  have dynamic : isDynamicFileName ('/' :: rest) = false := rfl
  unfold fileNameToDocumentUri
  rw [bundled, dynamic, splitVolumePath_slash]
  simp only [Option.getD_none, ne_eq, not_true, if_false, append_nil, join_parts, Bool.false_eq_true]

theorem isAlpha_eq (c : Char) : c.isAlpha = isVolumeCharacter c := by
  rw [Bool.eq_iff_iff]
  simp only [isVolumeCharacter, isAlpha_iff, Bool.or_eq_true, Bool.and_eq_true, decide_eq_true_eq]
  exact or_comm

theorem letter_unreserved (letter : isVolumeCharacter c = true) : isUnreserved c = true ∧ c ≠ '/' ∧ c ≠ ':' := by
  have alpha : c.isAlpha = true := (isAlpha_eq c).trans letter
  constructor
  · simp only [isUnreserved, Char.isAlphanum, alpha, Bool.true_or]
  constructor
  · rintro rfl
    exact absurd letter (by decide)
  · rintro rfl
    exact absurd letter (by decide)

theorem escapedPath_volume (letter : isVolumeCharacter c = true) (rest : Text) :
    escapedPath (c :: ':' :: rest) = c :: "%3A".toList ++ escapedPath rest := by
  obtain ⟨unreserved, notSlash, -⟩ := letter_unreserved letter
  have here : (if c = '/' then ['/'] else escapeChar c) = [c] := by
    rw [if_neg notSlash]
    exact if_pos unreserved
  have colon : (if ':' = '/' then ['/'] else escapeChar ':') = "%3A".toList := by decide
  unfold escapedPath
  rw [flatMap_cons, flatMap_cons, here, colon]
  rfl

theorem extraEscapeReplace_volume (letter : isVolumeCharacter c = true) : extraEscapeReplace [c, ':'] = c :: "%3A".toList := by
  obtain ⟨unreserved, -, notColon⟩ := letter_unreserved letter
  have first : replaceChar [c, ':'] (':', "%3A".toList) = c :: "%3A".toList := by
    unfold replaceChar
    rw [flatMap_cons, if_neg notColon]
    rfl
  have all : extraEscapes = (':', "%3A".toList) :: extraEscapes.tail := rfl
  unfold extraEscapeReplace
  rw [all, foldl_cons, first]
  apply replaceChars_free
  intro escape listed inside
  have escaped : ∀ d ∈ "%3A".toList, isUnreserved d = true ∨ d = '%' := by
    have all : ("%3A".toList.all fun d => isUnreserved d || d = '%') = true := by decide
    intro d listed
    simpa using all_eq_true.mp all d listed
  have plain : ∀ d ∈ c :: "%3A".toList, isUnreserved d = true ∨ d = '%' := by
    intro d member
    rcases mem_cons.mp member with rfl | member
    · exact .inl unreserved
    · exact escaped d member
  exact extraEscapes_notPlain escape (mem_of_mem_tail listed) (plain _ inside)

theorem isDynamicFileName_volume (c : Char) (rest : Text) : isDynamicFileName (c :: ':' :: rest) = false := by
  change (_ && (false && _)) = false
  rw [Bool.false_and, Bool.and_false]

theorem fileNameToDocumentUri_drive (letter : isVolumeCharacter c = true) (lower : c.toLower = c) (rest : Text) :
    fileNameToDocumentUri (c :: ':' :: rest) =
      .ok ("file://".toList ++ escapedPath ('/' :: c :: ':' :: trimDoubleSlashes rest)) := by
  have bundled : isBundled (c :: ':' :: rest) = false := by
    change (_ && (false && _)) = false
    rw [Bool.false_and, Bool.and_false]
  have dynamic := isDynamicFileName_volume c rest
  have volume : splitVolumePath (c :: ':' :: rest) = some ([c, ':'], rest) := by
    change (if isVolumeCharacter c = true then some ([c.toLower, ':'], rest) else none) = _
    rw [lower]
    exact if_pos letter
  have some_ : ¬[c, ':'] = [] := by simp
  unfold fileNameToDocumentUri
  rw [bundled, dynamic, volume]
  simp only [Option.getD_some, ne_eq, some_, not_false_eq_true, if_true, if_false, Bool.false_eq_true, join_parts,
    extraEscapeReplace_volume letter, escapedPath_slash, escapedPath_volume letter]
  simp
end

section
/-- The paths of URLs that a parser has nothing to change in: escaped, and without empty
segments or segments for a directory itself or the one above it. -/
structure Canonical (path : Text) : Prop where
  rooted : path = [] ∨ path.head? = some '/'
  plain : ∀ c ∈ path, (isUnreserved c = true ∨ c = '%') ∨ c = '/'
  filled : ∀ segment ∈ (path.splitOn '/').tail.dropLast, segment ≠ []
  named : ∀ segment ∈ path.splitOn '/', percentDecodePath segment ≠ ['.'] ∧ percentDecodePath segment ≠ ['.', '.']

/-- What the code relies on: the path of a file URL is the one that its text has, escapes
included, if the parser takes the authority for the name of a host. -/
structure UrlParser (urlPath : Text → Option Text) (accepts : Text → Bool) : Prop where
  path : ∀ authority path, (∀ c ∈ authority, isUnreserved c = true ∨ c = '%') → Canonical path →
    urlPath ("file://".toList ++ authority ++ path) =
      if accepts authority then some (if path = [] then ['/'] else path) else none
  noAuthority : accepts [] = true
  absolute : ∀ rest path, urlPath ("file://".toList ++ rest) = some path → path.head? = some '/'

theorem canonical_nil : Canonical [] := by
  constructor
  · exact .inl rfl
  · intro c listed
    exact absurd listed not_mem_nil
  · decide
  intro segment listed
  have empty : percentDecodePath [] = [] := percentDecodePath_escapedPath []
  have here : segment = [] := mem_singleton.mp listed
  rw [here, empty]
  exact ⟨by simp, by simp⟩

theorem splitOn_escapedPath (path : Text) : (escapedPath path).splitOn '/' = (path.splitOn '/').map pathEscape := by
  have cut : escapedPath path = ['/'].intercalate ((path.splitOn '/').map pathEscape) := by
    have escaped := join_parts path
    rw [map_congr_left (g := id) fun part listed => ?_, map_id] at escaped
    · exact escaped.symm
    · obtain ⟨piece, -, rfl⟩ := mem_map.mp listed
      exact extraEscapeReplace_plain plain_pathEscape
  rw [cut]
  apply splitOn_intercalate '/'
  · intro part listed
    obtain ⟨piece, -, rfl⟩ := mem_map.mp listed
    exact pathEscape_free piece
  · simp [splitOn_ne_nil]

theorem plain_escapedPath {path : Text} : ∀ c ∈ escapedPath path, (isUnreserved c = true ∨ c = '%') ∨ c = '/' := by
  intro c listed
  obtain ⟨d, -, inside⟩ := mem_flatMap.mp listed
  split at inside
  · exact .inr (mem_singleton.mp inside)
  · exact .inl (plain_escapeChar inside)

structure Components (pieces : List Text) : Prop where
  free : ∀ piece ∈ pieces, '/' ∉ piece
  named : ∀ piece ∈ pieces, piece ≠ ['.'] ∧ piece ≠ ['.', '.']
  filled : ∀ piece ∈ pieces.dropLast, piece ≠ []

theorem Components.of_regular {pieces : List Text} (regular : ∀ c ∈ pieces, Proper c ∧ c ≠ ['.', '.']) : Components pieces := by
  constructor
  · exact fun piece listed => (regular piece listed).1.free
  · exact fun piece listed => ⟨(regular piece listed).1.notDot, (regular piece listed).2⟩
  · exact fun piece listed => (regular piece (dropLast_subset pieces listed)).1.filled

theorem canonical_escapedPath {pieces : List Text} (components : Components pieces) (some_ : pieces ≠ []) :
    Canonical (escapedPath ('/' :: join pieces)) := by
  have parts : ('/' :: join pieces).splitOn '/' = [] :: pieces := by
    exact congrArg _ (splitOn_intercalate '/' components.free some_)
  constructor
  · exact .inr rfl
  · exact plain_escapedPath
  · rw [splitOn_escapedPath, parts, map_cons, tail_cons]
    intro segment listed
    rw [← map_dropLast] at listed
    obtain ⟨piece, inside, rfl⟩ := mem_map.mp listed
    have length := (length_pathEscape piece).1
    intro none
    rw [none] at length
    exact components.filled piece inside (length_eq_zero_iff.mp (Nat.le_zero.mp length))
  rw [splitOn_escapedPath, parts]
  intro segment listed
  obtain ⟨piece, inside, rfl⟩ := mem_map.mp listed
  have free : '/' ∉ piece := by
    rcases mem_cons.mp inside with rfl | inside
    · exact not_mem_nil
    · exact components.free piece inside
  rw [← escapedPath_free free, percentDecodePath_escapedPath]
  rcases mem_cons.mp inside with rfl | inside
  · exact ⟨by simp, by simp⟩
  · exact components.named piece inside
end

variable {urlPath : Text → Option Text} {accepts : Text → Bool} (parser : UrlParser urlPath accepts)

theorem fileName_file (rest : Text) : fileName urlPath ("file://".toList ++ rest) =
    match urlPath ("file://".toList ++ rest) with
    | none => .panic ("invalid file URI: " ++ String.ofList ("file://".toList ++ rest))
    | some parsed =>
      match fileUriAuthority ("file://".toList ++ rest) with
      | some authority =>
        if authority ≠ [] then .ok ("//".toList ++ authority ++ percentDecodePath parsed)
        else .ok (fixWindowsUriPath (percentDecodePath parsed))
      | none => .ok (fixWindowsUriPath (percentDecodePath parsed)) := rfl

theorem fileUriAuthority_file (rest : Text) : fileUriAuthority ("file://".toList ++ rest) =
    if rest.head? = some '/' then none else some (rest.takeWhile fun c => c ≠ '/' && c ≠ '?' && c ≠ '#') := rfl

include parser

theorem fileName_rooted {path : Text} (canonical : Canonical (escapedPath ('/' :: path))) :
    fileName urlPath ("file://".toList ++ escapedPath ('/' :: path)) = .ok (fixWindowsUriPath ('/' :: path)) := by
  have parsed := parser.path [] (escapedPath ('/' :: path)) (by simp) canonical
  rw [parser.noAuthority, if_pos rfl, append_nil, if_neg (by simp)] at parsed
  rw [fileName_file, parsed, fileUriAuthority_file]
  dsimp only
  rw [percentDecodePath_escapedPath, escapedPath_slash]
  rfl

theorem fileName_server {server path : Text} (some_ : server ≠ []) (free : '/' ∉ server)
    (shape : path = [] ∨ ∃ rest, path = '/' :: rest) (canonical : Canonical (escapedPath path)) :
    fileName urlPath ("file://".toList ++ escapedPath (server ++ path)) =
      if accepts (pathEscape server) then .ok ("//".toList ++ pathEscape server ++ (if path = [] then ['/'] else path))
      else .panic ("invalid file URI: " ++ String.ofList ("file://".toList ++ escapedPath (server ++ path))) := by
  have parsed := parser.path (pathEscape server) (escapedPath path) plain_pathEscape canonical
  have filled : pathEscape server ≠ [] := by
    intro none
    have length := (length_pathEscape server).1
    rw [none] at length
    exact some_ (length_eq_zero_iff.mp (Nat.le_zero.mp length))
  have delimiters : ∀ c ∈ pathEscape server, (c ≠ '/' && c ≠ '?' && c ≠ '#') = true := by
    intro c listed
    have plain := plain_pathEscape c listed
    have not : ∀ d ∈ ['/', '?', '#'], ¬(isUnreserved d = true ∨ d = '%') := by
      have all : (['/', '?', '#'].all fun d => !(isUnreserved d || d = '%')) = true := by decide
      intro d listed
      simpa using all_eq_true.mp all d listed
    have other : ∀ d ∈ ['/', '?', '#'], c ≠ d := by
      rintro d member rfl
      exact not c member plain
    simp only [decide_eq_true_eq, Bool.and_eq_true]
    exact ⟨⟨other '/' (by simp), other '?' (by simp)⟩, other '#' (by simp)⟩
  have head : (pathEscape server ++ escapedPath path).head? ≠ some '/' := by
    obtain ⟨c, rest, escaped⟩ := exists_cons_of_ne_nil filled
    have other := delimiters c (by rw [escaped]; exact mem_cons_self)
    rw [escaped]
    intro same
    rw [Option.some.inj same] at other
    exact absurd other (by decide)
  have authority : (pathEscape server ++ escapedPath path).takeWhile (fun c => c ≠ '/' && c ≠ '?' && c ≠ '#') =
      pathEscape server := by
    rw [takeWhile_append_of_pos delimiters]
    rcases shape with rfl | ⟨rest, rfl⟩
    · simp
    · simp
  rw [append_assoc] at parsed
  rw [escapedPath_append, escapedPath_free free, fileName_file, parsed]
  by_cases accepted : accepts (pathEscape server) = true
  · rw [if_pos accepted, if_pos accepted]
    rw [fileUriAuthority_file, if_neg head, authority]
    dsimp only
    rw [if_pos filled]
    rcases shape with rfl | ⟨rest, rfl⟩
    · have slash : percentDecodePath ['/'] = ['/'] := percentDecodePath_escapedPath ['/']
      rw [escapedPath_nil, if_pos rfl, slash]
    · rw [if_neg (by simp), if_neg (by simp), percentDecodePath_escapedPath]
  · rw [if_neg accepted, if_neg accepted]

end TypeScriptRs.Lsconv
