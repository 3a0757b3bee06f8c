import TypeScriptRs.Lib.Machine
import TypeScriptRs.Lib.Utf8Bytes
import TypeScriptRs.Paths.Path

/-! File names and document URIs. The URL parser, to the path of a URL, is a parameter. -/
namespace TypeScriptRs.Lsconv
open Utf8 Machine Paths

def isBundled (path : Text) : Bool := "bundled:///".toList.isPrefixOf path

def isDynamicFileName (fileName : Text) : Bool := "^/".toList.isPrefixOf fileName

def splitOnce (separator : Char) (text : Text) : Option (Text × Text) :=
  if separator ∈ text then some (text.takeWhile (· ≠ separator), (text.dropWhile (· ≠ separator)).tail) else none

theorem splitOnce_append {separator : Char} {front : Text} (free : separator ∉ front) (back : Text) :
    splitOnce separator (front ++ separator :: back) = some (front, back) := by
  unfold splitOnce
  rw [if_pos (by simp), Split.takeWhile_append_cons free, Split.dropWhile_append_cons free]
  rfl

theorem splitOnce_eq {separator : Char} {text front back : Text} (cut : splitOnce separator text = some (front, back)) :
    text = front ++ separator :: back ∧ separator ∉ front := by
  unfold splitOnce at cut
  split at cut
  · rename_i listed
    obtain ⟨rfl, rfl⟩ := Prod.mk.inj (Option.some.inj cut)
    exact ⟨Split.takeWhile_cut listed, Split.not_mem_takeWhile separator text⟩
  · cases cut

/-- `split_volume_path` of the path library. -/
def splitVolumePath : Text → Option (Text × Text)
  | c :: ':' :: rest => if isVolumeCharacter c then some ([c.toLower, ':'], rest) else none
  | _ => none

def extraEscapes : List (Char × Text) :=
  [(':', "%3A".toList), ('/', "%2F".toList), ('?', "%3F".toList), ('#', "%23".toList), ('[', "%5B".toList),
    (']', "%5D".toList), ('@', "%40".toList), ('!', "%21".toList), ('$', "%24".toList), ('&', "%26".toList),
    ('\'', "%27".toList), ('(', "%28".toList), (')', "%29".toList), ('*', "%2A".toList), ('+', "%2B".toList),
    (',', "%2C".toList), (';', "%3B".toList), ('=', "%3D".toList), (' ', "%20".toList)]

def replaceChar (value : Text) (escape : Char × Text) : Text :=
  value.flatMap fun c => if c = escape.1 then escape.2 else [c]

def extraEscapeReplace (value : Text) : Text := extraEscapes.foldl replaceChar value

def hexDigit (n : Nat) : Char := Char.ofNat (if n < 10 then 48 + n else 55 + n)

def escapeByte (byte : UInt8) : Text := ['%', hexDigit (byte.toNat / 16), hexDigit (byte.toNat % 16)]

def isUnreserved (c : Char) : Bool := c.isAlphanum || c = '-' || c = '_' || c = '.' || c = '~'

def escapeChar (c : Char) : Text := if isUnreserved c then [c] else (String.utf8EncodeChar c).flatMap escapeByte

def pathEscape (value : Text) : Text := value.flatMap escapeChar

/-- `trim_start_matches("//")`. -/
def trimDoubleSlashes : Text → Text
  | '/' :: '/' :: rest => trimDoubleSlashes rest
  | text => text

def nulAuthority : Text := "ts-nul-authority".toList

def invalidFileName (fileName : Text) : String := "invalid file name: " ++ String.ofList fileName

def fileNameToDocumentUri (fileName : Text) : Outcome Text :=
  if isBundled fileName then .ok fileName
  else if isDynamicFileName fileName then
    match splitOnce '/' (fileName.drop 2) with
    | none => .panic (invalidFileName fileName)
    | some (scheme, rest) =>
      match splitOnce '/' rest with
      | none => .panic (invalidFileName fileName)
      | some (authority, path) =>
        if authority = nulAuthority then .ok (scheme ++ ':' :: path)
        else .ok (scheme ++ "://".toList ++ authority ++ '/' :: path)
  else
    let (volume, fileName) := (splitVolumePath fileName).getD ([], fileName)
    let volume := if volume ≠ [] then '/' :: extraEscapeReplace volume else volume
    let fileName := trimDoubleSlashes fileName
    let parts := ((fileName.splitOn '/').map pathEscape).map extraEscapeReplace
    .ok ("file://".toList ++ volume ++ join parts)

def hexValue (byte : UInt8) : Option UInt8 :=
  if 48 ≤ byte ∧ byte ≤ 57 then some (byte - 48)
  else if 97 ≤ byte ∧ byte ≤ 102 then some (byte - 97 + 10)
  else if 65 ≤ byte ∧ byte ≤ 70 then some (byte - 65 + 10)
  else none

/-- The loop of `percent_decode_path`, over the bytes that are left. -/
def percentDecode : List UInt8 → List UInt8
  | b :: hi :: lo :: rest =>
    if b = 37 then
      match hexValue hi, hexValue lo with
      | some hi, some lo => (hi <<< 4 ||| lo) :: percentDecode rest
      | _, _ => b :: percentDecode (hi :: lo :: rest)
    else b :: percentDecode (hi :: lo :: rest)
  | b :: rest => b :: percentDecode rest
  | [] => []

def percentDecodePath (path : Text) : Text := fromUtf8Lossy (percentDecode (encoded path))

/-- `split_volume_path` of the protocol library. -/
def splitVolume (fileName : Text) : Text × Text :=
  match fileName with
  | c :: ':' :: rest => if c.isAlpha then ([c.toLower, ':'], rest) else ([], fileName)
  | _ => ([], fileName)

def fixWindowsUriPath (path : Text) : Text :=
  match path with
  | '/' :: rest =>
    let (volume, rest) := splitVolume rest
    if volume ≠ [] then volume ++ rest else path
  | _ => path

def fileUriAuthority (uri : Text) : Option Text :=
  if "file://".toList.isPrefixOf uri then
    let rest := uri.drop 7
    if rest.head? = some '/' then none else some (rest.takeWhile fun c => c ≠ '/' && c ≠ '?' && c ≠ '#')
  else none

def invalidUri (uri : Text) : String := "invalid URI: " ++ String.ofList uri

def fileName (urlPath : Text → Option Text) (uri : Text) : Outcome Text :=
  if isBundled uri then .ok uri
  else if "file://".toList.isPrefixOf uri then
    match urlPath uri with
    | none => .panic ("invalid file URI: " ++ String.ofList uri)
    | some parsed =>
      let path := percentDecodePath parsed
      match fileUriAuthority uri with
      | some authority =>
        if authority ≠ [] then .ok ("//".toList ++ authority ++ path) else .ok (fixWindowsUriPath path)
      | none => .ok (fixWindowsUriPath path)
  else
    match splitOnce ':' uri with
    | none => .panic (invalidUri uri)
    | some (scheme, path) =>
      if "//".toList.isPrefixOf path then
        match splitOnce '/' (path.drop 2) with
        | none => .panic (invalidUri uri)
        | some (authority, path) => .ok ("^/".toList ++ scheme ++ '/' :: authority ++ '/' :: path)
      else .ok ("^/".toList ++ scheme ++ '/' :: nulAuthority ++ '/' :: path)

end TypeScriptRs.Lsconv
