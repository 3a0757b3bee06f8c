import TypeScriptRs.Lib.Machine
import TypeScriptRs.Lib.Utf8

/-! Source maps that a URL holds itself. -/
namespace TypeScriptRs.SourceMap
open Machine Utf8 List

def stripPrefix (start text : Text) : Option Text :=
  if start.isPrefixOf text then some (text.drop start.length) else none

def eqIgnoreAsciiCase (a b : Text) : Bool := a.map Char.toLower = b.map Char.toLower

def isBase64 (ch : Char) : Bool := ch.isAlphanum || ch = '+' || ch = '/' || ch = '='

def charBoundary : String := "byte index 6 is not a char boundary"

/-- The part of the URL after its character set, or nothing where the parser returns. -/
def afterCharset (url : Text) : Outcome (Option Text) :=
  match stripPrefix "charset=".toList url with
  | none => pure (some url)
  | some rest =>
    if bytes rest < 6 then pure none
    else
      match takeBytes rest 6 with
      | none => .panic charBoundary
      | some name =>
        if !eqIgnoreAsciiCase name "utf-8;".toList then pure none
        else
          match dropBytes rest 6 with
          | none => .panic charBoundary
          | some url => pure (some url)

def base64Data (url : Text) : Text × Bool :=
  match stripPrefix "base64,".toList url with
  | none => ([], true)
  | some rest => if rest.any fun ch => !isBase64 ch then ([], true) else (rest, true)

def tryParseBase64Url (url : Text) : Outcome (Text × Bool) :=
  match stripPrefix "data:".toList url with
  | none => pure ([], false)
  | some url =>
    match stripPrefix "application/json;".toList url with
    | none => pure ([], true)
    | some rest => do
      match ← afterCharset rest with
      | none => pure ([], true)
      | some url => pure (base64Data url)

example : tryParseBase64Url "data:application/json;charset=UTF-8;base64,eA==".toList = .ok ("eA==".toList, true) := by
  decide

/-- A character set: none, or one that is spelled as UTF-8 in any case. -/
def IsCharset (charset : Text) : Prop :=
  charset = [] ∨ ∃ name, eqIgnoreAsciiCase name "utf-8;".toList = true ∧ charset = "charset=".toList ++ name

def DocumentedUrl (url payload : Text) : Prop :=
  ∃ charset, IsCharset charset ∧ (∀ c ∈ payload, isBase64 c = true) ∧
    url = "data:".toList ++ ("application/json;".toList ++ (charset ++ ("base64,".toList ++ payload)))

/-- The data is returned if there is some, and nothing otherwise. -/
def ParsedAsDocumented (url : Text) (outcome : Outcome (Text × Bool)) : Prop :=
  (∃ payload, DocumentedUrl url payload ∧ outcome = .ok (payload, true)) ∨
    ((∀ payload, ¬DocumentedUrl url payload) ∧ outcome = .ok ([], "data:".toList.isPrefixOf url))

/-- The sixth byte after the character set's name is inside a character. -/
def CutsCharacter (url : Text) : Prop :=
  ∃ rest, url = "data:".toList ++ ("application/json;".toList ++ ("charset=".toList ++ rest)) ∧ 6 ≤ bytes rest ∧
    takeBytes rest 6 = none

theorem stripPrefix_eq_some {start text rest : Text} : stripPrefix start text = some rest ↔ text = start ++ rest := by
  unfold stripPrefix
  constructor
  · intro found
    split at found
    · rename_i begins
      obtain ⟨tail, rfl⟩ := List.isPrefixOf_iff_prefix.mp begins
      rw [drop_left] at found
      rw [Option.some.inj found]
    · cases found
  · rintro rfl
    rw [if_pos (List.isPrefixOf_iff_prefix.mpr (prefix_append _ _)), drop_left]

theorem stripPrefix_append (start rest : Text) : stripPrefix start (start ++ rest) = some rest :=
  stripPrefix_eq_some.mpr rfl

theorem stripPrefix_eq_none {start text : Text} : stripPrefix start text = none ↔ ∀ rest, text ≠ start ++ rest := by
  constructor
  · intro none rest same
    rw [stripPrefix_eq_some.mpr same] at none
    cases none
  · intro other
    cases found : stripPrefix start text with
    | none => rfl
    | some rest => exact absurd (stripPrefix_eq_some.mp found) (other rest)

theorem bytes_of_eqIgnoreAsciiCase {a b : Text} (alike : eqIgnoreAsciiCase a b = true) : bytes a = bytes b := by
  have same : a.map Char.toLower = b.map Char.toLower := of_decide_eq_true alike
  rw [← bytes_map toLower_utf8Size a, ← bytes_map toLower_utf8Size b, same]

theorem afterCharset_eq {url : Text}
    (whole : ∀ rest, url = "charset=".toList ++ rest → 6 ≤ bytes rest → takeBytes rest 6 ≠ none) :
    ∃ found, afterCharset url = .ok found ∧ ∀ tail, "base64,".toList <+: tail →
      (found = some tail ↔ ∃ charset, IsCharset charset ∧ url = charset ++ tail) := by
  have begins : ∀ {tail rest : Text}, "base64,".toList <+: tail → tail ≠ "charset=".toList ++ rest := by
    rintro _ rest ⟨more, rfl⟩ same
    cases same
  have size : bytes "utf-8;".toList = 6 := by decide
  unfold afterCharset
  cases found : stripPrefix "charset=".toList url with
  | none =>
    refine ⟨some url, rfl, ?_⟩
    intro tail _
    constructor
    · rintro ⟨⟩
      exact ⟨[], .inl rfl, rfl⟩
    · rintro ⟨charset, rfl | ⟨name, -, rfl⟩, same⟩
      · rw [same, nil_append]
      · exact absurd same (stripPrefix_eq_none.mp found _)
  | some rest =>
    obtain rfl := stripPrefix_eq_some.mp found
    -- A documented character set is the first six bytes.
    have named : ∀ tail, "base64,".toList <+: tail →
        ((∃ charset, IsCharset charset ∧ "charset=".toList ++ rest = charset ++ tail) ↔
          ∃ name, eqIgnoreAsciiCase name "utf-8;".toList = true ∧ rest = name ++ tail) := by
      intro tail starts
      constructor
      · rintro ⟨charset, rfl | ⟨name, alike, rfl⟩, same⟩
        · exact absurd same.symm (begins starts)
        · exact ⟨name, alike, append_cancel_left same⟩
      · rintro ⟨name, alike, rfl⟩
        exact ⟨_, .inr ⟨name, alike, rfl⟩, (append_assoc ..).symm⟩
    dsimp only
    split
    · rename_i short
      refine ⟨none, rfl, ?_⟩
      intro tail starts
      rw [named tail starts]
      refine iff_of_false (by rintro ⟨⟩) ?_
      rintro ⟨name, alike, rfl⟩
      have six := (bytes_of_eqIgnoreAsciiCase alike).trans size
      rw [bytes_append, six] at short
      omega
    rename_i long
    cases cut : takeBytes rest 6 with
    | none => exact absurd cut (whole rest rfl (Nat.le_of_not_lt long))
    | some name =>
      obtain ⟨after, dropped, rfl⟩ := takeBytes_eq_some cut
      have only : ∀ {other tail : Text}, eqIgnoreAsciiCase other "utf-8;".toList = true →
          name ++ after = other ++ tail → other = name ∧ tail = after := by
        intro other tail alike same
        have six := (bytes_of_eqIgnoreAsciiCase alike).trans size
        rw [same, ← six, takeBytes_append] at cut
        obtain rfl := Option.some.inj cut
        exact ⟨rfl, (append_cancel_left same).symm⟩
      dsimp only
      split
      · rename_i other
        refine ⟨none, rfl, ?_⟩
        intro tail starts
        rw [named tail starts]
        refine iff_of_false (by rintro ⟨⟩) ?_
        rintro ⟨name', alike, same⟩
        rw [(only alike same).1] at alike
        rw [alike] at other
        cases other
      rename_i alike
      rw [dropped]
      refine ⟨some after, rfl, ?_⟩
      intro tail starts
      rw [named tail starts]
      constructor
      · rintro ⟨⟩
        exact ⟨name, by simpa using alike, rfl⟩
      · rintro ⟨name', alike', same⟩
        rw [(only alike' same).2]

/-- A URL is parsed as documented exactly if no character is cut after the character set's name. -/
theorem tryParseBase64Url_documented (url : Text) :
    ParsedAsDocumented url (tryParseBase64Url url) ↔ ¬CutsCharacter url := by
  constructor
  · rintro parsed ⟨rest, rfl, long, cut⟩
    have panics : afterCharset ("charset=".toList ++ rest) = .panic charBoundary := by
      unfold afterCharset
      rw [stripPrefix_append]
      dsimp only
      rw [if_neg (Nat.not_lt.mpr long), cut]
    have outcome : tryParseBase64Url ("data:".toList ++ ("application/json;".toList ++ ("charset=".toList ++ rest))) =
        .panic charBoundary := by
      unfold tryParseBase64Url
      rw [stripPrefix_append]
      dsimp only
      rw [stripPrefix_append]
      dsimp only
      rw [panics]
      rfl
    rw [outcome] at parsed
    rcases parsed with ⟨_, -, ⟨⟩⟩ | ⟨-, ⟨⟩⟩
  intro whole
  unfold tryParseBase64Url ParsedAsDocumented
  cases data : stripPrefix "data:".toList url with
  | none =>
    have other := stripPrefix_eq_none.mp data
    refine .inr ⟨?_, ?_⟩
    · rintro payload ⟨charset, -, -, same⟩
      exact other _ same
    cases begins : "data:".toList.isPrefixOf url with
    | false => rfl
    | true =>
      obtain ⟨rest, same⟩ := List.isPrefixOf_iff_prefix.mp begins
      exact absurd same.symm (other rest)
  | some inner =>
    obtain rfl := stripPrefix_eq_some.mp data
    dsimp only
    cases json : stripPrefix "application/json;".toList inner with
    | none =>
      refine .inr ⟨?_, rfl⟩
      rintro payload ⟨charset, -, -, same⟩
      exact stripPrefix_eq_none.mp json _ (append_cancel_left same)
    | some rest =>
      obtain rfl := stripPrefix_eq_some.mp json
      have whole' : ∀ more, rest = "charset=".toList ++ more → 6 ≤ bytes more → takeBytes more 6 ≠ none := by
        rintro more rfl long cut
        exact whole ⟨more, rfl, long, cut⟩
      obtain ⟨found, outcome, charset⟩ := afterCharset_eq whole'
      have documented : ∀ payload,
          DocumentedUrl ("data:".toList ++ ("application/json;".toList ++ rest)) payload ↔
            found = some ("base64,".toList ++ payload) ∧ ∀ c ∈ payload, isBase64 c = true := by
        intro payload
        rw [charset _ (prefix_append _ _)]
        constructor
        · rintro ⟨set, formed, all, same⟩
          exact ⟨⟨set, formed, append_cancel_left (append_cancel_left same)⟩, all⟩
        · rintro ⟨⟨set, formed, rfl⟩, all⟩
          exact ⟨set, formed, all, rfl⟩
      simp only [documented]
      rw [outcome, Outcome.monad_bind, Outcome.bind_ok]
      cases found with
      | none => exact .inr ⟨by rintro _ ⟨⟨⟩, -⟩, rfl⟩
      | some tail =>
        dsimp only
        unfold base64Data
        cases mark : stripPrefix "base64,".toList tail with
        | none =>
          refine .inr ⟨?_, rfl⟩
          rintro payload ⟨same, -⟩
          exact stripPrefix_eq_none.mp mark payload (Option.some.inj same)
        | some payload =>
          obtain rfl := stripPrefix_eq_some.mp mark
          dsimp only
          split
          · rename_i foreign
            obtain ⟨c, listed, out⟩ := any_eq_true.mp foreign
            refine .inr ⟨?_, rfl⟩
            rintro other ⟨same, all⟩
            obtain rfl := append_cancel_left (Option.some.inj same)
            rw [all c listed] at out
            cases out
          · rename_i plain
            refine .inl ⟨payload, ⟨rfl, ?_⟩, rfl⟩
            simpa using plain

theorem cutCharset_panics : tryParseBase64Url "data:application/json;charset=utf-8é".toList = .panic charBoundary ∧
    ¬ParsedAsDocumented "data:application/json;charset=utf-8é".toList
      (tryParseBase64Url "data:application/json;charset=utf-8é".toList) := by
  have panics : tryParseBase64Url "data:application/json;charset=utf-8é".toList = .panic charBoundary := by decide
  refine ⟨panics, ?_⟩
  rintro (⟨_, -, ⟨⟩⟩ | ⟨-, ⟨⟩⟩)

end TypeScriptRs.SourceMap
