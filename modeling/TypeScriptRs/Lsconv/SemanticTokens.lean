import Mathlib.Data.List.Nodup
import TypeScriptRs.Lsconv.Converters

/-! Semantic tokens in the relative encoding of the protocol. -/
namespace TypeScriptRs.Lsconv
open Machine

section
inductive TokenType where
  | namespace_ | class_ | enum | interface | struct | typeParameter | type | parameter | variable_ | property | enumMember | decorator
  | event | function | method | macro_ | label | comment | string | keyword | number | regexp | operator
  deriving DecidableEq

def tokenTypes : List String :=
  ["namespace", "class", "enum", "interface", "struct", "typeParameter", "type", "parameter", "variable", "property", "enumMember",
    "decorator", "event", "function", "method", "macro", "label", "comment", "string", "keyword", "number", "regexp", "operator"]

def tokenModifiers : List String :=
  ["declaration", "definition", "readonly", "static", "deprecated", "abstract", "async", "modification", "documentation",
    "defaultLibrary", "local"]

/-- The flags of `TokenModifier`, each with its name. -/
def serverModifiers : List (Nat × String) :=
  [(1 <<< 0, "declaration"), (1 <<< 1, "definition"), (1 <<< 2, "readonly"), (1 <<< 3, "static"), (1 <<< 4, "deprecated"),
    (1 <<< 5, "abstract"), (1 <<< 6, "async"), (1 <<< 7, "modification"), (1 <<< 8, "documentation"), (1 <<< 9, "defaultLibrary"),
    (1 <<< 10, "local")]

def contains (modifier flag : Nat) : Bool := modifier &&& flag ≠ 0

structure Capabilities where
  tokenTypes : List String
  tokenModifiers : List String

structure SemanticTokensLegend where
  tokenTypes : List String
  tokenModifiers : List String

def semanticTokensLegend (client : Capabilities) : SemanticTokensLegend :=
  ⟨tokenTypes.filter (· ∈ client.tokenTypes), tokenModifiers.filter (· ∈ client.tokenModifiers)⟩

/-- The keys of the supported names, numbered from an index on. -/
def numbered {κ : Type} (supported : List String) : List (κ × String) → Nat → List (κ × Nat)
  | [], _ => []
  | (key, name) :: rest, next =>
    if name ∈ supported then (key, next) :: numbered supported rest (next + 1) else numbered supported rest next

def typeKeys : List (Nat × String) := tokenTypes.zipIdx.map Prod.swap

def modifierKeys : List (String × String) := tokenModifiers.map fun name => (name, name)
end

section
structure SemanticToken where
  tokenStart : TextPos
  tokenEnd : TextPos
  tokenType : TokenType
  tokenModifier : Nat
  deriving DecidableEq

variable (client : Capabilities) (converters : Converters) (script : Script)

def typeMapping : List (Nat × Nat) := numbered client.tokenTypes typeKeys 0

def modifierMapping : List (String × Nat) := numbered client.tokenModifiers modifierKeys 0

def addModifier (tokenModifier mask : Nat) (entry : Nat × String) : Nat :=
  if contains tokenModifier entry.1 then
    match (modifierMapping client).lookup entry.2 with
    | some bit => mask ||| 1 <<< bit
    | none => mask
  else mask

def clientModifierMask (tokenModifier : Nat) : Nat := serverModifiers.foldl (addModifier client tokenModifier) 0

def checkedSub (a b : Nat) : Outcome Nat := if b ≤ a then .ok (a - b) else .panic "attempt to subtract with overflow"

def tokenLengthOf (startPos endPos : Position) : Outcome Nat :=
  if startPos.line = endPos.line then checkedSub endPos.character startPos.character
  else .panic "semantic tokens: token spans multiple lines"

def deltaCharOf (deltaLine : Nat) (startPos prev : Position) : Outcome Nat :=
  if deltaLine = 0 then checkedSub startPos.character prev.character else .ok startPos.character

def encodeLoop : List SemanticToken → List Nat → Position → Outcome (List Nat)
  | [], encoded, _ => .ok encoded
  | token :: tokens, encoded, prev =>
    match (typeMapping client).lookup token.tokenType.ctorIdx with
    | none => encodeLoop tokens encoded prev
    | some clientTypeIdx => do
      let startPos ← converters.positionToLineAndCharacter script token.tokenStart
      let endPos ← converters.positionToLineAndCharacter script token.tokenEnd
      let tokenLength ← tokenLengthOf startPos endPos
      if encoded ≠ [] ∧ (startPos.line < prev.line ∨ (startPos.line = prev.line ∧ startPos.character ≤ prev.character)) then
        .panic "semantic tokens: positions must be strictly increasing"
      else do
        let deltaLine ← checkedSub startPos.line prev.line
        let deltaChar ← deltaCharOf deltaLine startPos prev
        encodeLoop tokens (encoded ++ [deltaLine, deltaChar, tokenLength, clientTypeIdx, clientModifierMask client token.tokenModifier])
          startPos

def encodeSemanticTokens (tokens : List SemanticToken) : Outcome (List Nat) := encodeLoop client converters script tokens [] ⟨0, 0⟩
end

structure AbsoluteToken where
  line : Nat
  character : Nat
  length : Nat
  type_ : String
  modifiers : List String
  deriving DecidableEq

/-- The modifiers whose bits are set. A bit without a modifier is an error. -/
def decodeModifiers (legend : List String) (mask : Nat) : Option (List String) :=
  if mask < 2 ^ legend.length then some ((legend.zipIdx.filter fun entry => mask.testBit entry.2).map Prod.fst) else none

/-- The standard decoding: lines are relative to the token before, characters too on its line. -/
def decodeTokens (legend : SemanticTokensLegend) : Position → List Nat → Option (List AbsoluteToken)
  | _, [] => some []
  | prev, deltaLine :: deltaChar :: length :: index :: mask :: rest => do
    let here : Position := ⟨prev.line + deltaLine, if deltaLine = 0 then prev.character + deltaChar else deltaChar⟩
    let name ← legend.tokenTypes[index]?
    let modifiers ← decodeModifiers legend.tokenModifiers mask
    let later ← decodeTokens legend here rest
    some (⟨here.line, here.character, length, name, modifiers⟩ :: later)
  | _, _ => none

structure Place where
  start : Position
  length : Nat

def Located (converters : Converters) (script : Script) (token : SemanticToken) (place : Place) : Prop :=
  converters.positionToLineAndCharacter script token.tokenStart = .ok place.start ∧
    converters.positionToLineAndCharacter script token.tokenEnd = .ok ⟨place.start.line, place.start.character + place.length⟩

def Before (p q : Position) : Prop := p.line < q.line ∨ p.line = q.line ∧ p.character < q.character

def TokenType.name (tokenType : TokenType) : String := tokenTypes.getD tokenType.ctorIdx ""

/-- The tokens of supported types at their places, with their supported modifiers. -/
def absoluteTokens (client : Capabilities) : List SemanticToken → List Place → List AbsoluteToken
  | token :: tokens, place :: places =>
    if token.tokenType.name ∈ client.tokenTypes then
      ⟨place.start.line, place.start.character, place.length, token.tokenType.name,
        (serverModifiers.filter fun entry => contains token.tokenModifier entry.1 ∧ entry.2 ∈ client.tokenModifiers).map Prod.snd⟩ ::
        absoluteTokens client tokens places
    else absoluteTokens client tokens places
  | _, _ => []

section
variable {κ : Type} [DecidableEq κ] {supported : List String} {entries : List (κ × String)} {key : κ} {name : String}

theorem lookup_numbered_none (absent : ∀ name, (key, name) ∈ entries → name ∉ supported) (next : Nat) :
    (numbered supported entries next).lookup key = none := by
  induction entries generalizing next with
  | nil => rfl
  | cons entry entries ih =>
    have later := ih fun name listed => absent name (List.mem_cons_of_mem entry listed)
    rw [numbered]
    split
    · rename_i named
      have other : (key == entry.1) = false := by
        rw [beq_eq_false_iff_ne]
        rintro rfl
        exact absent entry.2 List.mem_cons_self named
      rw [List.lookup_cons, other]
      exact later (next + 1)
    · exact later next

theorem lookup_numbered (distinct : (entries.map Prod.fst).Nodup) (listed : (key, name) ∈ entries) (named : name ∈ supported)
    (next : Nat) : ∃ i, (numbered supported entries next).lookup key = some (next + i) ∧
      ((entries.map Prod.snd).filter (· ∈ supported))[i]? = some name := by
  induction entries generalizing next with
  | nil => cases listed
  | cons entry entries ih =>
    obtain ⟨fresh, distinct⟩ := List.nodup_cons.mp distinct
    rw [numbered, List.map_cons]
    rcases List.mem_cons.mp listed with rfl | listed
    · refine ⟨0, ?_, ?_⟩
      · rw [if_pos named, List.lookup_cons, beq_self_eq_true]
        rfl
      · rw [List.filter_cons_of_pos (by simpa using named)]
        rfl
    · have other : (key == entry.1) = false := by
        rw [beq_eq_false_iff_ne]
        rintro rfl
        exact fresh (List.mem_map.mpr ⟨_, listed, rfl⟩)
      by_cases first : entry.2 ∈ supported
      · obtain ⟨i, found, there⟩ := ih distinct listed (next + 1)
        refine ⟨i + 1, ?_, ?_⟩
        · rw [if_pos first, List.lookup_cons, other]
          rw [found, Nat.add_assoc, Nat.add_comm 1]
        · rw [List.filter_cons_of_pos (by simpa using first), List.getElem?_cons_succ, there]
      · obtain ⟨i, found, there⟩ := ih distinct listed next
        refine ⟨i, ?_, ?_⟩
        · rw [if_neg first, found]
        · rw [List.filter_cons_of_neg (by simpa using first), there]
end

section
variable {client : Capabilities} {modifier i : Nat} {name : String}

theorem lookup_modifier (listed : name ∈ tokenModifiers) : (modifierMapping client).lookup name = some i ↔
    (semanticTokensLegend client).tokenModifiers[i]? = some name := by
  have keys : modifierKeys.map Prod.fst = tokenModifiers := rfl
  have names : modifierKeys.map Prod.snd = tokenModifiers := rfl
  have distinct : tokenModifiers.Nodup := by decide
  have entry : (name, name) ∈ modifierKeys := List.mem_map.mpr ⟨name, listed, rfl⟩
  by_cases named : name ∈ client.tokenModifiers
  · obtain ⟨k, found, there⟩ := lookup_numbered (keys ▸ distinct) entry named 0
    rw [Nat.zero_add] at found
    rw [names] at there
    rw [modifierMapping, found, Option.some_inj]
    constructor
    · rintro rfl
      exact there
    · intro here
      obtain ⟨inside, value⟩ := List.getElem?_eq_some_iff.mp there
      exact (List.getElem?_inj inside (distinct.filter _)).mp (there.trans here.symm)
  · have absent : (modifierMapping client).lookup name = none := by
      refine lookup_numbered_none (fun other same => ?_) 0
      obtain ⟨_, -, same⟩ := List.mem_map.mp same
      cases same
      exact named
    rw [absent]
    refine iff_of_false (by simp) fun here => named ?_
    simpa using (List.mem_filter.mp (List.mem_of_getElem? here)).2

theorem testBit_foldl (entries : List (Nat × String)) (mask : Nat) :
    (entries.foldl (addModifier client modifier) mask).testBit i = true ↔ mask.testBit i = true ∨
      ∃ entry ∈ entries, contains modifier entry.1 = true ∧ (modifierMapping client).lookup entry.2 = some i := by
  induction entries generalizing mask with
  | nil => simp
  | cons entry entries ih =>
    have first : (addModifier client modifier mask entry).testBit i = true ↔ mask.testBit i = true ∨
        contains modifier entry.1 = true ∧ (modifierMapping client).lookup entry.2 = some i := by
      unfold addModifier
      split
      · rename_i flagged
        cases found : (modifierMapping client).lookup entry.2 with
        | none => simp
        | some bit => simp [flagged, Nat.testBit_or, Nat.one_shiftLeft, Nat.testBit_two_pow]
      · rename_i plain
        simp [plain]
    rw [List.foldl_cons, ih, first, or_assoc, List.exists_mem_cons_iff]

theorem serverModifiers_names : serverModifiers.map Prod.snd = tokenModifiers := rfl

theorem flag_unique {a b : Nat × String} (listed : a ∈ serverModifiers) (listed' : b ∈ serverModifiers) (same : a.2 = b.2) : a = b :=
  List.inj_on_of_nodup_map (by decide : (serverModifiers.map Prod.snd).Nodup) listed listed' same

theorem testBit_clientModifierMask : (clientModifierMask client modifier).testBit i = true ↔
    ∃ entry ∈ serverModifiers, contains modifier entry.1 = true ∧
      (semanticTokensLegend client).tokenModifiers[i]? = some entry.2 := by
  rw [clientModifierMask, testBit_foldl, Nat.zero_testBit, or_iff_right Bool.false_ne_true]
  refine exists_congr fun entry => and_congr_right fun listed => and_congr_right fun _ => ?_
  exact lookup_modifier (serverModifiers_names ▸ List.mem_map_of_mem listed)

theorem decodeModifiers_mask (client : Capabilities) (modifier : Nat) :
    decodeModifiers (semanticTokensLegend client).tokenModifiers (clientModifierMask client modifier) =
      some ((serverModifiers.filter fun entry => contains modifier entry.1 ∧ entry.2 ∈ client.tokenModifiers).map Prod.snd) := by
  have small : clientModifierMask client modifier < 2 ^ (semanticTokensLegend client).tokenModifiers.length := by
    refine Nat.lt_pow_two_of_testBit _ fun i outside => Bool.eq_false_iff.mpr fun set => ?_
    obtain ⟨entry, -, -, there⟩ := testBit_clientModifierMask.mp set
    exact absurd (List.getElem?_eq_some_iff.mp there).1 (Nat.not_lt.mpr outside)
  let flagged (name : String) : Bool := decide (∃ flag ∈ serverModifiers, contains modifier flag.1 = true ∧ flag.2 = name)
  have bits : ∀ entry ∈ (semanticTokensLegend client).tokenModifiers.zipIdx,
      (clientModifierMask client modifier).testBit entry.2 = flagged entry.1 := by
    intro entry listed
    have there := List.mem_zipIdx_iff_getElem?.mp listed
    rw [Bool.eq_iff_iff, decide_eq_true_eq, testBit_clientModifierMask, there]
    simp only [Option.some_inj, eq_comm]
  have own : ∀ flag ∈ serverModifiers, (flagged flag.2 && decide (flag.2 ∈ client.tokenModifiers)) =
      decide (contains modifier flag.1 ∧ flag.2 ∈ client.tokenModifiers) := by
    intro flag listed
    have only : flagged flag.2 = contains modifier flag.1 := by
      rw [Bool.eq_iff_iff, decide_eq_true_eq]
      refine ⟨fun ⟨other, listed', set, same⟩ => ?_, fun set => ⟨flag, listed, set, rfl⟩⟩
      rwa [flag_unique listed' listed same] at set
    rw [only, Bool.decide_and, Bool.decide_eq_true]
  unfold decodeModifiers
  rw [if_pos small, List.filter_congr bits]
  congr 1
  calc ((semanticTokensLegend client).tokenModifiers.zipIdx.filter (flagged ∘ Prod.fst)).map Prod.fst
      = (semanticTokensLegend client).tokenModifiers.filter flagged := by rw [← List.filter_map, List.zipIdx_map_fst]
    _ = ((serverModifiers.map Prod.snd).filter (· ∈ client.tokenModifiers)).filter flagged := rfl
    _ = _ := by
      rw [List.filter_filter, List.filter_map]
      exact congrArg _ (List.filter_congr own)
end

section
variable {client : Capabilities} {converters : Converters} {script : Script}

theorem lookup_type (tokenType : TokenType) :
    if tokenType.name ∈ client.tokenTypes then ∃ i, (typeMapping client).lookup tokenType.ctorIdx = some i ∧
      (semanticTokensLegend client).tokenTypes[i]? = some tokenType.name
    else (typeMapping client).lookup tokenType.ctorIdx = none := by
  have names : typeKeys.map Prod.snd = tokenTypes := by decide
  have entry : (tokenType.ctorIdx, tokenType.name) ∈ typeKeys := by cases tokenType <;> decide
  split
  · rename_i named
    obtain ⟨i, found, there⟩ := lookup_numbered (by decide : (typeKeys.map Prod.fst).Nodup) entry named 0
    rw [names] at there
    exact ⟨i, by rw [typeMapping, found, Nat.zero_add], there⟩
  · rename_i unnamed
    refine lookup_numbered_none (fun other listed => ?_) 0
    have same := List.inj_on_of_nodup_map (by decide : (typeKeys.map Prod.fst).Nodup) listed entry rfl
    cases same
    exact unnamed

theorem checkedSub_of_le {a b : Nat} (le : b ≤ a) : checkedSub a b = .ok (a - b) := if_pos le

theorem encodeLoop_decodes {tokens : List SemanticToken} {places : List Place} (located : List.Forall₂ (Located converters script) tokens places)
    (increasing : (places.map Place.start).Pairwise Before) (encoded : List Nat) (prev : Position)
    (later : (encoded = [] ∧ prev = ⟨0, 0⟩) ∨ ∀ place ∈ places, Before prev place.start) :
    ∃ out, encodeLoop client converters script tokens encoded prev = .ok (encoded ++ out) ∧
      decodeTokens (semanticTokensLegend client) prev out = some (absoluteTokens client tokens places) := by
  induction located generalizing encoded prev with
  | nil => exact ⟨[], by rw [encodeLoop, List.append_nil], rfl⟩
  | @cons token place tokens places here located ih =>
    obtain ⟨first, rest⟩ := List.pairwise_cons.mp increasing
    have type_ := @lookup_type client token.tokenType
    rw [encodeLoop, absoluteTokens]
    split at type_
    · rename_i named
      obtain ⟨i, found, there⟩ := type_
      obtain ⟨starts, stops⟩ := here
      obtain ⟨⟨line, character⟩, length⟩ := place
      have forward : prev.line ≤ line ∧ (line - prev.line = 0 → prev.character ≤ character) := by
        rcases later with ⟨-, rfl⟩ | after
        · exact ⟨Nat.zero_le _, fun _ => Nat.zero_le _⟩
        · have before := after _ List.mem_cons_self
          unfold Before at before
          dsimp only at before
          omega
      have ordered : ¬(encoded ≠ [] ∧ (line < prev.line ∨ line = prev.line ∧ character ≤ prev.character)) := by
        rintro ⟨some_, back⟩
        rcases later with ⟨none, -⟩ | after
        · exact some_ none
        · have before := after _ List.mem_cons_self
          unfold Before at before
          dsimp only at before
          omega
      let delta := if line - prev.line = 0 then character - prev.character else character
      have deltaChar : deltaCharOf (line - prev.line) ⟨line, character⟩ prev = .ok delta := by
        unfold deltaCharOf
        dsimp only [delta]
        split
        · rename_i same
          exact checkedSub_of_le (forward.2 same)
        · rfl
      have tokenLength : tokenLengthOf ⟨line, character⟩ ⟨line, character + length⟩ = .ok length := by
        unfold tokenLengthOf
        rw [if_pos rfl, checkedSub_of_le (Nat.le_add_right character length), Nat.add_sub_cancel_left]
      obtain ⟨out, ran, decoded⟩ := ih rest
        (encoded ++ [line - prev.line, delta, length, i, clientModifierMask client token.tokenModifier])
        ⟨line, character⟩ (.inr fun place listed => first _ (List.mem_map_of_mem listed))
      refine ⟨(line - prev.line) :: delta :: length :: i :: clientModifierMask client token.tokenModifier :: out, ?_, ?_⟩
      · simp only [found, starts, stops, Outcome.monad_bind, Outcome.bind_ok, tokenLength, if_neg ordered,
          checkedSub_of_le forward.1, deltaChar, ran, List.append_assoc]
        rfl
      · have back : prev.line + (line - prev.line) = line := Nat.add_sub_cancel' forward.1
        have back' : (if line - prev.line = 0 then prev.character + delta else delta) = character := by
          dsimp only [delta]
          split
          · rename_i same
            exact Nat.add_sub_cancel' (forward.2 same)
          · rfl
        rw [if_pos named, decodeTokens]
        simp only [back, back', there, decodeModifiers_mask, decoded]
        rfl
    · rename_i unnamed
      rw [type_, if_neg unnamed]
      exact ih rest encoded prev (later.imp_right fun all place listed => all place (List.mem_cons_of_mem _ listed))
end

/-- Tokens on lines of their own, one after the other, are encoded for every client, and decoded in its numbering. -/
theorem encodeSemanticTokens_decodes {client : Capabilities} {converters : Converters} {script : Script} {tokens : List SemanticToken}
    {places : List Place} (located : List.Forall₂ (Located converters script) tokens places)
    (increasing : (places.map Place.start).Pairwise Before) :
    ∃ data, encodeSemanticTokens client converters script tokens = .ok data ∧
      decodeTokens (semanticTokensLegend client) ⟨0, 0⟩ data = some (absoluteTokens client tokens places) :=
  encodeLoop_decodes located increasing [] ⟨0, 0⟩ (.inl ⟨rfl, rfl⟩)

/-- A class and a method below it, and a client that does not know declarations. -/
theorem encodeSemanticTokens_decodes_class :
    let converters : Converters := ⟨fun _ => computeLspLineStarts "é\n m".toList, .utf16⟩
    let script : Script := ⟨"test.ts", "é\n m".toList⟩
    let client : Capabilities := ⟨["method", "class"], ["static"]⟩
    ∃ data, encodeSemanticTokens client converters script [⟨0, 2, .class_, 1⟩, ⟨4, 5, .method, 9⟩] = .ok data ∧
      decodeTokens (semanticTokensLegend client) ⟨0, 0⟩ data =
        some [⟨0, 0, 1, "class", []⟩, ⟨1, 1, 1, "method", ["static"]⟩] := by
  intro converters script client
  have places : List.Forall₂ (Located converters script) [⟨0, 2, .class_, 1⟩, ⟨4, 5, .method, 9⟩] [⟨⟨0, 0⟩, 1⟩, ⟨⟨1, 1⟩, 1⟩] :=
    .cons ⟨by decide +kernel, by decide +kernel⟩ (.cons ⟨by decide +kernel, by decide +kernel⟩ .nil)
  obtain ⟨data, ran, decoded⟩ := @encodeSemanticTokens_decodes client converters script _ _ places
    (.cons (fun later listed => by rw [List.mem_singleton.mp listed]; exact .inl (by decide)) (.cons (by simp) .nil))
  exact ⟨data, ran, decoded.trans (by decide)⟩

end TypeScriptRs.Lsconv
