import TypeScriptRs.Lib.Utf8

/-! Glob patterns, their parser and what they are printed as. -/
namespace TypeScriptRs.Globs
open Utf8 List

inductive Element where
  | slash
  | literal (text : Text)
  | star
  | anyChar
  | starStar
  | group (alternatives : List (List Element))
  | charRange (negate : Bool) (low high : Char)

abbrev Glob := List Element

def Element.isSlash : Element → Bool
  | slash => true
  | _ => false

inductive GlobError where
  | badRange
  | message (text : String)
  deriving DecidableEq

def starStarError : GlobError := .message "** may only be adjacent to '/'"

def unmatchedError : GlobError := .message "unmatched '\x7b'"

/-- What is read from the front of a pattern, and the pattern after it. -/
structure Parsed (α : Type) (bound : Nat) where
  value : α
  rest : Text
  shorter : rest.length ≤ bound

def Parsed.weaken {α : Type} {bound bound' : Nat} (parsed : Parsed α bound) (le : bound ≤ bound') : Parsed α bound' :=
  ⟨parsed.value, parsed.rest, Nat.le_trans parsed.shorter le⟩

def specialChars (nested : Bool) : List Char := if nested then "*?\x7b[/\x7d,".toList else "*?\x7b[/".toList

def isLiteral (nested : Bool) (c : Char) : Bool := c ∉ specialChars nested

/-- A range after its opening bracket: whether it is negated, its two ends, and the pattern after it. -/
def parseRange (pattern : Text) : Except GlobError (Element × Text) :=
  match if pattern.head? = some '!' then pattern.tail else pattern with
  | low :: '-' :: high :: ']' :: rest => .ok (.charRange (pattern.head? = some '!') low high, rest)
  | _ => .error .badRange

theorem parseRange_shorter {pattern rest : Text} {element : Element} (read : parseRange pattern = .ok (element, rest)) :
    rest.length < pattern.length := by
  unfold parseRange at read
  split at read
  · rename_i low high after shape
    cases read
    split at shape
    · have shorter := congrArg List.length shape
      simp at shorter
      omega
    · subst shape
      simp
      omega
  · cases read

theorem isLiteral_of_plain {nested : Bool} {c : Char} (slash : c ≠ '/') (star : c ≠ '*') (any : c ≠ '?') (brace : c ≠ '{')
    (bracket : c ≠ '[') (inside : ¬(nested ∧ (c = '}' ∨ c = ','))) : isLiteral nested c = true := by
  cases nested <;> simp_all [isLiteral, specialChars]

theorem dropLiteral_shorter {nested : Bool} {c : Char} (literal : isLiteral nested c = true) (pattern : Text) :
    ((c :: pattern).dropWhile (isLiteral nested)).length ≤ pattern.length := by
  rw [dropWhile_cons_of_pos literal]
  exact (dropWhile_sublist _).length_le

variable {c : Char} {pattern rest : Text}

theorem tail_bound : pattern.tail.length ≤ (c :: pattern).length := by
  simp
  omega

theorem group_bound (shorter : rest.length ≤ (c :: pattern).length - 1) : rest.length ≤ (c :: pattern).length := by
  simp at shorter ⊢
  omega

theorem range_bound {element : Element} (read : parseRange pattern = .ok (element, rest)) :
    rest.length ≤ (c :: pattern).length := (parseRange_shorter read).le.trans (Nat.le_succ _)

theorem groups_bound (shorter : rest.length ≤ pattern.length) : rest.length - 1 ≤ (c :: pattern).length - 1 := by
  simp
  omega

mutual

def parseElements (pattern : Text) (nested : Bool) (elems : Glob) : Except GlobError (Parsed Glob pattern.length) :=
  match pattern with
  | [] => .ok ⟨elems, [], Nat.le_refl _⟩
  | c :: pattern =>
    if c = '/' then (parseElements pattern nested (elems ++ [.slash])).map (·.weaken (Nat.le_succ _))
    else if c = '*' then
      if pattern.head? = some '*' then
        if (elems ≠ [] ∧ !(elems.getLast?.any (·.isSlash))) ∨ ∃ next ∈ pattern.tail.head?, next ≠ '/' then .error starStarError
        else (parseElements pattern.tail nested (elems ++ [.starStar])).map (·.weaken tail_bound)
      else (parseElements pattern nested (elems ++ [.star])).map (·.weaken (Nat.le_succ _))
    else if c = '?' then (parseElements pattern nested (elems ++ [.anyChar])).map (·.weaken (Nat.le_succ _))
    else if c = '{' then
      match parseGroup (c :: pattern) [] with
      | .error error => .error error
      | .ok ⟨group, rest, shorter⟩ => (parseElements rest nested (elems ++ [.group group])).map (·.weaken (group_bound shorter))
    else if nested ∧ (c = '}' ∨ c = ',') then .ok ⟨elems, c :: pattern, Nat.le_refl _⟩
    else if c = '[' then
      match read : parseRange pattern with
      | .error error => .error error
      | .ok (range, rest) =>
        (parseElements rest nested (elems ++ [range])).map (·.weaken (range_bound read))
    else
      -- a literal is not empty, since the characters that end one are handled above
      (parseElements ((c :: pattern).dropWhile (isLiteral nested)) nested
        (elems ++ [.literal ((c :: pattern).takeWhile (isLiteral nested))])).map (·.weaken ((dropWhile_sublist _).length_le))
termination_by 2 * pattern.length + 1
decreasing_by
  all_goals simp_wf
  all_goals first
    | omega
    | have := shorter
      simp at this
      omega
    | have := parseRange_shorter read
      omega
    | have := dropLiteral_shorter (isLiteral_of_plain ‹_› ‹_› ‹_› ‹_› ‹_› ‹_›) pattern
      omega

def parseGroup (pattern : Text) (groups : List Glob) : Except GlobError (Parsed (List Glob) (pattern.length - 1)) :=
  match pattern with
  | [] => .error unmatchedError
  | c :: pattern =>
    if c = '}' then .ok ⟨groups, pattern, Nat.le_refl _⟩
    else
      match parseElements pattern true [] with
      | .error error => .error error
      | .ok ⟨group, rest, shorter⟩ =>
        if rest = [] then .error unmatchedError
        else (parseGroup rest (groups ++ [group])).map (·.weaken (groups_bound shorter))
termination_by 2 * pattern.length
decreasing_by
  all_goals simp_wf
  all_goals omega
end

def parse (pattern : Text) : Except GlobError Glob := (parseElements pattern false []).map (·.value)

mutual

def Element.text : Element → Text
  | .slash => ['/']
  | .literal text => text
  | .star => ['*']
  | .anyChar => ['?']
  | .starStar => ['*', '*']
  | .group alternatives => '{' :: alternativesText alternatives
  | .charRange negate low high => '[' :: (if negate then ['!'] else []) ++ [low, '-', high, ']']

def globText : List Element → Text
  | [] => []
  | element :: elems => Element.text element ++ globText elems

def alternativesText : List (List Element) → Text
  | [] => ['}']
  | [last] => globText last ++ ['}']
  | alternative :: next :: alternatives => globText alternative ++ ',' :: alternativesText (next :: alternatives)
end

/-- Elements in which `**` is followed by a slash, or by nothing where it may be the last. -/
inductive Placed : Prop → Glob → Prop
  | nil {last : Prop} : Placed last []
  | starStar {last : Prop} : last → Placed last [.starStar]
  | starStarSlash {last : Prop} {rest : Glob} : Placed last (.slash :: rest) → Placed last (.starStar :: .slash :: rest)
  | group {last : Prop} {alternatives : List Glob} {rest : Glob} : (∀ alternative ∈ alternatives, Placed False alternative) →
      Placed last rest → Placed last (.group alternatives :: rest)
  | slash {last : Prop} {rest : Glob} : Placed last rest → Placed last (.slash :: rest)
  | literal {last : Prop} {text : Text} {rest : Glob} : Placed last rest → Placed last (.literal text :: rest)
  | star {last : Prop} {rest : Glob} : Placed last rest → Placed last (.star :: rest)
  | anyChar {last : Prop} {rest : Glob} : Placed last rest → Placed last (.anyChar :: rest)
  | charRange {last : Prop} {negate : Bool} {low high : Char} {rest : Glob} : Placed last rest →
      Placed last (.charRange negate low high :: rest)

/-- What parsing a pattern does: it reads elements up to the rest of the pattern. -/
structure Reads (nested : Bool) (pattern : Text) (elems : Glob) (rest : Text) : Prop where
  text : pattern = globText elems ++ rest
  stops : rest = [] ∨ nested = true ∧ (rest.head? = some '}' ∨ rest.head? = some ',')
  placed : Placed (rest = []) elems
  slash : pattern.head? = some '/' → elems.head? = some .slash
  nil : pattern = [] → elems = []

theorem Reads.element {nested : Bool} {pattern whole rest : Text} {elems : Glob} (reads : Reads nested pattern elems rest)
    (element : Element) (text : whole = element.text ++ pattern) (placed : Placed (rest = []) elems → Placed (rest = []) (element :: elems))
    (some_ : element.text ≠ []) (slash : element.text.head? = some '/' → element = .slash) : Reads nested whole (element :: elems) rest where
  text := by simp [globText, text, reads.text]
  stops := reads.stops
  placed := placed reads.placed
  slash := by
    intro starts
    rw [text, List.head?_append_of_ne_nil _ some_] at starts
    simp [slash starts]
  nil := by
    intro empty
    rw [text] at empty
    exact absurd (append_eq_nil_iff.mp empty).1 some_

theorem parseRange_reads {pattern rest : Text} {range : Element} (read : parseRange pattern = .ok (range, rest)) :
    '[' :: pattern = range.text ++ rest ∧ ∃ negate low high, range = .charRange negate low high := by
  unfold parseRange at read
  split at read
  · rename_i low high after shape
    cases read
    split at shape
    · rename_i negated
      obtain ⟨tail, cons⟩ : ∃ tail, pattern = '!' :: tail := by
        cases pattern with
        | nil => cases negated
        | cons c tail => exact ⟨tail, by simpa using negated⟩
      subst cons
      simp only [tail_cons] at shape
      simp [Element.text, shape]
    · rename_i plain
      subst shape
      simp only [List.head?_cons, Option.some.injEq] at plain
      simp [Element.text, plain]
  · cases read

theorem map_ok {α β ε : Type} {f : α → β} {x : Except ε α} {b : β} (ok : x.map f = .ok b) : ∃ a, x = .ok a ∧ f a = b := by
  cases x with
  | error e => cases ok
  | ok a => exact ⟨a, rfl, by simpa [Except.map] using ok⟩

theorem parse_reads : (∀ pattern nested elems, ∀ r, parseElements pattern nested elems = .ok r →
      ∃ more, r.value = elems ++ more ∧ Reads nested pattern more r.rest) ∧
    (∀ pattern groups, ∀ r, parseGroup pattern groups = .ok r → ∃ more, r.value = groups ++ more ∧
      (∀ alternative ∈ more, Placed False alternative) ∧
      (pattern = '}' :: r.rest ∧ more = [] ∨ more ≠ [] ∧ ∃ c ≠ '}', pattern = c :: (alternativesText more ++ r.rest))) := by
  apply parseElements.mutual_induct
  case case1 =>
    intro nested elems r ok
    rw [parseElements] at ok
    cases ok
    exact ⟨[], by simp, by simp [globText], .inl rfl, .nil, by simp, fun _ => rfl⟩
  case case2 =>
    intro nested elems pattern next r ok
    rw [parseElements, if_pos rfl] at ok
    obtain ⟨r', ok', rfl⟩ := map_ok ok
    obtain ⟨more, value, reads⟩ := next r' ok'
    exact ⟨.slash :: more, by simp [Parsed.weaken, value], reads.element .slash rfl .slash (by simp [Element.text]) fun _ => rfl⟩
  case case3 =>
    intro nested elems pattern two bad _ r ok
    rw [parseElements, if_neg (by decide), if_pos rfl, if_pos two, if_pos bad] at ok
    cases ok
  case case4 =>
    intro nested elems pattern two good _ next r ok
    rw [parseElements, if_neg (by decide), if_pos rfl, if_pos two, if_neg good] at ok
    obtain ⟨r', ok', rfl⟩ := map_ok ok
    obtain ⟨more, value, reads⟩ := next r' ok'
    obtain ⟨pattern, rfl⟩ : ∃ tail, pattern = '*' :: tail := by
      cases pattern with
      | nil => cases two
      | cons c tail => exact ⟨tail, by simpa using two⟩
    refine ⟨.starStar :: more, by simp [Parsed.weaken, value], ?_⟩
    apply reads.element .starStar rfl _ (by simp [Element.text]) (by simp [Element.text])
    intro placed
    cases pattern with
    | nil =>
      have all : r'.rest = [] := (append_eq_nil_iff.mp reads.text.symm).2
      rw [reads.nil rfl]
      exact .starStar all
    | cons c pattern =>
      have slash : c = '/' := by
        by_contra other
        exact good (.inr ⟨c, rfl, other⟩)
      have starts := reads.slash (by simp [slash])
      obtain ⟨m, rfl⟩ : ∃ m, more = .slash :: m := by
        cases more with
        | nil => cases starts
        | cons e m => exact ⟨m, by simpa using starts⟩
      exact .starStarSlash placed
  case case5 =>
    intro nested elems pattern one _ next r ok
    rw [parseElements, if_neg (by decide), if_pos rfl, if_neg one] at ok
    obtain ⟨r', ok', rfl⟩ := map_ok ok
    obtain ⟨more, value, reads⟩ := next r' ok'
    exact ⟨.star :: more, by simp [Parsed.weaken, value], reads.element .star rfl .star (by simp [Element.text]) (by simp [Element.text])⟩
  case case6 =>
    intro nested elems pattern _ _ next r ok
    rw [parseElements, if_neg (by decide), if_neg (by decide), if_pos rfl] at ok
    obtain ⟨r', ok', rfl⟩ := map_ok ok
    obtain ⟨more, value, reads⟩ := next r' ok'
    exact ⟨.anyChar :: more, by simp [Parsed.weaken, value], reads.element .anyChar rfl .anyChar (by simp [Element.text]) (by simp [Element.text])⟩
  case case7 =>
    intro nested elems pattern error _ _ _ failed _ r ok
    rw [parseElements, if_neg (by decide), if_neg (by decide), if_neg (by decide), if_pos rfl, failed] at ok
    cases ok
  case case8 =>
    intro nested elems pattern group rest _ _ _ shorter found groups next r ok
    rw [parseElements, if_neg (by decide), if_neg (by decide), if_neg (by decide), if_pos rfl, found] at ok
    obtain ⟨r', ok', rfl⟩ := map_ok ok
    obtain ⟨more, value, reads⟩ := next r' ok'
    obtain ⟨alternatives, read, placed, shape⟩ := groups _ found
    subst read
    have text : '{' :: pattern = (Element.group group).text ++ rest := by
      rcases shape with ⟨shape, _⟩ | ⟨_, c, _, shape⟩
      · cases shape
      · obtain ⟨rfl, shape⟩ := List.cons.inj shape
        rw [shape]
        rfl
    exact ⟨.group group :: more, by simp [Parsed.weaken, value],
      reads.element (.group group) text (.group placed) (by simp [Element.text]) (by simp [Element.text])⟩
  case case9 =>
    intro nested elems c pattern slash star any brace inside r ok
    rw [parseElements, if_neg slash, if_neg star, if_neg any, if_neg brace, if_pos inside] at ok
    cases ok
    refine ⟨[], by simp, by simp [globText], .inr ⟨inside.1, ?_⟩, .nil, by simp [slash], by simp⟩
    simpa using inside.2
  case case10 =>
    intro nested elems pattern error failed _ _ _ _ outside r ok
    rw [parseElements, if_neg (by decide), if_neg (by decide), if_neg (by decide), if_neg (by decide), if_neg outside, if_pos rfl] at ok
    split at ok
    · cases ok
    · rename_i read
      rw [failed] at read
      cases read
  case case11 =>
    intro nested elems pattern range rest found _ _ _ _ outside next r ok
    rw [parseElements, if_neg (by decide), if_neg (by decide), if_neg (by decide), if_neg (by decide), if_neg outside, if_pos rfl] at ok
    split at ok
    · cases ok
    rename_i range' rest' read
    rw [found] at read
    cases read
    obtain ⟨r', ok', rfl⟩ := map_ok ok
    obtain ⟨more, value, reads⟩ := next r' ok'
    obtain ⟨text, negate, low, high, rfl⟩ := parseRange_reads found
    exact ⟨_ :: more, by simp [Parsed.weaken, value], reads.element _ text .charRange (by simp [Element.text]) (by simp [Element.text])⟩
  case case12 =>
    intro nested elems c pattern slash star any brace inside bracket next r ok
    rw [parseElements, if_neg slash, if_neg star, if_neg any, if_neg brace, if_neg inside, if_neg bracket] at ok
    obtain ⟨r', ok', rfl⟩ := map_ok ok
    obtain ⟨more, value, reads⟩ := next r' ok'
    have literal := isLiteral_of_plain slash star any brace bracket inside
    refine ⟨.literal ((c :: pattern).takeWhile (isLiteral nested)) :: more, by simp [Parsed.weaken, value], ?_⟩
    exact reads.element _ takeWhile_append_dropWhile.symm .literal (by simp [Element.text, literal])
      (by simp [Element.text, literal, slash])
  case case13 =>
    intro groups r ok
    rw [parseGroup] at ok
    cases ok
  case case14 =>
    intro groups pattern r ok
    rw [parseGroup, if_pos rfl] at ok
    cases ok
    exact ⟨[], by simp, by simp, .inl ⟨rfl, rfl⟩⟩
  case case15 =>
    intro groups c pattern open_ error failed _ r ok
    rw [parseGroup, if_neg open_, failed] at ok
    cases ok
  case case16 =>
    intro groups c pattern open_ group shorter found _ r ok
    rw [parseGroup, if_neg open_, found] at ok
    cases ok
  case case17 =>
    intro groups c pattern open_ group rest shorter found some_ first next r ok
    rw [parseGroup, if_neg open_, found] at ok
    simp only [if_neg some_] at ok
    obtain ⟨r', ok', rfl⟩ := map_ok ok
    obtain ⟨more, value, placed, shape⟩ := next r' ok'
    obtain ⟨elems, read, reads⟩ := first _ found
    subst read
    refine ⟨group :: more, by simp [Parsed.weaken, value], ?_, .inr ⟨by simp, c, open_, ?_⟩⟩
    · intro alternative member
      rcases mem_cons.mp member with rfl | member
      · simpa [some_] using reads.placed
      · exact placed alternative member
    apply congrArg (c :: ·)
    apply reads.text.trans
    rcases shape with ⟨shape, rfl⟩ | ⟨others, c', notLast, shape⟩
    · simp [alternativesText, shape, Parsed.weaken]
    have comma : c' = ',' := by
      rcases reads.stops with none_ | ⟨_, last | comma⟩
      · exact absurd none_ some_
      · simp [shape, notLast] at last
      · simpa [shape] using comma
    obtain ⟨second, others, rfl⟩ := exists_cons_of_ne_nil others
    simp [alternativesText, shape, comma, Parsed.weaken]

mutual

/-- What an element is printed as: a range without the mark of its negation. -/
def Element.fmt : Element → Text
  | .slash => ['/']
  | .literal text => text
  | .star => ['*']
  | .anyChar => ['?']
  | .starStar => ['*', '*']
  | .group alternatives => '{' :: fmtParts alternatives ++ ['}']
  | .charRange _ low high => ['[', low, '-', high, ']']

def Glob.fmt : Glob → Text
  | [] => []
  | element :: elems => element.fmt ++ Glob.fmt elems

def fmtParts : List (List Element) → Text
  | [] => []
  | [last] => Glob.fmt last
  | part :: next :: parts => Glob.fmt part ++ ',' :: fmtParts (next :: parts)

end

mutual

def Element.negations : Element → Nat
  | .group alternatives => partNegations alternatives
  | .charRange negate _ _ => negate.toNat
  | _ => 0

def negations : List Element → Nat
  | [] => 0
  | element :: elems => element.negations + negations elems

def partNegations : List (List Element) → Nat
  | [] => 0
  | part :: parts => negations part + partNegations parts

end

/-- `short` is `long` without some of its characters, as many as `dropped`. -/
def Drops (long short : Text) (dropped : Nat) : Prop := short <+ long ∧ long.length = short.length + dropped

theorem Drops.append {long long' short short' : Text} {dropped dropped' : Nat} (drops : Drops long short dropped)
    (drops' : Drops long' short' dropped') : Drops (long ++ long') (short ++ short') (dropped + dropped') := by
  refine ⟨drops.1.append drops'.1, ?_⟩
  rw [length_append, length_append, drops.2, drops'.2]
  omega

theorem Drops.same (text : Text) : Drops text text 0 := ⟨Sublist.refl text, rfl⟩

mutual

theorem Element.fmt_drops : ∀ element : Element, Drops element.text element.fmt element.negations
  | .slash | .literal _ | .star | .anyChar | .starStar => .same _
  | .group alternatives => by
    rw [Element.text, Element.fmt, Element.negations, cons_append]
    simpa using Drops.append (.same ['{']) (fmtParts_drops alternatives)
  | .charRange false low high => .same _
  | .charRange true low high => ⟨(sublist_cons_self '!' [low, '-', high, ']']).cons_cons '[', rfl⟩

theorem Glob.fmt_drops : ∀ elems : Glob, Drops (globText elems) (Glob.fmt elems) (negations elems)
  | [] => .same _
  | element :: elems => element.fmt_drops.append (Glob.fmt_drops elems)

theorem fmtParts_drops : ∀ parts : List (List Element), Drops (alternativesText parts) (fmtParts parts ++ ['}']) (partNegations parts)
  | [] => .same _
  | [last] => (Glob.fmt_drops last).append (.same _)
  | part :: next :: parts => by
    rw [alternativesText, fmtParts, append_assoc, cons_append]
    have later := Drops.append (.same [',']) (fmtParts_drops (next :: parts))
    simpa [partNegations] using (Glob.fmt_drops part).append later

end

section
variable {pattern : Text} {glob : Glob} (parsed : parse pattern = .ok glob)
include parsed

theorem parse_reads_all : Reads false pattern glob [] := by
  obtain ⟨r, ok, rfl⟩ := map_ok parsed
  obtain ⟨more, value, reads⟩ := parse_reads.1 _ _ _ r ok
  have all : r.rest = [] := by
    rcases reads.stops with all | ⟨nested, _⟩
    · exact all
    · cases nested
  rw [all] at reads
  rwa [value]

theorem parse_text : globText glob = pattern := by
  simpa using (parse_reads_all parsed).text.symm

theorem parse_placed : Placed True glob := by
  simpa using (parse_reads_all parsed).placed
end

variable {glob : Glob}

/-- An accepted pattern comes back when its glob is printed, and so does the glob when that is parsed, exactly if no range in
it is negated. -/
theorem parse_fmt (parsed : parse pattern = .ok glob) :
    (glob.fmt = pattern ↔ negations glob = 0) ∧ (parse glob.fmt = .ok glob ↔ negations glob = 0) := by
  obtain ⟨part, lengths⟩ := glob.fmt_drops
  rw [parse_text parsed] at part lengths
  have printed : glob.fmt = pattern ↔ negations glob = 0 := by
    constructor
    · intro same
      rw [same] at lengths
      omega
    · intro none_
      exact part.eq_of_length (by omega)
  refine ⟨printed, fun again => printed.mp ?_, fun none_ => ?_⟩
  · exact (parse_text again).symm.trans (parse_text parsed)
  · rwa [printed.mpr none_]

theorem parse_fmt_negated : (Glob.fmt [.charRange true '0' '9'] = "[!0-9]".toList ↔ negations [.charRange true '0' '9'] = 0) ∧
    (parse (Glob.fmt [.charRange true '0' '9']) = .ok [.charRange true '0' '9'] ↔ negations [.charRange true '0' '9'] = 0) :=
  parse_fmt (by with_unfolding_all rfl)

end TypeScriptRs.Globs
