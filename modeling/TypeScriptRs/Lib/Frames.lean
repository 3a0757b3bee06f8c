import Mathlib.Data.List.Basic
import Mathlib.Tactic.Ring

/-! Readers that take messages off a stream of bytes, and big-endian numbers. -/
namespace Frames

variable {B E M : Type} {read : List B → Except E (M × List B)} {stream : List B}

/-- Read messages until a read fails, and report how it failed. -/
def readAll (read : List B → Except E (M × List B)) : Nat → List B → List M × Option E
  | 0, _ => ([], none)
  | fuel + 1, stream =>
    match read stream with
    | .error e => ([], some e)
    | .ok (m, rest) => (m :: (readAll read fuel rest).1, (readAll read fuel rest).2)

theorem readAll_flatMap {P : Type} {write : P → List B} (value : P → M)
    {stop : E} (final : read [] = .error stop) (messages : List P)
    (each : ∀ p ∈ messages, ∀ rest, read (write p ++ rest) = .ok (value p, rest)) : ∀ fuel, messages.length < fuel →
      readAll read fuel (messages.flatMap write) = (messages.map value, some stop) := by
  induction messages with
  | nil =>
    intro fuel enough
    cases fuel with
    | zero => cases enough
    | succ fuel => simp [readAll, final]
  | cons p messages ih =>
    intro fuel enough
    cases fuel with
    | zero => cases enough
    | succ fuel =>
      have rest := ih (fun k hk => each k (by simp [hk])) fuel (by simpa using enough)
      simp [readAll, each p (by simp), rest]

theorem read_of_readAll {fuel : Nat} {m : M}
    {messages : List M} {stop : Option E} (all : readAll read fuel stream = (m :: messages, stop)) :
    ∃ rest, read stream = .ok (m, rest) := by
  cases fuel with
  | zero => cases all
  | succ fuel =>
    unfold readAll at all
    cases first : read stream with
    | error e =>
      rw [first] at all
      cases all
    | ok result =>
      obtain ⟨k, rest⟩ := result
      rw [first] at all
      cases all
      exact ⟨rest, rfl⟩

def bytes (s : String) : List UInt8 := s.toByteArray.data.toList

def beBytes : Nat → Nat → List UInt8
  | 0, _ => []
  | k + 1, n => UInt8.ofNat (n / 256 ^ k) :: beBytes k n

def ofBeBytes (bytes : List UInt8) : Nat := bytes.foldl (fun n b => n * 256 + b.toNat) 0

@[simp] theorem length_beBytes (k n : Nat) : (beBytes k n).length = k := by
  induction k with
  | zero => rfl
  | succ k ih => simp [beBytes, ih]

theorem ofBeBytes_beBytes (k n : Nat) : ofBeBytes (beBytes k n) = n % 256 ^ k := by
  have loop : ∀ k acc, (beBytes k n).foldl (fun n b => n * 256 + b.toNat) acc = acc * 256 ^ k + n % 256 ^ k := by
    intro k
    induction k with
    | zero =>
      intro acc
      simp [beBytes, Nat.mod_one]
    | succ k ih =>
      intro acc
      have split : n % 256 ^ (k + 1) = n / 256 ^ k % 256 * 256 ^ k + n % 256 ^ k := by
        rw [pow_succ, Nat.mod_mul, Nat.add_comm, Nat.mul_comm]
      rw [beBytes, List.foldl_cons, ih, UInt8.toNat_ofNat', split]
      ring
  simpa [ofBeBytes] using loop k 0

def take (eof : E) (n : Nat) (stream : List B) : Except E (List B × List B) :=
  if n ≤ stream.length then .ok (stream.take n, stream.drop n) else .error eof

theorem take_append (eof : E) (bytes rest : List B) : take eof bytes.length (bytes ++ rest) = .ok (bytes, rest) := by
  simp [take]

theorem take_ok {eof : E} {n : Nat} {bytes rest : List B} (ok : take eof n stream = .ok (bytes, rest)) :
    stream = bytes ++ rest ∧ bytes.length = n := by
  unfold take at ok
  split at ok
  · rename_i enough
    cases ok
    exact ⟨(List.take_append_drop n stream).symm, List.length_take_of_le enough⟩
  · cases ok

variable {N : Type} {short : E → Prop}

/-- What is read does not depend on what follows it, and a read that fails, fails for good unless the stream is too short. -/
def Resumes (short : E → Prop) (read : List B → Except E (M × List B)) : Prop :=
  ∀ stream more, match read stream with
    | .ok (m, rest) => read (stream ++ more) = .ok (m, rest ++ more)
    | .error e => short e ∨ read (stream ++ more) = .error e

theorem resumes_pure (m : M) : Resumes short fun stream : List B => .ok (m, stream) := fun _ _ => rfl

theorem resumes_error (e : E) : Resumes short fun _ : List B => (.error e : Except E (M × List B)) := fun _ _ => .inr rfl

theorem Resumes.bind (first : Resumes short read) {next : M × List B → Except E (N × List B)}
    (rest : ∀ m, Resumes short fun stream => next (m, stream)) : Resumes short fun stream => read stream >>= next := by
  intro stream more
  have here := first stream more
  simp only [Bind.bind, Except.bind]
  cases found : read stream with
  | error e =>
    rw [found] at here
    exact here.imp_right fun same => by rw [same]
  | ok result =>
    obtain ⟨m, after⟩ := result
    rw [found] at here
    rw [here]
    exact rest m after more

theorem Resumes.ite {c : Prop} [Decidable c] {read' : List B → Except E (M × List B)} (first : Resumes short read)
    (second : Resumes short read') : Resumes short fun stream => if c then read stream else read' stream := by
  by_cases holds : c
  · simpa only [if_pos holds] using first
  · simpa only [if_neg holds] using second

theorem resumes_take {eof : E} (ends : short eof) (n : Nat) : Resumes short (take eof n : List B → _) := by
  intro stream more
  unfold take
  by_cases enough : n ≤ stream.length
  · rw [if_pos enough, if_pos (by rw [List.length_append]; omega)]
    dsimp only
    rw [List.take_append_of_le_length enough, List.drop_append_of_le_length enough]
  · rw [if_neg enough]
    exact .inl ends

/-- Of a stream that is cut off anywhere, exactly the messages before the cut are read, and then the stream is too short. -/
theorem readAll_cut {P : Type} {write : P → List B} (value : P → M) (resumes : Resumes short read) {stop : E}
    (final : read [] = .error stop) (ends : short stop) (messages : List P)
    (each : ∀ p ∈ messages, ∀ rest, read (write p ++ rest) = .ok (value p, rest)) : ∀ cut fuel, messages.length < fuel →
      ∃ n e, readAll read fuel ((messages.flatMap write).take cut) = ((messages.take n).map value, some e) ∧ short e ∧
        ((messages.take n).flatMap write).length ≤ cut ∧
        ∀ p ∈ messages[n]?, cut < ((messages.take n).flatMap write).length + (write p).length := by
  induction messages with
  | nil =>
    intro cut fuel enough
    obtain ⟨fuel, rfl⟩ := Nat.exists_eq_succ_of_ne_zero enough.ne'
    exact ⟨0, stop, by simp [readAll, final], ends, Nat.zero_le _, by simp⟩
  | cons p messages ih =>
    intro cut fuel enough
    obtain ⟨fuel, rfl⟩ := Nat.exists_eq_succ_of_ne_zero (Nat.ne_zero_of_lt enough)
    rw [List.flatMap_cons]
    by_cases whole : (write p).length ≤ cut
    · obtain ⟨n, e, rest, cause, before, after⟩ := ih (fun k listed => each k (List.mem_cons_of_mem p listed))
        (cut - (write p).length) fuel (Nat.lt_of_succ_lt_succ enough)
      refine ⟨n + 1, e, ?_, cause, ?_, fun k listed => ?_⟩
      · rw [List.take_append, List.take_of_length_le whole, readAll, each p List.mem_cons_self]
        dsimp only
        rw [rest]
        rfl
      · rw [List.take_succ_cons, List.flatMap_cons, List.length_append]
        omega
      · have later := after k listed
        rw [List.take_succ_cons, List.flatMap_cons, List.length_append]
        omega
    · -- a message that was read from a part of its bytes would be read from all of them, and leave some
      have inside := resumes ((write p).take cut) ((write p).drop cut)
      have full := each p List.mem_cons_self []
      rw [List.append_nil] at full
      rw [List.take_append_drop, full] at inside
      rw [List.take_append_of_le_length (by omega)]
      cases found : read ((write p).take cut) with
      | error e =>
        rw [found] at inside
        exact ⟨0, e, by rw [readAll, found]; rfl, inside.resolve_right (by simp), Nat.zero_le _, by simpa using whole⟩
      | ok result =>
        rw [found] at inside
        have empty := congrArg List.length (Prod.ext_iff.mp (Except.ok.inj inside)).2
        simp at empty
        omega

end Frames
