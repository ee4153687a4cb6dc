import Crosswalk.Bytes

/-!
# Reading bytes from the front

A `Reader` takes what it needs from the front of its input and hands on the rest, or refuses with
a fault. What to say when the input runs out is up to the caller, so every basic reader is given
that fault. The lemmas `u16_append`, `u32_append` and `block_append` say that a reader takes
exactly what the matching writer put in front of the rest.
-/

namespace Crosswalk

/-- A computation that consumes a prefix of the input, or stops with a fault. -/
abbrev Reader (ε : Type) := StateT Bytes (Except ε)

namespace Reader

variable {ε α : Type}

/-! ## Basic readers -/

/-- The next byte. -/
def u8 (short : ε) : Reader ε UInt8 := fun
  | b :: rest => .ok (b, rest)
  | [] => .error short

/-- The next two bytes as a number. -/
def u16 (short : ε) : Reader ε UInt16 := fun
  | a :: b :: rest => .ok (Bytes.toUInt16 a b, rest)
  | _ => .error short

/-- The next four bytes as a number. -/
def u32 (short : ε) : Reader ε UInt32 := do
  let high ← u16 short
  let low ← u16 short
  pure (Bytes.toUInt32 high low)

/-- The next eight bytes as a number. -/
def u64 (short : ε) : Reader ε UInt64 := do
  let high ← u32 short
  let low ← u32 short
  pure (Bytes.toUInt64 high low)

/-- The next `n` bytes as they are. -/
def block (short : ε) (n : Nat) : Reader ε Bytes := fun input =>
  let taken := input.take n
  if taken.length = n then .ok (taken, input.drop n) else .error short

/-! ## Repetition -/

/-- Reads `n` more items behind those in `done`, which are kept last first. -/
def timesAfter (item : Reader ε α) : Nat → List α → Bytes → Except ε (List α × Bytes)
  | 0, done, input => .ok (done.reverse, input)
  | n + 1, done, input =>
    match item input with
    | .ok (a, rest) => timesAfter item n (a :: done) rest
    | .error e => .error e

/-- Reads `n` items in a row. -/
def times (n : Nat) (item : Reader ε α) : Reader ε (List α) :=
  timesAfter item n []

/-- Reads a sixteen-bit count and then that many items. -/
def counted (short : ε) (item : Reader ε α) : Reader ε (List α) := do
  let n ← u16 short
  times n.toNat item

/-! ## One reader after the other -/

/-- Behind a reader that succeeds, reading goes on with what it has left. -/
theorem bind_ok {β : Type} {x : Reader ε α} {f : α → Reader ε β} {input rest : Bytes} {a : α}
    (h : x input = .ok (a, rest)) : (x >>= f) input = f a rest := by
  change Except.bind (x input) _ = _
  rw [h]
  rfl

/-- A reader that fails ends the reading. -/
theorem bind_error {β : Type} {x : Reader ε α} {f : α → Reader ε β} {input : Bytes} {e : ε}
    (h : x input = .error e) : (x >>= f) input = .error e := by
  change Except.bind (x input) _ = _
  rw [h]
  rfl

/-- A value is there without anything being taken. -/
theorem pure_apply (a : α) (input : Bytes) : (pure a : Reader ε α) input = .ok (a, input) := rfl

/-! ## What the readers take -/

@[simp] theorem u8_cons (short : ε) (b : UInt8) (rest : Bytes) :
    u8 short (b :: rest) = .ok (b, rest) := rfl

/-- A number in two bytes is read in front of anything. -/
@[simp] theorem u16_append (short : ε) (n : UInt16) (rest : Bytes) :
    u16 short (Bytes.ofUInt16 n ++ rest) = .ok (n, rest) := by
  simp [u16, Bytes.ofUInt16, Bytes.toUInt16_ofUInt16]

/-- A number in four bytes is read in front of anything. -/
@[simp] theorem u32_append (short : ε) (n : UInt32) (rest : Bytes) :
    u32 short (Bytes.ofUInt32 n ++ rest) = .ok (n, rest) := by
  rw [u32, Bytes.ofUInt32, List.append_assoc, bind_ok (u16_append _ _ _),
    bind_ok (u16_append _ _ _), pure_apply, Bytes.toUInt32_ofUInt32]

/-- A number in eight bytes is read in front of anything. -/
@[simp] theorem u64_append (short : ε) (n : UInt64) (rest : Bytes) :
    u64 short (Bytes.ofUInt64 n ++ rest) = .ok (n, rest) := by
  rw [u64, Bytes.ofUInt64, List.append_assoc, bind_ok (u32_append _ _ _),
    bind_ok (u32_append _ _ _), pure_apply, Bytes.toUInt64_ofUInt64]

/-- As many bytes as wanted are taken, and the others stay. -/
@[simp] theorem block_append (short : ε) (taken rest : Bytes) :
    block short taken.length (taken ++ rest) = .ok (taken, rest) := by
  simp [block]

/-- Items that are already read only move to the front of the answer. -/
theorem timesAfter_eq (item : Reader ε α) (n : Nat) (done : List α) (input : Bytes) :
    timesAfter item n done input =
      (timesAfter item n [] input).map fun (items, rest) => (done.reverse ++ items, rest) := by
  induction n generalizing done input with
  | zero => simp [timesAfter, Except.map]
  | succ n ih =>
    simp only [timesAfter]
    cases item input with
    | error e => rfl
    | ok next =>
      obtain ⟨a, rest⟩ := next
      simp only
      rw [ih (a :: done), ih [a]]
      cases timesAfter item n [] rest <;> simp [Except.map]

@[simp] theorem times_zero (item : Reader ε α) (input : Bytes) :
    times 0 item input = .ok ([], input) := rfl

/-- Reading one more item means reading the first one and then the others. -/
theorem times_succ (item : Reader ε α) (n : Nat) :
    times (n + 1) item = (do
      let a ← item
      let items ← times n item
      pure (a :: items)) := by
  funext input
  cases h : item input with
  | error e =>
    rw [bind_error h]
    simp [times, timesAfter, h]
  | ok next =>
    obtain ⟨a, rest⟩ := next
    rw [bind_ok h]
    simp only [times, timesAfter, h]
    rw [timesAfter_eq item n [a]]
    cases hrest : timesAfter item n [] rest with
    | error e =>
      rw [bind_error hrest]
      simp [Except.map]
    | ok items =>
      rw [bind_ok hrest, pure_apply]
      simp [Except.map]

end Reader

end Crosswalk
