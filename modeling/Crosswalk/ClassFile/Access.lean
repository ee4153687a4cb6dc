/-!
# Access flags

Classes, methods and fields each carry a word of flags, and each of the three knows its own bits.
`Access.known` drops the others, so a word of flags never holds a bit that its holder does not
know.
-/

namespace Crosswalk

/-- What can hold access flags. -/
inductive Holder
  | classes
  | methods
  | fields
  deriving DecidableEq, Repr

/-- The bits that are flags of a holder. -/
def Holder.mask : Holder → UInt16
  | .classes => 0xF631
  | .methods => 0x1DFF
  | .fields => 0x50DF

/-- Flags of a holder. -/
structure Access (h : Holder) where
  bits : UInt16
  isKnown : bits &&& h.mask = bits
  deriving DecidableEq

namespace Access

variable {h : Holder}

/-- The known ones among the given bits. -/
def known (h : Holder) (bits : UInt16) : Access h :=
  ⟨bits &&& h.mask, by rw [UInt16.and_assoc, UInt16.and_self]⟩

instance : Inhabited (Access h) := ⟨known h 0⟩

/-- Flags keep all their bits. -/
@[simp] theorem known_bits (a : Access h) : known h a.bits = a := by
  cases a with
  | mk bits isKnown => simp [known, isKnown]

/-! ## Single flags -/

/-- Whether every one of the given flags is set. -/
def has (a : Access h) (flags : UInt16) : Bool :=
  a.bits &&& flags = flags

/-- Visible everywhere. -/
def isPublic : UInt16 := 0x0001

/-- Without an instance. -/
def isStatic : UInt16 := 0x0008

/-- Not to be instantiated, or without a body. -/
def isAbstract : UInt16 := 0x0400

/-- The three flags that say from where a member is visible. -/
def visibility : UInt16 := 0x0007

/-- The flags of a method with their visibility replaced by that of the given ones. -/
def withVisibility (a : Access .methods) (flags : UInt16) : Access .methods :=
  known .methods ((a.bits &&& ~~~visibility) ||| (flags &&& visibility))

/-- A mask keeps of a union what it keeps of the two parts. -/
theorem or_and_mask (a b mask : UInt16) : (a ||| b) &&& mask = (a &&& mask) ||| (b &&& mask) := by
  apply UInt16.toBitVec_inj.1
  apply BitVec.eq_of_getLsbD_eq
  intro i _
  simp [Bool.and_or_distrib_right]

/-- Visibility is all that `withVisibility` changes. -/
@[simp] theorem bits_withVisibility (a : Access .methods) (flags : UInt16) :
    (a.withVisibility flags).bits = (a.bits &&& ~~~visibility) ||| (flags &&& visibility) := by
  have hmask : visibility &&& Holder.methods.mask = visibility := by decide
  have hold : a.bits &&& ~~~visibility &&& Holder.methods.mask = a.bits &&& ~~~visibility := by
    rw [UInt16.and_assoc, UInt16.and_comm (~~~visibility), ← UInt16.and_assoc, a.isKnown]
  have hnew : flags &&& visibility &&& Holder.methods.mask = flags &&& visibility := by
    rw [UInt16.and_assoc, hmask]
  change ((a.bits &&& ~~~visibility) ||| (flags &&& visibility)) &&& Holder.methods.mask = _
  rw [or_and_mask, hold, hnew]

end Access

end Crosswalk
