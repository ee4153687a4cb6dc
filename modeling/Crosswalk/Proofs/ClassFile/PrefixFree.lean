import Crosswalk.Proofs.ClassFile.RoundTrip
import Crosswalk.Proofs.Reader.Determined

/-!
# Class files end where they end

Every part of a class file is read by a reader that takes a determined length, and so is the whole
(`ClassFile.determined_read`). Hence of two different inputs that begin alike to the end of one of
them, at most one is a class file (`ClassFile.ofBytes_of_uneven`).
-/

namespace Crosswalk

open Reader (Determined)
open FileReader

/-! ## Numbers and lists -/

namespace FileReader

theorem determined_u8 : Determined Malformed.truncatedFile u8 := .u8 _

theorem determined_u16 : Determined Malformed.truncatedFile u16 := .u16 _

theorem determined_u32 : Determined Malformed.truncatedFile u32 := .u32 _

theorem determined_u64 : Determined Malformed.truncatedFile u64 := .u64 _

theorem determined_block (n : Nat) : Determined Malformed.truncatedFile (block n) := .block _ n

theorem determined_counted {α : Type} {item : FileReader α}
    (h : Determined Malformed.truncatedFile item) :
    Determined Malformed.truncatedFile (counted item) := h.counted

end FileReader

/-! ## The pool -/

/-- Where a kind of handle ends is determined by its byte. -/
theorem HandleKind.determined_read : Determined Malformed.truncatedFile HandleKind.read := by
  refine determined_u8.bind fun code => ?_
  split
  · exact .pure _
  · exact .throw _

namespace Constant

/-- A tag that announces a constant determines where the constant ends. -/
theorem Announces.determined {tag : UInt8} {read : FileReader Constant} (h : Announces tag read) :
    Determined Malformed.truncatedFile read := by
  cases h with
  | text => exact determined_u16.bind fun n => (determined_block n.toNat).bind fun body => .lift _
  | number32 => exact determined_u32.bind_pure _
  | number64 => exact determined_u64.bind_pure _
  | slot => exact determined_u16.bind_pure _
  | pair => exact determined_u16.bind fun _ => determined_u16.bind_pure _
  | handle => exact HandleKind.determined_read.bind fun _ => determined_u16.bind_pure _
  | invalid => exact .throw _

theorem determined_read : Determined Malformed.truncatedFile Constant.read :=
  determined_u8.bind fun tag => (announces_readTagged tag).determined

end Constant

namespace ConstantPool

/-- So it is with the slots of a pool, however many are left. -/
theorem determined_readAfter (n : Nat) (pool : ConstantPool) :
    Determined Malformed.truncatedFile (readAfter pool n) := by
  induction n, pool using readAfter_induct with
  | zero pool =>
    rw [readAfter_zero]
    exact .pure pool
  | succ n pool ih =>
    rw [readAfter_succ]
    refine Constant.determined_read.bind fun c => ?_
    split
    · next hwidth => exact ih c hwidth
    · exact .throw _

theorem determined_read : Determined Malformed.truncatedFile ConstantPool.read :=
  determined_u16.bind fun _ => determined_readAfter _ _

end ConstantPool

/-! ## Members and attributes -/

theorem Access.determined_read (h : Holder) :
    Determined Malformed.truncatedFile (Access.read h) :=
  determined_u16.bind_pure _

theorem Attribute.determined_read : Determined Malformed.truncatedFile Attribute.read :=
  determined_u16.bind fun _ => determined_u32.bind fun n => (determined_block n.toNat).bind_pure _

theorem Member.determined_read (h : Holder) :
    Determined Malformed.truncatedFile (Member.read h) := by
  refine (Access.determined_read h).bind fun _ => determined_u16.bind fun _ => ?_
  exact determined_u16.bind fun _ => (determined_counted Attribute.determined_read).bind_pure _

/-! ## Class files -/

namespace ClassFile

/-- The magic number is determined by its bytes. -/
theorem determined_readMagic : Determined Malformed.truncatedFile readMagic := by
  refine (determined_block 4).bind fun found => ?_
  split
  · exact .throw _
  · exact .pure _

theorem determined_readVersion : Determined Malformed.truncatedFile readVersion := by
  have hread : Determined Malformed.truncatedFile Version.read :=
    determined_u16.bind fun _ => determined_u16.bind_pure _
  refine hread.bind fun version => ?_
  split
  · exact .pure _
  · exact .throw _

/-- A class file takes a determined length. -/
theorem determined_read : Determined Malformed.truncatedFile ClassFile.read := by
  refine determined_readMagic.bind fun _ => determined_readVersion.bind fun _ => ?_
  refine ConstantPool.determined_read.bind fun _ =>
    (Access.determined_read .classes).bind fun _ => ?_
  refine determined_u16.bind fun _ => determined_u16.bind fun _ => ?_
  refine (determined_counted determined_u16).bind fun _ => ?_
  refine (determined_counted (Member.determined_read .fields)).bind fun _ => ?_
  refine (determined_counted (Member.determined_read .methods)).bind fun _ => ?_
  exact (determined_counted Attribute.determined_read).bind_pure _

/-- The fault of an input that differs from an accepted one only in where it ends. -/
def misfit (input input' : Bytes) : Malformed :=
  if input.length < input'.length then .trailingBytes (input'.length - input.length)
  else .truncatedFile

/-- A class file that is cut short or goes on behind its end is none. -/
theorem ofBytes_of_uneven {input input' : Bytes} {f : ClassFile} (h : ofBytes input = .ok f)
    (huneven : Uneven input input') : ofBytes input' = .error (misfit input input') := by
  have hrun : ofBytes input' = (ClassFile.read input').bind fun next =>
      if next.2.isEmpty then .ok next.1 else .error (.trailingBytes next.2.length) := rfl
  rw [hrun, determined_read.run_of_uneven (ofBytes_eq_ok_iff.1 h) huneven, misfit]
  split
  · next hlonger =>
    have hleft : (input'.drop input.length).isEmpty = false := by
      rw [List.isEmpty_eq_false_iff, Ne, List.drop_eq_nil_iff]
      omega
    simp [Except.bind, hleft]
  · rfl

end ClassFile

end Crosswalk
