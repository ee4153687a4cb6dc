import Crosswalk.Proofs.ClassTree.MethodBodies
import Crosswalk.Proofs.Reader.Determined

/-!
# Attribute bodies end where they end

Every attribute that is picked apart is read by a reader that takes a determined length. Values of
annotations are read with as much depth as the body has bytes; as every value takes a byte of its
own, more depth makes no difference (`ElementValue.agree_read`), so two bodies of different lengths
can be compared through one reader.
-/

namespace Crosswalk

open Reader (Determined Consumes)

/-! ## Slots and numbers -/

namespace Scope

variable (s : Scope)

theorem determined_u8 : Determined s.short s.u8 := .u8 _

theorem determined_u16 : Determined s.short s.u16 := .u16 _

theorem determined_u32 : Determined s.short s.u32 := .u32 _

theorem determined_block (n : Nat) : Determined s.short (s.block n) := .block _ n

theorem determined_counted {α : Type} {item : Reader Malformed α} (h : Determined s.short item) :
    Determined s.short (s.counted item) := h.counted

/-- A text is determined by its slot. -/
theorem determined_utf8 : Determined s.short s.utf8 :=
  s.determined_u16.bind fun _ => .lift _

theorem determined_className : Determined s.short s.className :=
  s.determined_u16.bind fun _ => .lift _

end Scope

/-! ## Method bodies -/

/-- Where a verification type ends is determined by its tag. -/
theorem VerificationType.determined_read (s : Scope) :
    Determined s.short (VerificationType.read s) := by
  refine s.determined_u8.bind fun tag => ?_
  split
  all_goals first
    | exact .pure _
    | exact s.determined_className.bind_pure _
    | exact s.determined_u16.bind_pure _
    | exact .throw _

/-- A tag that announces a frame determines where the frame ends. -/
theorem Frame.Announces.determined {s : Scope} {tag : UInt8}
    {read : Reader Malformed (Frame String)}
    (h : Announces s tag read) : Determined s.short read := by
  have htype := VerificationType.determined_read s
  have hdelta := s.determined_u16
  have htypes := s.determined_counted htype
  cases h with
  | same => exact .pure _
  | oneItem => exact htype.bind_pure _
  | reserved => exact .throw _
  | farOneItem => exact hdelta.bind fun _ => htype.bind_pure _
  | chop | farSame => exact hdelta.bind_pure _
  | append => exact hdelta.bind fun _ => (htype.times _).bind_pure _
  | full => exact hdelta.bind fun _ => htypes.bind fun _ => htypes.bind_pure _

theorem Frame.determined_read (s : Scope) : Determined s.short (Frame.read s) :=
  s.determined_u8.bind fun tag => (announces_readTagged s tag).determined

theorem LocalVariable.determined_read (s : Scope) : Determined s.short (LocalVariable.read s) := by
  refine s.determined_u16.bind fun _ => s.determined_u16.bind fun _ => ?_
  refine s.determined_utf8.bind fun _ => s.determined_utf8.bind fun _ => ?_
  exact s.determined_u16.bind_pure _

theorem Handler.determined_read (s : Scope) : Determined s.short (Handler.read s) := by
  refine s.determined_u16.bind fun _ => s.determined_u16.bind fun _ => ?_
  exact s.determined_u16.bind fun _ => s.determined_u16.bind_pure _

/-- Where an attribute ends is determined by its length. -/
theorem OpaqueAttribute.determined_read (s : Scope) :
    Determined s.short (OpaqueAttribute.read s) := by
  refine s.determined_utf8.bind fun _ => s.determined_u32.bind fun n => ?_
  exact (s.determined_block n.toNat).bind_pure _

theorem Code.determined_read (s : Scope) : Determined s.short (Code.read s) := by
  have hpart : Determined s.short (Part.read s) :=
    (OpaqueAttribute.determined_read s).bind fun _ => .lift _
  refine s.determined_u16.bind fun _ => s.determined_u16.bind fun _ => ?_
  refine s.determined_u32.bind fun n => (s.determined_block n.toNat).bind fun _ => ?_
  refine (s.determined_counted (Handler.determined_read s)).bind fun _ => ?_
  exact (s.determined_counted hpart).bind_pure _

/-! ## Annotations -/

/-- An element is determined if its value is. -/
theorem Element.determined_read {s : Scope} {value : Reader Malformed ElementValue}
    (h : Determined s.short value) : Determined s.short (Element.read s value) :=
  s.determined_utf8.bind fun _ => h.bind_pure _

/-- An annotation is determined if its values are. -/
theorem Annotation.determined_read {s : Scope} {value : Reader Malformed ElementValue}
    (h : Determined s.short value) : Determined s.short (read s value) :=
  s.determined_utf8.bind fun _ => (s.determined_counted (Element.determined_read h)).bind_pure _

theorem ElementValue.determined_read (s : Scope) (depth : Nat) :
    Determined s.short (ElementValue.read s depth) := by
  induction depth with
  | zero => exact .throw _
  | succ depth ih =>
    refine s.determined_u8.bind fun tag => ?_
    split
    · exact s.determined_u16.bind_pure _
    split
    · exact s.determined_utf8.bind fun _ => s.determined_utf8.bind_pure _
    split
    · exact s.determined_utf8.bind_pure _
    split
    · have hread := Annotation.determined_read ih
      exact hread.bind_pure _
    split
    · exact (s.determined_counted ih).bind_pure _
    · exact .throw _

/-! ## Depth -/

namespace Reader

variable {ε α β : Type} {short : ε} {n : Nat}

/-- Two readers answer the same, or fail the same, on inputs of up to so many bytes. -/
def AgreeUpTo (n : Nat) (r r' : Reader ε α) : Prop :=
  ∀ input, input.length ≤ n → r input = r' input

namespace AgreeUpTo

theorem refl (r : Reader ε α) : AgreeUpTo n r r :=
  fun _ _ => rfl

/-- What a determined reader leaves is no longer than its input. -/
theorem bind {x x' : Reader ε α} {f f' : α → Reader ε β} (hx : AgreeUpTo n x x')
    (hdetermined : Determined short x) (hf : ∀ a, AgreeUpTo n (f a) (f' a)) :
    AgreeUpTo n (x >>= f) (x' >>= f') := by
  intro input hinput
  have hfirst := hx input hinput
  cases hrun : x input with
  | error e => rw [bind_error hrun, bind_error (hfirst ▸ hrun)]
  | ok next =>
    obtain ⟨a, rest⟩ := next
    obtain ⟨s, rfl, -⟩ := hdetermined input a rest hrun
    rw [List.length_append] at hinput
    rw [bind_ok hrun, bind_ok (hfirst ▸ hrun)]
    exact hf a rest (by omega)

/-- Readers of lists agree if the readers of their items do. -/
theorem times {r r' : Reader ε α} (h : AgreeUpTo n r r') (hdetermined : Determined short r)
    (k : Nat) : AgreeUpTo n (Reader.times k r) (Reader.times k r') := by
  induction k with
  | zero => exact fun _ _ => rfl
  | succ k ih =>
    rw [times_succ, times_succ]
    exact h.bind hdetermined fun _ => ih.bind (hdetermined.times k) fun _ => refl _

theorem counted {r r' : Reader ε α} (h : AgreeUpTo n r r') (hdetermined : Determined short r) :
    AgreeUpTo n (Reader.counted short r) (Reader.counted short r') :=
  (refl _).bind (Determined.u16 short) fun k => h.times hdetermined k.toNat

end AgreeUpTo

end Reader

open Reader (AgreeUpTo)

/-- Readers of annotations agree if the readers of their values do. -/
theorem Annotation.agree_read {s : Scope} {n : Nat} {value value' : Reader Malformed ElementValue}
    (h : AgreeUpTo n value value') (hdetermined : Determined s.short value) :
    AgreeUpTo n (read s value) (read s value') := by
  have helement : AgreeUpTo n (Element.read s value) (Element.read s value') :=
    (AgreeUpTo.refl _).bind s.determined_utf8 fun _ => h.bind hdetermined fun _ => .refl _
  refine (AgreeUpTo.refl _).bind s.determined_utf8 fun _ => ?_
  exact (helement.counted (Element.determined_read hdetermined)).bind
    (s.determined_counted (Element.determined_read hdetermined)) fun _ => .refl _

/-- As every value takes a byte, more depth than there are bytes makes no difference. -/
theorem ElementValue.agree_read (s : Scope) (depth more : Nat) :
    AgreeUpTo depth (ElementValue.read s depth) (ElementValue.read s (depth + more)) := by
  induction depth with
  | zero =>
    -- Without any bytes there is no tag, whatever the depth.
    intro input hinput
    rw [List.length_eq_zero_iff.1 (Nat.le_zero.1 hinput)]
    cases more <;> rfl
  | succ depth ih =>
    rw [Nat.succ_add]
    intro input hinput
    cases input with
    | nil => rfl
    | cons tag rest =>
      have hrest : rest.length ≤ depth := Nat.le_of_succ_le_succ hinput
      have htag : s.u8 (tag :: rest) = .ok (tag, rest) := rfl
      have hdetermined := ElementValue.determined_read s depth
      rw [ElementValue.read, ElementValue.read, Reader.bind_ok htag, Reader.bind_ok htag]
      split
      · rfl
      split
      · rfl
      split
      · rfl
      split
      · have hagree := Annotation.agree_read ih hdetermined
        have hread := Annotation.determined_read hdetermined
        exact (hagree.bind hread fun _ => .refl _) rest hrest
      split
      · exact ((ih.counted hdetermined).bind (s.determined_counted hdetermined)
          fun _ => .refl _) rest hrest
      · rfl

/-- Annotations can be read with more depth than the body has bytes. -/
theorem Annotation.readAll_eq (s : Scope) (info : Bytes) (more : Nat) :
    Annotation.readAll s info = s.whole
      (s.counted (read s (ElementValue.read s (info.length + more)))) info := by
  have hdetermined := ElementValue.determined_read s info.length
  have hagree := (agree_read (ElementValue.agree_read s info.length more) hdetermined).counted
    (determined_read hdetermined) info (Nat.le_refl _)
  rw [readAll, Scope.whole, Scope.whole]
  show (Reader.counted s.short _ info).bind _ = (Reader.counted s.short _ info).bind _
  rw [hagree]

/-- Annotations that are cut short or go on behind their end are none. -/
theorem Annotation.readAll_of_uneven {s : Scope} {info info' : Bytes} {as : List Annotation}
    (h : Annotation.readAll s info = .ok as) (huneven : Uneven info info') :
    Annotation.readAll s info' = .error (s.misfit info info') := by
  rw [readAll_eq s info info'.length] at h
  rw [readAll_eq s info' info.length, Nat.add_comm]
  have hread := determined_read (ElementValue.determined_read s (info.length + info'.length))
  exact Scope.whole_of_uneven (s.determined_counted hread) h huneven

end Crosswalk
