import Crosswalk.Bytes

/-!
# The bytes of a text

A text is determined by its bytes, which are those of its characters in a row. A character of ASCII
is one byte, and every other byte of a text is above those.
-/

namespace Crosswalk.Utf8

theorem loop_eq (bytes : ByteArray) (i : Nat) (done : List UInt8) :
    ByteArray.toList.loop bytes i done = done.reverse ++ bytes.data.toList.drop i := by
  fun_induction ByteArray.toList.loop bytes i done with
  | case1 i done hi ih =>
    have hdata : i < bytes.data.toList.length := by simpa using hi
    have hget : bytes.get! i = bytes.data.toList[i] := by
      rw [ByteArray.get!, getElem!_pos bytes.data i (by simpa using hi)]
      simp
    rw [ih, List.drop_eq_getElem_cons hdata, hget]
    simp
  | case2 i done hi =>
    rw [List.drop_of_length_le (by simpa using hi), List.append_nil]

/-- The bytes of a text are those of its characters in a row. -/
theorem toList_toUTF8 (text : String) :
    text.toUTF8.toList = text.toList.flatMap String.utf8EncodeChar := by
  have hdata : text.toUTF8 = (text.toList.flatMap String.utf8EncodeChar).toByteArray := by
    rw [String.toUTF8, ← String.utf8Encode_toList, List.utf8Encode]
  rw [ByteArray.toList, loop_eq, hdata]
  simp

/-- Bytes are those of one text at most. -/
theorem fromUTF8?_eq_some_iff {bytes : List UInt8} {text : String} :
    String.fromUTF8? ⟨bytes.toArray⟩ = some text ↔ text.toUTF8.toList = bytes := by
  have hlist : text.toUTF8.toList = text.toByteArray.data.toList := by
    rw [ByteArray.toList, loop_eq]
    rfl
  rw [hlist, String.fromUTF8?]
  constructor
  · intro h
    split at h
    · cases h
      rfl
    · cases h
  · rintro rfl
    rw [dif_pos text.isValidUTF8]
    rfl

/-- A character of ASCII is one byte. -/
theorem utf8EncodeChar_of_lt {c : Char} (h : c.toNat < 128) :
    String.utf8EncodeChar c = [UInt8.ofNat c.toNat] := by
  have hsize : c.utf8Size = 1 := by
    rw [Char.utf8Size_eq_one_iff]
    exact UInt32.le_iff_toNat_le.2 (Nat.le_of_lt_succ h)
  rw [String.utf8EncodeChar_eq_singleton hsize]
  rfl

/-- A character that is not one of ASCII has no byte of ASCII. -/
theorem le_of_mem_utf8EncodeChar {c : Char} (h : 128 ≤ c.toNat) {b : UInt8}
    (hb : b ∈ String.utf8EncodeChar c) : 128 ≤ b.toNat := by
  have hval : c.val.toNat = c.toNat := rfl
  simp only [String.utf8EncodeChar, hval] at hb
  rw [if_neg (by omega)] at hb
  split at hb
  · simp only [List.mem_cons, List.not_mem_nil, or_false] at hb
    rcases hb with rfl | rfl <;> rw [UInt8.toNat_ofNat'] <;> omega
  · split at hb
    · simp only [List.mem_cons, List.not_mem_nil, or_false] at hb
      rcases hb with rfl | rfl | rfl <;> rw [UInt8.toNat_ofNat'] <;> omega
    · simp only [List.mem_cons, List.not_mem_nil, or_false] at hb
      rcases hb with rfl | rfl | rfl | rfl <;> rw [UInt8.toNat_ofNat'] <;> omega

end Crosswalk.Utf8
