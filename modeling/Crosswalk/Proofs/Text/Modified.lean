import Crosswalk.Proofs.Outcome
import Crosswalk.Proofs.Text.Utf16
import Crosswalk.Text.Modified

/-!
# Modified UTF-8 reads back

What `encode` writes for a text is read as the units of that text (`decodeUnits_encode`), and a
proper prefix of it never is (`decodeUnits_ne_of_prefix`): a text that is cut short is another text
or none at all.
-/

namespace Crosswalk.Modified

/-- A text whose bytes can be counted by the two bytes in front of them. -/
def Fits (text : String) : Prop :=
  (encode text).length < 65536

/-- A body of sequences that spells units, but no text. -/
def IsRaw (body : Bytes) : Prop :=
  ∃ us, decodeUnits body = .ok us ∧ Utf16.ofUnits? us = none

/-! ## Single units -/

/-- A unit of one byte is that byte. -/
theorem toUInt16_toUInt8 {u : UInt16} (h : u.toNat < 256) : u.toUInt8.toUInt16 = u := by
  apply UInt16.toNat_inj.1
  rw [UInt8.toNat_toUInt16, UInt16.toNat_toUInt8, Nat.mod_eq_of_lt h]

/-- The byte that leads two, and the unit that both make up. -/
theorem two_bytes (u : UInt16) (h : u.toNat < 0x800) :
    (0xC0 + (u / 64).toUInt8).toNat = 0xC0 + u.toNat / 64 ∧
      (0x80 + (u % 64).toUInt8).toNat = 0x80 + u.toNat % 64 := by
  simp only [UInt8.toNat_add, UInt16.toNat_toUInt8, UInt16.toNat_div, UInt16.toNat_mod,
    UInt8.reduceToNat, UInt16.reduceToNat]
  omega

/-- The bytes of a unit that takes three. -/
theorem three_bytes (u : UInt16) :
    (0xE0 + (u / 4096).toUInt8).toNat = 0xE0 + u.toNat / 4096 ∧
      (0x80 + (u / 64 % 64).toUInt8).toNat = 0x80 + u.toNat / 64 % 64 ∧
        (0x80 + (u % 64).toUInt8).toNat = 0x80 + u.toNat % 64 := by
  have := u.toNat_lt
  simp only [UInt8.toNat_add, UInt16.toNat_toUInt8, UInt16.toNat_div, UInt16.toNat_mod,
    UInt8.reduceToNat, UInt16.reduceToNat]
  omega

/-- A byte in its range continues a sequence. -/
theorem isContinuation_of_toNat {b : UInt8} {n : Nat} (h : b.toNat = 0x80 + n) (hn : n < 64) :
    isContinuation b = true := by
  simp only [isContinuation, Bool.and_eq_true, decide_eq_true_eq, UInt8.le_iff_toNat_le,
    UInt8.lt_iff_toNat_lt, UInt8.reduceToNat]
  omega

/-- A unit is found again in two bytes. -/
theorem unit2_bytes {u : UInt16} (h : u.toNat < 0x800) :
    unit2 (0xC0 + (u / 64).toUInt8) (0x80 + (u % 64).toUInt8) = u := by
  obtain ⟨hlead, hnext⟩ := two_bytes u h
  apply UInt16.toNat_inj.1
  simp only [unit2, UInt16.toNat_add, UInt16.toNat_mul, UInt8.toNat_toUInt16, UInt8.toNat_mod,
    hlead, hnext, UInt8.reduceToNat, UInt16.reduceToNat]
  omega

/-- A unit is found again in three bytes. -/
theorem unit3_bytes (u : UInt16) :
    unit3 (0xE0 + (u / 4096).toUInt8) (0x80 + (u / 64 % 64).toUInt8) (0x80 + (u % 64).toUInt8)
      = u := by
  obtain ⟨hlead, hnext, hlast⟩ := three_bytes u
  have hlt := u.toNat_lt
  apply UInt16.toNat_inj.1
  simp only [unit3, UInt16.toNat_add, UInt16.toNat_mul, UInt8.toNat_toUInt16, UInt8.toNat_mod,
    hlead, hnext, hlast, UInt8.reduceToNat, UInt16.reduceToNat]
  omega

/-- A byte below 0x80 is a unit of its own. -/
theorem decodeUnitsAfter_single {lead : UInt8} (h : lead < 0x80) (done : List UInt16)
    (rest : Bytes) :
    decodeUnitsAfter done (lead :: rest) = decodeUnitsAfter (lead.toUInt16 :: done) rest := by
  rw [decodeUnitsAfter.eq_def]
  simp only [h, if_true]

/-- The bytes of a unit are read as that unit. -/
theorem decodeUnitsAfter_encodeUnit (u : UInt16) (done : List UInt16) (body : Bytes) :
    decodeUnitsAfter done (encodeUnit u ++ body) = decodeUnitsAfter (u :: done) body := by
  -- One, two or three bytes, by the size of the unit; its bits come back from them.
  unfold encodeUnit
  split
  · next hone =>
    obtain ⟨-, hsmall⟩ := hone
    simp only [UInt16.lt_iff_toNat_lt, UInt16.reduceToNat] at hsmall
    have hlead : u.toUInt8 < 0x80 := by
      simp only [UInt8.lt_iff_toNat_lt, UInt16.toNat_toUInt8, UInt8.reduceToNat]
      omega
    rw [List.singleton_append, decodeUnitsAfter_single hlead, toUInt16_toUInt8 (by omega)]
  · split
    · next htwo =>
      simp only [UInt16.lt_iff_toNat_lt, UInt16.reduceToNat] at htwo
      obtain ⟨hlead, hnext⟩ := two_bytes u htwo
      rw [List.cons_append, List.singleton_append, decodeUnitsAfter]
      rw [if_neg, if_neg, if_pos]
      · simp only [isContinuation_of_toNat hnext (by omega), if_true, unit2_bytes htwo]
      all_goals
        simp only [UInt8.lt_iff_toNat_lt, hlead, UInt8.reduceToNat]
        omega
    · next hthree =>
      obtain ⟨hlead, hnext, hlast⟩ := three_bytes u
      have hlt := u.toNat_lt
      rw [List.cons_append, List.cons_append, List.singleton_append, decodeUnitsAfter]
      rw [if_neg, if_neg, if_neg, if_pos]
      · simp only [isContinuation_of_toNat hnext (by omega),
          isContinuation_of_toNat hlast (by omega), Bool.and_self, if_true, unit3_bytes]
      all_goals
        simp only [UInt8.lt_iff_toNat_lt, hlead, UInt8.reduceToNat]
        omega

/-! ## Units in a row -/

/-- Units in a row are read back behind those already read. -/
theorem decodeUnitsAfter_flatMap (us done : List UInt16) (body : Bytes) :
    decodeUnitsAfter done (us.flatMap encodeUnit ++ body)
      = decodeUnitsAfter (us.reverse ++ done) body := by
  induction us generalizing done with
  | nil => rfl
  | cons u us ih =>
    rw [List.flatMap_cons, List.append_assoc, decodeUnitsAfter_encodeUnit, ih]
    simp

/-- What `encode` writes is read as the units of the text. -/
theorem decodeUnits_encode (text : String) :
    decodeUnits (encode text) = .ok (Utf16.units text) := by
  have h := decodeUnitsAfter_flatMap (Utf16.units text) [] []
  rw [List.append_nil] at h
  rw [decodeUnits, encode, h]
  simp [decodeUnitsAfter]

/-- A body spells a text if its units are those of the text. -/
theorem decode_eq_ok_iff {body : Bytes} {s : String} :
    decode body = .ok s ↔ decodeUnits body = .ok (Utf16.units s) := by
  rw [decode, bind_eq_ok_iff]
  constructor
  · rintro ⟨us, hus, h⟩
    split at h
    · next text htext =>
      cases h
      rw [hus, Utf16.ofUnits?_eq_some_iff.1 htext]
    · cases h
  · intro h
    exact ⟨_, h, by rw [Utf16.ofUnits?_eq_some_iff.2 rfl]; rfl⟩

/-- Units that do not pair up spell no text. -/
theorem decode_of_unpaired {body : Bytes} {us : List UInt16} (h : decodeUnits body = .ok us)
    (hus : Utf16.Unpaired us) : decode body = .error .loneSurrogate := by
  rw [decode, bind_eq_of_ok h, Utf16.ofUnits?_eq_none_iff.2 hus]
  rfl

/-- Where a body is well formed, reading goes on behind it. -/
theorem decodeUnitsAfter_append {done us : List UInt16} {body : Bytes}
    (h : decodeUnitsAfter done body = .ok us) (more : Bytes) :
    decodeUnitsAfter done (body ++ more) = decodeUnitsAfter us.reverse more := by
  fun_induction decodeUnitsAfter done body with
  | case1 done =>
    cases h
    simp
  | case2 done lead rest hone ih =>
    rw [List.cons_append, decodeUnitsAfter_single hone, ih h]
  | case3 => cases h
  | case4 done lead hone hlead htwo next rest hnext ih =>
    rw [List.cons_append, List.cons_append, decodeUnitsAfter, if_neg hone, if_neg hlead,
      if_pos htwo]
    simp only [hnext, if_true]
    exact ih h
  | case5 => cases h
  | case6 => cases h
  | case7 done lead hone hlead htwo hthree next last rest hnext ih =>
    rw [List.cons_append, List.cons_append, List.cons_append, decodeUnitsAfter, if_neg hone,
      if_neg hlead, if_neg htwo, if_pos hthree]
    simp only [hnext, if_true]
    exact ih h
  | case8 => cases h
  | case9 => cases h
  | case10 => cases h

/-- Reading never loses the units that are already read. -/
theorem length_le_of_decodeUnitsAfter {done us : List UInt16} {body : Bytes}
    (h : decodeUnitsAfter done body = .ok us) :
    done.length ≤ us.length ∧ (body ≠ [] → done.length < us.length) := by
  fun_induction decodeUnitsAfter done body with
  | case1 done =>
    cases h
    simp
  | case3 | case5 | case6 | case8 | case9 | case10 => cases h
  | case2 _ _ _ _ ih | case4 _ _ _ _ _ _ _ _ ih | case7 _ _ _ _ _ _ _ _ _ _ ih =>
    have hlength := (ih h).1
    rw [List.length_cons] at hlength
    exact ⟨by omega, fun _ => by omega⟩

/-- A text that is cut short is not read as the same text. -/
theorem decodeUnits_ne_of_prefix {text : String} {cut tail : Bytes}
    (h : encode text = cut ++ tail) (htail : tail ≠ []) :
    decodeUnits cut ≠ .ok (Utf16.units text) := by
  intro hcut
  have hwhole := decodeUnits_encode text
  rw [h, decodeUnits, decodeUnitsAfter_append hcut] at hwhole
  have hlength := (length_le_of_decodeUnitsAfter hwhole).2 htail
  rw [List.length_reverse] at hlength
  omega

end Crosswalk.Modified
