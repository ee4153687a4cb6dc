import Crosswalk.Proofs.ClassFile.Constants
import Crosswalk.Proofs.Text.Sequences

/-!
# Texts of class files

A text is read back from the bytes that it is written as, and these are the only ones among all
bodies that spell it which have neither a zero byte nor a sequence that is longer than need be. A
body whose surrogates do not pair up spells no text; the constant that it makes keeps its bytes
(`Modified.texts_round_trip`).
-/

namespace Crosswalk

open Reader (Reads)

namespace Modified

/-- Every text is found again in its bytes. -/
theorem decode_encode (text : String) : decode (encode text) = .ok text :=
  decode_eq_ok_iff.2 (decodeUnits_encode text)

/-- No text is written with a zero byte, or with a byte above 0xEF. -/
theorem bounds_of_mem_encode {text : String} {b : UInt8} (h : b ∈ encode text) :
    0 < b.toNat ∧ b.toNat ≤ 0xEF := by
  obtain ⟨u, -, hb⟩ := List.mem_flatMap.1 h
  refine ⟨Nat.pos_of_ne_zero fun hzero => ?_, toNat_le_of_mem_encodeUnit hb⟩
  have hzero : b = 0 := UInt8.toNat_inj.1 hzero
  rw [hzero] at hb
  exact zero_notMem_encodeUnit u hb

/-- A body that spells units, but no text, makes a constant that is written as it was read. -/
theorem reads_unpaired {body : Bytes} {us : List UInt16} (h : decodeUnits body = .ok us)
    (hus : Utf16.Unpaired us) (hlength : body.length < 65536) :
    Reads Constant.read (1 :: Constant.bodyBytes body) (.rawUtf8 body) :=
  Constant.reads_body hlength
    (Constant.ofBody_raw ⟨us, h, Utf16.ofUnits?_eq_none_iff.2 hus⟩)

/-- Writing a text and reading it again gives the text, and takes no zero byte and none above 0xEF.
Reading a body and writing what it spells gives the body exactly if it has no zero byte and takes no
more bytes for any unit than the unit needs. A body that can be counted and has a surrogate without
a partner is kept byte for byte. -/
theorem texts_round_trip :
    (∀ text, decode (encode text) = .ok text ∧ ∀ b ∈ encode text, 0 < b.toNat ∧ b.toNat ≤ 0xEF) ∧
    (∀ body text, decode body = .ok text → (encode text = body ↔ (0 : UInt8) ∉ body ∧
      ∀ s u, s <:+: body → Sequence s u →
        ¬(2 ≤ s.length ∧ 0 < u.toNat ∧ u.toNat < 0x80) ∧ ¬(3 ≤ s.length ∧ u.toNat < 0x800))) ∧
    ∀ body us, decodeUnits body = .ok us → Utf16.Unpaired us → body.length < 65536 →
      decode body = .error .loneSurrogate ∧
        Reads Constant.read (1 :: Constant.bodyBytes body) (.rawUtf8 body) ∧
          (Constant.rawUtf8 body).bytes = 1 :: Constant.bodyBytes body := by
  refine ⟨fun text => ⟨decode_encode text, fun b => bounds_of_mem_encode⟩, ?_, ?_⟩
  · intro body text h
    rw [encode, flatMap_encodeUnit_eq_iff (decode_eq_ok_iff.1 h), canonical_iff]
  · intro body us h hus hlength
    exact ⟨decode_of_unpaired h hus, reads_unpaired h hus hlength, rfl⟩

/-- The letter A in one byte is kept, and in two bytes it is not. Half of a pair behind a letter is
kept. -/
theorem texts_round_trip_halves :
    decode [0x41] = .ok "A" ∧ (0 : UInt8) ∉ ([0x41] : Bytes) ∧
    decode [0xC1, 0x81] = .ok "A" ∧ encode "A" ≠ [0xC1, 0x81] ∧
    Utf16.Unpaired [0x61, 0xD800] ∧ decode [0x61, 0xED, 0xA0, 0x80] = .error .loneSurrogate ∧
      Reads Constant.read [1, 0, 4, 0x61, 0xED, 0xA0, 0x80]
        (.rawUtf8 [0x61, 0xED, 0xA0, 0x80]) := by
  have hshort : decode [0x41] = .ok "A" := by decide
  have hlong : decode [0xC1, 0x81] = .ok "A" := by decide
  have hhalf : Utf16.Unpaired [0x61, 0xD800] := Utf16.ofUnits?_eq_none_iff.1 rfl
  have hkept := texts_round_trip.2.2 [0x61, 0xED, 0xA0, 0x80] _ rfl hhalf (by decide)
  refine ⟨hshort, ((texts_round_trip.2.1 _ _ hshort).1 (by decide)).1, hlong, fun heq => ?_, hhalf,
    hkept.1, hkept.2.1⟩
  have hpair := ((texts_round_trip.2.1 _ _ hlong).1 heq).2 [0xC1, 0x81] 0x41
    (List.infix_refl _) (.two (by decide) (by decide) (by decide))
  exact hpair.1 (by decide)

end Modified

end Crosswalk
