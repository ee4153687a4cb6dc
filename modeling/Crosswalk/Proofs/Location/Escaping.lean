import Mathlib.Data.List.Basic
import Crosswalk.Location
import Crosswalk.Proofs.Text.Utf8

/-!
# Escaping is undone

Every byte of a path is read back from what stands for it in a URI, so that `unescape` inverts
`escape` on all texts (`Location.unescape_escape`). What a location does not keep is the difference
between a backslash and a slash: the path of a file is read back from its location unless it has a
backslash (`Location.file_location_path`).
-/

namespace Crosswalk

namespace Hex

/-- The digits are those of ASCII. -/
theorem toNat_of_digit? {c : Char} {n : Nat} (h : digit? c = some n) :
    48 ≤ c.toNat ∧ c.toNat ≤ 57 ∨ 97 ≤ c.toNat ∧ c.toNat ≤ 102 ∨ 65 ≤ c.toNat ∧ c.toNat ≤ 70 := by
  have hlower : ∀ n < 16, 48 ≤ (lowerDigit n).toNat ∧ (lowerDigit n).toNat ≤ 57 ∨
      97 ≤ (lowerDigit n).toNat ∧ (lowerDigit n).toNat ≤ 102 := by
    decide
  have hupper : ∀ n < 16, 48 ≤ (upperDigit n).toNat ∧ (upperDigit n).toNat ≤ 57 ∨
      65 ≤ (upperDigit n).toNat ∧ (upperDigit n).toNat ≤ 70 := by
    decide
  obtain ⟨hn, rfl | rfl⟩ := digit?_eq_some_iff.1 h
  · exact (hlower n hn).imp_right .inl
  · exact (hupper n hn).imp_right .inr

end Hex

namespace Location

/-! ## Single bytes -/

/-- The byte that a character of ASCII is written as. -/
def byteOf (c : Char) : UInt8 :=
  UInt8.ofNat c.toNat

/-- A character of ASCII is its byte. -/
theorem toNat_byteOf {c : Char} (h : c.toNat < 128) : (byteOf c).toNat = c.toNat :=
  UInt8.toNat_ofNat_of_lt' (show c.toNat < 256 by omega)

/-- Every byte is the number of a character. -/
theorem toNat_charOfByte (b : UInt8) : (Char.ofNat b.toNat).toNat = b.toNat := by
  have hlt := b.toNat_lt
  rw [Char.ofNat, dif_pos (Or.inl (by omega))]
  rfl

theorem utf8EncodeChar_ofNat {b : UInt8} (h : b.toNat < 128) :
    String.utf8EncodeChar (Char.ofNat b.toNat) = [b] := by
  have hchar := toNat_charOfByte b
  rw [Utf8.utf8EncodeChar_of_lt (by omega), hchar, UInt8.ofNat_toNat]

/-- What stands for itself is ASCII, and no percent sign. -/
theorem bounds_of_isPlain {b : UInt8} (h : isPlain b = true) : b.toNat < 128 ∧ b ≠ 37 := by
  constructor
  · have hmark : ∀ c ∈ "-._~/:!$+=@".toList, c.toNat < 128 := by
      simp
    simp only [isPlain, Bool.or_eq_true, Bool.and_eq_true, decide_eq_true_eq, List.any_eq_true,
      UInt8.le_iff_toNat_le, UInt8.reduceToNat] at h
    rcases h with ((h | h) | h) | ⟨c, hc, hb⟩
    · omega
    · omega
    · omega
    · have hc := hmark c hc
      omega
  · rintro rfl
    revert h
    decide

/-- Two digits spell a byte. -/
theorem byte?_of_digits {high low : Char} {h l : Nat} (hhigh : Hex.digit? high = some h)
    (hlow : Hex.digit? low = some l) :
    byte? (byteOf high) (byteOf low) = some (UInt8.ofNat (16 * h + l)) := by
  have hh := Hex.toNat_of_digit? hhigh
  have hl := Hex.toNat_of_digit? hlow
  -- A plus sign would be read as the sign of a number, but no digit is one.
  have hplus : byteOf high ≠ 43 := by
    intro heq
    have hnat := congrArg UInt8.toNat heq
    rw [toNat_byteOf (by omega)] at hnat
    simp only [UInt8.reduceToNat] at hnat
    omega
  rw [byte?, if_neg hplus, toNat_byteOf (by omega), toNat_byteOf (by omega), Char.ofNat_toNat,
    Char.ofNat_toNat, hhigh, hlow]
  rfl

/-! ## Reading what stands for a byte -/

/-- Anything but a percent sign stands for itself. -/
theorem unescapeBytes_cons_ne {b : UInt8} (h : b ≠ 37) (rest : Bytes) :
    unescapeBytes (b :: rest) = (unescapeBytes rest).map (b :: ·) := by
  rw [unescapeBytes.eq_def]
  split
  · next heq => cases heq
  · next heq =>
    cases heq
    exact absurd rfl h
  · next heq =>
    cases heq
    rw [if_neg h]
    cases unescapeBytes rest <;> rfl

/-- A percent sign and two digits stand for a byte. -/
theorem unescapeBytes_percent {high low b : UInt8} (h : byte? high low = some b) (rest : Bytes) :
    unescapeBytes (37 :: high :: low :: rest) = (unescapeBytes rest).map (b :: ·) := by
  rw [unescapeBytes, h]
  cases unescapeBytes rest <;> rfl

/-- What stands for a byte that does not stand for itself is a percent sign and its two digits. -/
theorem utf8_upperByte (b : UInt8) : ('%' :: Hex.upperByte b).flatMap String.utf8EncodeChar =
    [37, byteOf (Hex.upperDigit (b.toNat / 16)), byteOf (Hex.upperDigit (b.toNat % 16))] := by
  have hlt := b.toNat_lt
  have hhigh := Hex.toNat_of_digit? (Hex.digit?_upperDigit (b.toNat / 16) (by omega))
  have hlow := Hex.toNat_of_digit? (Hex.digit?_upperDigit (b.toNat % 16) (by omega))
  rw [Hex.upperByte, List.flatMap_cons, List.flatMap_cons, List.flatMap_cons,
    Utf8.utf8EncodeChar_of_lt (by decide), Utf8.utf8EncodeChar_of_lt (by omega),
    Utf8.utf8EncodeChar_of_lt (by omega)]
  rfl

/-- What stands for a byte is read as that byte. -/
theorem unescapeBytes_escapeByte (b : UInt8) (rest : Bytes) :
    unescapeBytes ((escapeByte b).flatMap String.utf8EncodeChar ++ rest) =
      (unescapeBytes rest).map (b :: ·) := by
  unfold escapeByte
  by_cases hplain : isPlain b = true
  · obtain ⟨hlt, hpercent⟩ := bounds_of_isPlain hplain
    rw [if_pos hplain, List.flatMap_singleton, utf8EncodeChar_ofNat hlt]
    exact unescapeBytes_cons_ne hpercent rest
  · have hlt := b.toNat_lt
    rw [if_neg hplain, utf8_upperByte]
    apply unescapeBytes_percent
    rw [byte?_of_digits (Hex.digit?_upperDigit _ (by omega)) (Hex.digit?_upperDigit _ (by omega)),
      Nat.div_add_mod, UInt8.ofNat_toNat]

/-- What stands for bytes in a row is read as those bytes. -/
theorem unescapeBytes_escapeBytes (bytes rest : Bytes) :
    unescapeBytes ((bytes.flatMap escapeByte).flatMap String.utf8EncodeChar ++ rest) =
      (unescapeBytes rest).map (bytes ++ ·) := by
  induction bytes with
  | nil => simp
  | cons b bytes ih =>
    rw [List.flatMap_cons, List.flatMap_append, List.append_assoc, unescapeBytes_escapeByte, ih,
      Option.map_map]
    rfl

/-- Every text is read back from what it is escaped to. -/
theorem unescape_escape (path : String) : unescape (escape path) = some path := by
  have hbytes := unescapeBytes_escapeBytes path.toUTF8.toList []
  rw [List.append_nil, show unescapeBytes [] = some [] from rfl, Option.map_some,
    List.append_nil] at hbytes
  rw [unescape, escape, Utf8.toList_toUTF8 (String.ofList _), String.toList_ofList, hbytes]
  exact Utf8.fromUTF8?_eq_some_iff.2 rfl

/-! ## Files -/

/-- A path with a slash for each backslash. -/
def slashed (path : String) : String :=
  String.ofList (path.toList.map fun c => if c = '\\' then '/' else c)

/-- Without backslashes a path stays as it is. -/
theorem slashed_eq_self_iff {path : String} : slashed path = path ↔ '\\' ∉ path.toList := by
  have hchars : path.toList.map (fun c => if c = '\\' then '/' else c) = path.toList ↔
      ∀ c ∈ path.toList, (if c = '\\' then '/' else c) = c := by
    rw [← List.map_inj_left, List.map_id']
  rw [slashed, ← String.toList_inj, String.toList_ofList, hchars]
  constructor
  · intro h hmem
    exact absurd (h _ hmem) (by decide)
  · intro h c hc
    rw [if_neg]
    rintro rfl
    exact h hc

/-- A path from the root is put into a location with slashes only. -/
theorem rooted_of_isAbsolute {path : String} (h : Path.isAbsolute path = true) :
    rooted path = slashed path := by
  have hslashed : Path.isAbsolute (slashed path) = true := by
    rw [Path.isAbsolute] at h ⊢
    rw [slashed, String.toList_ofList]
    cases hchars : path.toList with
    | nil => simp [hchars] at h
    | cons c rest =>
      have hc : c = '/' := by simpa [hchars] using h
      rw [hc]
      rfl
  exact if_pos hslashed

/-- An absolute path needs no base. -/
theorem join_of_isAbsolute {path : String} (base : String) (h : Path.isAbsolute path = true) :
    Path.join base path = path :=
  if_pos h

/-- What stands behind the scheme of a file is the path of the location. -/
theorem toPath?_fileScheme (escaped : String) :
    toPath? ⟨fileScheme ++ escaped⟩ = unescape escaped := by
  have hprefix :
      fileScheme.toList.isPrefixOf? (fileScheme ++ escaped).toList = some escaped.toList :=
    List.isPrefixOf?_eq_some_iff_append_eq.2 String.toList_append.symm
  rw [toPath?, hprefix]
  simp

/-- The location of a file has the path that it was made of, seen from the working directory. -/
theorem toPath?_ofPath (workingDirectory path : String) :
    (ofPath workingDirectory path).toPath? = some (rooted (Path.join workingDirectory path)) := by
  rw [ofPath, toPath?_fileScheme, unescape_escape]

/-- The path that is read back from the location of a path from the root has slashes for its
backslashes, so it is the same path exactly if that has no backslash. -/
theorem file_location_path (workingDirectory : String) {path : String}
    (h : Path.isAbsolute path = true) :
    (ofPath workingDirectory path).toPath? = some (slashed path) ∧
      ((ofPath workingDirectory path).toPath? = some path ↔ '\\' ∉ path.toList) := by
  rw [toPath?_ofPath, join_of_isAbsolute _ h, rooted_of_isAbsolute h]
  refine ⟨rfl, ?_⟩
  rw [Option.some_inj]
  exact slashed_eq_self_iff

/-- Spaces, percent signs and letters beyond ASCII are kept. -/
theorem file_location_path_hundred :
    Path.isAbsolute "/tmp/100% Größe" = true ∧ '\\' ∉ "/tmp/100% Größe".toList ∧
      (ofPath "/" "/tmp/100% Größe").toPath? = some "/tmp/100% Größe" :=
  have habsolute : Path.isAbsolute "/tmp/100% Größe" = true := by decide
  have hplain : '\\' ∉ "/tmp/100% Größe".toList := by decide
  ⟨habsolute, hplain, (file_location_path "/" habsolute).2.2 hplain⟩

/-- A file whose name has a backslash is taken for one in a directory. -/
theorem backslash_not_kept : Path.isAbsolute "/tmp/a\\b" = true ∧
    (ofPath "/" "/tmp/a\\b").toPath? = some "/tmp/a/b" ∧
      (ofPath "/" "/tmp/a\\b").toPath? ≠ some "/tmp/a\\b" := by
  have hpath : (ofPath "/" "/tmp/a\\b").toPath? = some "/tmp/a/b" := by
    rw [toPath?_ofPath]
    decide
  refine ⟨by decide, hpath, ?_⟩
  rw [hpath]
  decide

end Location

end Crosswalk
