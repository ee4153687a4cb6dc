import Crosswalk.Proofs.Location.Collapsing

/-!
# What the location of a file is read as

Reading the path of a location is reading its escapes. `Location.Spells` says which bytes a text
spells: a character that is no percent sign stands for its own bytes, and a percent sign stands in
front of two digits, the first of which may be a plus sign and then counts as zero. A location has a
path exactly if it spells one (`Location.path_spelled_iff`). Without such plus signs this means that
two digits follow every percent sign; with one the location is read although it is not well escaped.
-/

namespace Crosswalk.Location

/-! ## What a text spells -/

/-- The value of the first digit of an escape. -/
def leading? (c : Char) : Option Nat :=
  if c = '+' then some 0 else Hex.digit? c

/-- The bytes that a text spells in which bytes may be escaped. -/
inductive Spells : List Char → Bytes → Prop
  | nil : Spells [] []
  | char {c : Char} {rest : List Char} {bytes : Bytes} (hc : c ≠ '%') (hrest : Spells rest bytes) :
    Spells (c :: rest) (String.utf8EncodeChar c ++ bytes)
  | escape {high low : Char} {h l : Nat} {rest : List Char} {bytes : Bytes}
    (hhigh : leading? high = some h) (hlow : Hex.digit? low = some l) (hrest : Spells rest bytes) :
    Spells ('%' :: high :: low :: rest) (UInt8.ofNat (16 * h + l) :: bytes)

/-- Two digits follow every percent sign. Since no digit is a percent sign, none of them belongs to
the escape before it. -/
def WellEscaped (cs : List Char) : Prop :=
  ∀ rest, ('%' :: rest) <:+ cs → startsWithByte rest = true

/-! ## Single characters -/

/-- What starts an escape is ASCII, but no percent sign. -/
theorem toNat_of_leading? {c : Char} {n : Nat} (h : leading? c = some n) :
    c.toNat < 128 ∧ c ≠ '%' := by
  unfold leading? at h
  by_cases hplus : c = '+'
  · rw [hplus]
    decide
  · rw [if_neg hplus] at h
    have hrange := Hex.toNat_of_digit? h
    refine ⟨by omega, ?_⟩
    rintro rfl
    revert hrange
    decide

/-- A digit may stand in front. -/
theorem leading?_of_digit? {c : Char} {n : Nat} (h : Hex.digit? c = some n) :
    leading? c = some n := by
  have hnone : Hex.digit? '+' = none := by decide
  rw [leading?, if_neg]
  · exact h
  · rintro rfl
    rw [hnone] at h
    cases h

/-- A byte that starts what characters are written as is one of ASCII only if it stands for a
character alone. -/
theorem exists_of_flatMap_utf8 {cs : List Char} {b : UInt8} {tail : Bytes}
    (h : cs.flatMap String.utf8EncodeChar = b :: tail) (hb : b.toNat < 128) :
    ∃ rest, cs = Char.ofNat b.toNat :: rest ∧ rest.flatMap String.utf8EncodeChar = tail := by
  cases cs with
  | nil => cases h
  | cons c rest =>
    rw [List.flatMap_cons] at h
    by_cases hascii : c.toNat < 128
    · rw [Utf8.utf8EncodeChar_of_lt hascii, List.singleton_append, List.cons.injEq] at h
      refine ⟨rest, ?_, h.2⟩
      rw [← h.1]
      show c :: rest = Char.ofNat (byteOf c).toNat :: rest
      rw [toNat_byteOf hascii, Char.ofNat_toNat]
    · -- All bytes of this character are above those of ASCII.
      exfalso
      cases hchar : String.utf8EncodeChar c with
      | nil => exact String.utf8EncodeChar_ne_nil hchar
      | cons first more =>
        rw [hchar, List.cons_append, List.cons.injEq] at h
        have hmem : first ∈ String.utf8EncodeChar c := hchar ▸ List.mem_cons_self
        have hhigh := Utf8.le_of_mem_utf8EncodeChar (by omega) hmem
        rw [h.1] at hhigh
        omega

/-! ## Escapes -/

/-- Two bytes spell a third one as the characters of their numbers do. -/
theorem byte?_eq (high low : UInt8) : byte? high low =
    (leading? (Char.ofNat high.toNat)).bind fun h =>
      (Hex.digit? (Char.ofNat low.toNat)).map fun l => UInt8.ofNat (16 * h + l) := by
  have hpair : ∀ h, (do
      let l ← Hex.digit? (Char.ofNat low.toNat)
      pure (UInt8.ofNat (16 * h + l)) : Option UInt8) =
        (Hex.digit? (Char.ofNat low.toNat)).map fun l => UInt8.ofNat (16 * h + l) := by
    intro h
    cases Hex.digit? (Char.ofNat low.toNat) <;> rfl
  unfold byte?
  by_cases hplus : high = 43
  · have hsign : leading? (Char.ofNat (43 : UInt8).toNat) = some 0 := by decide
    rw [if_pos hplus, hplus, hsign]
    exact hpair 0
  · have hsign : Char.ofNat high.toNat ≠ '+' := by
      intro heq
      have hnat := toNat_charOfByte high
      rw [heq] at hnat
      exact hplus (UInt8.toNat_inj.1 hnat.symm)
    rw [if_neg hplus, leading?, if_neg hsign]
    cases Hex.digit? (Char.ofNat high.toNat) with
    | none => rfl
    | some h => exact hpair h

/-- Two characters spell a byte if they are the digits of one, with a plus sign for the first one or
without. -/
theorem byte?_of_leading? {high low : Char} {h l : Nat} (hhigh : leading? high = some h)
    (hlow : Hex.digit? low = some l) :
    byte? (byteOf high) (byteOf low) = some (UInt8.ofNat (16 * h + l)) := by
  have hascii := (toNat_of_leading? hhigh).1
  have hdigit := Hex.toNat_of_digit? hlow
  rw [byte?_eq, toNat_byteOf hascii, toNat_byteOf (by omega), Char.ofNat_toNat, Char.ofNat_toNat,
    hhigh, hlow]
  rfl

/-- Bytes that spell another one are those of such characters. -/
theorem exists_of_byte? {high low b : UInt8} (hb : byte? high low = some b) :
    high.toNat < 128 ∧ low.toNat < 128 ∧ ∃ h l, leading? (Char.ofNat high.toNat) = some h ∧
      Hex.digit? (Char.ofNat low.toNat) = some l ∧ b = UInt8.ofNat (16 * h + l) := by
  rw [byte?_eq] at hb
  obtain ⟨h, hhigh, hb⟩ := Option.bind_eq_some_iff.1 hb
  obtain ⟨l, hlow, rfl⟩ := Option.map_eq_some_iff.1 hb
  have hascii := (toNat_of_leading? hhigh).1
  have hdigit := Hex.toNat_of_digit? hlow
  rw [toNat_charOfByte] at hascii hdigit
  exact ⟨hascii, by omega, h, l, hhigh, hlow, rfl⟩

/-- The bytes of any other character stand for themselves. -/
theorem unescapeBytes_utf8 {c : Char} (hc : c ≠ '%') (rest : Bytes) :
    unescapeBytes (String.utf8EncodeChar c ++ rest) =
      (unescapeBytes rest).map (String.utf8EncodeChar c ++ ·) := by
  have hbytes := ne_of_mem_utf8EncodeChar hc
  -- From here on it does not matter which character the bytes are of.
  generalize String.utf8EncodeChar c = bytes at hbytes
  induction bytes with
  | nil => simp
  | cons b bytes ih =>
    rw [List.cons_append, unescapeBytes_cons_ne (hbytes b List.mem_cons_self),
      ih fun b hb => hbytes b (List.mem_cons_of_mem _ hb), Option.map_map]
    rfl

/-! ## Reading -/

/-- Whatever a text spells is read. -/
theorem unescapeBytes_of_spells {cs : List Char} {bytes : Bytes} (h : Spells cs bytes) :
    unescapeBytes (cs.flatMap String.utf8EncodeChar) = some bytes := by
  induction h with
  | nil => rfl
  | char hc hrest ih => rw [List.flatMap_cons, unescapeBytes_utf8 hc, ih, Option.map_some]
  | @escape high low h l rest bytes hhigh hlow hrest ih =>
    have hascii := (toNat_of_leading? hhigh).1
    have hdigit := Hex.toNat_of_digit? hlow
    rw [List.flatMap_cons, List.flatMap_cons, List.flatMap_cons,
      Utf8.utf8EncodeChar_of_lt (by decide), Utf8.utf8EncodeChar_of_lt hascii,
      Utf8.utf8EncodeChar_of_lt (by omega)]
    show unescapeBytes (37 :: byteOf high :: byteOf low :: rest.flatMap String.utf8EncodeChar) = _
    rw [unescapeBytes_percent (byte?_of_leading? hhigh hlow), ih, Option.map_some]

/-- Behind a percent sign only an escape is read. -/
theorem exists_of_unescapeBytes_percent {rest : List Char} {bytes : Bytes}
    (h : unescapeBytes (37 :: rest.flatMap String.utf8EncodeChar) = some bytes) :
    ∃ high low n l more tail, rest = high :: low :: more ∧ leading? high = some n ∧
      Hex.digit? low = some l ∧ bytes = UInt8.ofNat (16 * n + l) :: tail ∧
        unescapeBytes (more.flatMap String.utf8EncodeChar) = some tail := by
  generalize hencoded : rest.flatMap String.utf8EncodeChar = encoded at h
  rw [unescapeBytes.eq_def] at h
  split at h
  · next heq => cases heq
  · next high low others heq =>
    rw [List.cons.injEq] at heq
    obtain ⟨-, rfl⟩ := heq
    obtain ⟨b, hb, h⟩ := Option.bind_eq_some_iff.1 h
    obtain ⟨tail, htail, hbytes⟩ := Option.bind_eq_some_iff.1 h
    obtain ⟨hhigh, hlow, n, l, hn, hl, rfl⟩ := exists_of_byte? hb
    -- Both bytes are ASCII, so each of them is a character of its own.
    obtain ⟨behind, rfl, hbehind⟩ := exists_of_flatMap_utf8 hencoded hhigh
    obtain ⟨more, rfl, rfl⟩ := exists_of_flatMap_utf8 hbehind hlow
    exact ⟨_, _, n, l, more, tail, rfl, hn, hl, (Option.some.inj hbytes).symm, htail⟩
  · next heq =>
    rw [List.cons.injEq] at heq
    rw [if_pos heq.1.symm] at h
    cases h

/-- Whatever is read is what the text spells. -/
theorem spells_of_unescapeBytes (n : Nat) {cs : List Char} {bytes : Bytes} (hn : cs.length ≤ n)
    (h : unescapeBytes (cs.flatMap String.utf8EncodeChar) = some bytes) : Spells cs bytes := by
  -- An escape takes three characters at once, so the induction is on the length.
  induction n generalizing cs bytes with
  | zero =>
    rw [Nat.le_zero, List.length_eq_zero_iff] at hn
    subst hn
    cases h
    exact .nil
  | succ n ih =>
    cases cs with
    | nil =>
      cases h
      exact .nil
    | cons c rest =>
      rw [List.length_cons, Nat.succ_le_succ_iff] at hn
      rw [List.flatMap_cons] at h
      by_cases hc : c = '%'
      · subst hc
        rw [Utf8.utf8EncodeChar_of_lt (by decide)] at h
        obtain ⟨high, low, v, l, more, tail, rfl, hhigh, hlow, rfl, hmore⟩ :=
          exists_of_unescapeBytes_percent h
        simp only [List.length_cons] at hn
        exact .escape hhigh hlow (ih (by omega) hmore)
      · rw [unescapeBytes_utf8 hc] at h
        obtain ⟨tail, htail, rfl⟩ := Option.map_eq_some_iff.1 h
        exact .char hc (ih hn htail)

/-- A location is read as the path that its text spells. -/
theorem toPath?_eq_some_iff (e p : String) :
    toPath? ⟨fileScheme ++ e⟩ = some p ↔ Spells e.toList p.toUTF8.toList := by
  rw [toPath?_fileScheme, unescape, Utf8.toList_toUTF8 e]
  constructor
  · intro h
    obtain ⟨bytes, hbytes, hp⟩ := Option.bind_eq_some_iff.1 h
    rw [Utf8.fromUTF8?_eq_some_iff] at hp
    rw [hp]
    exact spells_of_unescapeBytes _ (Nat.le_refl _) hbytes
  · intro h
    exact Option.bind_eq_some_iff.2
      ⟨_, unescapeBytes_of_spells h, Utf8.fromUTF8?_eq_some_iff.2 rfl⟩

/-! ## Texts that are well escaped -/

/-- An empty text is well escaped. -/
theorem wellEscaped_nil : WellEscaped [] := by
  intro rest hrest
  cases List.suffix_nil.1 hrest

/-- Behind a percent sign two digits have to follow. -/
theorem wellEscaped_cons_iff {c : Char} {cs : List Char} :
    WellEscaped (c :: cs) ↔ (c = '%' → startsWithByte cs = true) ∧ WellEscaped cs := by
  constructor
  · intro h
    refine ⟨?_, fun rest hrest => h rest (hrest.trans (List.suffix_cons c cs))⟩
    rintro rfl
    exact h cs List.suffix_rfl
  · rintro ⟨hfirst, hrest⟩ rest hsuffix
    rcases List.suffix_cons_iff.1 hsuffix with heq | hsuffix
    · obtain ⟨hc, rfl⟩ := List.cons.inj heq
      exact hfirst hc.symm
    · exact hrest rest hsuffix

/-- A well escaped text spells the bytes in which every percent sign and its two digits are one. -/
theorem spells_of_wellEscaped {cs : List Char} (h : WellEscaped cs) :
    Spells cs (readEscapes cs) := by
  induction cs using readEscapes_induct with
  | nil => exact .nil
  | percent high low n l rest hhigh hlow ih =>
    rw [wellEscaped_cons_iff, wellEscaped_cons_iff, wellEscaped_cons_iff] at h
    rw [readEscapes_percent hhigh hlow]
    exact .escape (leading?_of_digit? hhigh) hlow (ih h.2.2.2)
  | cons c rest hc ih =>
    rw [wellEscaped_cons_iff] at h
    rw [readEscapes_cons hc]
    exact .char (fun heq => hc ⟨heq, h.1 heq⟩) (ih h.2)

/-- No plus sign stands behind a percent sign of a well escaped text. -/
theorem not_infix_of_wellEscaped {cs : List Char} (h : WellEscaped cs) : ¬['%', '+'] <:+: cs := by
  rintro ⟨front, back, rfl⟩
  have hdigits := h ('+' :: back) ⟨front, by simp⟩
  rw [startsWithByte_cons] at hdigits
  exact absurd (Bool.and_eq_true_iff.1 hdigits).1 (by decide)

/-- Without such a plus sign a text that spells anything is well escaped. -/
theorem wellEscaped_of_spells {cs : List Char} {bytes : Bytes} (h : Spells cs bytes)
    (hsign : ¬['%', '+'] <:+: cs) : WellEscaped cs ∧ bytes = readEscapes cs := by
  induction h with
  | nil => exact ⟨wellEscaped_nil, rfl⟩
  | char hc hrest ih =>
    obtain ⟨hwell, rfl⟩ := ih fun hmore => hsign (List.infix_cons hmore)
    refine ⟨wellEscaped_cons_iff.2 ⟨fun heq => absurd heq hc, hwell⟩, ?_⟩
    rw [readEscapes_cons fun h => hc h.1]
  | @escape high low n l rest bytes hhigh hlow hrest ih =>
    have hplus : high ≠ '+' := by
      rintro rfl
      exact hsign ⟨[], low :: rest, rfl⟩
    rw [leading?, if_neg hplus] at hhigh
    obtain ⟨hwell, rfl⟩ := ih fun hmore =>
      hsign (List.infix_cons (List.infix_cons (List.infix_cons hmore)))
    have hne : high ≠ '%' ∧ low ≠ '%' :=
      ⟨(toNat_of_leading? (leading?_of_digit? hhigh)).2,
        (toNat_of_leading? (leading?_of_digit? hlow)).2⟩
    refine ⟨?_, (readEscapes_percent hhigh hlow rest).symm⟩
    rw [wellEscaped_cons_iff, wellEscaped_cons_iff, wellEscaped_cons_iff]
    exact ⟨fun _ => startsWithByte_of_digits hhigh hlow rest, fun h => absurd h hne.1,
      fun h => absurd h hne.2, hwell⟩

/-- The location of a file is read as the path that it spells, and if there is none it is not read.
That two digits follow every percent sign, and that the path is what is then read, is the same thing
except for locations with a plus sign behind a percent sign, which are read all the same. -/
theorem path_spelled_iff (e p : String) :
    (toPath? ⟨fileScheme ++ e⟩ = some p ↔ Spells e.toList p.toUTF8.toList) ∧
      (WellEscaped e.toList ∧ p.toUTF8.toList = readEscapes e.toList ↔
        toPath? ⟨fileScheme ++ e⟩ = some p ∧ ¬['%', '+'] <:+: e.toList) := by
  refine ⟨toPath?_eq_some_iff e p, ?_⟩
  rw [toPath?_eq_some_iff]
  constructor
  · rintro ⟨hwell, hbytes⟩
    rw [hbytes]
    exact ⟨spells_of_wellEscaped hwell, not_infix_of_wellEscaped hwell⟩
  · rintro ⟨hspells, hsign⟩
    exact wellEscaped_of_spells hspells hsign

/-- A plus sign and a digit are read as a byte, although they are not two digits. -/
theorem sign_read_as_digit :
    toPath? ⟨fileScheme ++ "/a%+1"⟩ = some "/a\x01" ∧ ¬WellEscaped "/a%+1".toList := by
  constructor
  · rw [toPath?_eq_some_iff, Utf8.toList_toUTF8]
    exact .char (by decide) (.char (by decide) (.escape (h := 0) (l := 1) rfl rfl .nil))
  · intro hwell
    exact not_infix_of_wellEscaped hwell ⟨['/', 'a'], ['1'], rfl⟩

end Crosswalk.Location
