import Mathlib.Data.List.Basic
import Crosswalk.Proofs.Location.Escaping

/-!
# Collapsing what was escaped once

Collapsing is meant for locations that were escaped twice. In one that was escaped once it finds the
percent signs of the path that two digits follow, and leaves them as they are
(`Location.collapseChars_escape`). Such a location is read as another path, in which each of these
percent signs and its digits are a single byte (`Location.toPath?_collapse`), so that it has the
path that it was made of exactly if there are none (`Location.toPath?_collapse_eq_iff`).
-/

namespace Crosswalk.Location

/-! ## Characters in a URI -/

/-- A character as it stands in a URI. -/
def escapeChar (c : Char) : List Char :=
  (String.utf8EncodeChar c).flatMap escapeByte

/-- Characters are escaped one by one. -/
theorem toList_escape (path : String) : (escape path).toList = path.toList.flatMap escapeChar := by
  rw [escape, String.toList_ofList, Utf8.toList_toUTF8, List.flatMap_assoc]
  rfl

/-- A digit stands for itself. -/
theorem escapeChar_of_isDigit {c : Char} (h : Hex.isDigit c = true) : escapeChar c = [c] := by
  obtain ⟨n, hn⟩ := Option.isSome_iff_exists.1 h
  have hrange := Hex.toNat_of_digit? hn
  have hbyte := toNat_byteOf (c := c) (by omega)
  have hplain : isPlain (byteOf c) = true := by
    simp only [isPlain, Bool.or_eq_true, Bool.and_eq_true, decide_eq_true_eq,
      UInt8.le_iff_toNat_le, UInt8.reduceToNat, hbyte]
    omega
  rw [escapeChar, Utf8.utf8EncodeChar_of_lt (by omega), List.flatMap_singleton]
  show escapeByte (byteOf c) = [c]
  rw [escapeByte, if_pos hplain, hbyte, Char.ofNat_toNat]

/-- A character that does not stand for itself stands behind a percent sign. -/
theorem escapeChar_cases (c : Char) : escapeChar c = [c] ∨ ∃ more, escapeChar c = '%' :: more := by
  have hbyte : ∀ b : UInt8, isPlain b = false → ∀ rest,
      (b :: rest).flatMap escapeByte = '%' :: (Hex.upperByte b ++ rest.flatMap escapeByte) := by
    intro b hb rest
    rw [List.flatMap_cons, escapeByte, if_neg (by simp [hb])]
    rfl
  by_cases hascii : c.toNat < 128
  · rw [escapeChar, Utf8.utf8EncodeChar_of_lt hascii]
    by_cases hplain : isPlain (byteOf c) = true
    · left
      rw [List.flatMap_singleton]
      show escapeByte (byteOf c) = [c]
      rw [escapeByte, if_pos hplain, toNat_byteOf hascii, Char.ofNat_toNat]
    · exact .inr ⟨_, hbyte (byteOf c) (by simpa using hplain) []⟩
  · -- Beyond ASCII no byte stands for itself, so what counts is that there is a first one.
    cases hchar : String.utf8EncodeChar c with
    | nil => exact absurd hchar String.utf8EncodeChar_ne_nil
    | cons b rest =>
      have hmem : b ∈ String.utf8EncodeChar c := hchar ▸ List.mem_cons_self
      have hhigh := Utf8.le_of_mem_utf8EncodeChar (by omega) hmem
      have hplain : isPlain b = false := by
        by_contra hplain
        have hlow := (bounds_of_isPlain (Bool.not_eq_false _ ▸ hplain)).1
        omega
      rw [escapeChar, hchar]
      exact .inr ⟨_, hbyte b hplain rest⟩

/-- An escaped byte has two digits. -/
theorem startsWithByte_cons (c : Char) (cs : List Char) :
    startsWithByte (c :: cs) = (Hex.isDigit c && cs.head?.any Hex.isDigit) := by
  cases cs <;> simp [startsWithByte]

/-- Escaping neither brings a digit to the front nor takes one away. -/
theorem head?_flatMap_escapeChar (cs : List Char) :
    (cs.flatMap escapeChar).head?.any Hex.isDigit = cs.head?.any Hex.isDigit := by
  cases cs with
  | nil => rfl
  | cons c cs =>
    rw [List.flatMap_cons]
    by_cases hdigit : Hex.isDigit c = true
    · rw [escapeChar_of_isDigit hdigit]
      rfl
    · -- A percent sign is no digit either.
      rcases escapeChar_cases c with hself | ⟨more, hmore⟩
      · rw [hself]
        rfl
      · rw [hmore]
        show Hex.isDigit '%' = Hex.isDigit c
        rw [Bool.not_eq_true] at hdigit
        rw [hdigit]
        decide

/-- Escaping neither brings two digits to the front nor takes any away. -/
theorem startsWithByte_flatMap_escapeChar (cs : List Char) :
    startsWithByte (cs.flatMap escapeChar) = startsWithByte cs := by
  have hnone : ∀ l : List Char, l.head?.any Hex.isDigit = false → startsWithByte l = false := by
    intro l hl
    cases l with
    | nil => rfl
    | cons c l =>
      rw [startsWithByte_cons, show Hex.isDigit c = false from hl, Bool.false_and]
  cases cs with
  | nil => rfl
  | cons c cs =>
    by_cases hdigit : Hex.isDigit c = true
    · rw [List.flatMap_cons, escapeChar_of_isDigit hdigit, List.singleton_append,
        startsWithByte_cons, startsWithByte_cons, head?_flatMap_escapeChar]
    · have hfirst : (c :: cs).head?.any Hex.isDigit = false := by simpa using hdigit
      rw [hnone _ ((head?_flatMap_escapeChar (c :: cs)).trans hfirst), hnone _ hfirst]

/-! ## Collapsing -/

/-- Characters as they stand in a URI that was escaped once and collapsed: a percent sign that two
digits follow stands for itself. -/
def escapeLone : List Char → List Char
  | [] => []
  | c :: rest =>
    (if c = '%' ∧ startsWithByte rest = true then ['%'] else escapeChar c) ++ escapeLone rest

/-- Anything but a percent sign stays. -/
theorem collapseChars_cons_ne {c : Char} (h : c ≠ '%') (rest : List Char) :
    collapseChars (c :: rest) = c :: collapseChars rest := by
  rw [collapseChars.eq_def]
  split
  · next heq =>
    cases heq
    exact absurd rfl h
  · next heq => cases heq; rfl
  · next heq => cases heq

/-- A percent sign that is not itself escaped stays where it is. -/
theorem collapseChars_percent {rest : List Char} (h : ∀ more, rest ≠ '2' :: '5' :: more) :
    collapseChars ('%' :: rest) = '%' :: collapseChars rest := by
  rw [collapseChars.eq_def]
  split
  · next heq =>
    cases heq
    exact absurd rfl (h _)
  · next heq => cases heq; rfl
  · next heq => cases heq

/-- Where there is no percent sign, nothing is collapsed. -/
theorem collapseChars_append {l : List Char} (h : '%' ∉ l) (rest : List Char) :
    collapseChars (l ++ rest) = l ++ collapseChars rest := by
  induction l with
  | nil => rfl
  | cons c l ih =>
    rw [List.mem_cons, not_or] at h
    rw [List.cons_append, collapseChars_cons_ne (Ne.symm h.1), ih h.2, List.cons_append]

/-- There is no percent sign among digits. -/
theorem not_mem_upperByte (b : UInt8) : '%' ∉ Hex.upperByte b := by
  have hdigit : ∀ n < 16, '%' ≠ Hex.upperDigit n := by decide
  have hlt := b.toNat_lt
  rw [Hex.upperByte, List.mem_cons, List.mem_singleton, not_or]
  exact ⟨hdigit _ (by omega), hdigit _ (by omega)⟩

/-- The digits of a byte are those of no other byte. -/
theorem eq_of_upperByte {b : UInt8} {high low : Char} {h l : Nat}
    (hb : Hex.upperByte b = [high, low]) (hhigh : Hex.digit? high = some h)
    (hlow : Hex.digit? low = some l) : b.toNat = 16 * h + l := by
  have hlt := b.toNat_lt
  have hfirst := Hex.digit?_upperDigit (b.toNat / 16) (by omega)
  have hsecond := Hex.digit?_upperDigit (b.toNat % 16) (by omega)
  rw [Hex.upperByte, List.cons.injEq, List.cons.injEq] at hb
  rw [hb.1, hhigh, Option.some_inj] at hfirst
  rw [hb.2.1, hlow, Option.some_inj] at hsecond
  omega

/-- What stands for another byte than a percent sign stays where it is. -/
theorem collapseChars_escapeByte {b : UInt8} (h : b ≠ 37) (rest : List Char) :
    collapseChars (escapeByte b ++ rest) = escapeByte b ++ collapseChars rest := by
  unfold escapeByte
  by_cases hplain : isPlain b = true
  · have hchar := toNat_charOfByte b
    rw [if_pos hplain]
    apply collapseChars_append
    rw [List.mem_singleton]
    intro heq
    rw [← heq] at hchar
    exact h (UInt8.toNat_inj.1 hchar.symm)
  · rw [if_neg hplain, List.cons_append, collapseChars_percent,
      collapseChars_append (not_mem_upperByte b), List.cons_append]
    -- The digits `25` are those of the percent sign.
    intro more heq
    have happend : Hex.upperByte b ++ rest = ['2', '5'] ++ more := heq
    have hdigits : Hex.upperByte b = ['2', '5'] := (List.append_inj happend rfl).1
    exact h (UInt8.toNat_inj.1 (eq_of_upperByte hdigits rfl rfl))

/-- Only the percent sign has its byte. -/
theorem ne_of_mem_utf8EncodeChar {c : Char} (h : c ≠ '%') :
    ∀ b ∈ String.utf8EncodeChar c, b ≠ 37 := by
  rintro b hb rfl
  by_cases hascii : c.toNat < 128
  · rw [Utf8.utf8EncodeChar_of_lt hascii, List.mem_singleton] at hb
    have hnat : (37 : UInt8).toNat = c.toNat := hb ▸ toNat_byteOf hascii
    exact h (Char.toNat_inj.1 hnat.symm)
  · have hhigh := Utf8.le_of_mem_utf8EncodeChar (by omega) hb
    exact absurd hhigh (by decide)

/-- What stands for another character than a percent sign stays where it is. -/
theorem collapseChars_escapeChar {c : Char} (h : c ≠ '%') (rest : List Char) :
    collapseChars (escapeChar c ++ rest) = escapeChar c ++ collapseChars rest := by
  have hbytes := ne_of_mem_utf8EncodeChar h
  unfold escapeChar
  -- From here on it does not matter which character the bytes are of.
  generalize String.utf8EncodeChar c = bytes at hbytes
  induction bytes with
  | nil => rfl
  | cons b bytes ih =>
    rw [List.flatMap_cons, List.append_assoc,
      collapseChars_escapeByte (hbytes b List.mem_cons_self),
      ih fun b hb => hbytes b (List.mem_cons_of_mem _ hb), List.append_assoc]

/-- A percent sign is escaped by its own code. -/
theorem escapeChar_percent : escapeChar '%' = ['%', '2', '5'] := by
  decide

/-- Collapsing finds just the percent signs that two digits follow. -/
theorem collapseChars_escape (cs : List Char) :
    collapseChars (cs.flatMap escapeChar) = escapeLone cs := by
  induction cs with
  | nil => rfl
  | cons c cs ih =>
    rw [List.flatMap_cons, escapeLone]
    by_cases hc : c = '%'
    · subst hc
      rw [escapeChar_percent]
      show collapseChars ('%' :: '2' :: '5' :: cs.flatMap escapeChar) = _
      -- Whether two digits follow can be seen before the rest is escaped.
      rw [collapseChars, startsWithByte_flatMap_escapeChar, ih]
      by_cases hdigits : startsWithByte cs = true
      · rw [if_pos hdigits, if_pos ⟨rfl, hdigits⟩]
        rfl
      · rw [if_neg hdigits, if_neg fun h => hdigits h.2]
        rfl
    · rw [if_neg fun h => hc h.1, collapseChars_escapeChar hc, ih]

/-! ## Reading what is left -/

/-- The bytes of a text in which a percent sign and two digits behind it are a single byte. -/
def readEscapes : List Char → Bytes
  | '%' :: high :: low :: rest =>
    match Hex.digit? high, Hex.digit? low with
    | some h, some l => UInt8.ofNat (16 * h + l) :: readEscapes rest
    | _, _ => 37 :: readEscapes (high :: low :: rest)
  | c :: rest => String.utf8EncodeChar c ++ readEscapes rest
  | [] => []

/-- The text has a percent sign that two digits follow. -/
def HoldsEscape (cs : List Char) : Prop :=
  ∃ high low, ['%', high, low] <:+: cs ∧ Hex.isDigit high = true ∧ Hex.isDigit low = true

/-- Two digits stand in front of an escaped byte. -/
theorem startsWithByte_iff {cs : List Char} : startsWithByte cs = true ↔ ∃ high low,
    [high, low] <+: cs ∧ Hex.isDigit high = true ∧ Hex.isDigit low = true := by
  constructor
  · intro h
    rcases cs with _ | ⟨high, _ | ⟨low, rest⟩⟩
    · cases h
    · cases h
    · exact ⟨high, low, ⟨rest, rfl⟩, Bool.and_eq_true_iff.1 h⟩
  · rintro ⟨high, low, ⟨rest, rfl⟩, hdigits⟩
    exact Bool.and_eq_true_iff.2 hdigits

/-- An escape starts here or later. -/
theorem holdsEscape_cons_iff {c : Char} {cs : List Char} :
    HoldsEscape (c :: cs) ↔ (c = '%' ∧ startsWithByte cs = true) ∨ HoldsEscape cs := by
  rw [startsWithByte_iff]
  constructor
  · rintro ⟨high, low, hinfix, hdigits⟩
    rcases List.infix_cons_iff.1 hinfix with hprefix | hinfix
    · obtain ⟨hc, hrest⟩ := List.cons_prefix_cons.1 hprefix
      exact .inl ⟨hc.symm, high, low, hrest, hdigits⟩
    · exact .inr ⟨high, low, hinfix, hdigits⟩
  · rintro (⟨rfl, high, low, hrest, hdigits⟩ | ⟨high, low, hinfix, hdigits⟩)
    · exact ⟨high, low,
        List.infix_cons_iff.2 (.inl (List.cons_prefix_cons.2 ⟨rfl, hrest⟩)), hdigits⟩
    · exact ⟨high, low, List.infix_cons_iff.2 (.inr hinfix), hdigits⟩

/-- An empty text holds no escape. -/
theorem not_holdsEscape_nil : ¬HoldsEscape [] := by
  rintro ⟨high, low, hinfix, -⟩
  simpa using hinfix.length_le

instance decidableHoldsEscape : (cs : List Char) → Decidable (HoldsEscape cs)
  | [] => isFalse not_holdsEscape_nil
  | _ :: cs =>
    have := decidableHoldsEscape cs
    decidable_of_iff _ holdsEscape_cons_iff.symm

/-- A character that starts no escape is read alone. -/
theorem readEscapes_cons {c : Char} {rest : List Char}
    (h : ¬(c = '%' ∧ startsWithByte rest = true)) :
    readEscapes (c :: rest) = String.utf8EncodeChar c ++ readEscapes rest := by
  rw [readEscapes.eq_def]
  split
  · next high low rest heq =>
    cases heq
    split
    · next hhigh hlow =>
      have hdigits : startsWithByte (high :: low :: rest) = true := by
        simp [startsWithByte, Hex.isDigit, hhigh, hlow]
      exact absurd ⟨rfl, hdigits⟩ h
    · rw [Utf8.utf8EncodeChar_of_lt (by decide)]
      rfl
  · next heq => cases heq; rfl
  · next heq => cases heq

/-- An escape is read as its byte. -/
theorem readEscapes_percent {high low : Char} {h l : Nat} (hhigh : Hex.digit? high = some h)
    (hlow : Hex.digit? low = some l) (rest : List Char) :
    readEscapes ('%' :: high :: low :: rest) = UInt8.ofNat (16 * h + l) :: readEscapes rest := by
  rw [readEscapes, hhigh, hlow]

/-- Two digits are the digits of a byte, and stand for themselves. -/
theorem startsWithByte_of_digits {high low : Char} {h l : Nat} (hhigh : Hex.digit? high = some h)
    (hlow : Hex.digit? low = some l) (rest : List Char) :
    startsWithByte (high :: low :: rest) = true :=
  startsWithByte_iff.2
  ⟨high, low, ⟨rest, rfl⟩, Option.isSome_of_mem hhigh, Option.isSome_of_mem hlow⟩

/-- A digit stays. -/
theorem escapeLone_digit {c : Char} {n : Nat} (h : Hex.digit? c = some n) (rest : List Char) :
    escapeLone (c :: rest) = c :: escapeLone rest := by
  have hrange := Hex.toNat_of_digit? h
  rw [escapeLone, if_neg, escapeChar_of_isDigit (Option.isSome_of_mem h)]
  · rfl
  · rintro ⟨rfl, -⟩
    revert hrange
    decide

/-- A text starts with an escape, or its first character is read alone. -/
theorem readEscapes_induct {motive : List Char → Prop} (nil : motive [])
    (percent : ∀ high low h l rest, Hex.digit? high = some h → Hex.digit? low = some l →
      motive rest → motive ('%' :: high :: low :: rest))
    (cons : ∀ c rest, ¬(c = '%' ∧ startsWithByte rest = true) → motive rest → motive (c :: rest))
    (cs : List Char) : motive cs := by
  fun_induction readEscapes cs with
  | case1 high low rest h l hlow hhigh ih => exact percent high low h l rest hhigh hlow ih
  | case2 high low rest hnone ih =>
    apply cons '%' (high :: low :: rest) _ ih
    rintro ⟨-, hdigits⟩
    obtain ⟨hhigh, hlow⟩ := Bool.and_eq_true_iff.1 hdigits
    obtain ⟨h, hh⟩ := Option.isSome_iff_exists.1 hhigh
    obtain ⟨l, hl⟩ := Option.isSome_iff_exists.1 hlow
    exact hnone h l hh hl
  | case3 c rest hno ih =>
    apply cons c rest _ ih
    rintro ⟨rfl, hdigits⟩
    obtain ⟨high, low, ⟨more, rfl⟩, -⟩ := startsWithByte_iff.1 hdigits
    exact hno high low more rfl rfl
  | case4 => exact nil

/-- Without such a percent sign the bytes are those of the text, and with one they are fewer. -/
theorem readEscapes_cases (cs : List Char) :
    (¬HoldsEscape cs ∧ readEscapes cs = cs.flatMap String.utf8EncodeChar) ∨
      (HoldsEscape cs ∧
        (readEscapes cs).length < (cs.flatMap String.utf8EncodeChar).length) := by
  induction cs using readEscapes_induct with
  | nil => exact .inl ⟨not_holdsEscape_nil, rfl⟩
  | percent high low h l rest hhigh hlow ih =>
    have hholds : HoldsEscape ('%' :: high :: low :: rest) :=
      holdsEscape_cons_iff.2 (.inl ⟨rfl, startsWithByte_of_digits hhigh hlow rest⟩)
    have hle : (readEscapes rest).length ≤ (rest.flatMap String.utf8EncodeChar).length := by
      rcases ih with ⟨-, hsame⟩ | ⟨-, hless⟩
      · exact Nat.le_of_eq (congrArg List.length hsame)
      · omega
    have hh := Hex.toNat_of_digit? hhigh
    have hl := Hex.toNat_of_digit? hlow
    -- Three characters with a byte each are read as a single byte.
    refine .inr ⟨hholds, ?_⟩
    rw [readEscapes_percent hhigh hlow, List.flatMap_cons, List.flatMap_cons, List.flatMap_cons,
      Utf8.utf8EncodeChar_of_lt (by decide), Utf8.utf8EncodeChar_of_lt (by omega),
      Utf8.utf8EncodeChar_of_lt (by omega)]
    simp only [List.length_cons, List.length_append, List.length_nil]
    omega
  | cons c rest hc ih =>
    rw [holdsEscape_cons_iff, readEscapes_cons hc, List.flatMap_cons, List.length_append,
      List.length_append]
    rcases ih with ⟨hnone, hsame⟩ | ⟨hholds, hless⟩
    · exact .inl ⟨not_or.2 ⟨hc, hnone⟩, by rw [hsame]⟩
    · exact .inr ⟨.inr hholds, by omega⟩

/-- What is left of an escaped text when it is collapsed is read as those bytes. -/
theorem unescapeBytes_escapeLone (cs : List Char) :
    unescapeBytes ((escapeLone cs).flatMap String.utf8EncodeChar) = some (readEscapes cs) := by
  induction cs using readEscapes_induct with
  | nil => rfl
  | percent high low h l rest hhigh hlow ih =>
    have hh := Hex.toNat_of_digit? hhigh
    have hl := Hex.toNat_of_digit? hlow
    rw [escapeLone, if_pos ⟨rfl, startsWithByte_of_digits hhigh hlow rest⟩, escapeLone_digit hhigh,
      escapeLone_digit hlow, List.singleton_append, List.flatMap_cons, List.flatMap_cons,
      List.flatMap_cons, Utf8.utf8EncodeChar_of_lt (by decide),
      Utf8.utf8EncodeChar_of_lt (by omega), Utf8.utf8EncodeChar_of_lt (by omega),
      readEscapes_percent hhigh hlow]
    show unescapeBytes (37 :: byteOf high :: byteOf low ::
      (escapeLone rest).flatMap String.utf8EncodeChar) = _
    rw [unescapeBytes_percent (byte?_of_digits hhigh hlow), ih]
    rfl
  | cons c rest hc ih =>
    rw [escapeLone, if_neg hc, List.flatMap_append, escapeChar, unescapeBytes_escapeBytes, ih,
      readEscapes_cons hc]
    rfl

/-! ## Locations of files -/

/-- The scheme stays. -/
theorem collapse_fileScheme (escaped : String) : collapse ⟨fileScheme ++ escaped⟩ =
    ⟨fileScheme ++ String.ofList (collapseChars escaped.toList)⟩ := by
  have hscheme : '%' ∉ fileScheme.toList := by decide
  rw [collapse, String.toList_append, collapseChars_append hscheme, String.ofList_append,
    String.ofList_toList]

/-- The location of a file that is collapsed is read with the escapes of its path as single bytes.
-/
theorem toPath?_collapse (workingDirectory path : String) :
    (ofPath workingDirectory path).collapse.toPath? = String.fromUTF8?
      ⟨(readEscapes (rooted (Path.join workingDirectory path)).toList).toArray⟩ := by
  rw [ofPath, collapse_fileScheme, toPath?_fileScheme, toList_escape,
    collapseChars_escape, unescape,
    Utf8.toList_toUTF8, String.toList_ofList, unescapeBytes_escapeLone]
  exact Option.bind_some ..

/-- As many bytes are in a path when it has slashes for its backslashes. -/
theorem length_slashed (path : String) :
    ((slashed path).toList.flatMap String.utf8EncodeChar).length =
      (path.toList.flatMap String.utf8EncodeChar).length := by
  rw [slashed, String.toList_ofList, List.flatMap_map, List.length_flatMap, List.length_flatMap]
  congr 1
  apply List.map_congr_left
  intro c _
  by_cases hc : c = '\\'
  · rw [if_pos hc, hc]
    rfl
  · rw [if_neg hc]

/-- The location of a file that is collapsed has the path it was made of exactly if that has no
backslash and no percent sign that two digits follow. -/
theorem toPath?_collapse_eq_iff (workingDirectory : String) {path : String}
    (h : Path.isAbsolute path = true) :
    (ofPath workingDirectory path).collapse.toPath? = some path ↔
      '\\' ∉ path.toList ∧ ¬HoldsEscape path.toList := by
  rw [toPath?_collapse, join_of_isAbsolute _ h, rooted_of_isAbsolute h, Utf8.fromUTF8?_eq_some_iff,
    Utf8.toList_toUTF8, ← slashed_eq_self_iff]
  constructor
  · intro heq
    -- An escape or a backslash would make a difference in the number of bytes or in the bytes.
    rcases readEscapes_cases (slashed path).toList with ⟨hnone, hsame⟩ | ⟨-, hless⟩
    · have hpath : slashed path = path := by
        rw [hsame, ← Utf8.toList_toUTF8, ← Utf8.toList_toUTF8] at heq
        have hread := Utf8.fromUTF8?_eq_some_iff.2 heq
        exact Option.some_inj.1 ((Utf8.fromUTF8?_eq_some_iff.2 rfl).symm.trans hread)
      rw [hpath] at hnone
      exact ⟨hpath, hnone⟩
    · rw [← heq, length_slashed] at hless
      exact absurd hless (Nat.lt_irrefl _)
  · rintro ⟨hpath, hnone⟩
    rcases readEscapes_cases path.toList with ⟨-, hsame⟩ | ⟨hholds, -⟩
    · rw [hpath, hsame]
    · exact absurd hholds hnone

end Crosswalk.Location
