import Crosswalk.Text.Utf16

/-!
# Texts and units determine each other

A text is spelled by exactly one list of units, and a list of units spells at most one text:
`ofUnits?_eq_some_iff` says that `ofUnits?` inverts `units` and answers nothing else. The lists that
spell no text are those with a surrogate that lacks its partner (`ofUnits?_eq_none_iff`).
-/

namespace Crosswalk.Utf16

/-! ## Single characters -/

/-- No character lies between the surrogates, or behind U+10FFFF. -/
theorem toNat_cases (c : Char) :
    c.toNat < 0xD800 ∨ (0xE000 ≤ c.toNat ∧ c.toNat < 0x110000) := by
  have h : c.toNat < 0xD800 ∨ (0xDFFF < c.toNat ∧ c.toNat < 0x110000) := c.valid
  omega

/-- A number that is no surrogate and not too large is that of a character. -/
theorem toNat_ofNat {n : Nat} (h : n < 0xD800 ∨ (0xE000 ≤ n ∧ n < 0x110000)) :
    (Char.ofNat n).toNat = n := by
  have hvalid : n.isValidChar := by
    rcases h with h | h
    · exact Or.inl h
    · exact Or.inr ⟨by omega, h.2⟩
  rw [Char.ofNat, dif_pos hvalid]
  rfl

/-- A unit that is no half of a pair is the number of a character. -/
theorem plain_cases {u : UInt16} (hhigh : isHigh u = false) (hlow : isLow u = false) :
    u.toNat < 0xD800 ∨ (0xE000 ≤ u.toNat ∧ u.toNat < 0x10000) := by
  have hlt := u.toNat_lt
  simp only [isHigh, isLow, Bool.and_eq_false_iff, decide_eq_false_iff_not,
    UInt16.lt_iff_toNat_lt, UInt16.le_iff_toNat_le, UInt16.reduceToNat]
    at hhigh hlow
  omega

/-- The first half of a pair lies in its range. -/
theorem toNat_of_isHigh {u : UInt16} (h : isHigh u = true) :
    0xD800 ≤ u.toNat ∧ u.toNat < 0xDC00 := by
  simpa [isHigh, UInt16.lt_iff_toNat_lt, UInt16.le_iff_toNat_le] using h

/-- The second half of a pair lies in its range. -/
theorem toNat_of_isLow {u : UInt16} (h : isLow u = true) :
    0xDC00 ≤ u.toNat ∧ u.toNat < 0xE000 := by
  simpa [isLow, UInt16.lt_iff_toNat_lt, UInt16.le_iff_toNat_le] using h

/-- The character of a unit that is no half of a pair is spelled by that unit. -/
theorem unitsOfChar_plain {u : UInt16} (hhigh : isHigh u = false) (hlow : isLow u = false) :
    unitsOfChar (Char.ofNat u.toNat) = [u] := by
  have hplain := plain_cases hhigh hlow
  have hnumber : (Char.ofNat u.toNat).toNat = u.toNat := toNat_ofNat (by omega)
  rw [unitsOfChar, hnumber, if_pos (by omega), UInt16.ofNat_toNat]

/-- The number of the character that a pair spells. -/
theorem toNat_pairChar {high low : UInt16} (hhigh : isHigh high = true) (hlow : isLow low = true) :
    (pairChar high low).toNat
      = 0x10000 + (high.toNat - 0xD800) * 0x400 + (low.toNat - 0xDC00) := by
  have hh := toNat_of_isHigh hhigh
  have hl := toNat_of_isLow hlow
  exact toNat_ofNat (by omega)

/-- The character that a pair spells is spelled by that pair. -/
theorem unitsOfChar_pair {high low : UInt16} (hhigh : isHigh high = true)
    (hlow : isLow low = true) : unitsOfChar (pairChar high low) = [high, low] := by
  have hh := toNat_of_isHigh hhigh
  have hl := toNat_of_isLow hlow
  rw [unitsOfChar, toNat_pairChar hhigh hlow, if_neg (by omega)]
  have hfirst : 0xD800 + (0x10000 + (high.toNat - 0xD800) * 0x400 + (low.toNat - 0xDC00)
      - 0x10000) / 0x400 = high.toNat := by omega
  have hsecond : 0xDC00 + (0x10000 + (high.toNat - 0xD800) * 0x400 + (low.toNat - 0xDC00)
      - 0x10000) % 0x400 = low.toNat := by omega
  simp only [hfirst, hsecond, UInt16.ofNat_toNat]

/-! ## Reading goes on behind what is read -/

/-- A unit that belongs to no pair is a character. -/
theorem charsAfter_plain {u : UInt16} (hhigh : isHigh u = false) (hlow : isLow u = false)
    (done : List Char) (us : List UInt16) :
    charsAfter done (u :: us) = charsAfter (Char.ofNat u.toNat :: done) us := by
  cases us with
  | nil => simp [charsAfter, hhigh, hlow]
  | cons v rest => rw [charsAfter, if_neg (by simp [hhigh]), if_neg (by simp [hlow])]

/-- A pair is a character. -/
theorem charsAfter_pair {high low : UInt16} (hhigh : isHigh high = true) (hlow : isLow low = true)
    (done : List Char) (us : List UInt16) :
    charsAfter done (high :: low :: us) = charsAfter (pairChar high low :: done) us := by
  rw [charsAfter, if_pos hhigh, if_pos hlow]

/-- The units of a character are read as that character. -/
theorem charsAfter_unitsOfChar (c : Char) (done : List Char) (us : List UInt16) :
    charsAfter done (unitsOfChar c ++ us) = charsAfter (c :: done) us := by
  have hc := toNat_cases c
  by_cases hsmall : c.toNat < 0x10000
  · have hunit : (UInt16.ofNat c.toNat).toNat = c.toNat := UInt16.toNat_ofNat_of_lt' hsmall
    rw [unitsOfChar, if_pos hsmall, List.singleton_append, charsAfter_plain, hunit,
      Char.ofNat_toNat]
    · simp only [isHigh, Bool.and_eq_false_iff, decide_eq_false_iff_not, UInt16.le_iff_toNat_le,
        UInt16.lt_iff_toNat_lt, hunit, UInt16.reduceToNat]
      omega
    · simp only [isLow, Bool.and_eq_false_iff, decide_eq_false_iff_not, UInt16.le_iff_toNat_le,
        UInt16.lt_iff_toNat_lt, hunit, UInt16.reduceToNat]
      omega
  · have hhigh : (UInt16.ofNat (0xD800 + (c.toNat - 0x10000) / 0x400)).toNat
        = 0xD800 + (c.toNat - 0x10000) / 0x400 :=
      UInt16.toNat_ofNat_of_lt' (show _ < 65536 by omega)
    have hlow : (UInt16.ofNat (0xDC00 + (c.toNat - 0x10000) % 0x400)).toNat
        = 0xDC00 + (c.toNat - 0x10000) % 0x400 :=
      UInt16.toNat_ofNat_of_lt' (show _ < 65536 by omega)
    have hchar : pairChar (UInt16.ofNat (0xD800 + (c.toNat - 0x10000) / 0x400))
        (UInt16.ofNat (0xDC00 + (c.toNat - 0x10000) % 0x400)) = c := by
      rw [pairChar, hhigh, hlow, show 0x10000 + (0xD800 + (c.toNat - 0x10000) / 0x400 - 0xD800)
        * 0x400 + (0xDC00 + (c.toNat - 0x10000) % 0x400 - 0xDC00) = c.toNat by omega,
        Char.ofNat_toNat]
    rw [unitsOfChar, if_neg hsmall, List.cons_append, List.singleton_append, charsAfter_pair, hchar]
    · simp only [isHigh, Bool.and_eq_true, decide_eq_true_eq, UInt16.le_iff_toNat_le,
        UInt16.lt_iff_toNat_lt, hhigh, UInt16.reduceToNat]
      omega
    · simp only [isLow, Bool.and_eq_true, decide_eq_true_eq, UInt16.le_iff_toNat_le,
        UInt16.lt_iff_toNat_lt, hlow, UInt16.reduceToNat]
      omega

/-! ## Whole texts -/

/-- Characters are found again in their units. -/
theorem charsAfter_flatMap (cs done : List Char) :
    charsAfter done (cs.flatMap unitsOfChar) = some (done.reverse ++ cs) := by
  induction cs generalizing done with
  | nil => simp [charsAfter]
  | cons c cs ih =>
    rw [List.flatMap_cons, charsAfter_unitsOfChar, ih]
    simp

/-- Characters that are read from units are spelled by those units. -/
theorem flatMap_of_charsAfter {done cs : List Char} {us : List UInt16}
    (h : charsAfter done us = some cs) :
    ∃ read, cs = done.reverse ++ read ∧ read.flatMap unitsOfChar = us := by
  fun_induction charsAfter done us with
  | case1 done =>
    cases h
    exact ⟨[], by simp, rfl⟩
  | case2 done u hsurrogate => cases h
  | case3 done u hplain =>
    cases h
    rw [Bool.or_eq_true, not_or, Bool.not_eq_true, Bool.not_eq_true] at hplain
    refine ⟨[Char.ofNat u.toNat], by simp, ?_⟩
    simpa using unitsOfChar_plain hplain.1 hplain.2
  | case4 done u v rest hhigh hlow ih =>
    obtain ⟨read, hcs, hread⟩ := ih h
    refine ⟨pairChar u v :: read, by simp [hcs], ?_⟩
    rw [List.flatMap_cons, unitsOfChar_pair hhigh hlow, hread]
    rfl
  | case5 done u v rest hhigh hlow => cases h
  | case6 done u v rest hhigh hlow => cases h
  | case7 done u v rest hhigh hlow ih =>
    obtain ⟨read, hcs, hread⟩ := ih h
    rw [Bool.not_eq_true] at hhigh hlow
    refine ⟨Char.ofNat u.toNat :: read, by simp [hcs], ?_⟩
    rw [List.flatMap_cons, unitsOfChar_plain hhigh hlow, hread]
    rfl

/-- Units spell a text exactly if they are the units of that text. -/
theorem ofUnits?_eq_some_iff {us : List UInt16} {text : String} :
    ofUnits? us = some text ↔ units text = us := by
  constructor
  · intro h
    obtain ⟨cs, hcs, htext⟩ := Option.map_eq_some_iff.1 h
    obtain ⟨read, hread, hunits⟩ := flatMap_of_charsAfter hcs
    rw [units, ← htext, String.toList_ofList, hread]
    simpa using hunits
  · intro h
    rw [ofUnits?, ← h, units, charsAfter_flatMap]
    simp

/-! ## Surrogates without a partner -/

/-- Behind the units in `before`, some unit is a first half that no second half follows, or a second
half that no first half precedes. -/
def UnpairedBehind (before us : List UInt16) : Prop :=
  ∃ front u back, us = front ++ u :: back ∧
    (isHigh u = true ∧ (∀ v ∈ back.head?, isLow v = false) ∨
      isLow u = true ∧ ∀ v ∈ (before ++ front).getLast?, isHigh v = false)

/-- Some surrogate has no partner beside it. -/
def Unpaired (us : List UInt16) : Prop := UnpairedBehind [] us

/-- No unit is both halves of a pair. -/
theorem isLow_of_isHigh {u : UInt16} (h : isHigh u = true) : isLow u = false := by
  by_cases hlow : isLow u = true
  · have hfirst := toNat_of_isHigh h
    have hsecond := toNat_of_isLow hlow
    omega
  · rwa [Bool.not_eq_true] at hlow

/-- An empty list has no unpaired unit. -/
theorem not_unpairedBehind_nil (before : List UInt16) : ¬UnpairedBehind before [] := by
  rintro ⟨front, u, back, hus, -⟩
  simp at hus

/-- The first unit lacks its partner, or one behind it does. -/
theorem unpairedBehind_cons_iff {before us : List UInt16} {u : UInt16} :
    UnpairedBehind before (u :: us) ↔
      (isHigh u = true ∧ ∀ v ∈ us.head?, isLow v = false) ∨
        (isLow u = true ∧ ∀ v ∈ before.getLast?, isHigh v = false) ∨
          UnpairedBehind (before ++ [u]) us := by
  constructor
  · rintro ⟨_ | ⟨first, front⟩, v, back, hus, hv⟩
    · cases hus
      rw [List.append_nil] at hv
      exact or_assoc.1 (.inl hv)
    · cases hus
      rw [List.append_cons] at hv
      exact .inr (.inr ⟨front, v, back, rfl, hv⟩)
  · rintro (hhigh | hlow | ⟨front, v, back, rfl, hv⟩)
    · exact ⟨[], u, us, rfl, .inl hhigh⟩
    · exact ⟨[], u, us, rfl, .inr (by rwa [List.append_nil])⟩
    · exact ⟨u :: front, v, back, rfl, by rwa [List.append_cons]⟩

/-- Reading stops at a surrogate without a partner, and at nothing else. What is read so far does
not end in the middle of a pair. -/
theorem charsAfter_eq_none_iff {before us : List UInt16} {done : List Char}
    (hbefore : ∀ v ∈ before.getLast?, isHigh v = false) :
    charsAfter done us = none ↔ UnpairedBehind before us := by
  have hlast : ∀ {u : UInt16} (before : List UInt16), isHigh u = false →
      ∀ v ∈ (before ++ [u]).getLast?, isHigh v = false := by
    intro u before hu v hv
    rw [List.getLast?_concat] at hv
    cases hv
    exact hu
  fun_induction charsAfter done us generalizing before with
  | case1 done => exact iff_of_false (by simp) (not_unpairedBehind_nil before)
  | case2 done u hsurrogate =>
    rw [unpairedBehind_cons_iff]
    rw [Bool.or_eq_true] at hsurrogate
    refine iff_of_true rfl ?_
    rcases hsurrogate with hhigh | hlow
    · exact .inl ⟨hhigh, by simp⟩
    · exact .inr (.inl ⟨hlow, hbefore⟩)
  | case3 done u hplain =>
    rw [Bool.or_eq_true, not_or] at hplain
    rw [unpairedBehind_cons_iff]
    simp [hplain, not_unpairedBehind_nil]
  | case4 done u v rest hhigh hlow ih =>
    -- Both halves of a pair have their partner, and the second one starts no other pair.
    have hneither : isHigh v = false := by
      by_cases h : isHigh v = true
      · rw [isLow_of_isHigh h] at hlow
        cases hlow
      · rwa [Bool.not_eq_true] at h
    refine (ih (hlast (before ++ [u]) hneither)).trans ?_
    rw [unpairedBehind_cons_iff, unpairedBehind_cons_iff]
    simp [hhigh, hlow, isLow_of_isHigh hhigh, hneither]
  | case5 done u v rest hhigh hlow =>
    rw [unpairedBehind_cons_iff]
    exact iff_of_true rfl (.inl ⟨hhigh, by simpa using hlow⟩)
  | case6 done u v rest hhigh hlow =>
    rw [unpairedBehind_cons_iff]
    exact iff_of_true rfl (.inr (.inl ⟨hlow, hbefore⟩))
  | case7 done u v rest hhigh hlow ih =>
    rw [Bool.not_eq_true] at hhigh hlow
    refine (ih (hlast before hhigh)).trans ?_
    rw [@unpairedBehind_cons_iff before]
    simp [hhigh, hlow]

/-- Units spell no text exactly if a surrogate lacks its partner. -/
theorem ofUnits?_eq_none_iff {us : List UInt16} : ofUnits? us = none ↔ Unpaired us := by
  rw [ofUnits?, Option.map_eq_none_iff, Unpaired]
  exact charsAfter_eq_none_iff (by simp)

end Crosswalk.Utf16
