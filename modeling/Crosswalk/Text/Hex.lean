/-!
# Hexadecimal digits

Two digits per byte, in either case, and the value of a digit in whichever case it comes.
-/

namespace Crosswalk.Hex

/-- The upper case digit of a value below sixteen. -/
def upperDigit (n : Nat) : Char :=
  if n < 10 then Char.ofNat (48 + n) else Char.ofNat (55 + n)

/-- The lower case digit of a value below sixteen. -/
def lowerDigit (n : Nat) : Char :=
  if n < 10 then Char.ofNat (48 + n) else Char.ofNat (87 + n)

/-- A byte in two upper case digits. -/
def upperByte (b : UInt8) : List Char :=
  [upperDigit (b.toNat / 16), upperDigit (b.toNat % 16)]

/-- A number in lower case digits, without leading zeros. -/
def lower (n : Nat) : String :=
  String.ofList (Nat.toDigits 16 n)

/-- The value of a digit. -/
def digit? (c : Char) : Option Nat :=
  if '0' ≤ c ∧ c ≤ '9' then some (c.toNat - 48)
  else if 'a' ≤ c ∧ c ≤ 'f' then some (c.toNat - 87)
  else if 'A' ≤ c ∧ c ≤ 'F' then some (c.toNat - 55)
  else none

/-- Whether a character is a digit of either case. -/
def isDigit (c : Char) : Bool :=
  (digit? c).isSome

/-- Every upper case digit has the value it was made from. -/
theorem digit?_upperDigit : ∀ n < 16, digit? (upperDigit n) = some n := by
  decide

/-- So has every lower case digit. -/
theorem digit?_lowerDigit : ∀ n < 16, digit? (lowerDigit n) = some n := by
  decide

/-- The characters that have a value are the digits in either case. -/
theorem digit?_eq_some_iff {c : Char} {n : Nat} :
    digit? c = some n ↔ n < 16 ∧ (c = lowerDigit n ∨ c = upperDigit n) := by
  constructor
  · intro h
    have hle : ∀ {a b : Char}, a ≤ b → a.toNat ≤ b.toNat := fun h => h
    rw [digit?] at h
    split at h
    · next hrange =>
      have hlow : 48 ≤ c.toNat := hle hrange.1
      have hhigh : c.toNat ≤ 57 := hle hrange.2
      cases h
      refine ⟨by omega, .inl ?_⟩
      rw [lowerDigit, if_pos (by omega), Nat.add_sub_of_le hlow, Char.ofNat_toNat]
    · split at h
      · next hrange =>
        have hlow : 97 ≤ c.toNat := hle hrange.1
        have hhigh : c.toNat ≤ 102 := hle hrange.2
        cases h
        refine ⟨by omega, .inl ?_⟩
        rw [lowerDigit, if_neg (by omega), Nat.add_sub_of_le (by omega), Char.ofNat_toNat]
      · split at h
        · next hrange =>
          have hlow : 65 ≤ c.toNat := hle hrange.1
          have hhigh : c.toNat ≤ 70 := hle hrange.2
          cases h
          refine ⟨by omega, .inr ?_⟩
          rw [upperDigit, if_neg (by omega), Nat.add_sub_of_le (by omega), Char.ofNat_toNat]
        · cases h
  · rintro ⟨hn, rfl | rfl⟩
    · exact digit?_lowerDigit n hn
    · exact digit?_upperDigit n hn

end Crosswalk.Hex
