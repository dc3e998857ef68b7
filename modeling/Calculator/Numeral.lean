/-!
Whole numbers as they are written and as they are kept. A run of decimal digits stands for a number
of any size, and `int64?` admits those that fit a signed word of 64 bits.
-/

namespace Calculator

def int64? (n : Int) : Option Int64 :=
  if h : Int64.minValue.toInt ≤ n ∧ n ≤ Int64.maxValue.toInt then
    some (Int64.ofIntLE n h.1 h.2)
  else none

theorem int64?_eq_some_iff {n : Int} {w : Int64} : int64? n = some w ↔ w.toInt = n := by
  unfold int64?
  split
  case isTrue h =>
      rw [Option.some.injEq, ← Int64.toInt_inj, Int64.toInt_ofIntLE]
      exact eq_comm
  case isFalse h =>
      constructor
      · intro hw
        cases hw
      · rintro rfl
        exact absurd ⟨w.minValue_le_toInt, w.toInt_le⟩ h

theorem int64?_toInt (w : Int64) : int64? w.toInt = some w :=
  int64?_eq_some_iff.2 rfl

theorem int64?_eq_none_iff {n : Int} :
    int64? n = none ↔ n < Int64.minValue.toInt ∨ Int64.maxValue.toInt < n := by
  unfold int64?
  split
  case isTrue h =>
      constructor
      · intro hn
        cases hn
      · intro hn
        omega
  case isFalse h =>
      constructor
      · intro _
        omega
      · intro _
        rfl

namespace Numeral

def value (digits : List Char) : Nat := Nat.ofDigitChars 10 digits 0

/-- Reads on from `n`, and stops as soon as the number passes `limit`: more digits can only make it
larger. -/
def upTo? (limit : Nat) : Nat → List Char → Option Nat
  | n, [] => if n ≤ limit then some n else none
  | n, c :: digits =>
      if n ≤ limit then upTo? limit (10 * n + (c.toNat - '0'.toNat)) digits else none

theorem le_ofDigitChars (n : Nat) (digits : List Char) : n ≤ Nat.ofDigitChars 10 digits n := by
  induction digits generalizing n with
  | nil => exact Nat.le_refl n
  | cons c digits ih =>
      rw [Nat.ofDigitChars_cons]
      exact Nat.le_trans (by omega) (ih _)

theorem upTo?_eq (limit n : Nat) (digits : List Char) :
    upTo? limit n digits =
      if Nat.ofDigitChars 10 digits n ≤ limit then some (Nat.ofDigitChars 10 digits n)
      else none := by
  induction digits generalizing n with
  | nil => rfl
  | cons c digits ih =>
      rw [upTo?, ih, Nat.ofDigitChars_cons]
      split
      · rfl
      · next h =>
          have hle := le_ofDigitChars (10 * n + (c.toNat - '0'.toNat)) digits
          rw [if_neg (by omega)]

def word? (digits : List Char) : Option Int64 :=
  (upTo? Int64.maxValue.toInt.toNat 0 digits).bind fun n : Nat => int64? n

theorem word?_eq (digits : List Char) : word? digits = int64? (value digits) := by
  rw [word?, upTo?_eq, value]
  split
  case isTrue => rfl
  case isFalse h =>
      have hlarge : Int64.maxValue.toInt < Nat.ofDigitChars 10 digits 0 := by omega
      exact (int64?_eq_none_iff.2 (Or.inr hlarge)).symm

theorem word?_eq_some_iff {digits : List Char} {w : Int64} :
    word? digits = some w ↔ w.toInt = value digits := by
  rw [word?_eq, int64?_eq_some_iff]

theorem word?_eq_none_iff {digits : List Char} :
    word? digits = none ↔ Int64.maxValue.toInt < value digits := by
  have hmin : Int64.minValue.toInt ≤ 0 := by decide
  rw [word?_eq, int64?_eq_none_iff]
  omega

end Numeral

end Calculator
