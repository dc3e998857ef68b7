import Calculator.Numeral
import Calculator.Decimal
import Calculator.Failure

/-!
Numbers and the operators on them. Whole numbers are exact as long as the result is whole and fits a
word; otherwise both operands are taken as doubles. A double never becomes a whole number again.
-/

namespace Calculator

inductive Number where
  | integer (value : Int64)
  | real (value : Float)
deriving Repr

namespace Number

def toFloat : Number → Float
  | integer value => Float.ofInt value.toInt
  | real value => value

def asInteger? : Number → Option Int64
  | integer value => some value
  | real _ => none

def isInteger : Number → Bool
  | integer _ => true
  | real _ => false

def isZero : Number → Bool
  | integer value => value = 0
  | real value => value == 0.0

def text : Number → String
  | integer value => toString value.toInt
  | real value => realText value

instance : ToString Number := ⟨text⟩

/-- A whole number never equals a double; doubles are compared as such, so that a NaN differs from
itself and the two zeros are equal. -/
instance : BEq Number where
  beq
    | integer value, integer value' => value == value'
    | integer _, real _ => false
    | real _, integer _ => false
    | real value, real value' => value == value'

end Number

namespace Operator

def whole? : Operator → Int → Int → Option Int
  | add, a, b => some (a + b)
  | sub, a, b => some (a - b)
  | mul, a, b => some (a * b)
  | div, a, b => if b ≠ 0 ∧ b ∣ a then some (a / b) else none

theorem whole?_div_eq_some_iff {a b c : Int} :
    div.whole? a b = some c ↔ b ≠ 0 ∧ a = c * b := by
  simp only [whole?]
  split
  next h =>
      constructor
      · intro hc
        cases hc
        exact ⟨h.1, (Int.ediv_mul_cancel h.2).symm⟩
      · rintro ⟨hb, rfl⟩
        rw [Int.mul_ediv_cancel _ hb]
  next h =>
      constructor
      · intro hc
        cases hc
      · rintro ⟨hb, rfl⟩
        exact absurd ⟨hb, Int.dvd_mul_left _ _⟩ h

def onReals : Operator → Float → Float → Float
  | add, a, b => a + b
  | sub, a, b => a - b
  | mul, a, b => a * b
  | div, a, b => a / b

def combine (op : Operator) : Number → Number → Number
  | .integer a, .integer b =>
      match (op.whole? a.toInt b.toInt).bind int64? with
      | some value => .integer value
      | none => .real (op.onReals (Number.integer a).toFloat (Number.integer b).toFloat)
  | left, right => .real (op.onReals left.toFloat right.toFloat)

theorem combine_eq_integer_iff {op : Operator} {left right : Number} {value : Int64} :
    op.combine left right = .integer value ↔
      ∃ a b, left = .integer a ∧ right = .integer b ∧
        op.whole? a.toInt b.toInt = some value.toInt := by
  constructor
  · intro h
    cases left with
    | integer a =>
        cases right with
        | integer b =>
            refine ⟨a, b, rfl, rfl, ?_⟩
            simp only [combine] at h
            split at h
            next w hw =>
                cases h
                obtain ⟨n, hn, hnw⟩ := Option.bind_eq_some_iff.1 hw
                rw [hn, int64?_eq_some_iff.1 hnw]
            next => cases h
        | real b => cases h
    | real a => cases h
  · rintro ⟨a, b, rfl, rfl, h⟩
    simp [combine, h, int64?_toInt]

/-- The operator at `position` applied to two values. A zero divisor fails whatever stands before
it. -/
def apply (op : Operator) (left right : Number) (position : Position) : Except EvalError Number :=
  if op = .div ∧ right.isZero then .error (.divisionByZero position)
  else .ok (op.combine left right)

theorem apply_eq_error_iff {op : Operator} {left right : Number} {position : Position}
    {error : EvalError} :
    op.apply left right position = .error error ↔
      op = .div ∧ right.isZero = true ∧ error = .divisionByZero position := by
  unfold apply
  split
  next h => simp [h, eq_comm]
  next h =>
      constructor
      · intro h'
        cases h'
      · rintro ⟨hop, hzero, -⟩
        exact absurd ⟨hop, hzero⟩ h

end Operator

end Calculator
