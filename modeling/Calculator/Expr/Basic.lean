import Calculator.Position
import Calculator.Operator

/-!
Expressions. Two of them are compared with a list of the pairs still to be compared, so that a tree
of any depth can be; `sameAll_iff` says that this decides equality.
-/

namespace Calculator

/-- A literal stands at its first digit and a binary expression at its operator. -/
inductive Expr where
  | literal (value : Int64) (position : Position)
  | binary (op : Operator) (position : Position) (left right : Expr)
deriving Repr

namespace Expr

def position : Expr → Position
  | literal _ position => position
  | binary _ position _ _ => position

def size : Expr → Nat
  | literal _ _ => 1
  | binary _ _ left right => left.size + right.size + 1

def firstSizes : List (Expr × Expr) → Nat
  | [] => 0
  | (first, _) :: pairs => first.size + firstSizes pairs

def sameAll : List (Expr × Expr) → Bool
  | [] => true
  | (literal value position, literal value' position') :: pairs =>
      if value = value' ∧ position = position' then sameAll pairs else false
  | (literal _ _, binary _ _ _ _) :: _ => false
  | (binary _ _ _ _, literal _ _) :: _ => false
  | (binary op position left right, binary op' position' left' right') :: pairs =>
      if op = op' ∧ position = position' then
        sameAll ((left, left') :: (right, right') :: pairs)
      else false
termination_by pairs => firstSizes pairs
decreasing_by
  all_goals simp only [firstSizes, size]
  all_goals omega

theorem sameAll_iff {pairs : List (Expr × Expr)} :
    sameAll pairs = true ↔ ∀ pair ∈ pairs, pair.1 = pair.2 := by
  fun_induction sameAll pairs with
  | case1 => simp
  | case2 value position value' position' pairs h ih => simp [ih, h]
  | case3 value position value' position' pairs h => simp [h]
  | case4 => simp
  | case5 => simp
  | case6 op position left right op' position' left' right' pairs h ih =>
      simp [ih, h, and_assoc]
  | case7 op position left right op' position' left' right' pairs h =>
      simp
      intro hop hposition
      exact absurd ⟨hop, hposition⟩ h

instance : DecidableEq Expr := fun a b =>
  decidable_of_iff (sameAll [(a, b)] = true) (by simp [sameAll_iff])

end Expr

end Calculator
