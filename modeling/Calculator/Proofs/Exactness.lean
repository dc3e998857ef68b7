import Calculator.Evaluation

/-!
The value of an expression against exact arithmetic. It is a whole number exactly if the rational
value of every subtree is one and fits a word; a double anywhere in the tree comes from a subtree
for which this fails.
-/

namespace Calculator

namespace Operator

def rational? : Operator → Rat → Rat → Option Rat
  | add, a, b => some (a + b)
  | sub, a, b => some (a - b)
  | mul, a, b => some (a * b)
  | div, a, b => if b = 0 then none else some (a / b)

theorem rational?_div_eq_some_iff {a b c : Rat} :
    div.rational? a b = some c ↔ b ≠ 0 ∧ a = c * b := by
  simp only [rational?]
  split
  next hb => simp [hb]
  next hb =>
      rw [Option.some.injEq]
      constructor
      · rintro rfl
        exact ⟨hb, (Rat.div_mul_cancel hb).symm⟩
      · rintro ⟨-, rfl⟩
        exact Rat.mul_div_cancel hb

theorem rational?_eq_some_iff {op : Operator} {a b c : Int} :
    op.rational? a b = some (c : Rat) ↔ op.whole? a b = some c := by
  cases op with
  | add =>
      simp only [rational?, whole?, Option.some.injEq]
      rw [← Rat.intCast_add, Rat.intCast_inj]
  | sub =>
      simp only [rational?, whole?, Option.some.injEq]
      rw [← Rat.intCast_sub, Rat.intCast_inj]
  | mul =>
      simp only [rational?, whole?, Option.some.injEq]
      rw [← Rat.intCast_mul, Rat.intCast_inj]
  | div =>
      rw [whole?_div_eq_some_iff, rational?_div_eq_some_iff, ← Rat.intCast_mul, Rat.intCast_inj,
        ne_eq, Rat.intCast_eq_zero_iff]

-- The check for a zero divisor comes before the operands are looked at, but a quotient of whole
-- numbers that is whole has passed it.
theorem apply_eq_integer_iff {op : Operator} {left right : Number} {position : Position}
    {value : Int64} :
    op.apply left right position = .ok (.integer value) ↔
      ∃ a b, left = .integer a ∧ right = .integer b ∧
        op.rational? a.toInt b.toInt = some (value.toInt : Rat) := by
  simp only [rational?_eq_some_iff]
  rw [← combine_eq_integer_iff, apply]
  split
  next h =>
      obtain ⟨rfl, hzero⟩ := h
      constructor
      · intro h
        cases h
      · intro h
        obtain ⟨a, b, -, rfl, hquotient⟩ := combine_eq_integer_iff.1 h
        obtain ⟨hb, -⟩ := whole?_div_eq_some_iff.1 hquotient
        have hb' : b = 0 := by simpa [Number.isZero] using hzero
        exact absurd (congrArg Int64.toInt hb') hb
  next h => rw [Except.ok.injEq]

end Operator

namespace Expr

def rational? : Expr → Option Rat
  | literal value _ => some value.toInt
  | binary op _ left right => left.rational?.bind fun a => right.rational?.bind (op.rational? a)

def subtrees : Expr → List Expr
  | literal value position => [literal value position]
  | binary op position left right =>
      binary op position left right :: (left.subtrees ++ right.subtrees)

theorem mem_subtrees_binary {op : Operator} {position : Position} {left right t : Expr} :
    t ∈ (binary op position left right).subtrees ↔
      t = binary op position left right ∨ t ∈ left.subtrees ∨ t ∈ right.subtrees := by
  rw [subtrees, List.mem_cons, List.mem_append]

theorem mem_subtrees (e : Expr) : e ∈ e.subtrees := by
  cases e with
  | literal value position => simp [subtrees]
  | binary op position left right => simp [subtrees]

def Fits (e : Expr) : Prop :=
  ∃ m : Int, e.rational? = some (m : Rat) ∧ -9223372036854775808 ≤ m ∧ m ≤ 9223372036854775807

theorem fits_iff {e : Expr} : e.Fits ↔ ∃ w : Int64, e.rational? = some (w.toInt : Rat) := by
  constructor
  · rintro ⟨m, hm, hlow, hhigh⟩
    refine ⟨Int64.ofInt m, ?_⟩
    rw [hm, Int64.toInt_ofInt_of_le hlow (by omega)]
  · rintro ⟨w, hw⟩
    exact ⟨w.toInt, hw, w.le_toInt, Int.le_of_lt_add_one w.toInt_lt⟩

theorem value_binary_eq_integer_iff {op : Operator} {position : Position} {left right : Expr}
    {n : Int64} :
    (binary op position left right).value = .ok (.integer n) ↔
      ∃ a b : Int64, left.value = .ok (.integer a) ∧ right.value = .ok (.integer b) ∧
        op.rational? a.toInt b.toInt = some (n.toInt : Rat) := by
  simp only [value]
  cases hl : left.value with
  | error error => simp
  | ok a =>
      cases hr : right.value with
      | error error => simp
      | ok b => simp [Operator.apply_eq_integer_iff]

theorem rational?_binary (op : Operator) (position : Position) {left right : Expr} {a b : Rat}
    (hl : left.rational? = some a) (hr : right.rational? = some b) :
    (binary op position left right).rational? = op.rational? a b := by
  simp [rational?, hl, hr]

theorem value_eq_integer_iff {e : Expr} {n : Int64} :
    e.value = .ok (.integer n) ↔
      (∀ t ∈ e.subtrees, t.Fits) ∧ e.rational? = some (n.toInt : Rat) := by
  induction e generalizing n with
  | literal value position =>
      have hfits : (literal value position).Fits := fits_iff.2 ⟨value, rfl⟩
      simp [Expr.value, subtrees, rational?, hfits, Int64.toInt_inj]
  | binary op position left right ihl ihr =>
      rw [value_binary_eq_integer_iff]
      constructor
      · rintro ⟨a, b, hl, hr, hop⟩
        obtain ⟨hfitsl, hl⟩ := ihl.1 hl
        obtain ⟨hfitsr, hr⟩ := ihr.1 hr
        have hvalue := (rational?_binary op position hl hr).trans hop
        refine ⟨?_, hvalue⟩
        intro t ht
        rcases mem_subtrees_binary.1 ht with rfl | ht | ht
        · exact fits_iff.2 ⟨n, hvalue⟩
        · exact hfitsl t ht
        · exact hfitsr t ht
      · rintro ⟨hfits, hvalue⟩
        have hfitsl : ∀ t ∈ left.subtrees, t.Fits := fun t ht =>
          hfits t (mem_subtrees_binary.2 (Or.inr (Or.inl ht)))
        have hfitsr : ∀ t ∈ right.subtrees, t.Fits := fun t ht =>
          hfits t (mem_subtrees_binary.2 (Or.inr (Or.inr ht)))
        obtain ⟨a, ha⟩ := fits_iff.1 (hfitsl left left.mem_subtrees)
        obtain ⟨b, hb⟩ := fits_iff.1 (hfitsr right right.mem_subtrees)
        rw [rational?_binary op position ha hb] at hvalue
        exact ⟨a, b, ihl.2 ⟨hfitsl, ha⟩, ihr.2 ⟨hfitsr, hb⟩, hvalue⟩

theorem evaluate_exact (e : Expr) :
    (∀ n : Int64, e.evaluate.1 = .ok (.integer n) ↔
      (∀ t ∈ e.subtrees, t.Fits) ∧ e.rational? = some (n.toInt : Rat)) ∧
    ∀ x : Float, e.evaluate.1 = .ok (.real x) → ∃ t ∈ e.subtrees, ¬ t.Fits := by
  simp only [evaluate_eq]
  constructor
  · intro n
    exact value_eq_integer_iff
  · intro x hx
    apply Classical.byContradiction
    intro hnone
    have hfits : ∀ t ∈ e.subtrees, t.Fits := fun t ht =>
      Classical.byContradiction fun h => hnone ⟨t, ht, h⟩
    obtain ⟨n, hn⟩ := fits_iff.1 (hfits e e.mem_subtrees)
    have hinteger := value_eq_integer_iff.2 ⟨hfits, hn⟩
    rw [hx] at hinteger
    cases hinteger

end Expr

end Calculator
