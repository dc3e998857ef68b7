import Calculator.Proofs.Inorder

/-!
Divisions by zero. A division fails in its own right when both operands have a value and that of the
divisor is zero; no such division lies inside an operand of another, and the evaluation ends in the
one that comes first in the text.
-/

namespace Calculator

namespace Expr

def Failing (e : Expr) : Prop :=
  ∃ position left right a b, e = binary .div position left right ∧
    left.evaluate.1 = .ok a ∧ right.evaluate.1 = .ok b ∧ b.isZero = true

theorem Failing.value_eq {e : Expr} (h : e.Failing) :
    e.value = .error (.divisionByZero e.position) := by
  obtain ⟨position, left, right, a, b, rfl, hleft, hright, hzero⟩ := h
  simp only [evaluate_eq] at hleft hright
  rw [value, hleft, hright]
  exact Operator.apply_eq_error_iff.2 ⟨rfl, hzero, rfl⟩

theorem value_binary_error {op : Operator} {position : Position} {left right : Expr}
    {error : EvalError} (h : (binary op position left right).value = .error error) :
    left.value = .error error ∨
      (∃ a, left.value = .ok a) ∧ right.value = .error error ∨
      (binary op position left right).Failing ∧ error = .divisionByZero position := by
  rw [value] at h
  cases hleft : left.value with
  | error error' =>
      rw [hleft] at h
      exact Or.inl h
  | ok a =>
      cases hright : right.value with
      | error error' =>
          rw [hleft, hright] at h
          exact Or.inr (Or.inl ⟨⟨a, rfl⟩, h⟩)
      | ok b =>
          rw [hleft, hright] at h
          obtain ⟨rfl, hzero, herror⟩ := Operator.apply_eq_error_iff.1 h
          refine Or.inr (Or.inr ⟨⟨position, left, right, a, b, rfl, ?_, ?_, hzero⟩, herror⟩)
          · rw [evaluate_eq, hleft]
          · rw [evaluate_eq, hright]

theorem value_error_of_mem {t e : Expr} {error : EvalError} (hmem : t ∈ e.subtrees)
    (h : t.value = .error error) : ∃ error', e.value = .error error' := by
  induction e with
  | literal value position =>
      obtain rfl := List.mem_singleton.1 hmem
      exact ⟨error, h⟩
  | binary op position left right ihl ihr =>
      rcases mem_subtrees_binary.1 hmem with rfl | hmem | hmem
      · exact ⟨error, h⟩
      · obtain ⟨error', hleft⟩ := ihl hmem
        exact ⟨error', by rw [value, hleft]⟩
      · obtain ⟨error', hright⟩ := ihr hmem
        rw [value, hright]
        cases left.value with
        | error first => exact ⟨first, rfl⟩
        | ok a => exact ⟨error', rfl⟩

theorem not_failing_of_value {t e : Expr} {a : Number} (hmem : t ∈ e.subtrees)
    (h : e.value = .ok a) : ¬t.Failing := by
  intro hfailing
  obtain ⟨error, herror⟩ := value_error_of_mem hmem hfailing.value_eq
  rw [h] at herror
  cases herror

theorem Failing.operands {op : Operator} {position : Position} {left right : Expr}
    (h : (binary op position left right).Failing) :
    (∃ a, left.value = .ok a) ∧ ∃ b, right.value = .ok b := by
  obtain ⟨position', left', right', a, b, heq, hleft, hright, -⟩ := h
  cases heq
  simp only [evaluate_eq] at hleft hright
  exact ⟨⟨a, hleft⟩, ⟨b, hright⟩⟩

structure FirstFailing (e t : Expr) : Prop where
  mem : t ∈ e.subtrees
  failing : t.Failing
  least : ∀ t' ∈ e.subtrees, t'.Failing → t' = t ∨ t.position < t'.position

namespace FirstFailing

variable {op : Operator} {position : Position} {left right t : Expr}

theorem of_left (h : FirstFailing left t)
    (hincreasing : (binary op position left right).Increasing) :
    FirstFailing (binary op position left right) t := by
  obtain ⟨-, -, hbetween⟩ := hincreasing.operands
  refine ⟨mem_subtrees_binary.2 (Or.inr (Or.inl h.mem)), h.failing, ?_⟩
  intro t' ht' hfailing
  rcases mem_subtrees_binary.1 ht' with rfl | ht' | ht'
  · obtain ⟨⟨a, ha⟩, -⟩ := hfailing.operands
    exact absurd h.failing (not_failing_of_value h.mem ha)
  · exact h.least t' ht' hfailing
  · exact Or.inr (hbetween t h.mem t' ht')

theorem of_right {a : Number} (h : FirstFailing right t) (hleft : left.value = .ok a) :
    FirstFailing (binary op position left right) t := by
  refine ⟨mem_subtrees_binary.2 (Or.inr (Or.inr h.mem)), h.failing, ?_⟩
  intro t' ht' hfailing
  rcases mem_subtrees_binary.1 ht' with rfl | ht' | ht'
  · obtain ⟨-, b, hb⟩ := hfailing.operands
    exact absurd h.failing (not_failing_of_value h.mem hb)
  · exact absurd hfailing (not_failing_of_value ht' hleft)
  · exact h.least t' ht' hfailing

theorem of_failing (h : (binary op position left right).Failing) :
    FirstFailing (binary op position left right) (binary op position left right) := by
  obtain ⟨⟨a, ha⟩, ⟨b, hb⟩⟩ := h.operands
  refine ⟨mem_subtrees _, h, ?_⟩
  intro t' ht' hfailing
  rcases mem_subtrees_binary.1 ht' with rfl | ht' | ht'
  · exact Or.inl rfl
  · exact absurd hfailing (not_failing_of_value ht' ha)
  · exact absurd hfailing (not_failing_of_value ht' hb)

end FirstFailing

theorem exists_firstFailing {e : Expr} {error : EvalError} (h : e.value = .error error)
    (hincreasing : e.Increasing) :
    ∃ t, e.FirstFailing t ∧ error = .divisionByZero t.position := by
  induction e generalizing error with
  | literal value position => cases h
  | binary op position left right ihl ihr =>
      obtain ⟨hincl, hincr, -⟩ := hincreasing.operands
      rcases value_binary_error h with hleft | ⟨⟨a, hleft⟩, hright⟩ | ⟨hself, rfl⟩
      · obtain ⟨t, ht, herror⟩ := ihl hleft hincl
        exact ⟨t, ht.of_left hincreasing, herror⟩
      · obtain ⟨t, ht, herror⟩ := ihr hright hincr
        exact ⟨t, ht.of_right hleft, herror⟩
      · exact ⟨_, .of_failing hself, rfl⟩

end Expr

theorem exists_firstFailing_of_evaluate {source : String} {e : Expr} {failure : Failure}
    (h : parse source = .ok e) (hfailure : evaluate source = .error failure) :
    ∃ t, e.FirstFailing t ∧ failure = .eval (.divisionByZero t.position) := by
  obtain ⟨error, herror, rfl⟩ := (evaluate_eq_error_iff h).1 hfailure
  obtain ⟨t, ht, rfl⟩ := Expr.exists_firstFailing herror (increasing_of_parse h)
  exact ⟨t, ht, rfl⟩

/-- A source that has a tree comes to a failure just when a division of the tree fails, and the
failure names the first of them. -/
theorem evaluate_leftmost_division {source : String} {e : Expr} (h : parse source = .ok e) :
    ((∃ failure, evaluate source = .error failure) ↔ ∃ t ∈ e.subtrees, t.Failing) ∧
      ∀ failure, evaluate source = .error failure →
        ∃ t ∈ e.subtrees, t.Failing ∧ failure = .eval (.divisionByZero t.position) ∧
          ∀ t' ∈ e.subtrees, t'.Failing → t' = t ∨ t.position < t'.position := by
  refine ⟨⟨?_, ?_⟩, ?_⟩
  · rintro ⟨failure, hfailure⟩
    obtain ⟨t, ht, -⟩ := exists_firstFailing_of_evaluate h hfailure
    exact ⟨t, ht.mem, ht.failing⟩
  · rintro ⟨t, ht, hfailing⟩
    obtain ⟨error, herror⟩ := Expr.value_error_of_mem ht hfailing.value_eq
    exact ⟨_, (evaluate_eq_error_iff h).2 ⟨error, herror, rfl⟩⟩
  · intro failure hfailure
    obtain ⟨t, ht, rfl⟩ := exists_firstFailing_of_evaluate h hfailure
    exact ⟨t, ht.mem, ht.failing, rfl, ht.least⟩

-- Both divisions fail; the first has its divisor in a group and stands on the second line.
theorem evaluate_leftmost_of_two :
    ∃ e, parse "(7\n\u3000-3) / (4 - 2*2) + 1 / 0" = .ok e ∧
      evaluate "(7\n\u3000-3) / (4 - 2*2) + 1 / 0" = .error (.eval (.divisionByZero ⟨2, 6⟩)) ∧
      ∃ t ∈ e.subtrees, t.Failing ∧ t.position = ⟨2, 6⟩ ∧
        ∀ t' ∈ e.subtrees, t'.Failing → t' = t ∨ t.position < t'.position := by
  have h : parse "(7\n\u3000-3) / (4 - 2*2) + 1 / 0" = .ok
      (.binary .add ⟨2, 18⟩
        (.binary .div ⟨2, 6⟩
          (.binary .sub ⟨2, 2⟩ (.literal 7 ⟨1, 2⟩) (.literal 3 ⟨2, 3⟩))
          (.binary .sub ⟨2, 11⟩ (.literal 4 ⟨2, 9⟩)
            (.binary .mul ⟨2, 14⟩ (.literal 2 ⟨2, 13⟩) (.literal 2 ⟨2, 15⟩))))
        (.binary .div ⟨2, 22⟩ (.literal 1 ⟨2, 20⟩) (.literal 0 ⟨2, 24⟩))) := by
    with_unfolding_all rfl
  have hevaluate : evaluate "(7\n\u3000-3) / (4 - 2*2) + 1 / 0" =
      .error (.eval (.divisionByZero ⟨2, 6⟩)) :=
    (evaluate_eq_error_iff h).2 ⟨_, by with_unfolding_all rfl, rfl⟩
  obtain ⟨t, ht, hfailing, hfailure, hleast⟩ := (evaluate_leftmost_division h).2 _ hevaluate
  injection hfailure with herror
  injection herror with hposition
  exact ⟨_, h, hevaluate, t, ht, hfailing, hposition.symm, hleast⟩

end Calculator
