import Calculator.Evaluation

/-!
The walk with tasks is the recursion on the tree. Whatever else is pending, a tree on top of the
tasks comes to the value that the recursion gives it, or ends the walk with its error.
-/

namespace Calculator

namespace Expr

theorem value_binary (op : Operator) (position : Position) (left right : Expr) :
    (binary op position left right).value =
      left.value.bind fun a => right.value.bind fun b => op.apply a b position := by
  rw [value]
  cases left.value with
  | error error => rfl
  | ok a => cases right.value <;> rfl

theorem run_visit_eq_evaluate (e : Expr) (tasks : List Task) (operands : List Number)
    (applied : List Application) :
    Machine.run ⟨.visit e :: tasks, operands, applied⟩ =
      match e.evaluate with
      | (.ok number, log) => Machine.run ⟨tasks, number :: operands, log.reverse ++ applied⟩
      | (.error error, log) => (.failed error, log.reverse ++ applied) := by
  rw [Machine.run_visit, evaluate_eq]
  cases e.value <;> rfl

theorem evaluate_recursive :
    (∀ e : Expr, e.evaluate.1 = e.value) ∧
      (∀ value position, (literal value position).evaluate.1 = .ok (.integer value)) ∧
      (∀ op position left right,
        (binary op position left right).evaluate.1 =
          left.evaluate.1.bind fun a => right.evaluate.1.bind fun b => op.apply a b position) ∧
      ∀ (e : Expr) (tasks : List Task) (operands : List Number) (applied : List Application),
        Machine.run ⟨.visit e :: tasks, operands, applied⟩ =
          match e.evaluate with
          | (.ok number, log) => Machine.run ⟨tasks, number :: operands, log.reverse ++ applied⟩
          | (.error error, log) => (.failed error, log.reverse ++ applied) := by
  have hvalue : ∀ e : Expr, e.evaluate.1 = e.value := fun e => congrArg Prod.fst e.evaluate_eq
  refine ⟨hvalue, ?_, ?_, run_visit_eq_evaluate⟩
  · intro value position
    exact hvalue _
  · intro op position left right
    rw [hvalue, hvalue, hvalue]
    exact value_binary op position left right

end Expr

end Calculator
