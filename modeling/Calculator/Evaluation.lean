import Calculator.Number
import Calculator.Expr.Basic

/-!
The value of an expression. `value` and `applications` follow the tree; the machine keeps what is
still to be done in a list of tasks and what has been computed in a list of operands, so that no
depth is too great for it. `run_visit` says what a run does with a tree, whatever else is pending,
and hence that a run on a tree never gets stuck.
-/

namespace Calculator

structure Application where
  left : Number
  op : Operator
  right : Number
  result : Number

namespace Expr

def value : Expr → Except EvalError Number
  | literal value _ => .ok (.integer value)
  | binary op position left right =>
      match left.value with
      | .error error => .error error
      | .ok a =>
          match right.value with
          | .error error => .error error
          | .ok b => op.apply a b position

/-- The operators applied on the way to the value, in order, up to the first that fails. -/
def applications : Expr → List Application
  | literal _ _ => []
  | binary op position left right =>
      match left.value with
      | .error _ => left.applications
      | .ok a =>
          match right.value with
          | .error _ => left.applications ++ right.applications
          | .ok b =>
              match op.apply a b position with
              | .error _ => left.applications ++ right.applications
              | .ok result => left.applications ++ right.applications ++ [⟨a, op, b, result⟩]

end Expr

inductive Task where
  | visit (e : Expr)
  | apply (op : Operator) (position : Position)

namespace Task

def weight : Task → Nat
  | visit e => 2 * e.size
  | apply _ _ => 1

def weights : List Task → Nat
  | [] => 0
  | task :: tasks => task.weight + weights tasks

end Task

/-- What is to be done next, first task first, the operands found so far, latest first, and the
operators applied so far, latest first. -/
structure Machine where
  tasks : List Task
  operands : List Number
  applied : List Application

inductive Answer where
  | value (number : Number)
  | failed (error : EvalError)
  | stuck

inductive Progress where
  | more (machine : Machine)
  | halt (answer : Answer)

namespace Machine

def start (e : Expr) : Machine := ⟨[.visit e], [], []⟩

def step : Machine → Progress
  | ⟨[], number :: _, _⟩ => .halt (.value number)
  | ⟨.visit (.literal value _) :: tasks, operands, applied⟩ =>
      .more ⟨tasks, .integer value :: operands, applied⟩
  | ⟨.visit (.binary op position left right) :: tasks, operands, applied⟩ =>
      .more ⟨.visit left :: .visit right :: .apply op position :: tasks, operands, applied⟩
  | ⟨.apply op position :: tasks, b :: a :: operands, applied⟩ =>
      match op.apply a b position with
      | .ok result => .more ⟨tasks, result :: operands, ⟨a, op, b, result⟩ :: applied⟩
      | .error error => .halt (.failed error)
  | _ => .halt .stuck

theorem step_binary (op : Operator) (position : Position) (left right : Expr) (tasks : List Task)
    (operands : List Number) (applied : List Application) :
    step ⟨.visit (.binary op position left right) :: tasks, operands, applied⟩ =
      .more ⟨.visit left :: .visit right :: .apply op position :: tasks, operands, applied⟩ := rfl

theorem step_apply_ok {op : Operator} {position : Position} {a b result : Number}
    (h : op.apply a b position = .ok result) (tasks : List Task) (operands : List Number)
    (applied : List Application) :
    step ⟨.apply op position :: tasks, b :: a :: operands, applied⟩ =
      .more ⟨tasks, result :: operands, ⟨a, op, b, result⟩ :: applied⟩ := by
  simp [step, h]

theorem step_apply_error {op : Operator} {position : Position} {a b : Number} {error : EvalError}
    (h : op.apply a b position = .error error) (tasks : List Task) (operands : List Number)
    (applied : List Application) :
    step ⟨.apply op position :: tasks, b :: a :: operands, applied⟩ = .halt (.failed error) := by
  simp [step, h]

def work (m : Machine) : Nat := Task.weights m.tasks

theorem work_step_lt {m m' : Machine} (h : m.step = .more m') : m'.work < m.work := by
  unfold step at h
  split at h
  next => cases h
  next =>
      cases h
      simp only [work, Task.weights, Task.weight, Expr.size]
      omega
  next =>
      cases h
      simp only [work, Task.weights, Task.weight, Expr.size]
      omega
  next =>
      split at h
      next =>
          cases h
          simp only [work, Task.weights, Task.weight]
          omega
      next => cases h
  next => cases h

def run (m : Machine) : Answer × List Application :=
  match _h : m.step with
  | .more m' => run m'
  | .halt answer => (answer, m.applied)
termination_by m.work
decreasing_by exact work_step_lt _h

theorem run_of_more {m m' : Machine} (h : m.step = .more m') : m.run = m'.run := by
  rw [run]
  split
  next h' =>
      rw [h] at h'
      cases h'
      rfl
  next h' =>
      rw [h] at h'
      cases h'

theorem run_of_halt {m : Machine} {answer : Answer} (h : m.step = .halt answer) :
    m.run = (answer, m.applied) := by
  rw [run]
  split
  next h' =>
      rw [h] at h'
      cases h'
  next h' =>
      rw [h] at h'
      cases h'
      rfl

theorem run_visit (e : Expr) (tasks : List Task) (operands : List Number)
    (applied : List Application) :
    run ⟨.visit e :: tasks, operands, applied⟩ =
      match e.value with
      | .ok number => run ⟨tasks, number :: operands, e.applications.reverse ++ applied⟩
      | .error error => (.failed error, e.applications.reverse ++ applied) := by
  induction e generalizing tasks operands applied with
  | literal value position => exact run_of_more rfl
  | binary op position left right ihl ihr =>
      rw [run_of_more (step_binary op position left right tasks operands applied), ihl]
      cases hl : left.value with
      | error error => simp [Expr.value, Expr.applications, hl]
      | ok a =>
          simp only
          rw [ihr]
          cases hr : right.value with
          | error error => simp [Expr.value, Expr.applications, hl, hr]
          | ok b =>
              simp only
              cases happly : op.apply a b position with
              | error error =>
                  rw [run_of_halt (step_apply_error happly tasks operands _)]
                  simp [Expr.value, Expr.applications, hl, hr, happly]
              | ok result =>
                  rw [run_of_more (step_apply_ok happly tasks operands _)]
                  simp [Expr.value, Expr.applications, hl, hr, happly]

theorem run_start (e : Expr) :
    (start e).run =
      match e.value with
      | .ok number => (.value number, e.applications.reverse)
      | .error error => (.failed error, e.applications.reverse) := by
  rw [start, run_visit]
  cases e.value with
  | error error => simp
  | ok number =>
      rw [List.append_nil]
      exact run_of_halt rfl

theorem run_start_ne_stuck (e : Expr) : (start e).run.1 ≠ .stuck := by
  rw [run_start]
  cases e.value <;> exact Answer.noConfusion

end Machine

def Answer.result : (answer : Answer) → answer ≠ .stuck → Except EvalError Number
  | .value number, _ => .ok number
  | .failed error, _ => .error error
  | .stuck, h => absurd rfl h

namespace Expr

def evaluate (e : Expr) : Except EvalError Number × List Application :=
  let run := (Machine.start e).run
  (run.1.result (Machine.run_start_ne_stuck e), run.2.reverse)

theorem evaluate_eq (e : Expr) : e.evaluate = (e.value, e.applications) := by
  cases hvalue : e.value with
  | error error =>
      have hrun : (Machine.start e).run = (.failed error, e.applications.reverse) := by
        rw [Machine.run_start, hvalue]
      simp only [evaluate, hrun, List.reverse_reverse]
      rfl
  | ok number =>
      have hrun : (Machine.start e).run = (.value number, e.applications.reverse) := by
        rw [Machine.run_start, hvalue]
      simp only [evaluate, hrun, List.reverse_reverse]
      rfl

end Expr

end Calculator
