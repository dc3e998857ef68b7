import Mathlib.Data.List.Forall2
import Mathlib.Data.List.Nodup
import Mathlib.Logic.Relation
import Calculator.Evaluation

/-!
The states of a machine on its way through a tree. At any time the operands at hand are just enough
for the tasks that are left, and so the machine never gets stuck; the nodes visited so far come in
the order of the tree, none of them twice.
-/

namespace Calculator

inductive Side where
  | left
  | right
deriving DecidableEq, Repr

abbrev Path := List Side

namespace Expr

def child? (side : Side) : Expr → Option Expr
  | literal _ _ => none
  | binary _ _ left right =>
      match side with
      | .left => some left
      | .right => some right

def at? : Path → Expr → Option Expr
  | [], e => some e
  | side :: path, e => (e.child? side).bind (at? path)

theorem at?_concat (path : Path) (side : Side) (e : Expr) :
    e.at? (path ++ [side]) = (e.at? path).bind (child? side) := by
  induction path generalizing e with
  | nil => cases h : e.child? side <;> simp [at?, h]
  | cons first path ih =>
      rw [List.cons_append, at?, at?, Option.bind_assoc]
      exact congrArg _ (funext ih)

theorem at?_of_child {e t t' : Expr} {path : Path} {side : Side} (h : e.at? path = some t)
    (hchild : t.child? side = some t') : e.at? (path ++ [side]) = some t' := by
  rw [at?_concat, h, Option.bind_some, hchild]

def nodes : Expr → List Path
  | literal _ _ => [[]]
  | binary _ _ left right => [] :: (left.nodes.map (.left :: ·) ++ right.nodes.map (.right :: ·))

theorem mem_nodes_iff {path : Path} {e : Expr} : path ∈ e.nodes ↔ (e.at? path).isSome := by
  induction e generalizing path with
  | literal value position =>
      cases path <;> simp [nodes, at?, child?]
  | binary op position left right ihl ihr =>
      rcases path with _ | ⟨side, path⟩
      · simp [nodes, at?]
      · cases side <;> simp [nodes, at?, child?, ihl, ihr]

theorem nodup_nodes (e : Expr) : e.nodes.Nodup := by
  induction e with
  | literal value position => exact List.nodup_singleton []
  | binary op position left right ihl ihr =>
      have hleft := ihl.map (List.cons_injective (a := Side.left))
      have hright := ihr.map (List.cons_injective (a := Side.right))
      rw [nodes, List.nodup_cons, List.nodup_append]
      refine ⟨by simp, hleft, hright, ?_⟩
      simp

def nodesFrom (e : Expr) (path : Path) : List Path :=
  ((e.at? path).elim [] nodes).map (path ++ ·)

def children (path : Path) : Expr → List Path
  | literal _ _ => []
  | binary _ _ _ _ => [path ++ [.left], path ++ [.right]]

theorem nodesFrom_root (e : Expr) : e.nodesFrom [] = e.nodes := by
  simp [nodesFrom, at?]

theorem nodesFrom_of_at? {e t : Expr} {path : Path} (h : e.at? path = some t) :
    e.nodesFrom path = path :: (t.children path).flatMap e.nodesFrom := by
  cases t with
  | literal value position => simp [nodesFrom, h, nodes, children]
  | binary op position left right =>
      have hleft : e.at? (path ++ [.left]) = some left := at?_of_child h rfl
      have hright : e.at? (path ++ [.right]) = some right := at?_of_child h rfl
      simp [nodesFrom, h, hleft, hright, nodes, children, Function.comp_def]

end Expr

namespace Task

def isVisit : Task → Bool
  | visit _ => true
  | apply _ _ => false

def isApply : Task → Bool
  | visit _ => false
  | apply _ _ => true

def tree? : Task → Option Expr
  | visit e => some e
  | apply _ _ => none

end Task

namespace Machine

/-- So many operands are just enough for the tasks: each finds what it takes, and one operand is left
in the end. -/
inductive Enough : Nat → List Task → Prop
  | done : Enough 1 []
  | visit {n : Nat} {e : Expr} {tasks : List Task} :
      Enough (n + 1) tasks → Enough n (.visit e :: tasks)
  | apply {n : Nat} {op : Operator} {position : Position} {tasks : List Task} :
      Enough (n + 1) tasks → Enough (n + 2) (.apply op position :: tasks)

namespace Enough

variable {n : Nat} {e : Expr} {op : Operator} {position : Position} {tasks : List Task}

theorem of_visit (h : Enough n (.visit e :: tasks)) : Enough (n + 1) tasks := by
  cases h with
  | visit htasks => exact htasks

theorem of_apply (h : Enough (n + 2) (.apply op position :: tasks)) : Enough (n + 1) tasks := by
  cases h with
  | apply htasks => exact htasks

theorem two_le (h : Enough n (.apply op position :: tasks)) : 2 ≤ n := by
  cases h with
  | apply _ => exact Nat.le_add_left 2 _

theorem eq_one (h : Enough n []) : n = 1 := by
  cases h with
  | done => rfl

theorem balance (h : Enough n tasks) :
    n + tasks.countP Task.isVisit = tasks.countP Task.isApply + 1 := by
  induction h with
  | done => rfl
  | visit _ ih =>
      simp only [List.countP_cons, Task.isVisit, Task.isApply, if_true, Bool.false_eq_true, if_false]
      omega
  | apply _ ih =>
      simp only [List.countP_cons, Task.isVisit, Task.isApply, if_true, Bool.false_eq_true, if_false]
      omega

end Enough

inductive Moves : Machine → Machine → Prop
  | literal (value : Int64) (position : Position) (tasks : List Task) (operands : List Number)
      (applied : List Application) :
      Moves ⟨.visit (.literal value position) :: tasks, operands, applied⟩
        ⟨tasks, .integer value :: operands, applied⟩
  | binary (op : Operator) (position : Position) (left right : Expr) (tasks : List Task)
      (operands : List Number) (applied : List Application) :
      Moves ⟨.visit (.binary op position left right) :: tasks, operands, applied⟩
        ⟨.visit left :: .visit right :: .apply op position :: tasks, operands, applied⟩
  | apply {op : Operator} {position : Position} {a b result : Number} (tasks : List Task)
      (operands : List Number) (applied : List Application) :
      op.apply a b position = .ok result →
        Moves ⟨.apply op position :: tasks, b :: a :: operands, applied⟩
          ⟨tasks, result :: operands, ⟨a, op, b, result⟩ :: applied⟩

theorem step_eq_more_iff {m m' : Machine} : m.step = .more m' ↔ Moves m m' := by
  constructor
  · intro h
    unfold step at h
    split at h
    next => cases h
    next =>
        cases h
        exact .literal _ _ _ _ _
    next =>
        cases h
        exact .binary _ _ _ _ _ _ _
    next =>
        split at h
        next happly =>
            cases h
            exact .apply _ _ _ happly
        next => cases h
    next => cases h
  · intro h
    cases h with
    | literal value position tasks operands applied => rfl
    | binary op position left right tasks operands applied => rfl
    | apply tasks operands applied happly => exact step_apply_ok happly tasks operands applied

theorem Moves.enough {m m' : Machine} (h : Moves m m') (hm : Enough m.operands.length m.tasks) :
    Enough m'.operands.length m'.tasks := by
  cases h with
  | literal value position tasks operands applied => exact hm.of_visit
  | binary op position left right tasks operands applied =>
      exact .visit (.visit (.apply hm.of_visit))
  | apply tasks operands applied happly => exact hm.of_apply

def Reaches : Machine → Machine → Prop := Relation.ReflTransGen fun m m' => m.step = .more m'

theorem enough_of_reaches {e : Expr} {m : Machine} (h : Reaches (start e) m) :
    Enough m.operands.length m.tasks := by
  induction h with
  | refl => exact .visit .done
  | tail _ hstep ih => exact (step_eq_more_iff.1 hstep).enough ih

theorem Enough.not_stuck {m : Machine} (h : Enough m.operands.length m.tasks) :
    m.step ≠ .halt .stuck := by
  obtain ⟨tasks, operands, applied⟩ := m
  intro hstuck
  -- wherever the machine would find too few operands, they are not enough for the tasks
  rcases tasks with _ | ⟨e | ⟨op, position⟩, tasks⟩
  · rcases operands with _ | ⟨number, operands⟩
    · cases h
    · cases hstuck
  · cases e <;> cases hstuck
  · rcases operands with _ | ⟨b, _ | ⟨a, operands⟩⟩
    · cases h
    · cases h
    · cases happly : op.apply a b position with
      | ok result =>
          rw [step_apply_ok happly] at hstuck
          cases hstuck
      | error error =>
          rw [step_apply_error happly] at hstuck
          cases hstuck

theorem reaches_halt (m : Machine) : ∃ m', Reaches m m' ∧ m'.step = .halt m.run.1 := by
  cases hstep : m.step with
  | halt answer =>
      rw [run_of_halt hstep]
      exact ⟨m, .refl, hstep⟩
  | more m' =>
      have hlt := work_step_lt hstep
      obtain ⟨m'', hreaches, hhalt⟩ := reaches_halt m'
      rw [run_of_more hstep]
      exact ⟨m'', .head hstep hreaches, hhalt⟩
termination_by m.work

theorem tasks_of_value {m : Machine} {number : Number} (h : m.step = .halt (.value number)) :
    m.tasks = [] := by
  unfold step at h
  split at h
  next => rfl
  next => cases h
  next => cases h
  next => split at h <;> cases h
  next => cases h

/-- A machine on its way through `e`, with the nodes that it has visited, in order, and those that
its tasks are still to visit. -/
inductive Walk (e : Expr) : List Path → List Path → Machine → Prop
  | start : Walk e [] [[]] (start e)
  | visit {visited waiting : List Path} {path : Path} {t : Expr} {m m' : Machine} :
      Walk e visited (path :: waiting) m → m.tasks.head? = some (.visit t) → m.step = .more m' →
        Walk e (visited ++ [path]) (t.children path ++ waiting) m'
  | apply {visited waiting : List Path} {op : Operator} {position : Position} {m m' : Machine} :
      Walk e visited waiting m → m.tasks.head? = some (.apply op position) → m.step = .more m' →
        Walk e visited waiting m'

def Located (e : Expr) (waiting : List Path) (tasks : List Task) : Prop :=
  List.Forall₂ (fun path t => e.at? path = some t) waiting (tasks.filterMap Task.tree?)

namespace Walk

variable {e : Expr} {visited waiting : List Path} {m m' : Machine}

theorem located (h : Walk e visited waiting m) : Located e waiting m.tasks := by
  -- what is taken off the tasks is at the first waiting node, and its children come in its place
  induction h with
  | start => exact .cons rfl .nil
  | @visit _ _ path _ _ _ _ hhead hstep ih =>
      cases step_eq_more_iff.1 hstep with
      | literal value position tasks operands applied =>
          cases hhead
          cases ih with
          | cons _ hrest => exact hrest
      | binary op position left right tasks operands applied =>
          cases hhead
          cases ih with
          | cons hpath hrest =>
              have hleft : e.at? (path ++ [.left]) = some left := Expr.at?_of_child hpath rfl
              have hright : e.at? (path ++ [.right]) = some right := Expr.at?_of_child hpath rfl
              exact .cons hleft (.cons hright hrest)
      | apply tasks operands applied happly => cases hhead
  | apply _ hhead hstep ih =>
      cases step_eq_more_iff.1 hstep with
      | literal value position tasks operands applied => cases hhead
      | binary op position left right tasks operands applied => cases hhead
      | apply tasks operands applied happly => exact ih

theorem at_head {path : Path} {t : Expr} (h : Walk e visited (path :: waiting) m)
    (hhead : m.tasks.head? = some (.visit t)) : e.at? path = some t := by
  obtain ⟨tasks, operands, applied⟩ := m
  obtain ⟨tasks, rfl⟩ := List.head?_eq_some_iff.1 hhead
  cases h.located with
  | cons hpath _ => exact hpath

theorem nodes (h : Walk e visited waiting m) :
    visited ++ waiting.flatMap e.nodesFrom = e.nodes := by
  induction h with
  | start => simp [Expr.nodesFrom_root]
  | visit hwalk hhead _ ih =>
      rw [← ih, List.flatMap_cons, Expr.nodesFrom_of_at? (hwalk.at_head hhead)]
      simp
  | apply _ _ _ ih => exact ih

theorem nodup (h : Walk e visited waiting m) : visited.Nodup := by
  have hnodup := e.nodup_nodes
  rw [← h.nodes] at hnodup
  exact hnodup.of_append_left

theorem mem_nodes (h : Walk e visited waiting m) : ∀ path ∈ visited, path ∈ e.nodes := by
  intro path hpath
  rw [← h.nodes]
  exact List.mem_append_left _ hpath

theorem visited_all (h : Walk e visited waiting m) (htasks : m.tasks = []) : visited = e.nodes := by
  have hlocated := h.located
  rw [htasks] at hlocated
  cases hlocated
  simpa using h.nodes

theorem exists_next (h : Walk e visited waiting m) (hstep : m.step = .more m') :
    ∃ visited' waiting', Walk e visited' waiting' m' := by
  have hlocated := h.located
  cases step_eq_more_iff.1 hstep with
  | literal value position tasks operands applied =>
      cases hlocated with
      | cons _ _ => exact ⟨_, _, .visit h rfl hstep⟩
  | binary op position left right tasks operands applied =>
      cases hlocated with
      | cons _ _ => exact ⟨_, _, .visit h rfl hstep⟩
  | apply tasks operands applied happly => exact ⟨_, _, .apply h rfl hstep⟩

end Walk

theorem exists_walk {e : Expr} {m : Machine} (h : Reaches (start e) m) :
    ∃ visited waiting, Walk e visited waiting m := by
  induction h with
  | refl => exact ⟨_, _, .start⟩
  | tail _ hstep ih =>
      obtain ⟨visited, waiting, hwalk⟩ := ih
      exact hwalk.exists_next hstep

theorem run_of_evaluate {e : Expr} {number : Number} (h : e.evaluate.1 = .ok number) :
    (start e).run.1 = .value number := by
  rw [Expr.evaluate_eq] at h
  rw [run_start, show e.value = .ok number from h]

theorem visits_once (e : Expr) :
    (∀ m, Reaches (start e) m →
      m.operands.length + m.tasks.countP Task.isVisit = m.tasks.countP Task.isApply + 1 ∧
      (∀ op position tasks, m.tasks = .apply op position :: tasks → 2 ≤ m.operands.length) ∧
      (m.tasks = [] → m.operands.length = 1) ∧
      m.step ≠ .halt .stuck ∧
      ∃ visited waiting, Walk e visited waiting m) ∧
    (∀ visited waiting m, Walk e visited waiting m →
      visited.Nodup ∧ (∀ path ∈ visited, (e.at? path).isSome) ∧ Located e waiting m.tasks) ∧
    ∃ m visited waiting, Reaches (start e) m ∧ Walk e visited waiting m ∧
      m.step = .halt (start e).run.1 ∧ (start e).run.1 ≠ .stuck ∧
      ∀ number, e.evaluate.1 = .ok number → ∀ path, path ∈ visited ↔ (e.at? path).isSome := by
  refine ⟨?_, ?_, ?_⟩
  · intro m hreaches
    have henough := enough_of_reaches hreaches
    refine ⟨henough.balance, ?_, ?_, henough.not_stuck, exists_walk hreaches⟩
    · intro op position tasks htasks
      exact (htasks ▸ henough).two_le
    · intro htasks
      exact (htasks ▸ henough).eq_one
  · intro visited waiting m hwalk
    refine ⟨hwalk.nodup, ?_, hwalk.located⟩
    intro path hpath
    exact Expr.mem_nodes_iff.1 (hwalk.mem_nodes path hpath)
  · obtain ⟨m, hreaches, hhalt⟩ := (start e).reaches_halt
    obtain ⟨visited, waiting, hwalk⟩ := exists_walk hreaches
    have hstuck := (enough_of_reaches hreaches).not_stuck
    refine ⟨m, visited, waiting, hreaches, hwalk, hhalt, fun h => hstuck (h ▸ hhalt), ?_⟩
    intro number hvalue path
    rw [run_of_evaluate hvalue] at hhalt
    rw [hwalk.visited_all (tasks_of_value hhalt)]
    exact Expr.mem_nodes_iff

end Machine

end Calculator
