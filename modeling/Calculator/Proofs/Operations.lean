import Mathlib.Data.List.Forall2
import Calculator.Proofs.Division
import Calculator.Proofs.Log

/-!
The operators in the log of a calculation. They are the operations of the tree in post-order, each
with the values of its operands and its own, up to the division that fails.
-/

namespace Calculator

namespace Expr

def operations : Expr → List Expr
  | literal _ _ => []
  | binary op position left right =>
      left.operations ++ right.operations ++ [binary op position left right]

inductive Performed : Expr → Application → Prop
  | intro {op : Operator} {position : Position} {left right : Expr} {a b result : Number} :
      left.value = .ok a → right.value = .ok b →
        (binary op position left right).value = .ok result →
          Performed (binary op position left right) ⟨a, op, b, result⟩

section

variable {op : Operator} {position : Position} {left right : Expr} {a b : Number}

theorem value_of_operands (hleft : left.value = .ok a) (hright : right.value = .ok b) :
    (binary op position left right).value = op.apply a b position := by
  rw [value, hleft, hright]

theorem applications_of_left {error : EvalError} (hleft : left.value = .error error) :
    (binary op position left right).applications = left.applications := by
  rw [applications, hleft]

theorem applications_of_right {error : EvalError} (hleft : left.value = .ok a)
    (hright : right.value = .error error) :
    (binary op position left right).applications = left.applications ++ right.applications := by
  rw [applications, hleft, hright]

theorem applications_of_failing (h : (binary op position left right).Failing) :
    (binary op position left right).applications = left.applications ++ right.applications := by
  obtain ⟨⟨a, hleft⟩, ⟨b, hright⟩⟩ := h.operands
  have hfails := h.value_eq
  rw [value_of_operands hleft hright] at hfails
  simp only [applications, hleft, hright, hfails]

theorem applications_of_performed {result : Number} (hleft : left.value = .ok a)
    (hright : right.value = .ok b) (h : (binary op position left right).value = .ok result) :
    (binary op position left right).applications =
      left.applications ++ right.applications ++ [⟨a, op, b, result⟩] := by
  rw [value_of_operands hleft hright] at h
  simp only [applications, hleft, hright, h]

theorem exists_operands {result : Number}
    (h : (binary op position left right).value = .ok result) :
    (∃ a, left.value = .ok a) ∧ ∃ b, right.value = .ok b := by
  rw [value] at h
  cases hleft : left.value with
  | error error =>
      rw [hleft] at h
      cases h
  | ok a =>
      cases hright : right.value with
      | error error =>
          rw [hleft, hright] at h
          cases h
      | ok b => exact ⟨⟨a, rfl⟩, ⟨b, rfl⟩⟩

end

theorem performed_all {e : Expr} {result : Number} (h : e.value = .ok result) :
    List.Forall₂ Performed e.operations e.applications := by
  induction e generalizing result with
  | literal value position => exact .nil
  | binary op position left right ihl ihr =>
      obtain ⟨⟨a, hleft⟩, ⟨b, hright⟩⟩ := exists_operands h
      rw [applications_of_performed hleft hright h]
      exact List.rel_append (List.rel_append (ihl hleft) (ihr hright))
        (.cons (.intro hleft hright h) .nil)

theorem performed_before_failing {e : Expr} {error : EvalError} (h : e.value = .error error) :
    ∃ told t rest, e.operations = told ++ t :: rest ∧
      List.Forall₂ Performed told e.applications ∧ t.Failing ∧
      error = .divisionByZero t.position := by
  induction e generalizing error with
  | literal value position => cases h
  | binary op position left right ihl ihr =>
      rcases value_binary_error h with hleft | ⟨⟨a, hleft⟩, hright⟩ | ⟨hself, rfl⟩
      · obtain ⟨told, t, rest, hoperations, htold, hfailing, herror⟩ := ihl hleft
        rw [applications_of_left hleft]
        refine ⟨told, t, rest ++ (right.operations ++ [binary op position left right]), ?_, htold,
          hfailing, herror⟩
        simp only [operations, hoperations, List.append_assoc, List.cons_append]
      · obtain ⟨told, t, rest, hoperations, htold, hfailing, herror⟩ := ihr hright
        rw [applications_of_right hleft hright]
        refine ⟨left.operations ++ told, t, rest ++ [binary op position left right], ?_,
          List.rel_append (performed_all hleft) htold, hfailing, herror⟩
        simp only [operations, hoperations, List.append_assoc, List.cons_append]
      · obtain ⟨⟨a, hleft⟩, ⟨b, hright⟩⟩ := hself.operands
        rw [applications_of_failing hself]
        exact ⟨left.operations ++ right.operations, _, [], rfl,
          List.rel_append (performed_all hleft) (performed_all hright), hself, rfl⟩

theorem result_of_last {e : Expr} {result : Number} (h : e.value = .ok result) :
    ∀ last ∈ e.applications.getLast?, last.result = result := by
  cases e with
  | literal value position => simp [applications]
  | binary op position left right =>
      obtain ⟨⟨a, hleft⟩, ⟨b, hright⟩⟩ := exists_operands h
      rw [applications_of_performed hleft hright h]
      simp

theorem length_operations (e : Expr) :
    e.operations.length = e.inorder.countP fun l => l.token.operator?.isSome := by
  induction e with
  | literal value position => rfl
  | binary op position left right ihl ihr =>
      have hop : (Token.operator op).operator?.isSome = true := rfl
      simp only [operations, inorder, List.length_append, List.countP_append, List.countP_cons, ihl,
        ihr, hop, List.length_singleton, if_true]
      omega

end Expr

theorem Lexeme.inTree_of_operator {l : Lexeme} (h : l.token.operator?.isSome = true) :
    l.inTree = true := by
  obtain ⟨op, hop⟩ := Option.isSome_iff_exists.1 h
  have htoken := Token.operator?_eq_some_iff.1 hop
  simp [inTree, kind, htoken, Token.kind]

theorem length_operations_of_parse {source : String} {e : Expr} (h : parse source = .ok e) :
    ∃ lexemes, (Scanner.ofString source).tokenize = .ok lexemes ∧
      e.operations.length = lexemes.countP fun l => l.token.operator?.isSome := by
  obtain ⟨lexemes, position, hscan, -⟩ := parse_eq_ok_iff_scan.1 h
  have hinorder := inorder_of_parse h
  rw [hscan] at hinorder
  refine ⟨lexemes ++ [⟨.endOfInput, position⟩], ?_, ?_⟩
  · exact Scanner.tokenize_eq_ok_iff.2 ⟨congrArg Scan.lexemes hscan, congrArg Scan.ending hscan⟩
  · rw [e.length_operations, hinorder, List.countP_filter, List.countP_append]
    have hend : ([⟨.endOfInput, position⟩] : List Lexeme).countP
        (fun l => l.token.operator?.isSome) = 0 := rfl
    rw [hend, Nat.add_zero]
    apply List.countP_congr
    intro l _
    simpa using Lexeme.inTree_of_operator

def operationLog (source : String) : List Event :=
  (calculate source).2.filter fun event => event.message = "applied operator"

theorem filter_told_otherwise {α : Type} {tell : α → Event}
    (h : ∀ a, (tell a).message ≠ "applied operator") (told : List α) :
    (told.map tell).filter (fun event => event.message = "applied operator") = [] := by
  apply List.filter_eq_nil_iff.2
  intro event hevent
  obtain ⟨a, -, rfl⟩ := List.mem_map.1 hevent
  simpa using h a

theorem operationLog_of_parse {source : String} {e : Expr} (h : parse source = .ok e) :
    operationLog source = e.applications.map .applied := by
  have hscanned := @filter_told_otherwise _ Event.scanned (by simp [Event.message])
  have hfinished := @filter_told_otherwise _ Event.finished (by simp [Event.message])
  have happlied : (e.applications.map Event.applied).filter
      (fun event => event.message = "applied operator") = e.applications.map .applied := by
    simp [Event.message]
  rw [operationLog, log_eq, h, List.filter_cons_of_neg (by simp [Event.message]),
    List.filter_append, List.filter_append, hscanned, hfinished, List.append_nil]
  exact happlied

def Event.Tells (t : Expr) (event : Event) : Prop :=
  ∃ op position left right a b result, t = .binary op position left right ∧
    left.evaluate.1 = .ok a ∧ right.evaluate.1 = .ok b ∧ t.evaluate.1 = .ok result ∧
    event.entry = ("TRACE", "applied operator",
      [("left", a.text), ("op", op.text), ("right", b.text), ("result", result.text)])

theorem Expr.Performed.tells {t : Expr} {application : Application}
    (h : t.Performed application) : Event.Tells t (.applied application) := by
  obtain ⟨hleft, hright, hself⟩ := h
  refine ⟨_, _, _, _, _, _, _, rfl, ?_, ?_, ?_, rfl⟩
  · rw [evaluate_eq, hleft]
  · rw [evaluate_eq, hright]
  · rw [evaluate_eq, hself]

theorem tells_applied {told : List Expr} {applications : List Application}
    (h : List.Forall₂ Expr.Performed told applications) :
    List.Forall₂ Event.Tells told (applications.map .applied) := by
  rw [List.forall₂_map_right_iff]
  exact h.imp fun _ _ => Expr.Performed.tells

theorem calculate_operations {source : String} {e : Expr} (h : parse source = .ok e) :
    (∀ value, evaluate source = .ok value →
      List.Forall₂ Event.Tells e.operations (operationLog source) ∧
      (∃ lexemes, (Scanner.ofString source).tokenize = .ok lexemes ∧
        (operationLog source).length = lexemes.countP fun l => l.token.operator?.isSome) ∧
      ∀ last ∈ (operationLog source).getLast?,
        last.fields.getLast? = some ("result", value.text)) ∧
    ∀ failure, evaluate source = .error failure →
      ∃ told t rest, e.operations = told ++ t :: rest ∧
        List.Forall₂ Event.Tells told (operationLog source) ∧ t.Failing ∧
        failure = .eval (.divisionByZero t.position) := by
  rw [operationLog_of_parse h]
  refine ⟨?_, ?_⟩
  · intro value hvalue
    obtain ⟨e', hparse, hresult⟩ := evaluate_eq_ok_iff.1 hvalue
    obtain rfl := Except.ok.inj (h.symm.trans hparse)
    have hall := Expr.performed_all hresult
    obtain ⟨lexemes, htokenize, hcount⟩ := length_operations_of_parse h
    refine ⟨tells_applied hall, ⟨lexemes, htokenize, ?_⟩, ?_⟩
    · rw [List.length_map, ← hall.length_eq, hcount]
    · intro last hlast
      rw [List.getLast?_map] at hlast
      obtain ⟨application, hmem, rfl⟩ := Option.map_eq_some_iff.1 hlast
      rw [← Expr.result_of_last hresult application hmem]
      rfl
  · intro failure hfailure
    obtain ⟨error, herror, rfl⟩ := (evaluate_eq_error_iff h).1 hfailure
    obtain ⟨told, t, rest, hoperations, htold, hfailing, rfl⟩ :=
      Expr.performed_before_failing herror
    exact ⟨told, t, rest, hoperations, tells_applied htold, hfailing, rfl⟩

-- Five operations are told before the one that fails, and two are left behind it.
theorem calculate_operations_failing :
    ∃ e, parse "8/4 - (3-3)*2 +\n 6/(1-1)*5" = .ok e ∧
      evaluate "8/4 - (3-3)*2 +\n 6/(1-1)*5" = .error (.eval (.divisionByZero ⟨2, 3⟩)) ∧
      e.operations.map Expr.position =
        [⟨1, 2⟩, ⟨1, 9⟩, ⟨1, 12⟩, ⟨1, 5⟩, ⟨2, 6⟩, ⟨2, 3⟩, ⟨2, 9⟩, ⟨1, 15⟩] ∧
      ∃ told t rest, e.operations = told ++ t :: rest ∧
        List.Forall₂ Event.Tells told (operationLog "8/4 - (3-3)*2 +\n 6/(1-1)*5") ∧ t.Failing ∧
        t.position = ⟨2, 3⟩ := by
  have h : parse "8/4 - (3-3)*2 +\n 6/(1-1)*5" = .ok
      (.binary .add ⟨1, 15⟩
        (.binary .sub ⟨1, 5⟩
          (.binary .div ⟨1, 2⟩ (.literal 8 ⟨1, 1⟩) (.literal 4 ⟨1, 3⟩))
          (.binary .mul ⟨1, 12⟩
            (.binary .sub ⟨1, 9⟩ (.literal 3 ⟨1, 8⟩) (.literal 3 ⟨1, 10⟩)) (.literal 2 ⟨1, 13⟩)))
        (.binary .mul ⟨2, 9⟩
          (.binary .div ⟨2, 3⟩ (.literal 6 ⟨2, 2⟩)
            (.binary .sub ⟨2, 6⟩ (.literal 1 ⟨2, 5⟩) (.literal 1 ⟨2, 7⟩)))
          (.literal 5 ⟨2, 10⟩))) := by
    with_unfolding_all rfl
  have hevaluate : evaluate "8/4 - (3-3)*2 +\n 6/(1-1)*5" =
      .error (.eval (.divisionByZero ⟨2, 3⟩)) :=
    (evaluate_eq_error_iff h).2 ⟨_, by with_unfolding_all rfl, rfl⟩
  obtain ⟨told, t, rest, hoperations, htold, hfailing, hfailure⟩ :=
    (calculate_operations h).2 _ hevaluate
  injection hfailure with herror
  injection herror with hposition
  exact ⟨_, h, hevaluate, rfl, told, t, rest, hoperations, htold, hfailing, hposition.symm⟩

end Calculator
