import Calculator.Evaluation
import Calculator.Parser.Reading

namespace Calculator

inductive Event where
  | begun (source : String)
  | scanned (lexeme : Lexeme)
  | applied (application : Application)
  | finished (value : Number)

inductive Severity where
  | debug
  | trace
deriving DecidableEq, Repr

namespace Severity

def text : Severity → String
  | debug => "DEBUG"
  | trace => "TRACE"

end Severity

namespace Event

/-- The end of the input is not reported, nor is what could not be scanned. -/
def ofItem? : Item → Option Event
  | .ok lexeme => if lexeme.token = .endOfInput then none else some (.scanned lexeme)
  | .error _ => none

def severity : Event → Severity
  | begun _ => .debug
  | scanned _ => .trace
  | applied _ => .trace
  | finished _ => .debug

def message : Event → String
  | begun _ => "evaluating expression"
  | scanned _ => "scanned token"
  | applied _ => "applied operator"
  | finished _ => "evaluated expression"

def fields : Event → List (String × String)
  | begun source => [("source", source)]
  | scanned lexeme => [("token", lexeme.token.text), ("position", lexeme.position.text)]
  | applied a =>
      [("left", a.left.text), ("op", a.op.text), ("right", a.right.text), ("result", a.result.text)]
  | finished value => [("value", value.text)]

end Event

def parseWithItems (source : String) : Except Failure Expr × List Item :=
  match Parser.ofString source with
  | .error error => (.error (.scan error), [.error error])
  | .ok parser =>
      let (result, parser') := parser.parse
      (result, parser'.pulled.reverse)

def parse (source : String) : Except Failure Expr := (parseWithItems source).1

def calculate (source : String) : Except Failure Number × List Event :=
  let (tree, items) := parseWithItems source
  let scanned := .begun source :: items.filterMap Event.ofItem?
  match tree with
  | .error failure => (.error failure, scanned)
  | .ok e =>
      let (result, applications) := e.evaluate
      let log := scanned ++ applications.map .applied
      match result with
      | .error error => (.error (.eval error), log)
      | .ok value => (.ok value, log ++ [.finished value])

def evaluate (source : String) : Except Failure Number := (calculate source).1

theorem evaluate_of_parse_error {source : String} {failure : Failure}
    (h : parse source = .error failure) : evaluate source = .error failure := by
  simp only [evaluate, calculate, parse] at *
  rw [h]

theorem evaluate_of_parse_ok {source : String} {e : Expr} (h : parse source = .ok e) :
    evaluate source = e.value.mapError .eval := by
  simp only [evaluate, calculate, parse] at *
  rw [h]
  simp only [Expr.evaluate_eq]
  cases e.value with
  | error error => rfl
  | ok value => rfl

theorem evaluate_eq_error_iff {source : String} {e : Expr} {failure : Failure}
    (h : parse source = .ok e) :
    evaluate source = .error failure ↔
      ∃ error, e.value = .error error ∧ failure = .eval error := by
  rw [evaluate_of_parse_ok h]
  cases e.value with
  | error error =>
      constructor
      · intro hfailure
        cases hfailure
        exact ⟨error, rfl, rfl⟩
      · rintro ⟨error', herror, rfl⟩
        cases herror
        rfl
  | ok value =>
      constructor
      · intro hfailure
        cases hfailure
      · rintro ⟨error, herror, -⟩
        cases herror

theorem evaluate_eq_ok_iff {source : String} {value : Number} :
    evaluate source = .ok value ↔ ∃ e, parse source = .ok e ∧ e.value = .ok value := by
  constructor
  · intro h
    cases hparse : parse source with
    | error failure =>
        rw [evaluate_of_parse_error hparse] at h
        cases h
    | ok e =>
        refine ⟨e, rfl, ?_⟩
        cases hvalue : e.value with
        | error error =>
            rw [(evaluate_eq_error_iff hparse).2 ⟨error, hvalue, rfl⟩] at h
            cases h
        | ok number =>
            rw [evaluate_of_parse_ok hparse, hvalue] at h
            cases h
            rfl
  · rintro ⟨e, hparse, hvalue⟩
    rw [evaluate_of_parse_ok hparse, hvalue]
    rfl

end Calculator
