import Calculator.Evaluation
import Calculator.Scanner

/-!
What is left when places are set aside: every place becomes the start of the text. The value of an
expression does not depend on places, and an error depends on them only for its own.
-/

namespace Calculator

def ScanError.unplaced : ScanError → ScanError
  | .unknownCharacter character _ => .unknownCharacter character .start
  | .literalTooLarge literal _ => .literalTooLarge literal .start

def ParseError.unplaced : ParseError → ParseError
  | .unexpected expected found _ => .unexpected expected found .start
  | .operandMissing found _ => .operandMissing found .start

def EvalError.unplaced : EvalError → EvalError
  | .divisionByZero _ => .divisionByZero .start

def Failure.unplaced : Failure → Failure
  | .scan error => .scan error.unplaced
  | .parse error => .parse error.unplaced
  | .eval error => .eval error.unplaced

def Lexeme.unplaced (l : Lexeme) : Lexeme := ⟨l.token, .start⟩

def Item.unplaced : Item → Item
  | .ok lexeme => .ok lexeme.unplaced
  | .error error => .error error.unplaced

namespace Expr

def unplaced : Expr → Expr
  | literal value _ => .literal value .start
  | binary op _ left right => .binary op .start left.unplaced right.unplaced

theorem value_unplaced (e : Expr) : e.unplaced.value = e.value.mapError EvalError.unplaced := by
  induction e with
  | literal value position => rfl
  | binary op position left right ihl ihr =>
      simp only [unplaced, value, ihl, ihr]
      cases left.value with
      | error error => rfl
      | ok a =>
          cases right.value with
          | error error => rfl
          | ok b =>
              change op.apply a b .start = (op.apply a b position).mapError EvalError.unplaced
              unfold Operator.apply
              split <;> rfl

end Expr

end Calculator
