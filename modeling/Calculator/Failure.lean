import Calculator.Token

namespace Calculator

inductive ScanError where
  | unknownCharacter (character : Char) (position : Position)
  | literalTooLarge (literal : String) (position : Position)
deriving DecidableEq, Repr

inductive ParseError where
  | unexpected (expected found : Kind) (position : Position)
  | operandMissing (found : Kind) (position : Position)
deriving DecidableEq, Repr

inductive EvalError where
  | divisionByZero (position : Position)
deriving DecidableEq, Repr

inductive Failure where
  | scan (error : ScanError)
  | parse (error : ParseError)
  | eval (error : EvalError)
deriving DecidableEq, Repr

namespace ScanError

def position : ScanError → Position
  | unknownCharacter _ position => position
  | literalTooLarge _ position => position

def reason : ScanError → String
  | unknownCharacter character _ => "Unknown character '" ++ character.toString ++ "'."
  | literalTooLarge literal _ => "Integer literal " ++ literal ++ " is too large."

end ScanError

namespace ParseError

def position : ParseError → Position
  | unexpected _ _ position => position
  | operandMissing _ position => position

def found : ParseError → Kind
  | unexpected _ found _ => found
  | operandMissing found _ => found

def expected : ParseError → List Kind
  | unexpected expected _ _ => [expected]
  | operandMissing _ _ => [.integer, .leftParen]

def reason : ParseError → String
  | unexpected expected found _ => "Expected " ++ expected.text ++ ", found " ++ found.text ++ "."
  | operandMissing found _ => "Expected integer or '(', found " ++ found.text ++ "."

end ParseError

namespace EvalError

def position : EvalError → Position
  | divisionByZero position => position

def reason : EvalError → String
  | divisionByZero _ => "Division by zero."

end EvalError

namespace Failure

def position : Failure → Position
  | scan error => error.position
  | parse error => error.position
  | eval error => error.position

def reason : Failure → String
  | scan error => error.reason
  | parse error => error.reason
  | eval error => error.reason

def message (failure : Failure) : String :=
  "Error on " ++ failure.position.text ++ ": " ++ failure.reason

instance : ToString Failure := ⟨message⟩

def isDivisionByZero : Failure → Bool
  | scan _ => false
  | parse _ => false
  | eval (.divisionByZero _) => true

theorem isDivisionByZero_iff {failure : Failure} :
    failure.isDivisionByZero = true ↔
      ∃ position, failure = .eval (.divisionByZero position) := by
  rcases failure with error | error | ⟨⟨position⟩⟩ <;> simp [isDivisionByZero]

end Failure

end Calculator
