import Calculator.Token
import Calculator.Expr.Basic

/-!
Which sequences of lexemes are expressions, and of which trees. On each level operands are joined by
operators of that level, and the tree grows to the left: what has been read becomes the left operand
of the next operator.
-/

namespace Calculator

inductive Phrase where
  | factor
  | chain (level : Level)
  /-- Operators of a level and their right operands, behind the tree `left`. -/
  | rest (level : Level) (left : Expr)

def Level.operand : Level → Phrase
  | .additive => .chain .multiplicative
  | .multiplicative => .factor

inductive Derives : Phrase → List Lexeme → Expr → Prop
  | integer {value : Int64} {position : Position} :
      Derives .factor [⟨.integer value, position⟩] (.literal value position)
  | group {lexemes : List Lexeme} {e : Expr} {p q : Position} :
      Derives (.chain .additive) lexemes e →
        Derives .factor (⟨.leftParen, p⟩ :: (lexemes ++ [⟨.rightParen, q⟩])) e
  | chain {level : Level} {lexemes lexemes' : List Lexeme} {left e : Expr} :
      Derives level.operand lexemes left → Derives (.rest level left) lexemes' e →
        Derives (.chain level) (lexemes ++ lexemes') e
  | done {level : Level} {e : Expr} : Derives (.rest level e) [] e
  | operator {level : Level} {op : Operator} {position : Position}
      {lexemes lexemes' : List Lexeme} {left right e : Expr} :
      op ∈ level.operators → Derives level.operand lexemes right →
        Derives (.rest level (.binary op position left right)) lexemes' e →
        Derives (.rest level left) (⟨.operator op, position⟩ :: (lexemes ++ lexemes')) e

theorem Derives.chain_of_operand {level : Level} {lexemes : List Lexeme} {e : Expr}
    (h : Derives level.operand lexemes e) : Derives (.chain level) lexemes e := by
  have hchain := Derives.chain h Derives.done
  rwa [List.append_nil] at hchain

end Calculator
