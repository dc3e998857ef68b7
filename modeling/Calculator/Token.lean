import Calculator.Position
import Calculator.Operator

namespace Calculator

inductive Token where
  | integer (value : Int64)
  | operator (op : Operator)
  | leftParen
  | rightParen
  | endOfInput
deriving DecidableEq, Repr

inductive Kind where
  | integer
  | operator (op : Operator)
  | leftParen
  | rightParen
  | endOfInput
deriving DecidableEq, Repr

namespace Kind

def tag : Kind → String
  | integer => "INTEGER"
  | operator op => op.tag
  | leftParen => "LPAREN"
  | rightParen => "RPAREN"
  | endOfInput => "EOF"

def symbol : Kind → Option Char
  | integer => none
  | operator op => some op.symbol
  | leftParen => some '('
  | rightParen => some ')'
  | endOfInput => none

def text : Kind → String
  | integer => "integer"
  | operator op => "'" ++ op.text ++ "'"
  | leftParen => "'('"
  | rightParen => "')'"
  | endOfInput => "end of input"

instance : ToString Kind := ⟨text⟩

end Kind

namespace Token

def kind : Token → Kind
  | integer _ => .integer
  | operator op => .operator op
  | leftParen => .leftParen
  | rightParen => .rightParen
  | endOfInput => .endOfInput

theorem kind_eq_integer_iff {t : Token} : t.kind = .integer ↔ ∃ value, t = .integer value := by
  cases t <;> simp [kind]

theorem kind_eq_leftParen_iff {t : Token} : t.kind = .leftParen ↔ t = .leftParen := by
  cases t <;> simp [kind]

theorem kind_eq_rightParen_iff {t : Token} : t.kind = .rightParen ↔ t = .rightParen := by
  cases t <;> simp [kind]

theorem kind_eq_endOfInput_iff {t : Token} : t.kind = .endOfInput ↔ t = .endOfInput := by
  cases t <;> simp [kind]

def operator? : Token → Option Operator
  | operator op => some op
  | integer _ => none
  | leftParen => none
  | rightParen => none
  | endOfInput => none

theorem operator?_eq_some_iff {t : Token} {op : Operator} :
    t.operator? = some op ↔ t = .operator op := by
  cases t <;> simp [operator?]

def payload : Token → String
  | integer value => toString value.toInt
  | operator op => "'" ++ op.text ++ "'"
  | leftParen => "'('"
  | rightParen => "')'"
  | endOfInput => "None"

def text (t : Token) : String := "Token(" ++ t.kind.tag ++ ", " ++ t.payload ++ ")"

instance : ToString Token := ⟨text⟩

def ofSymbol? (c : Char) : Option Token :=
  if c = '+' then some (.operator .add)
  else if c = '-' then some (.operator .sub)
  else if c = '*' then some (.operator .mul)
  else if c = '/' then some (.operator .div)
  else if c = '(' then some .leftParen
  else if c = ')' then some .rightParen
  else none

theorem ofSymbol?_eq_some_iff {c : Char} {t : Token} :
    ofSymbol? c = some t ↔ t.kind.symbol = some c := by
  constructor
  · intro h
    unfold ofSymbol? at h
    split at h
    · next hc => cases h; rw [hc]; rfl
    split at h
    · next hc => cases h; rw [hc]; rfl
    split at h
    · next hc => cases h; rw [hc]; rfl
    split at h
    · next hc => cases h; rw [hc]; rfl
    split at h
    · next hc => cases h; rw [hc]; rfl
    split at h
    · next hc => cases h; rw [hc]; rfl
    cases h
  · intro h
    cases t with
    | integer value => cases h
    | operator op => cases op <;> cases h <;> rfl
    | leftParen => cases h; rfl
    | rightParen => cases h; rfl
    | endOfInput => cases h

end Token

structure Lexeme where
  token : Token
  position : Position
deriving DecidableEq, Repr

namespace Lexeme

def kind (l : Lexeme) : Kind := l.token.kind

end Lexeme

end Calculator
