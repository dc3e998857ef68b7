namespace Calculator

inductive Operator where
  | add
  | sub
  | mul
  | div
deriving DecidableEq, Repr

inductive Level where
  | additive
  | multiplicative
deriving DecidableEq, Repr

namespace Operator

def level : Operator → Level
  | add => .additive
  | sub => .additive
  | mul => .multiplicative
  | div => .multiplicative

def symbol : Operator → Char
  | add => '+'
  | sub => '-'
  | mul => '*'
  | div => '/'

def tag : Operator → String
  | add => "PLUS"
  | sub => "MINUS"
  | mul => "MUL"
  | div => "DIV"

theorem tag_injective {o o' : Operator} (h : o.tag = o'.tag) : o = o' := by
  cases o <;> cases o' <;> simp_all [tag]

def text (o : Operator) : String := o.symbol.toString

instance : ToString Operator := ⟨text⟩

end Operator

/-- The grammar names the operators of a level itself, apart from `Operator.level`. -/
def Level.operators : Level → List Operator
  | additive => [.add, .sub]
  | multiplicative => [.mul, .div]

theorem Level.mem_operators_iff {level : Level} {op : Operator} :
    op ∈ level.operators ↔ op.level = level := by
  cases level <;> cases op <;> decide

end Calculator
