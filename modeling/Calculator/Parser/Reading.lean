import Calculator.Parser.Basic
import Calculator.Expr.Basic

/-!
Reading an expression. What is open on each of the two levels is held in a frame, and the frames of
the groups around it in a list; one step consumes one lexeme or ends the reading. Operators of one
level are folded to the left, as soon as the lookahead shows that the operand before them is whole.
-/

namespace Calculator

structure Pending where
  left : Expr
  op : Operator
  position : Position
deriving DecidableEq, Repr

namespace Pending

def complete : Option Pending → Expr → Expr
  | none, right => right
  | some pending, right => .binary pending.op pending.position pending.left right

end Pending

structure Frame where
  sum : Option Pending
  product : Option Pending
deriving DecidableEq, Repr

namespace Frame

def empty : Frame := ⟨none, none⟩

/-- The operand that the next operator of a level would find on its left. -/
def operandFor (frame : Frame) (operand : Expr) : Level → Expr
  | .multiplicative => Pending.complete frame.product operand
  | .additive => Pending.complete frame.sum (Pending.complete frame.product operand)

/-- Leaves `operand` waiting at an operator. An additive operator leaves no product open. -/
def suspend (frame : Frame) (operand : Expr) (op : Operator) (position : Position) : Frame :=
  let pending : Pending := ⟨frame.operandFor operand op.level, op, position⟩
  match op.level with
  | .multiplicative => ⟨frame.sum, some pending⟩
  | .additive => ⟨some pending, none⟩

def close (frame : Frame) (operand : Expr) : Expr := frame.operandFor operand .additive

end Frame

/-- How far the reading of an expression has come: the innermost frame, those around it, and the
operand just read, if an operand is not what comes next. -/
structure Reading where
  frame : Frame
  enclosing : List Frame
  operand : Option Expr
deriving DecidableEq, Repr

inductive ReadingStep where
  | more (reading : Reading) (parser : Parser)
  | done (result : Except Failure Expr) (parser : Parser)

namespace Reading

def start : Reading := ⟨.empty, [], none⟩

def eating (parser : Parser) (kind : Kind) (next : Lexeme → Reading) : ReadingStep :=
  match parser.eat kind with
  | (.ok lexeme, parser') => .more (next lexeme) parser'
  | (.error failure, parser') => .done (.error failure) parser'

theorem remaining_eating_lt {parser parser' : Parser} {kind : Kind} {next : Lexeme → Reading}
    {reading : Reading} (h : eating parser kind next = .more reading parser')
    (hkind : kind ≠ .endOfInput) : parser'.remaining < parser.remaining := by
  unfold eating at h
  split at h
  next heat =>
      cases h
      exact Parser.remaining_eat_lt heat hkind
  next => cases h

def readOperand (frame : Frame) (enclosing : List Frame) (parser : Parser) : ReadingStep :=
  match parser.lookahead.token with
  | .integer value =>
      eating parser .integer fun lexeme => ⟨frame, enclosing, some (.literal value lexeme.position)⟩
  | .leftParen => eating parser .leftParen fun _ => ⟨.empty, frame :: enclosing, none⟩
  | .operator _ => .done (.error parser.operandMissing) parser
  | .rightParen => .done (.error parser.operandMissing) parser
  | .endOfInput => .done (.error parser.operandMissing) parser

def readOperator (frame : Frame) (enclosing : List Frame) (operand : Expr) (parser : Parser) :
    ReadingStep :=
  match parser.lookahead.token with
  | .operator op =>
      eating parser (.operator op) fun lexeme =>
        ⟨frame.suspend operand op lexeme.position, enclosing, none⟩
  | _ =>
      match enclosing with
      | [] => .done (.ok (frame.close operand)) parser
      | outer :: enclosing =>
          eating parser .rightParen fun _ => ⟨outer, enclosing, some (frame.close operand)⟩

def step (reading : Reading) (parser : Parser) : ReadingStep :=
  match reading.operand with
  | none => readOperand reading.frame reading.enclosing parser
  | some operand => readOperator reading.frame reading.enclosing operand parser

theorem remaining_step_lt {reading reading' : Reading} {parser parser' : Parser}
    (h : reading.step parser = .more reading' parser') : parser'.remaining < parser.remaining := by
  unfold step at h
  split at h
  · unfold readOperand at h
    split at h
    · exact remaining_eating_lt h (by rintro ⟨⟩)
    · exact remaining_eating_lt h (by rintro ⟨⟩)
    · cases h
    · cases h
    · cases h
  · unfold readOperator at h
    split at h
    · exact remaining_eating_lt h (by rintro ⟨⟩)
    · split at h
      · cases h
      · exact remaining_eating_lt h (by rintro ⟨⟩)

def run (reading : Reading) (parser : Parser) : Except Failure Expr × Parser :=
  match _h : reading.step parser with
  | .more reading' parser' => run reading' parser'
  | .done result parser' => (result, parser')
termination_by parser.remaining
decreasing_by exact remaining_step_lt _h

theorem run_of_more {reading reading' : Reading} {parser parser' : Parser}
    (h : reading.step parser = .more reading' parser') :
    reading.run parser = reading'.run parser' := by
  rw [run]
  split
  next h' =>
      rw [h] at h'
      cases h'
      rfl
  next h' =>
      rw [h] at h'
      cases h'

theorem run_of_done {reading : Reading} {parser parser' : Parser} {result : Except Failure Expr}
    (h : reading.step parser = .done result parser') :
    reading.run parser = (result, parser') := by
  rw [run]
  split
  next h' =>
      rw [h] at h'
      cases h'
  next h' =>
      rw [h] at h'
      cases h'
      rfl

end Reading

namespace Parser

def expression (p : Parser) : Except Failure Expr × Parser := Reading.start.run p

def parse (p : Parser) : Except Failure Expr × Parser :=
  match p.expression with
  | (.error failure, p') => (.error failure, p')
  | (.ok e, p') =>
      match p'.eat .endOfInput with
      | (.ok _, p'') => (.ok e, p'')
      | (.error failure, p'') => (.error failure, p'')

end Parser

end Calculator
