import Calculator.Expr.Basic

/-!
Expressions as text. A layout says what is written around the operands; `render` follows the tree,
and `write` holds the pieces still to be written in a list, so that no depth is too great for it.
`write_eq_render` says that they agree.
-/

namespace Calculator

/-- What is written at a level for a literal, and before, between and behind the operands of an
operator, which are two levels further in. -/
structure Layout where
  literal : Nat → Int64 → String
  opening : Nat → Operator → String
  between : Nat → Operator → String
  closing : Nat → Operator → String

namespace Layout

def render (layout : Layout) : Nat → Expr → String
  | level, .literal value _ => layout.literal level value
  | level, .binary op _ left right =>
      layout.opening level op ++ layout.render (level + 2) left ++ layout.between level op ++
        layout.render (level + 2) right ++ layout.closing level op

inductive Piece where
  | text (string : String)
  | node (level : Nat) (e : Expr)

namespace Piece

def render (layout : Layout) : Piece → String
  | text string => string
  | node level e => layout.render level e

def weight : Piece → Nat
  | text _ => 1
  | node _ e => 4 * e.size

def weights : List Piece → Nat
  | [] => 0
  | piece :: pieces => piece.weight + weights pieces

end Piece

def writePieces (layout : Layout) : List Piece → String → String
  | [], out => out
  | .text string :: pieces, out => layout.writePieces pieces (out ++ string)
  | .node level (.literal value _) :: pieces, out =>
      layout.writePieces pieces (out ++ layout.literal level value)
  | .node level (.binary op _ left right) :: pieces, out =>
      layout.writePieces
        (.node (level + 2) left :: .text (layout.between level op) ::
          .node (level + 2) right :: .text (layout.closing level op) :: pieces)
        (out ++ layout.opening level op)
termination_by pieces => Piece.weights pieces
decreasing_by
  all_goals simp only [Piece.weights, Piece.weight, Expr.size]
  all_goals omega

def write (layout : Layout) (e : Expr) : String := layout.writePieces [.node 0 e] ""

theorem writePieces_eq (layout : Layout) (pieces : List Piece) (out : String) :
    layout.writePieces pieces out = out ++ String.join (pieces.map (Piece.render layout)) := by
  fun_induction writePieces layout pieces out with
  | case1 out => simp
  | case2 string pieces out ih => simp [ih, Piece.render, String.append_assoc]
  | case3 level value position pieces out ih =>
      simp [ih, Piece.render, render, String.append_assoc]
  | case4 level op position left right pieces out ih =>
      simp [ih, Piece.render, render, String.append_assoc]

theorem write_eq_render (layout : Layout) (e : Expr) : layout.write e = layout.render 0 e := by
  rw [write, writePieces_eq]
  simp [Piece.render]

def sexpr : Layout where
  literal _ value := toString value.toInt
  opening _ op := "(" ++ op.text ++ " "
  between _ _ := " "
  closing _ _ := ")"

def indent (level : Nat) : String := String.join (List.replicate level "  ")

def dump : Layout where
  literal level value := indent level ++ "Num(" ++ toString value.toInt ++ ")"
  opening level _ := indent level ++ "BinOp:\n" ++ indent level ++ "  left:\n"
  between level op :=
    "\n" ++ indent level ++ "  op: " ++ op.tag ++ "\n" ++ indent level ++ "  right:\n"
  closing _ _ := ""

end Layout

namespace Expr

def sexpr (e : Expr) : String := Layout.sexpr.write e

def dump (e : Expr) : String := Layout.dump.write e

instance : ToString Expr := ⟨sexpr⟩

end Expr

end Calculator
