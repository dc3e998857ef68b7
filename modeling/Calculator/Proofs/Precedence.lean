import Calculator.Chain
import Calculator.Proofs.Lexing

namespace Calculator

namespace Written

variable {text text' : String} {left right e : Expr} {level : Level}

theorem literal {value : Int64} (hdigits : Digits text.toList)
    (hvalue : value.toInt = Numeral.value text.toList) :
    Written .factor text (.literal value .start) :=
  ⟨_, .of_spells (.integer .start hdigits hvalue), .integer⟩

theorem group (h : Written (.chain .additive) text e) :
    Written .factor ("(" ++ text ++ ")") e := by
  obtain ⟨lexemes, hlexed, hderives⟩ := h
  have hopen : Lexed ('(' :: text.toList) (⟨.leftParen, .start⟩ :: lexemes) :=
    Lexed.nil.between rfl hlexed
  have hgroup : Lexed ('(' :: text.toList ++ [')'])
      (⟨.leftParen, .start⟩ :: lexemes ++ [⟨.rightParen, .start⟩]) := hopen.between rfl Lexed.nil
  have htext : ("(" ++ text ++ ")").toList = '(' :: text.toList ++ [')'] := by simp
  rw [← htext] at hgroup
  exact ⟨_, hgroup, .group hderives⟩

theorem operand (h : Written level.operand text e) : Written (.chain level) text e := by
  obtain ⟨lexemes, hlexed, hderives⟩ := h
  exact ⟨lexemes, hlexed, .chain_of_operand hderives⟩

theorem operator {op : Operator} (h : Written (.chain level) text left)
    (hop : op ∈ level.operators)
    (h' : Written level.operand text' right) :
    Written (.chain level) (text ++ op.text ++ text') (.binary op .start left right) := by
  obtain ⟨v, hv, hleft⟩ := h
  obtain ⟨w, hw, hright⟩ := h'
  have hlexed : Lexed (text.toList ++ op.symbol :: text'.toList)
      (v ++ ⟨.operator op, .start⟩ :: w) := hv.between rfl hw
  have htext : (text ++ op.text ++ text').toList = text.toList ++ op.symbol :: text'.toList := by
    simp [Operator.text]
  rw [← htext] at hlexed
  exact ⟨_, hlexed, hleft.chain_concat hop hright⟩

end Written

/-- The text of an operand, with what makes it one: a run of digits that fits a word, or a source
that has a tree, in parentheses. -/
inductive Operand where
  | literal (digits : String) (run : Digits digits.toList)
      (fits : Numeral.value digits.toList ≤ Int64.maxValue.toInt)
  | group (source : String) (e : Expr) (h : parse source = .ok e)

namespace Operand

def text : Operand → String
  | literal digits _ _ => digits
  | group source _ _ => "(" ++ source ++ ")"

def tree : Operand → Expr
  | literal digits _ _ => .literal (.ofNat (Numeral.value digits.toList)) .start
  | group _ e _ => e

theorem written (operand : Operand) : Written .factor operand.text operand.tree := by
  cases operand with
  | literal digits run fits =>
      have hmax : Int64.maxValue.toInt = 2 ^ 63 - 1 := rfl
      exact .literal run (Int64.toInt_ofNat_of_lt (by omega))
  | group source e h => exact .group (written_of_parse h)

end Operand

namespace Chain

variable {α : Type} {text : α → String} {tree : α → Expr} {level : Level} {chain : Chain α}

theorem written_treeOnto {left : Expr} {t : String} {op : Operator}
    (hleft : Written (.chain level) t left) (hop : op ∈ level.operators)
    (hoperators : ∀ op ∈ chain.operators, op ∈ level.operators)
    (hoperands : ∀ a ∈ chain.operands, Written level.operand (text a) (tree a)) :
    Written (.chain level) (t ++ op.text ++ (chain.map text).text)
      ((chain.map tree).treeOnto left op) := by
  induction chain generalizing left t op with
  | single a => exact hleft.operator hop (hoperands a (by simp [operands]))
  | cons a op' chain ih =>
      obtain ⟨ha, hoperands⟩ := List.forall_mem_cons.1 hoperands
      obtain ⟨hop', hoperators⟩ := List.forall_mem_cons.1 hoperators
      have hrest := ih (hleft.operator hop ha) hop' hoperators hoperands
      simpa only [map, Chain.text, Chain.treeOnto, String.append_assoc] using hrest

theorem written (hoperators : ∀ op ∈ chain.operators, op ∈ level.operators)
    (hoperands : ∀ a ∈ chain.operands, Written level.operand (text a) (tree a)) :
    Written (.chain level) (chain.map text).text (chain.map tree).tree := by
  cases chain with
  | single a => exact (hoperands a (by simp [operands])).operand
  | cons a op chain =>
      obtain ⟨ha, hoperands⟩ := List.forall_mem_cons.1 hoperands
      obtain ⟨hop, hoperators⟩ := List.forall_mem_cons.1 hoperators
      exact written_treeOnto ha.operand hop hoperators hoperands

end Chain

/-- A chain of operands has a tree, which is put together from the left: that of the blocks between
its additive operators, and each block that of its operands. -/
theorem parse_chain (chain : Chain Operand) :
    ∃ e, parse (chain.map Operand.text).text = .ok e ∧
      e.unplaced = (chain.cut.map fun block => (block.map Operand.tree).tree).tree.unplaced := by
  have hcut := chain.isCut_cut
  have hblocks : ∀ block ∈ chain.cut.operands,
      Written (.chain .multiplicative) (block.map Operand.text).text
        (block.map Operand.tree).tree := by
    intro block hblock
    exact Chain.written (hcut.multiplicative block hblock) fun operand _ => operand.written
  have hchain : Written (.chain .additive)
      (chain.cut.map fun block => (block.map Operand.text).text).text
      (chain.cut.map fun block => (block.map Operand.tree).tree).tree :=
    Chain.written hcut.additive hblocks
  rw [← Chain.text_join, hcut.join_eq] at hchain
  exact hchain.parse

end Calculator
