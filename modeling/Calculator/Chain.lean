import Calculator.Expr.Basic

/-!
Operands with operators between them. A chain is cut at its additive operators, and only
multiplicative ones are left inside the blocks; `cut_eq_iff` says that there is one such cut.
-/

namespace Calculator

inductive Chain (α : Type) where
  | single (operand : α)
  | cons (operand : α) (op : Operator) (chain : Chain α)
deriving DecidableEq, Repr

namespace Chain

variable {α β : Type}

def operands : Chain α → List α
  | single a => [a]
  | cons a _ chain => a :: chain.operands

def operators : Chain α → List Operator
  | single _ => []
  | cons _ op chain => op :: chain.operators

def map (f : α → β) : Chain α → Chain β
  | single a => single (f a)
  | cons a op chain => cons (f a) op (chain.map f)

def text : Chain String → String
  | single operand => operand
  | cons operand op chain => operand ++ op.text ++ chain.text

/-- What has been read is the left operand of `op`, and what comes of it that of the next. -/
def treeOnto (left : Expr) (op : Operator) : Chain Expr → Expr
  | single e => .binary op .start left e
  | cons e op' chain => chain.treeOnto (.binary op .start left e) op'

def tree : Chain Expr → Expr
  | single e => e
  | cons e op chain => chain.treeOnto e op

def append (chain : Chain α) (op : Operator) (chain' : Chain α) : Chain α :=
  match chain with
  | single a => cons a op chain'
  | cons a op' chain => cons a op' (chain.append op chain')

theorem map_append (f : α → β) (chain : Chain α) (op : Operator) (chain' : Chain α) :
    (chain.append op chain').map f = (chain.map f).append op (chain'.map f) := by
  induction chain with
  | single a => rfl
  | cons a op' chain ih => rw [append, map, ih, map, append]

theorem text_append (chain : Chain String) (op : Operator) (chain' : Chain String) :
    (chain.append op chain').text = chain.text ++ op.text ++ chain'.text := by
  induction chain with
  | single operand => rfl
  | cons operand op' chain ih => simp only [append, text, ih, String.append_assoc]

def join : Chain (Chain α) → Chain α
  | single block => block
  | cons block op blocks => block.append op blocks.join

theorem text_join (f : α → String) (blocks : Chain (Chain α)) :
    (blocks.join.map f).text = (blocks.map fun block => (block.map f).text).text := by
  induction blocks with
  | single block => rfl
  | cons block op blocks ih => rw [join, map_append, text_append, ih, map, text]

def extend (a : α) (op : Operator) (blocks : Chain (Chain α)) : Chain (Chain α) :=
  if op ∈ Level.additive.operators then cons (single a) op blocks
  else
    match blocks with
    | single block => single (cons a op block)
    | cons block op' blocks => cons (cons a op block) op' blocks

theorem extend_of_additive {op : Operator} (h : op ∈ Level.additive.operators) (a : α)
    (blocks : Chain (Chain α)) : extend a op blocks = cons (single a) op blocks := if_pos h

theorem extend_of_multiplicative {op : Operator} (h : op ∈ Level.multiplicative.operators) (a : α)
    (blocks : Chain (Chain α)) :
    extend a op blocks =
      match blocks with
      | single block => single (cons a op block)
      | cons block op' blocks => cons (cons a op block) op' blocks := by
  apply if_neg
  rw [Level.mem_operators_iff] at h ⊢
  simp [h]

def cut : Chain α → Chain (Chain α)
  | single a => single (single a)
  | cons a op chain => extend a op chain.cut

structure IsCut (blocks : Chain (Chain α)) (chain : Chain α) : Prop where
  join_eq : blocks.join = chain
  additive : ∀ op ∈ blocks.operators, op ∈ Level.additive.operators
  multiplicative : ∀ block ∈ blocks.operands, ∀ op ∈ block.operators,
    op ∈ Level.multiplicative.operators

theorem IsCut.extend {blocks : Chain (Chain α)} {chain : Chain α} (h : IsCut blocks chain) (a : α)
    (op : Operator) : IsCut (extend a op blocks) (cons a op chain) := by
  obtain ⟨rfl, hadditive, hmultiplicative⟩ := h
  cases hlevel : op.level with
  | additive =>
      have hop := Level.mem_operators_iff.2 hlevel
      rw [extend_of_additive hop]
      refine ⟨rfl, ?_, ?_⟩
      · simpa [operators] using ⟨hop, hadditive⟩
      · simpa [operands, operators] using hmultiplicative
  | multiplicative =>
      have hop := Level.mem_operators_iff.2 hlevel
      rw [extend_of_multiplicative hop]
      cases blocks with
      | single block =>
          refine ⟨rfl, hadditive, ?_⟩
          simpa [operands, operators, hop] using hmultiplicative
      | cons block op' blocks =>
          refine ⟨rfl, hadditive, ?_⟩
          simpa [operands, operators, hop] using hmultiplicative

theorem isCut_cut (chain : Chain α) : IsCut chain.cut chain := by
  induction chain with
  | single a => exact ⟨rfl, by simp [cut, operators], by simp [cut, operands, operators]⟩
  | cons a op chain ih => exact ih.extend a op

theorem cut_of_multiplicative {block : Chain α}
    (h : ∀ op ∈ block.operators, op ∈ Level.multiplicative.operators) :
    block.cut = single block := by
  induction block with
  | single a => rfl
  | cons a op block ih =>
      obtain ⟨hop, hblock⟩ := List.forall_mem_cons.1 h
      rw [cut, ih hblock, extend_of_multiplicative hop]

theorem cut_append {block : Chain α} {op : Operator}
    (h : ∀ op ∈ block.operators, op ∈ Level.multiplicative.operators)
    (hop : op ∈ Level.additive.operators) (chain : Chain α) :
    (block.append op chain).cut = cons block op chain.cut := by
  induction block with
  | single a => rw [append, cut, extend_of_additive hop]
  | cons a op' block ih =>
      obtain ⟨hop', hblock⟩ := List.forall_mem_cons.1 h
      rw [append, cut, ih hblock, extend_of_multiplicative hop']

theorem IsCut.cut_eq {blocks : Chain (Chain α)} {chain : Chain α} (h : IsCut blocks chain) :
    chain.cut = blocks := by
  obtain ⟨rfl, hadditive, hmultiplicative⟩ := h
  induction blocks with
  | single block => exact cut_of_multiplicative (hmultiplicative block (by simp [operands]))
  | cons block op blocks ih =>
      obtain ⟨hop, hadditive⟩ := List.forall_mem_cons.1 hadditive
      obtain ⟨hblock, hmultiplicative⟩ := List.forall_mem_cons.1 hmultiplicative
      rw [join, cut_append hblock hop, ih hadditive hmultiplicative]

theorem cut_eq_iff {blocks : Chain (Chain α)} {chain : Chain α} :
    chain.cut = blocks ↔ IsCut blocks chain := by
  constructor
  · rintro rfl
    exact isCut_cut chain
  · exact IsCut.cut_eq

example : cut (cons 8 .div (cons 4 .sub (cons 6 .add (single 3)))) =
    .cons (.cons 8 .div (.single 4)) .sub (.cons (.single 6) .add (.single (.single 3))) := rfl

end Chain

end Calculator
