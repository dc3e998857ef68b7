import Calculator.Parser.Basic
import Calculator.Expr.Basic

/-!
Reading an expression by recursive descent: a function for the chains of operands on each level, one
for what follows the first operand, and one for factors. Every function that succeeds has consumed
something, and so the calls end.
-/

namespace Calculator

namespace Descent

/-- What a reading from `p` comes to, which on success has consumed a lexeme. -/
abbrev Reached (p : Parser) : Type :=
  { r : Except Failure Expr × Parser // r.1.toBool = true → r.2.remaining < p.remaining }

abbrev Rested (p : Parser) : Type :=
  { r : Except Failure Expr × Parser // r.1.toBool = true → r.2.remaining ≤ p.remaining }

def rank : Level → Nat
  | .multiplicative => 1
  | .additive => 2

mutual

def operand (level : Level) (p : Parser) : Reached p :=
  match level with
  | .additive => chain .multiplicative p
  | .multiplicative => factor p
termination_by (p.remaining, 2 * rank level)
decreasing_by all_goals exact Prod.Lex.right _ (by decide)

def chain (level : Level) (p : Parser) : Reached p :=
  match operand level p with
  | ⟨(.error failure, p'), _⟩ => ⟨(.error failure, p'), fun h => absurd h Bool.false_ne_true⟩
  | ⟨(.ok left, p'), h⟩ =>
      have hlt : p'.remaining < p.remaining := h rfl
      let r := rest level left p'
      ⟨r.1, fun hr => Nat.lt_of_le_of_lt (r.2 hr) hlt⟩
termination_by (p.remaining, 2 * rank level + 1)

def rest (level : Level) (left : Expr) (p : Parser) : Rested p :=
  match p.lookahead.token with
  | .operator op =>
      if op ∈ level.operators then
        match heat : p.eat (.operator op) with
        | (.error failure, p') => ⟨(.error failure, p'), fun h => absurd h Bool.false_ne_true⟩
        | (.ok lexeme, p') =>
            have heaten : p'.remaining < p.remaining := Parser.remaining_eat_lt heat (by rintro ⟨⟩)
            match operand level p' with
            | ⟨(.error failure, p''), _⟩ => ⟨(.error failure, p''), fun h => absurd h Bool.false_ne_true⟩
            | ⟨(.ok right, p''), h⟩ =>
                have hlt : p''.remaining < p.remaining := Nat.lt_trans (h rfl) heaten
                let r := rest level (.binary op lexeme.position left right) p''
                ⟨r.1, fun hr => Nat.le_of_lt (Nat.lt_of_le_of_lt (r.2 hr) hlt)⟩
      else ⟨(.ok left, p), fun _ => Nat.le_refl _⟩
  | _ => ⟨(.ok left, p), fun _ => Nat.le_refl _⟩
termination_by (p.remaining, 0)

def factor (p : Parser) : Reached p :=
  match p.lookahead.token with
  | .integer value =>
      match heat : p.eat .integer with
      | (.error failure, p') => ⟨(.error failure, p'), fun h => absurd h Bool.false_ne_true⟩
      | (.ok lexeme, p') =>
          ⟨(.ok (.literal value lexeme.position), p'),
            fun _ => Parser.remaining_eat_lt heat (by rintro ⟨⟩)⟩
  | .leftParen =>
      match heat : p.eat .leftParen with
      | (.error failure, p') => ⟨(.error failure, p'), fun h => absurd h Bool.false_ne_true⟩
      | (.ok _, p') =>
          have heaten : p'.remaining < p.remaining := Parser.remaining_eat_lt heat (by rintro ⟨⟩)
          match chain .additive p' with
          | ⟨(.error failure, p''), _⟩ => ⟨(.error failure, p''), fun h => absurd h Bool.false_ne_true⟩
          | ⟨(.ok e, p''), h⟩ =>
              match hclose : p''.eat .rightParen with
              | (.error failure, p''') => ⟨(.error failure, p'''), fun h => absurd h Bool.false_ne_true⟩
              | (.ok _, p''') =>
                  ⟨(.ok e, p'''), fun _ => Nat.lt_trans (Parser.remaining_eat_lt hclose (by rintro ⟨⟩))
                    (Nat.lt_trans (h rfl) heaten)⟩
  | .operator _ => ⟨(.error p.operandMissing, p), fun h => absurd h Bool.false_ne_true⟩
  | .rightParen => ⟨(.error p.operandMissing, p), fun h => absurd h Bool.false_ne_true⟩
  | .endOfInput => ⟨(.error p.operandMissing, p), fun h => absurd h Bool.false_ne_true⟩
termination_by (p.remaining, 0)

end

theorem operand_additive (p : Parser) : operand .additive p = chain .multiplicative p := by
  rw [operand]

theorem operand_multiplicative (p : Parser) : operand .multiplicative p = factor p := by
  rw [operand]

theorem chain_of_error {level : Level} {p p' : Parser} {failure : Failure}
    (h : (operand level p).1 = (.error failure, p')) :
    (chain level p).1 = (.error failure, p') := by
  rw [chain]
  split
  next heq =>
      rw [heq] at h
      exact h
  next heq =>
      rw [heq] at h
      cases h

theorem chain_of_ok {level : Level} {p p' : Parser} {left : Expr}
    (h : (operand level p).1 = (.ok left, p')) :
    (chain level p).1 = (rest level left p').1 := by
  rw [chain]
  split
  next heq =>
      rw [heq] at h
      cases h
  next heq =>
      rw [heq] at h
      cases h
      rfl

def Continues (level : Level) (p : Parser) : Prop :=
  ∃ op, p.lookahead.token = .operator op ∧ op ∈ level.operators

theorem rest_of_not_continues {level : Level} {left : Expr} {p : Parser}
    (h : ¬Continues level p) : (rest level left p).1 = (.ok left, p) := by
  rw [rest]
  split
  next op hop => rw [if_neg fun hmem => h ⟨op, hop, hmem⟩]
  next => rfl

theorem rest_of_eat_error {level : Level} {op : Operator} {left : Expr} {p p' : Parser}
    {failure : Failure} (hop : p.lookahead.token = .operator op) (hmem : op ∈ level.operators)
    (heat : p.eat (.operator op) = (.error failure, p')) :
    (rest level left p).1 = (.error failure, p') := by
  rw [rest]
  split
  next op' hop' =>
      rw [hop] at hop'
      cases hop'
      rw [if_pos hmem]
      split
      next heq =>
          rw [heq] at heat
          cases heat
          rfl
      next heq =>
          rw [heq] at heat
          cases heat
  next hother => exact absurd hop (hother op)

theorem rest_of_operand_error {level : Level} {op : Operator} {left : Expr} {p p' p'' : Parser}
    {lexeme : Lexeme} {failure : Failure} (hop : p.lookahead.token = .operator op)
    (hmem : op ∈ level.operators)
    (heat : p.eat (.operator op) = (.ok lexeme, p'))
    (hright : (operand level p').1 = (.error failure, p'')) :
    (rest level left p).1 = (.error failure, p'') := by
  rw [rest]
  split
  next op' hop' =>
      rw [hop] at hop'
      cases hop'
      rw [if_pos hmem]
      split
      next heq =>
          rw [heq] at heat
          cases heat
      next heq =>
          rw [heq] at heat
          cases heat
          split
          next hoperand =>
              rw [hoperand] at hright
              exact hright
          next hoperand =>
              rw [hoperand] at hright
              cases hright
  next hother => exact absurd hop (hother op)

theorem rest_of_operand_ok {level : Level} {op : Operator} {left right : Expr}
    {p p' p'' : Parser} {lexeme : Lexeme} (hop : p.lookahead.token = .operator op)
    (hmem : op ∈ level.operators)
    (heat : p.eat (.operator op) = (.ok lexeme, p'))
    (hright : (operand level p').1 = (.ok right, p'')) :
    (rest level left p).1 =
      (rest level (.binary op lexeme.position left right) p'').1 := by
  rw [rest]
  split
  next op' hop' =>
      rw [hop] at hop'
      cases hop'
      rw [if_pos hmem]
      split
      next heq =>
          rw [heq] at heat
          cases heat
      next heq =>
          rw [heq] at heat
          cases heat
          split
          next hoperand =>
              rw [hoperand] at hright
              cases hright
          next hoperand =>
              rw [hoperand] at hright
              cases hright
              rfl
  next hother => exact absurd hop (hother op)

theorem factor_of_integer {p p' : Parser} {value : Int64} {lexeme : Lexeme}
    (htoken : p.lookahead.token = .integer value) (heat : p.eat .integer = (.ok lexeme, p')) :
    (factor p).1 = (.ok (.literal value lexeme.position), p') := by
  rw [factor]
  split
  next value' htoken' =>
      rw [htoken] at htoken'
      cases htoken'
      split
      next heq =>
          rw [heq] at heat
          cases heat
      next heq =>
          rw [heq] at heat
          cases heat
          rfl
  all_goals simp_all

theorem factor_of_integer_error {p p' : Parser} {value : Int64} {failure : Failure}
    (htoken : p.lookahead.token = .integer value) (heat : p.eat .integer = (.error failure, p')) :
    (factor p).1 = (.error failure, p') := by
  rw [factor]
  split
  next value' htoken' =>
      split
      next heq =>
          rw [heq] at heat
          cases heat
          rfl
      next heq =>
          rw [heq] at heat
          cases heat
  all_goals simp_all

theorem factor_of_open_error {p p' : Parser} {failure : Failure}
    (htoken : p.lookahead.token = .leftParen) (heat : p.eat .leftParen = (.error failure, p')) :
    (factor p).1 = (.error failure, p') := by
  rw [factor]
  split
  case h_2 =>
      split
      next heq =>
          rw [heq] at heat
          cases heat
          rfl
      next heq =>
          rw [heq] at heat
          cases heat
  all_goals simp_all

theorem factor_of_inner_error {p p' p'' : Parser} {lexeme : Lexeme} {failure : Failure}
    (htoken : p.lookahead.token = .leftParen) (heat : p.eat .leftParen = (.ok lexeme, p'))
    (hinner : (chain .additive p').1 = (.error failure, p'')) :
    (factor p).1 = (.error failure, p'') := by
  rw [factor]
  split
  case h_2 =>
      split
      next heq =>
          rw [heq] at heat
          cases heat
      next heq =>
          rw [heq] at heat
          cases heat
          split
          next hchain =>
              rw [hchain] at hinner
              exact hinner
          next hchain =>
              rw [hchain] at hinner
              cases hinner
  all_goals simp_all

theorem factor_of_inner_ok {p p' p'' p''' : Parser} {lexeme : Lexeme} {e : Expr}
    {closing : Except Failure Lexeme} (htoken : p.lookahead.token = .leftParen)
    (heat : p.eat .leftParen = (.ok lexeme, p')) (hinner : (chain .additive p').1 = (.ok e, p''))
    (hclose : p''.eat .rightParen = (closing, p''')) :
    (factor p).1 = (closing.map fun _ => e, p''') := by
  rw [factor]
  split
  case h_2 =>
      split
      next heq =>
          rw [heq] at heat
          cases heat
      next heq =>
          rw [heq] at heat
          cases heat
          split
          next hchain =>
              rw [hchain] at hinner
              cases hinner
          next hchain =>
              rw [hchain] at hinner
              cases hinner
              split
              next heq =>
                  rw [heq] at hclose
                  cases hclose
                  rfl
              next heq =>
                  rw [heq] at hclose
                  cases hclose
                  rfl
  all_goals simp_all

theorem factor_of_missing {p : Parser} (hinteger : ∀ value, p.lookahead.token ≠ .integer value)
    (hopen : p.lookahead.token ≠ .leftParen) :
    (factor p).1 = (.error p.operandMissing, p) := by
  rw [factor]
  split
  case h_1 value htoken => exact absurd htoken (hinteger value)
  case h_2 htoken => exact absurd htoken hopen
  all_goals rfl

def expression (p : Parser) : Except Failure Expr × Parser := (chain .additive p).1

end Descent

end Calculator
