import Calculator.Parser.Descent
import Calculator.Proofs.Step

/-!
Reading with frames is recursive descent. What the frames hold is what the calls of the descent
would still have to do: a suspended operand is the left side of a pending `rest`, and a frame in the
list is a call of `factor` that waits for its closing parenthesis.
-/

namespace Calculator

namespace Reading

variable {p : Parser}

def resume (frame : Frame) (enclosing : List Frame) :
    Except Failure Expr × Parser → Except Failure Expr × Parser
  | (.ok operand, p) => run ⟨frame, enclosing, some operand⟩ p
  | (.error failure, p) => (.error failure, p)

def leave : List Frame → Except Failure Expr × Parser → Except Failure Expr × Parser
  | _, (.error failure, p) => (.error failure, p)
  | [], (.ok e, p) => (.ok e, p)
  | outer :: enclosing, (.ok e, p) =>
      match p.eat .rightParen with
      | (.ok _, p') => run ⟨outer, enclosing, some e⟩ p'
      | (.error failure, p') => (.error failure, p')

/-- A product is taken as a whole by whatever follows it, so it may stand there as one operand. -/
theorem run_product (frame : Frame) (enclosing : List Frame) (operand : Expr) (p : Parser) :
    run ⟨frame, enclosing, some operand⟩ p =
      run ⟨⟨frame.sum, none⟩, enclosing, some (frame.operandFor operand .multiplicative)⟩ p := by
  apply run_congr
  simp only [step, readOperator]
  split
  next op hop => cases op <;> rfl
  next => rfl

theorem run_sum {frame : Frame} {enclosing : List Frame} {operand : Expr}
    (h : ¬Descent.Continues .multiplicative p) :
    run ⟨frame, enclosing, some operand⟩ p =
      run ⟨.empty, enclosing, some (frame.close operand)⟩ p := by
  apply run_congr
  simp only [step, readOperator]
  split
  next op hop =>
      cases op with
      | add => rfl
      | sub => rfl
      | mul => exact absurd ⟨.mul, hop, by decide⟩ h
      | div => exact absurd ⟨.div, hop, by decide⟩ h
  next => rfl

theorem run_end (enclosing : List Frame) (e : Expr)
    (h : ∀ op, p.lookahead.token ≠ .operator op) :
    run ⟨.empty, enclosing, some e⟩ p = leave enclosing (.ok e, p) := by
  have hstep := step_of_close .empty enclosing e h
  cases enclosing with
  | nil => exact run_of_done hstep
  | cons outer enclosing =>
      simp only [leave]
      split
      next lexeme p' heat => exact run_of_eat_ok hstep heat
      next failure p' heat => exact run_of_eat_error hstep heat

end Reading

namespace Descent

open Reading

theorem remaining_operand_lt {level : Level} {e : Expr} {p p' : Parser}
    (h : (operand level p).1 = (.ok e, p')) : p'.remaining < p.remaining := by
  have hoperand := (operand level p).2
  rw [h] at hoperand
  exact hoperand rfl

theorem not_continues_of_rest {level : Level} {left e : Expr} {p p' : Parser}
    (h : (rest level left p).1 = (.ok e, p')) : ¬Continues level p' := by
  by_cases hcontinues : Continues level p
  · obtain ⟨op, hop, hmem⟩ := hcontinues
    rcases heat : p.eat (.operator op) with ⟨failure | lexeme, q⟩
    · rw [rest_of_eat_error hop hmem heat] at h
      cases h
    · have heaten : q.remaining < p.remaining := Parser.remaining_eat_lt heat (by rintro ⟨⟩)
      rcases hright : (operand level q).1 with ⟨failure | right, q'⟩
      · rw [rest_of_operand_error hop hmem heat hright] at h
        cases h
      · have hlt := Nat.lt_trans (remaining_operand_lt hright) heaten
        rw [rest_of_operand_ok hop hmem heat hright] at h
        exact not_continues_of_rest h
  · rw [rest_of_not_continues hcontinues] at h
    cases h
    exact hcontinues
termination_by p.remaining

theorem not_continues_of_chain {level : Level} {e : Expr} {p p' : Parser}
    (h : (chain level p).1 = (.ok e, p')) : ¬Continues level p' := by
  rcases hleft : (operand level p).1 with ⟨failure | left, q⟩
  · rw [chain_of_error hleft] at h
    cases h
  · rw [chain_of_ok hleft] at h
    exact not_continues_of_rest h

-- `run_factor` leaves the frames as they are, whatever they hold. A product is read in front of any
-- pending sum, and a sum only in an empty frame: a sum ends where its group does.
mutual

theorem run_factor (frame : Frame) (enclosing : List Frame) (p : Parser) :
    run ⟨frame, enclosing, none⟩ p = resume frame enclosing (factor p).1 := by
  by_cases hinteger : ∃ value, p.lookahead.token = .integer value
  · obtain ⟨value, htoken⟩ := hinteger
    have hstep := step_of_integer frame enclosing htoken
    rcases heat : p.eat .integer with ⟨failure | lexeme, p'⟩
    · rw [run_of_eat_error hstep heat, factor_of_integer_error htoken heat]
      rfl
    · rw [run_of_eat_ok hstep heat, factor_of_integer htoken heat]
      rfl
  by_cases htoken : p.lookahead.token = .leftParen
  · have hstep := step_of_leftParen frame enclosing htoken
    rcases heat : p.eat .leftParen with ⟨failure | lexeme, p'⟩
    · rw [run_of_eat_error hstep heat, factor_of_open_error htoken heat]
      rfl
    · have hlt : p'.remaining < p.remaining := Parser.remaining_eat_lt heat (by rintro ⟨⟩)
      rw [run_of_eat_ok hstep heat, run_chain_additive (frame :: enclosing) p']
      rcases hinner : (chain .additive p').1 with ⟨failure | e, q⟩
      · rw [factor_of_inner_error htoken heat hinner]
        rfl
      · rcases hclose : q.eat .rightParen with ⟨failure | closing, q'⟩
        · simp only [factor_of_inner_ok htoken heat hinner hclose, leave, hclose]
          rfl
        · simp only [factor_of_inner_ok htoken heat hinner hclose, leave, hclose]
          rfl
  · have hnone : ∀ value, p.lookahead.token ≠ .integer value :=
      fun value h => hinteger ⟨value, h⟩
    rw [run_of_done (step_of_missing frame enclosing hnone htoken), factor_of_missing hnone htoken]
    rfl
termination_by (p.remaining, 0)

theorem run_chain_multiplicative (sum : Option Pending) (enclosing : List Frame) (p : Parser) :
    run ⟨⟨sum, none⟩, enclosing, none⟩ p =
      resume ⟨sum, none⟩ enclosing (chain .multiplicative p).1 := by
  rw [run_factor]
  rcases hleft : (operand .multiplicative p).1 with ⟨failure | left, p'⟩
  · rw [chain_of_error hleft, ← operand_multiplicative, hleft]
  · have hlt := remaining_operand_lt hleft
    rw [chain_of_ok hleft, ← operand_multiplicative, hleft]
    exact run_rest_multiplicative sum enclosing left p'
termination_by (p.remaining, 1)

theorem run_rest_multiplicative (sum : Option Pending) (enclosing : List Frame) (left : Expr)
    (p : Parser) :
    run ⟨⟨sum, none⟩, enclosing, some left⟩ p =
      resume ⟨sum, none⟩ enclosing (rest .multiplicative left p).1 := by
  by_cases hcontinues : Continues .multiplicative p
  · obtain ⟨op, hop, hmem⟩ := hcontinues
    have hlevel := Level.mem_operators_iff.1 hmem
    have hstep := step_of_operator ⟨sum, none⟩ enclosing left hop
    rcases heat : p.eat (.operator op) with ⟨failure | lexeme, p'⟩
    · rw [run_of_eat_error hstep heat, rest_of_eat_error hop hmem heat]
      rfl
    · have heaten : p'.remaining < p.remaining := Parser.remaining_eat_lt heat (by rintro ⟨⟩)
      rw [run_of_eat_ok hstep heat, Frame.suspend_multiplicative hlevel, run_factor,
        ← operand_multiplicative]
      rcases hright : (operand .multiplicative p').1 with ⟨failure | right, q⟩
      · rw [rest_of_operand_error hop hmem heat hright]
        rfl
      · have hlt := Nat.lt_trans (remaining_operand_lt hright) heaten
        rw [rest_of_operand_ok hop hmem heat hright, resume, run_product]
        exact run_rest_multiplicative sum enclosing _ q
  · rw [rest_of_not_continues hcontinues]
    rfl
termination_by (p.remaining, 0)

theorem run_chain_additive (enclosing : List Frame) (p : Parser) :
    run ⟨.empty, enclosing, none⟩ p = leave enclosing (chain .additive p).1 := by
  rw [Frame.empty, run_chain_multiplicative]
  rcases hleft : (operand .additive p).1 with ⟨failure | left, p'⟩
  · rw [chain_of_error hleft, ← operand_additive, hleft]
    rfl
  · have hlt := remaining_operand_lt hleft
    rw [chain_of_ok hleft, ← operand_additive, hleft]
    rw [operand_additive] at hleft
    exact run_rest_additive enclosing left p' (not_continues_of_chain hleft)
termination_by (p.remaining, 2)

theorem run_rest_additive (enclosing : List Frame) (left : Expr) (p : Parser)
    (hproduct : ¬Continues .multiplicative p) :
    run ⟨.empty, enclosing, some left⟩ p = leave enclosing (rest .additive left p).1 := by
  by_cases hcontinues : Continues .additive p
  · obtain ⟨op, hop, hmem⟩ := hcontinues
    have hlevel := Level.mem_operators_iff.1 hmem
    have hstep := step_of_operator .empty enclosing left hop
    rcases heat : p.eat (.operator op) with ⟨failure | lexeme, p'⟩
    · rw [run_of_eat_error hstep heat, rest_of_eat_error hop hmem heat]
      rfl
    · have heaten : p'.remaining < p.remaining := Parser.remaining_eat_lt heat (by rintro ⟨⟩)
      rw [run_of_eat_ok hstep heat, Frame.suspend_additive hlevel, run_chain_multiplicative,
        ← operand_additive]
      rcases hright : (operand .additive p').1 with ⟨failure | right, q⟩
      · rw [rest_of_operand_error hop hmem heat hright]
        rfl
      · have hlt := Nat.lt_trans (remaining_operand_lt hright) heaten
        -- the product on the right has taken all multiplicative operators
        have hstop : ¬Continues .multiplicative q := by
          rw [operand_additive] at hright
          exact not_continues_of_chain hright
        rw [rest_of_operand_ok hop hmem heat hright, resume, run_sum hstop]
        exact run_rest_additive enclosing _ q hstop
  · have hnone : ∀ op, p.lookahead.token ≠ .operator op := by
      intro op hop
      cases hlevel : op.level with
      | additive => exact hcontinues ⟨op, hop, Level.mem_operators_iff.2 hlevel⟩
      | multiplicative => exact hproduct ⟨op, hop, Level.mem_operators_iff.2 hlevel⟩
    rw [rest_of_not_continues hcontinues, run_end enclosing left hnone]
termination_by (p.remaining, 0)

end

theorem expression_eq_descent (p : Parser) : p.expression = expression p := by
  have hchain := run_chain_additive [] p
  rw [Parser.expression, start, expression, hchain]
  rcases (chain .additive p).1 with ⟨failure | e, p'⟩ <;> rfl

end Descent

end Calculator
