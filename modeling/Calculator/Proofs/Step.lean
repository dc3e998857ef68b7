import Calculator.Parser.Reading

namespace Calculator

namespace Parser

variable {p : Parser}

theorem eat_of_ne {expected : Kind} (h : p.lookahead.kind ≠ expected) :
    p.eat expected =
      (.error (.parse (.unexpected expected p.lookahead.kind p.lookahead.position)), p) := by
  rw [eat, if_neg h]

theorem eat_of_next {expected : Kind} {next : Lexeme} {scanner : Scanner}
    (hkind : p.lookahead.kind = expected) (h : p.scanner.nextToken = (.ok next, scanner)) :
    p.eat expected = (.ok p.lookahead, ⟨next, scanner, .ok next :: p.pulled⟩) := by
  rw [eat, if_pos hkind, h]

theorem eat_of_scan_error {expected : Kind} {error : ScanError} {scanner : Scanner}
    (hkind : p.lookahead.kind = expected) (h : p.scanner.nextToken = (.error error, scanner)) :
    p.eat expected =
      (.error (.scan error), ⟨p.lookahead, scanner, .error error :: p.pulled⟩) := by
  rw [eat, if_pos hkind, h]

end Parser

namespace Frame

variable {op : Operator}

theorem suspend_additive (hlevel : op.level = .additive) (frame : Frame) (operand : Expr)
    (position : Position) :
    frame.suspend operand op position = ⟨some ⟨frame.close operand, op, position⟩, none⟩ := by
  simp only [suspend, close, hlevel]

theorem suspend_multiplicative (hlevel : op.level = .multiplicative) (frame : Frame)
    (operand : Expr) (position : Position) :
    frame.suspend operand op position =
      ⟨frame.sum, some ⟨Pending.complete frame.product operand, op, position⟩⟩ := by
  simp only [suspend, operandFor, hlevel]

end Frame

namespace Reading

variable {p p' : Parser} {reading : Reading} {kind : Kind} {next : Lexeme → Reading}

theorem eating_congr {next' : Lexeme → Reading} (h : next p.lookahead = next' p.lookahead) :
    eating p kind next = eating p kind next' := by
  unfold eating
  split
  next lexeme p' heat =>
      obtain ⟨-, rfl, -⟩ := Parser.eat_eq_ok_iff.1 heat
      rw [h]
  next => rfl

theorem run_of_eat_ok {lexeme : Lexeme} (hstep : reading.step p = eating p kind next)
    (heat : p.eat kind = (.ok lexeme, p')) : reading.run p = (next lexeme).run p' := by
  apply run_of_more
  rw [hstep, eating, heat]

theorem run_of_eat_error {failure : Failure} (hstep : reading.step p = eating p kind next)
    (heat : p.eat kind = (.error failure, p')) : reading.run p = (.error failure, p') := by
  apply run_of_done
  rw [hstep, eating, heat]

theorem run_congr {reading' : Reading} (h : reading.step p = reading'.step p) :
    reading.run p = reading'.run p := by
  cases hstep : reading'.step p with
  | more next p' => rw [run_of_more (h.trans hstep), run_of_more hstep]
  | done result p' => rw [run_of_done (h.trans hstep), run_of_done hstep]

theorem step_of_integer (frame : Frame) (enclosing : List Frame) {value : Int64}
    (h : p.lookahead.token = .integer value) :
    step ⟨frame, enclosing, none⟩ p =
      eating p .integer fun lexeme => ⟨frame, enclosing, some (.literal value lexeme.position)⟩ := by
  simp [step, readOperand, h]

theorem step_of_leftParen (frame : Frame) (enclosing : List Frame)
    (h : p.lookahead.token = .leftParen) :
    step ⟨frame, enclosing, none⟩ p =
      eating p .leftParen fun _ => ⟨.empty, frame :: enclosing, none⟩ := by
  simp [step, readOperand, h]

theorem step_of_missing (frame : Frame) (enclosing : List Frame)
    (hinteger : ∀ value, p.lookahead.token ≠ .integer value)
    (hopen : p.lookahead.token ≠ .leftParen) :
    step ⟨frame, enclosing, none⟩ p = .done (.error p.operandMissing) p := by
  simp only [step, readOperand]
  split
  case h_1 value htoken => exact absurd htoken (hinteger value)
  case h_2 htoken => exact absurd htoken hopen
  all_goals rfl

theorem step_of_operator (frame : Frame) (enclosing : List Frame) (operand : Expr) {op : Operator}
    (h : p.lookahead.token = .operator op) :
    step ⟨frame, enclosing, some operand⟩ p =
      eating p (.operator op) fun lexeme =>
        ⟨frame.suspend operand op lexeme.position, enclosing, none⟩ := by
  simp [step, readOperator, h]

theorem step_of_close (frame : Frame) (enclosing : List Frame) (operand : Expr)
    (h : ∀ op, p.lookahead.token ≠ .operator op) :
    step ⟨frame, enclosing, some operand⟩ p =
      match enclosing with
      | [] => .done (.ok (frame.close operand)) p
      | outer :: enclosing =>
          eating p .rightParen fun _ => ⟨outer, enclosing, some (frame.close operand)⟩ := by
  simp only [step]
  unfold readOperator
  split
  next op hop => exact absurd hop (h op)
  next => cases enclosing <;> rfl

end Reading

end Calculator
