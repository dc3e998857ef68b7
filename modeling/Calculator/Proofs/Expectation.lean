import Calculator.Proofs.Log

/-!
Which error a parser reports. The last lexeme it has consumed tells whether an operand is due, and
the balance of the parentheses whether a group is open; what would have been accepted instead could
indeed have stood there.
-/

namespace Calculator

def OperandDue (taken : List Lexeme) : Prop :=
  ∀ last ∈ taken.getLast?, last.kind = .leftParen ∨ ∃ op, last.kind = .operator op

theorem operandDue_nil : OperandDue [] := by simp [OperandDue]

theorem operandDue_concat {taken : List Lexeme} {lexeme : Lexeme} :
    OperandDue (taken ++ [lexeme]) ↔
      lexeme.kind = .leftParen ∨ ∃ op, lexeme.kind = .operator op := by
  simp [OperandDue]

def kindCount (kind : Kind) (taken : List Lexeme) : Nat := (taken.map Lexeme.kind).count kind

theorem kindCount_concat (kind : Kind) (taken : List Lexeme) (lexeme : Lexeme) :
    kindCount kind (taken ++ [lexeme]) =
      kindCount kind taken + if lexeme.kind = kind then 1 else 0 := by
  simp [kindCount, List.count_singleton]

namespace Reading

/-- The reading waits for an operand just when the lexemes say so, and each parenthesis that they
leave open has suspended a frame. -/
structure Tallied (reading : Reading) (taken : List Lexeme) : Prop where
  due : reading.operand = none ↔ OperandDue taken
  depth : kindCount .leftParen taken = kindCount .rightParen taken + reading.enclosing.length

theorem tallied_start : start.Tallied [] where
  due := iff_of_true rfl operandDue_nil
  depth := rfl

variable {reading reading' : Reading} {lexeme : Lexeme} {taken lexemes : List Lexeme}

theorem Tallied.absorb (h : reading.Tallied taken) (habsorb : Absorbs reading lexeme reading') :
    reading'.Tallied (taken ++ [lexeme]) := by
  have hdepth := h.depth
  cases habsorb with
  | literal frame enclosing value position =>
      refine ⟨?_, ?_⟩
      · simp [operandDue_concat, Lexeme.kind, Token.kind]
      · simpa [kindCount_concat, Lexeme.kind, Token.kind] using hdepth
  | opening frame enclosing position =>
      refine ⟨?_, ?_⟩
      · simp [operandDue_concat, Lexeme.kind, Token.kind]
      · simp [kindCount_concat, Lexeme.kind, Token.kind] at hdepth ⊢
        omega
  | operator frame enclosing operand op position =>
      refine ⟨?_, ?_⟩
      · simp [operandDue_concat, Lexeme.kind, Token.kind]
      · simpa [kindCount_concat, Lexeme.kind, Token.kind] using hdepth
  | closing frame outer enclosing operand position =>
      refine ⟨?_, ?_⟩
      · simp [operandDue_concat, Lexeme.kind, Token.kind]
      · simp [kindCount_concat, Lexeme.kind, Token.kind] at hdepth ⊢
        omega

theorem tallied_of_absorbAll (h : start.absorbAll taken = some reading) :
    reading.Tallied taken :=
  absorbAll_keeps Tallied.absorb tallied_start h

theorem complaint_of_due (h : reading.operand = none) (lexeme : Lexeme) :
    reading.complaint lexeme = .operandMissing lexeme.kind lexeme.position := by
  rw [complaint, h]

theorem complaint_of_open {operand : Expr} {outer : Frame} {enclosing : List Frame}
    (h : reading.operand = some operand) (hopen : reading.enclosing = outer :: enclosing)
    (lexeme : Lexeme) :
    reading.complaint lexeme = .unexpected .rightParen lexeme.kind lexeme.position := by
  rw [complaint, h, hopen]

theorem complaint_of_closed {operand : Expr} (h : reading.operand = some operand)
    (hclosed : reading.enclosing = []) (lexeme : Lexeme) :
    reading.complaint lexeme = .unexpected .endOfInput lexeme.kind lexeme.position := by
  rw [complaint, h, hclosed]

theorem viable_of_expected {l : Lexeme} (h : start.absorbAll taken = some reading)
    (hexpected : l.kind ∈ (reading.complaint lexeme).expected) : Viable (taken ++ [l]) := by
  have hviable : ∀ reading', Absorbs reading l reading' → Viable (taken ++ [l]) := by
    intro reading' habsorb
    have hall : start.absorbAll (taken ++ [l]) = some reading' := by
      rw [absorbAll_append, h, Option.bind_some, absorbAll_cons, absorb_eq_some_iff.2 habsorb]
      rfl
    exact viable_of_absorbAll hall
  obtain ⟨frame, enclosing, operand⟩ := reading
  obtain ⟨token, position⟩ := l
  cases operand with
  | none =>
      rw [complaint_of_due rfl, ParseError.expected, List.mem_cons, List.mem_singleton] at hexpected
      rcases hexpected with hinteger | hopen
      · obtain ⟨value, rfl⟩ := Token.kind_eq_integer_iff.1 hinteger
        exact hviable _ (.literal frame enclosing value position)
      · obtain rfl := Token.kind_eq_leftParen_iff.1 hopen
        exact hviable _ (.opening frame enclosing position)
  | some operand =>
      cases enclosing with
      | nil =>
          rw [complaint_of_closed rfl rfl, ParseError.expected, List.mem_singleton] at hexpected
          obtain rfl := Token.kind_eq_endOfInput_iff.1 hexpected
          exact viable_end h rfl position
      | cons outer enclosing =>
          rw [complaint_of_open rfl rfl, ParseError.expected, List.mem_singleton] at hexpected
          obtain rfl := Token.kind_eq_rightParen_iff.1 hexpected
          exact hviable _ (.closing frame outer enclosing operand position)

structure StuckAt (reading : Reading) (taken : List Lexeme) (lexeme : Lexeme) : Prop where
  taken : start.absorbAll taken = some reading
  refused : reading.absorb lexeme = none
  unfinished : lexeme.token = .endOfInput → reading.whole? = none

namespace StuckAt

theorem not_viable (h : reading.StuckAt taken lexeme) : ¬Viable (taken ++ [lexeme]) := by
  by_cases hend : lexeme.token = .endOfInput
  · have hlexeme : lexeme = ⟨.endOfInput, lexeme.position⟩ := by rw [← hend]
    rw [hlexeme]
    exact not_viable_end h.taken (h.unfinished hend) lexeme.position
  · exact not_viable_of_refused h.taken h.refused hend

theorem complaint_eq (h : reading.StuckAt taken lexeme) :
    (OperandDue taken →
      reading.complaint lexeme = .operandMissing lexeme.kind lexeme.position) ∧
    (¬OperandDue taken → kindCount .rightParen taken < kindCount .leftParen taken →
      reading.complaint lexeme = .unexpected .rightParen lexeme.kind lexeme.position) ∧
    (¬OperandDue taken → ¬kindCount .rightParen taken < kindCount .leftParen taken →
      reading.complaint lexeme = .unexpected .endOfInput lexeme.kind lexeme.position) := by
  obtain ⟨hdue, hdepth⟩ := tallied_of_absorbAll h.taken
  refine ⟨fun htaken => complaint_of_due (hdue.2 htaken) lexeme, ?_, ?_⟩
  · intro htaken hopen
    obtain ⟨operand, hoperand⟩ := Option.ne_none_iff_exists'.1 (mt hdue.1 htaken)
    obtain ⟨outer, enclosing, henclosing⟩ : ∃ outer enclosing,
        reading.enclosing = outer :: enclosing :=
      List.exists_cons_of_length_pos (by omega)
    exact complaint_of_open hoperand henclosing lexeme
  · intro htaken hclosed
    obtain ⟨operand, hoperand⟩ := Option.ne_none_iff_exists'.1 (mt hdue.1 htaken)
    have henclosing : reading.enclosing = [] := List.length_eq_zero_iff.1 (by omega)
    exact complaint_of_closed hoperand henclosing lexeme

end StuckAt

namespace Course

variable {p p' : Parser} {result : Except Failure Expr × Parser} {error : ParseError}

theorem stuck (h : Course start p lexemes result) (hsettled : p.Settled)
    (hresult : Parser.conclude result = (.error (.parse error), p')) :
    ∃ reading : Reading, reading.StuckAt lexemes p'.lookahead ∧
      error = reading.complaint p'.lookahead ∧
      ∃ rest, p.ahead.tokens = lexemes ++ p'.lookahead :: rest := by
  have hahead := h.ahead
  obtain ⟨failure | e, q⟩ := result
  · cases hresult
    rcases h.fails with ⟨_, hscan⟩ | ⟨reading, htaken, hrefused, hwhole, herror⟩
    · cases hscan
    · cases herror
      exact ⟨reading, ⟨htaken, hrefused, fun _ => hwhole⟩, rfl, Parser.tokens_of_ahead hahead⟩
  · by_cases hend : q.lookahead.token = .endOfInput
    · rw [Parser.conclude_of_end hend (h.settled hsettled rfl)] at hresult
      cases hresult
    · rw [Parser.conclude_of_ne hend] at hresult
      cases hresult
      obtain ⟨reading, htaken, hwhole, hrefused⟩ := h.absorbAll
      refine ⟨reading, ⟨htaken, hrefused, fun h => absurd h hend⟩, ?_,
        Parser.tokens_of_ahead hahead⟩
      obtain ⟨frame, operand, rfl, -⟩ := whole?_eq_some_iff.1 hwhole
      exact (complaint_of_closed rfl rfl p'.lookahead).symm

end Course

end Reading

namespace Parser

variable {source : String} {p : Parser}

theorem ahead_of_ofString (h : ofString source = .ok p) :
    p.ahead = Scan.ofString source ∧ p.Settled := by
  unfold ofString start at h
  unfold Scan.ofString
  split at h
  next next scanner hnext =>
      cases h
      exact ⟨ahead_of_next hnext _, settled_of_next hnext _⟩
  next => cases h

theorem parse_of_ofString (h : ofString source = .ok p) :
    Calculator.parse source = p.parse.1 := by
  simp only [Calculator.parse, parseWithItems, h]

theorem exists_ofString {error : ParseError}
    (h : Calculator.parse source = .error (.parse error)) : ∃ p, ofString source = .ok p := by
  cases hfirst : ofString source with
  | ok p => exact ⟨p, rfl⟩
  | error error' =>
      simp only [Calculator.parse, parseWithItems, hfirst] at h
      cases h

end Parser

theorem parse_complaint {source : String} {error : ParseError}
    (h : parse source = .error (.parse error)) :
    ∃ p taken lexeme rest, Parser.ofString source = .ok p ∧
      p.consumed .expression = taken ∧ p.parse.2.lookahead = lexeme ∧
      (Scan.ofString source).tokens = taken ++ lexeme :: rest ∧
      (OperandDue taken → error = .operandMissing lexeme.kind lexeme.position) ∧
      (¬OperandDue taken → kindCount .rightParen taken < kindCount .leftParen taken →
        error = .unexpected .rightParen lexeme.kind lexeme.position) ∧
      (¬OperandDue taken → ¬kindCount .rightParen taken < kindCount .leftParen taken →
        error = .unexpected .endOfInput lexeme.kind lexeme.position) ∧
      (∀ l : Lexeme, l.kind ∈ error.expected → Viable (taken ++ [l])) ∧
      ¬Viable (taken ++ [lexeme]) := by
  obtain ⟨p, hfirst⟩ := Parser.exists_ofString h
  obtain ⟨hahead, hsettled⟩ := Parser.ahead_of_ofString hfirst
  have hconclude : Parser.conclude (Reading.start.run p) = (.error (.parse error), p.parse.2) := by
    rw [← h, Parser.parse_of_ofString hfirst, Parser.parse_eq_conclude, Parser.expression]
  obtain ⟨reading, hstuck, rfl, rest, htokens⟩ :=
    (Reading.start.course p).stuck hsettled hconclude
  rw [hahead] at htokens
  obtain ⟨hdue, hopen, hclosed⟩ := hstuck.complaint_eq
  exact ⟨p, _, _, rest, hfirst, rfl, rfl, htokens, hdue, hopen, hclosed,
    fun l => Reading.viable_of_expected hstuck.taken, hstuck.not_viable⟩

-- One group has been closed and one is still open where the second number stands.
theorem parse_complaint_open :
    parse "7-(2*(3)\n 4" = .error (.parse (.unexpected .rightParen .integer ⟨2, 2⟩)) ∧
      ∃ p taken lexeme rest, Parser.ofString "7-(2*(3)\n 4" = .ok p ∧
        p.consumed .expression = taken ∧ p.parse.2.lookahead = lexeme ∧
        (Scan.ofString "7-(2*(3)\n 4").tokens = taken ++ lexeme :: rest ∧
        (OperandDue taken → ParseError.unexpected .rightParen .integer ⟨2, 2⟩ =
          .operandMissing lexeme.kind lexeme.position) ∧
        (¬OperandDue taken → kindCount .rightParen taken < kindCount .leftParen taken →
          ParseError.unexpected .rightParen .integer ⟨2, 2⟩ =
            .unexpected .rightParen lexeme.kind lexeme.position) ∧
        (¬OperandDue taken → ¬kindCount .rightParen taken < kindCount .leftParen taken →
          ParseError.unexpected .rightParen .integer ⟨2, 2⟩ =
            .unexpected .endOfInput lexeme.kind lexeme.position) ∧
        (∀ l : Lexeme, l.kind ∈ [.rightParen] → Viable (taken ++ [l])) ∧
        ¬Viable (taken ++ [lexeme]) := by
  have h : parse "7-(2*(3)\n 4" = .error (.parse (.unexpected .rightParen .integer ⟨2, 2⟩)) := by
    with_unfolding_all rfl
  exact ⟨h, parse_complaint h⟩

end Calculator
