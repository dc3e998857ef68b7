import Calculator.Calculation
import Calculator.Proofs.Scan
import Calculator.Proofs.Step

/-!
A reading as an automaton on lexemes, apart from the parser that they come from. `parse_eq_readAll`
says that the tree of a source depends on the lexemes in front of its first error alone.
-/

namespace Calculator

namespace Reading

def absorb (reading : Reading) (lexeme : Lexeme) : Option Reading :=
  match reading.operand with
  | none =>
      match lexeme.token with
      | .integer value =>
          some ⟨reading.frame, reading.enclosing, some (.literal value lexeme.position)⟩
      | .leftParen => some ⟨.empty, reading.frame :: reading.enclosing, none⟩
      | .operator _ => none
      | .rightParen => none
      | .endOfInput => none
  | some operand =>
      match lexeme.token with
      | .operator op =>
          some ⟨reading.frame.suspend operand op lexeme.position, reading.enclosing, none⟩
      | .rightParen =>
          match reading.enclosing with
          | [] => none
          | outer :: enclosing => some ⟨outer, enclosing, some (reading.frame.close operand)⟩
      | .integer _ => none
      | .leftParen => none
      | .endOfInput => none

inductive Absorbs : Reading → Lexeme → Reading → Prop
  | literal (frame : Frame) (enclosing : List Frame) (value : Int64) (position : Position) :
      Absorbs ⟨frame, enclosing, none⟩ ⟨.integer value, position⟩
        ⟨frame, enclosing, some (.literal value position)⟩
  | opening (frame : Frame) (enclosing : List Frame) (position : Position) :
      Absorbs ⟨frame, enclosing, none⟩ ⟨.leftParen, position⟩ ⟨.empty, frame :: enclosing, none⟩
  | operator (frame : Frame) (enclosing : List Frame) (operand : Expr) (op : Operator)
      (position : Position) :
      Absorbs ⟨frame, enclosing, some operand⟩ ⟨.operator op, position⟩
        ⟨frame.suspend operand op position, enclosing, none⟩
  | closing (frame outer : Frame) (enclosing : List Frame) (operand : Expr)
      (position : Position) :
      Absorbs ⟨frame, outer :: enclosing, some operand⟩ ⟨.rightParen, position⟩
        ⟨outer, enclosing, some (frame.close operand)⟩

variable {reading reading' : Reading} {lexeme : Lexeme} {lexemes : List Lexeme}

theorem absorb_eq_some_iff :
    reading.absorb lexeme = some reading' ↔ Absorbs reading lexeme reading' := by
  constructor
  · intro h
    obtain ⟨frame, enclosing, operand⟩ := reading
    obtain ⟨token, position⟩ := lexeme
    cases operand with
    | none =>
        cases token <;> cases h
        · exact .literal frame enclosing _ position
        · exact .opening frame enclosing position
    | some operand =>
        cases token with
        | operator op =>
            cases h
            exact .operator frame enclosing operand op position
        | rightParen =>
            cases enclosing with
            | nil => cases h
            | cons outer enclosing =>
                cases h
                exact .closing frame outer enclosing operand position
        | integer value => cases h
        | leftParen => cases h
        | endOfInput => cases h
  · intro h
    cases h <;> rfl

theorem ne_end_of_absorb (h : reading.absorb lexeme = some reading') :
    lexeme.token ≠ .endOfInput := by
  intro hend
  cases absorb_eq_some_iff.1 h <;> cases hend

def absorbAll (reading : Reading) (lexemes : List Lexeme) : Option Reading :=
  lexemes.foldlM absorb reading

theorem absorbAll_cons :
    reading.absorbAll (lexeme :: lexemes) =
      (reading.absorb lexeme).bind fun reading' => reading'.absorbAll lexemes := rfl

theorem absorbAll_append (xs ys : List Lexeme) :
    reading.absorbAll (xs ++ ys) =
      (reading.absorbAll xs).bind fun reading' => reading'.absorbAll ys :=
  List.foldlM_append

theorem absorbAll_keeps {P : Reading → List Lexeme → Prop}
    (hstep : ∀ {reading reading' : Reading} {lexeme : Lexeme} {taken : List Lexeme},
      P reading taken → Absorbs reading lexeme reading' → P reading' (taken ++ [lexeme]))
    {taken : List Lexeme} (h : P reading taken)
    (habsorb : reading.absorbAll lexemes = some reading') : P reading' (taken ++ lexemes) := by
  induction lexemes generalizing reading taken with
  | nil =>
      cases habsorb
      simpa using h
  | cons lexeme lexemes ih =>
      rw [absorbAll_cons] at habsorb
      obtain ⟨next, hnext, hrest⟩ := Option.bind_eq_some_iff.1 habsorb
      simpa using ih (hstep h (absorb_eq_some_iff.1 hnext)) hrest

theorem ne_end_of_absorbAll (h : reading.absorbAll lexemes = some reading') :
    ∀ l ∈ lexemes, l.token ≠ .endOfInput := by
  induction lexemes generalizing reading with
  | nil => simp
  | cons first lexemes ih =>
      rw [absorbAll_cons] at h
      obtain ⟨next, hnext, hrest⟩ := Option.bind_eq_some_iff.1 h
      intro l hl
      rcases List.mem_cons.1 hl with rfl | hl
      · exact ne_end_of_absorb hnext
      · exact ih hrest l hl

theorem exists_refused (h : reading.absorbAll lexemes = none) :
    ∃ taken lexeme rest reading', lexemes = taken ++ lexeme :: rest ∧
      reading.absorbAll taken = some reading' ∧ reading'.absorb lexeme = none := by
  induction lexemes generalizing reading with
  | nil => cases h
  | cons first lexemes ih =>
      cases hfirst : reading.absorb first with
      | none => exact ⟨[], first, lexemes, reading, rfl, rfl, hfirst⟩
      | some next =>
          rw [absorbAll_cons, hfirst] at h
          obtain ⟨taken, lexeme, rest, reading', rfl, htaken, hrefused⟩ := ih h
          refine ⟨first :: taken, lexeme, rest, reading', rfl, ?_, hrefused⟩
          rw [absorbAll_cons, hfirst]
          exact htaken

def whole? (reading : Reading) : Option Expr :=
  match reading.enclosing with
  | [] => reading.operand.map reading.frame.close
  | _ :: _ => none

def complaint (reading : Reading) (lexeme : Lexeme) : ParseError :=
  match reading.operand with
  | none => .operandMissing lexeme.kind lexeme.position
  | some _ =>
      match reading.enclosing with
      | [] => .unexpected .endOfInput lexeme.kind lexeme.position
      | _ :: _ => .unexpected .rightParen lexeme.kind lexeme.position

def readAll (reading : Reading) : List Lexeme → Except ScanError Position → Except Failure Expr
  | [], .error error => .error (.scan error)
  | [], .ok position =>
      match reading.whole? with
      | some e => .ok e
      | none => .error (.parse (reading.complaint ⟨.endOfInput, position⟩))
  | lexeme :: lexemes, ending =>
      match reading.absorb lexeme with
      | some reading' => reading'.readAll lexemes ending
      | none => .error (.parse (reading.complaint lexeme))

theorem readAll_append (h : reading.absorbAll lexemes = some reading') (rest : List Lexeme)
    (ending : Except ScanError Position) :
    reading.readAll (lexemes ++ rest) ending = reading'.readAll rest ending := by
  induction lexemes generalizing reading with
  | nil =>
      cases h
      rfl
  | cons first lexemes ih =>
      rw [absorbAll_cons] at h
      obtain ⟨next, hnext, hrest⟩ := Option.bind_eq_some_iff.1 h
      rw [List.cons_append, readAll, hnext]
      exact ih hrest

variable {p : Parser} {next : Lexeme} {scanner : Scanner}

theorem step_of_absorb (h : reading.absorb p.lookahead = some reading') :
    reading.step p = eating p p.lookahead.kind fun _ => reading' := by
  -- the lookahead is what the cases are on, so it has to be a variable
  generalize hlookahead : p.lookahead = l at h
  have htoken : p.lookahead.token = l.token := by rw [hlookahead]
  cases absorb_eq_some_iff.1 h with
  | literal frame enclosing value position =>
      rw [step_of_integer frame enclosing htoken]
      exact eating_congr (by rw [hlookahead])
  | opening frame enclosing => exact step_of_leftParen frame enclosing htoken
  | operator frame enclosing operand op position =>
      rw [step_of_operator frame enclosing operand htoken]
      exact eating_congr (by rw [hlookahead])
  | closing frame outer enclosing operand =>
      have hnone : ∀ op, p.lookahead.token ≠ .operator op := by simp [htoken]
      exact step_of_close frame (outer :: enclosing) operand hnone

theorem step_of_refused (h : reading.absorb p.lookahead = none) :
    reading.step p =
      match reading.whole? with
      | some e => .done (.ok e) p
      | none => .done (.error (.parse (reading.complaint p.lookahead))) p := by
  obtain ⟨frame, enclosing, operand⟩ := reading
  cases operand with
  | none =>
      have hinteger : ∀ value, p.lookahead.token ≠ .integer value := by
        intro value htoken
        simp [absorb, htoken] at h
      have hopen : p.lookahead.token ≠ .leftParen := by
        intro htoken
        simp [absorb, htoken] at h
      rw [step_of_missing frame enclosing hinteger hopen]
      cases enclosing <;> rfl
  | some operand =>
      have hnone : ∀ op, p.lookahead.token ≠ .operator op := by
        intro op htoken
        simp [absorb, htoken] at h
      rw [step_of_close frame enclosing operand hnone]
      cases enclosing with
      | nil => rfl
      | cons outer enclosing =>
          have hclose : p.lookahead.kind ≠ .rightParen := by
            intro hkind
            have htoken := Token.kind_eq_rightParen_iff.1 hkind
            simp [absorb, htoken] at h
          simp only [eating, Parser.eat_of_ne hclose]
          rfl

theorem run_of_absorb (h : reading.absorb p.lookahead = some reading')
    (hnext : p.scanner.nextToken = (.ok next, scanner)) :
    reading.run p = reading'.run ⟨next, scanner, .ok next :: p.pulled⟩ :=
  run_of_eat_ok (step_of_absorb h) (Parser.eat_of_next rfl hnext)

theorem run_of_absorb_error {error : ScanError} (h : reading.absorb p.lookahead = some reading')
    (hnext : p.scanner.nextToken = (.error error, scanner)) :
    reading.run p = (.error (.scan error), ⟨p.lookahead, scanner, .error error :: p.pulled⟩) :=
  run_of_eat_error (step_of_absorb h) (Parser.eat_of_scan_error rfl hnext)

theorem run_of_refused (h : reading.absorb p.lookahead = none) :
    reading.run p =
      match reading.whole? with
      | some e => (.ok e, p)
      | none => (.error (.parse (reading.complaint p.lookahead)), p) := by
  have hstep := step_of_refused h
  cases hwhole : reading.whole? with
  | some e =>
      rw [hwhole] at hstep
      exact run_of_done hstep
  | none =>
      rw [hwhole] at hstep
      exact run_of_done hstep

theorem whole?_eq_some_iff {e : Expr} :
    reading.whole? = some e ↔
      ∃ frame operand, reading = ⟨frame, [], some operand⟩ ∧ frame.close operand = e := by
  constructor
  · intro h
    obtain ⟨frame, enclosing, operand⟩ := reading
    cases enclosing with
    | nil =>
        obtain ⟨e', rfl, he⟩ := Option.map_eq_some_iff.1 h
        exact ⟨frame, e', rfl, he⟩
    | cons outer enclosing => cases h
  · rintro ⟨frame, operand, rfl, rfl⟩
    rfl

end Reading

namespace Parser

variable {p : Parser}

def ahead (p : Parser) : Scan :=
  if p.lookahead.token = .endOfInput then ⟨[], .ok p.lookahead.position⟩
  else p.scanner.scan.cons p.lookahead

/-- A parser in front of the end of the input stays there. -/
def Settled (p : Parser) : Prop :=
  p.lookahead.token = .endOfInput → p.scanner.nextToken = (.ok p.lookahead, p.scanner)

theorem settled_of_next {scanner scanner' : Scanner} {next : Lexeme}
    (h : scanner.nextToken = (.ok next, scanner')) (pulled : List Item) :
    Settled ⟨next, scanner', pulled⟩ := by
  intro hend
  obtain ⟨token, position⟩ := next
  cases hend
  exact Scanner.nextToken_of_end h

theorem ahead_of_next {scanner scanner' : Scanner} {next : Lexeme}
    (h : scanner.nextToken = (.ok next, scanner')) (pulled : List Item) :
    ahead ⟨next, scanner', pulled⟩ = scanner.scan :=
  (Scanner.scan_of_ok h).symm

def conclude : Except Failure Expr × Parser → Except Failure Expr × Parser
  | (.error failure, p) => (.error failure, p)
  | (.ok e, p) =>
      match p.eat .endOfInput with
      | (.ok _, p') => (.ok e, p')
      | (.error failure, p') => (.error failure, p')

theorem parse_eq_conclude (p : Parser) : p.parse = conclude p.expression := by
  unfold parse conclude
  rcases p.expression with ⟨failure | e, p'⟩ <;> rfl

theorem conclude_of_end {e : Expr} (hend : p.lookahead.token = .endOfInput)
    (hsettled : p.Settled) :
    conclude (.ok e, p) = (.ok e, ⟨p.lookahead, p.scanner, .ok p.lookahead :: p.pulled⟩) := by
  simp only [conclude, eat_of_next (Token.kind_eq_endOfInput_iff.2 hend) (hsettled hend)]

theorem conclude_of_ne {e : Expr} (hne : p.lookahead.token ≠ .endOfInput) :
    conclude (.ok e, p) =
      (.error (.parse (.unexpected .endOfInput p.lookahead.kind p.lookahead.position)), p) := by
  simp only [conclude, eat_of_ne (mt Token.kind_eq_endOfInput_iff.1 hne)]

theorem conclude_run (reading : Reading) (p : Parser) (hsettled : p.Settled) :
    (conclude (reading.run p)).1 = reading.readAll p.ahead.lexemes p.ahead.ending := by
  cases habsorb : reading.absorb p.lookahead with
  | some reading' =>
      have hne := Reading.ne_end_of_absorb habsorb
      rw [ahead, if_neg hne]
      rcases hnext : p.scanner.nextToken with ⟨error | next, scanner⟩
      · rw [Reading.run_of_absorb_error habsorb hnext, Scanner.scan_of_error hnext]
        simp only [Scan.cons, Reading.readAll, habsorb]
        rfl
      · have hkind : p.lookahead.kind ≠ .endOfInput := mt Token.kind_eq_endOfInput_iff.1 hne
        have hlt := remaining_eat_lt (eat_of_next rfl hnext) hkind
        rw [Reading.run_of_absorb habsorb hnext,
          conclude_run reading' _ (settled_of_next hnext _), ahead_of_next hnext]
        simp only [Scan.cons, Reading.readAll, habsorb]
  | none =>
      -- the reading stops here; only in front of the end of the input can it have succeeded
      rw [Reading.run_of_refused habsorb]
      by_cases hend : p.lookahead.token = .endOfInput
      · have hlookahead : (⟨.endOfInput, p.lookahead.position⟩ : Lexeme) = p.lookahead := by
          rw [← hend]
        rw [ahead, if_pos hend, Reading.readAll, hlookahead]
        cases hwhole : reading.whole? with
        | none => rfl
        | some e => exact congrArg Prod.fst (conclude_of_end hend hsettled)
      · rw [ahead, if_neg hend]
        simp only [Scan.cons, Reading.readAll, habsorb]
        cases hwhole : reading.whole? with
        | none => rfl
        | some e =>
            obtain ⟨frame, operand, rfl, -⟩ := Reading.whole?_eq_some_iff.1 hwhole
            exact congrArg Prod.fst (conclude_of_ne hend)
termination_by p.remaining

end Parser

theorem parse_eq_readAll (source : String) :
    parse source =
      Reading.start.readAll (Scan.ofString source).lexemes (Scan.ofString source).ending := by
  unfold parse parseWithItems Parser.ofString Parser.start Scan.ofString
  rcases hnext : (Scanner.ofString source).nextToken with ⟨error | next, scanner⟩
  · rw [Scanner.scan_of_error hnext]
    rfl
  · have hrun := Parser.conclude_run Reading.start _ (Parser.settled_of_next hnext [.ok next])
    rw [Parser.ahead_of_next hnext] at hrun
    rw [← hrun]
    simp only [Parser.parse_eq_conclude]
    rfl

end Calculator
