import Calculator.Proofs.Derivation

/-!
What a parser consumes of the items of its scanner. `Course` is the run of a reading told by the
items that it draws, and `InStep` what every call keeps, also a call that fails: the lexemes consumed
and the lookahead are all that has been scanned, each once and in order.
-/

namespace Calculator

namespace Scanner

def take (s : Scanner) (n : Nat) : List Item := (List.range n).map s.item

theorem take_succ (s : Scanner) (n : Nat) : s.take (n + 1) = s.take n ++ [s.item n] := by
  simp [take, List.range_succ]

end Scanner

namespace Reading

def consumed (reading : Reading) (p : Parser) : List Lexeme :=
  match _h : reading.step p with
  | .more reading' p' => p.lookahead :: consumed reading' p'
  | .done _ _ => []
termination_by p.remaining
decreasing_by exact remaining_step_lt _h

variable {reading reading' : Reading} {p p' : Parser} {lexemes : List Lexeme}
  {result : Except Failure Expr}

theorem consumed_of_more (h : reading.step p = .more reading' p') :
    reading.consumed p = p.lookahead :: reading'.consumed p' := by
  rw [consumed]
  split
  next h' =>
      rw [h] at h'
      cases h'
      rfl
  next h' =>
      rw [h] at h'
      cases h'

theorem consumed_of_done (h : reading.step p = .done result p') : reading.consumed p = [] := by
  rw [consumed]
  split
  next h' =>
      rw [h] at h'
      cases h'
  next => rfl

/-- A reading from a parser on, the lexemes that it consumes, and what it comes to. -/
inductive Course : Reading → Parser → List Lexeme → Except Failure Expr × Parser → Prop
  | consumed {reading reading' : Reading} {p : Parser} {next : Lexeme} {scanner : Scanner}
      {lexemes : List Lexeme} {result : Except Failure Expr × Parser} :
      reading.absorb p.lookahead = some reading' → p.scanner.nextToken = (.ok next, scanner) →
        Course reading' ⟨next, scanner, .ok next :: p.pulled⟩ lexemes result →
          Course reading p (p.lookahead :: lexemes) result
  | unscanned {reading reading' : Reading} {p : Parser} {error : ScanError} {scanner : Scanner} :
      reading.absorb p.lookahead = some reading' → p.scanner.nextToken = (.error error, scanner) →
        Course reading p []
          (.error (.scan error), ⟨p.lookahead, scanner, .error error :: p.pulled⟩)
  | whole {reading : Reading} {p : Parser} {e : Expr} :
      reading.absorb p.lookahead = none → reading.whole? = some e → Course reading p [] (.ok e, p)
  | refused {reading : Reading} {p : Parser} :
      reading.absorb p.lookahead = none → reading.whole? = none →
        Course reading p [] (.error (.parse (reading.complaint p.lookahead)), p)

theorem course (reading : Reading) (p : Parser) :
    Course reading p (reading.consumed p) (reading.run p) := by
  cases habsorb : reading.absorb p.lookahead with
  | some reading' =>
      have hne := ne_end_of_absorb habsorb
      have hstep := step_of_absorb habsorb
      rcases hnext : p.scanner.nextToken with ⟨error | next, scanner⟩
      · have heat := Parser.eat_of_scan_error rfl hnext
        simp only [eating, heat] at hstep
        rw [consumed_of_done hstep, run_of_done hstep]
        exact .unscanned habsorb hnext
      · have heat := Parser.eat_of_next rfl hnext
        have hlt := Parser.remaining_eat_lt heat (mt Token.kind_eq_endOfInput_iff.1 hne)
        simp only [eating, heat] at hstep
        rw [consumed_of_more hstep, run_of_more hstep]
        exact .consumed habsorb hnext (course reading' _)
  | none =>
      have hstep := step_of_refused habsorb
      cases hwhole : reading.whole? with
      | some e =>
          rw [hwhole] at hstep
          rw [consumed_of_done hstep, run_of_done hstep]
          exact .whole habsorb hwhole
      | none =>
          rw [hwhole] at hstep
          rw [consumed_of_done hstep, run_of_done hstep]
          exact .refused habsorb hwhole
termination_by p.remaining

namespace Course

theorem absorbAll {e : Expr} (h : Course reading p lexemes (.ok e, p')) :
    ∃ reading', reading.absorbAll lexemes = some reading' ∧ reading'.whole? = some e ∧
      reading'.absorb p'.lookahead = none := by
  generalize hresult : (Except.ok e, p') = result at h
  induction h with
  | consumed habsorb _ _ ih =>
      rw [absorbAll_cons, habsorb]
      exact ih hresult
  | unscanned => cases hresult
  | whole habsorb hwhole =>
      cases hresult
      exact ⟨_, rfl, hwhole, habsorb⟩
  | refused => cases hresult

theorem head? {e : Expr} (h : Course start p lexemes (.ok e, p')) :
    lexemes.head? = some p.lookahead := by
  cases h with
  | consumed => rfl
  | whole _ hwhole => cases hwhole

end Course

end Reading

namespace Parser

def drawn (p : Parser) : Nat := p.pulled.length

/-- The parser has drawn the first items of the scanner. What was scanned of them has been consumed,
all but the lookahead. -/
structure InStep (s : Scanner) (consumed : List Lexeme) (p : Parser) : Prop where
  scanner : p.scanner = s.after p.drawn
  pulled : p.pulled.reverse = s.take p.drawn
  lexemes : (s.take p.drawn).filterMap Except.toOption = consumed ++ [p.lookahead]

namespace InStep

variable {s : Scanner} {consumed : List Lexeme} {p p' : Parser}

theorem start {s : Scanner} {p : Parser} (h : Parser.start s = .ok p) : InStep s [] p := by
  unfold Parser.start at h
  split at h
  next lexeme scanner hnext =>
      cases h
      have hitem : s.item 0 = .ok lexeme := congrArg Prod.fst hnext
      have htake : s.take 1 = [.ok lexeme] := by
        rw [← hitem]
        rfl
      refine ⟨(congrArg Prod.snd hnext).symm, htake.symm, ?_⟩
      change (s.take 1).filterMap Except.toOption = [lexeme]
      rw [htake]
      rfl
  next => cases h

theorem nextToken (h : InStep s consumed p) :
    p.scanner.nextToken = (s.item p.drawn, s.after (p.drawn + 1)) := by
  rw [h.scanner]
  rfl

theorem draw (h : InStep s consumed p) :
    (s.item p.drawn :: p.pulled).reverse = s.take (p.drawn + 1) := by
  rw [List.reverse_cons, h.pulled, Scanner.take_succ]

theorem eat (h : InStep s consumed p) (expected : Kind) :
    InStep s (consumed ++ (p.eat expected).1.toOption.toList) (p.eat expected).2 := by
  by_cases hkind : p.lookahead.kind = expected
  · have hdraw := h.draw
    have hlexemes := congrArg (List.filterMap Except.toOption) (s.take_succ p.drawn)
    rw [List.filterMap_append, h.lexemes] at hlexemes
    rcases hitem : s.item p.drawn with error | next
    · rw [hitem] at hdraw hlexemes
      rw [eat_of_scan_error hkind (hitem ▸ h.nextToken)]
      refine ⟨rfl, hdraw, hlexemes.trans ?_⟩
      simp [Except.toOption]
    · rw [hitem] at hdraw hlexemes
      rw [eat_of_next hkind (hitem ▸ h.nextToken)]
      exact ⟨rfl, hdraw, hlexemes⟩
  · rw [eat_of_ne hkind]
    have hnone : consumed ++ [] = consumed := List.append_nil consumed
    exact hnone.symm ▸ h

theorem course {reading : Reading} {lexemes : List Lexeme} {r : Except Failure Expr × Parser}
    (h : InStep s consumed p) (hcourse : Reading.Course reading p lexemes r) :
    InStep s (consumed ++ lexemes) r.2 := by
  induction hcourse generalizing consumed with
  | @consumed _ _ p _ _ _ _ _ hnext _ ih =>
      have hstep := h.eat p.lookahead.kind
      rw [eat_of_next rfl hnext] at hstep
      simpa [Except.toOption] using ih hstep
  | @unscanned _ _ p _ _ _ hnext =>
      have hstep := h.eat p.lookahead.kind
      rw [eat_of_scan_error rfl hnext] at hstep
      exact hstep
  | whole => simpa using h
  | refused => simpa using h

end InStep

inductive Call where
  | eat (expected : Kind)
  | expression
deriving DecidableEq, Repr

def afterCall (p : Parser) : Call → Parser
  | .eat expected => (p.eat expected).2
  | .expression => p.expression.2

def afterCalls (p : Parser) (calls : List Call) : Parser := calls.foldl afterCall p

def consumed (p : Parser) : Call → List Lexeme
  | .eat expected => (p.eat expected).1.toOption.toList
  | .expression => Reading.start.consumed p

def consumedBy (p : Parser) : List Call → List Lexeme
  | [] => []
  | c :: calls => p.consumed c ++ (p.afterCall c).consumedBy calls

namespace InStep

variable {s : Scanner} {consumed : List Lexeme} {p : Parser}

theorem call (h : InStep s consumed p) (c : Call) :
    InStep s (consumed ++ p.consumed c) (p.afterCall c) := by
  cases c with
  | eat expected => exact h.eat expected
  | expression => exact h.course (Reading.start.course p)

theorem calls (h : InStep s consumed p) (calls : List Call) :
    InStep s (consumed ++ p.consumedBy calls) (p.afterCalls calls) := by
  induction calls generalizing consumed p with
  | nil => simpa [consumedBy, afterCalls] using h
  | cons c calls ih => simpa [consumedBy, afterCalls] using ih (h.call c)

theorem eat_of_ok (h : InStep s consumed p) {next : Lexeme} (hitem : s.item p.drawn = .ok next) :
    ∃ p', p.eat p.lookahead.kind = (.ok p.lookahead, p') ∧ p'.drawn = p.drawn + 1 ∧
      p'.lookahead = next :=
  ⟨_, eat_of_next rfl (hitem ▸ h.nextToken), rfl, rfl⟩

theorem eat_of_error (h : InStep s consumed p) {error : ScanError}
    (hitem : s.item p.drawn = .error error) :
    ∃ p', p.eat p.lookahead.kind = (.error (.scan error), p') ∧ p'.drawn = p.drawn + 1 ∧
      p'.lookahead = p.lookahead :=
  ⟨_, eat_of_scan_error rfl (hitem ▸ h.nextToken), rfl, rfl⟩

end InStep

theorem ofString_eq_error_iff {source : String} {error : ScanError} :
    ofString source = .error error ↔ (Scanner.ofString source).item 0 = .error error := by
  change start (Scanner.ofString source) = _ ↔ (Scanner.ofString source).nextToken.1 = _
  unfold start
  rcases (Scanner.ofString source).nextToken with ⟨error' | next, scanner⟩ <;> simp

theorem expression_ok {p p' : Parser} {e : Expr} (h : p.expression = (.ok e, p')) :
    (Reading.start.consumed p).head? = some p.lookahead ∧
      (∀ e', Derives (.chain .additive) (Reading.start.consumed p) e' ↔ e' = e) ∧
      ∀ op, p'.lookahead.token ≠ .operator op := by
  have hcourse := Reading.start.course p
  rw [show Reading.start.run p = (.ok e, p') from h] at hcourse
  obtain ⟨reading, habsorb, hwhole, hrefused⟩ := hcourse.absorbAll
  have hderives := Reading.derives_iff_absorbAll.2 ⟨reading, habsorb, hwhole⟩
  refine ⟨hcourse.head?, fun e' => ⟨fun h' => h'.tree_unique hderives, ?_⟩, ?_⟩
  · rintro rfl
    exact hderives
  · intro op hop
    obtain ⟨frame, operand, rfl, -⟩ := Reading.whole?_eq_some_iff.1 hwhole
    simp [Reading.absorb, hop] at hrefused

/-- Whatever has been asked of a parser, and whether or not it failed, what it has consumed and the
lookahead are the lexemes scanned so far. A lexeme is consumed just when the next item is scanned. -/
theorem calls_in_step (source : String) :
    (∀ error, ofString source = .error error ↔
      (Scanner.ofString source).item 0 = .error error) ∧
    ∀ first, ofString source = .ok first → ∀ calls p, first.afterCalls calls = p →
      InStep (Scanner.ofString source) (first.consumedBy calls) p ∧
      (∀ expected, p.lookahead.kind ≠ expected →
        p.eat expected =
          (.error (.parse (.unexpected expected p.lookahead.kind p.lookahead.position)), p)) ∧
      (∀ next, (Scanner.ofString source).item p.drawn = .ok next →
        ∃ p', p.eat p.lookahead.kind = (.ok p.lookahead, p') ∧ p'.drawn = p.drawn + 1 ∧
          p'.lookahead = next) ∧
      (∀ error, (Scanner.ofString source).item p.drawn = .error error →
        ∃ p', p.eat p.lookahead.kind = (.error (.scan error), p') ∧ p'.drawn = p.drawn + 1 ∧
          p'.lookahead = p.lookahead) ∧
      ∀ e p', p.expression = (.ok e, p') →
        (p.consumed .expression).head? = some p.lookahead ∧
          ((Scanner.ofString source).take p'.drawn).filterMap Except.toOption =
            first.consumedBy calls ++ (p.consumed .expression ++ [p'.lookahead]) ∧
          (∀ e', Derives (.chain .additive) (p.consumed .expression) e' ↔ e' = e) ∧
          ∀ op, p'.lookahead.token ≠ .operator op := by
  refine ⟨fun error => ofString_eq_error_iff, ?_⟩
  rintro first hfirst calls p rfl
  have hstep := (InStep.start hfirst).calls calls
  rw [List.nil_append] at hstep
  refine ⟨hstep, fun expected => eat_of_ne, fun next => hstep.eat_of_ok,
    fun error => hstep.eat_of_error, ?_⟩
  intro e p' hexpression
  obtain ⟨hhead, htree, hoperator⟩ := expression_ok hexpression
  have hafter := (hstep.call .expression).lexemes
  rw [afterCall, hexpression, List.append_assoc] at hafter
  exact ⟨hhead, hafter, htree, hoperator⟩

-- The first call fails in front of the character, and the second goes on behind it.
example :
    (ofString "1 $+ 2").toOption.map (fun p => p.consumedBy [.eat .integer, .expression]) =
      some [⟨.integer 1, ⟨1, 1⟩⟩, ⟨.operator .add, ⟨1, 4⟩⟩, ⟨.integer 2, ⟨1, 6⟩⟩] := by
  with_unfolding_all rfl

end Parser

end Calculator
