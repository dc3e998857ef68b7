import Calculator.Proofs.Expectation

namespace Calculator

namespace Reading

/-- A state at the start of a pass, of a reading that began at `p`, and the lexemes consumed before
it. -/
inductive Pass (p : Parser) : List Lexeme → Reading → Parser → Prop
  | first : Pass p [] start p
  | next {taken : List Lexeme} {reading reading' : Reading} {q q' : Parser} :
      Pass p taken reading q → reading.step q = .more reading' q' →
        Pass p (taken ++ [q.lookahead]) reading' q'

variable {reading reading' : Reading} {p q q' : Parser} {taken : List Lexeme}

theorem absorbs_of_step (h : reading.step q = .more reading' q') :
    Absorbs reading q.lookahead reading' ∧ q.eat q.lookahead.kind = (.ok q.lookahead, q') := by
  cases habsorb : reading.absorb q.lookahead with
  | some next =>
      rw [step_of_absorb habsorb, eating] at h
      split at h
      next lexeme parser heat =>
          cases h
          obtain ⟨-, rfl, -⟩ := Parser.eat_eq_ok_iff.1 heat
          exact ⟨absorb_eq_some_iff.1 habsorb, heat⟩
      next => cases h
  | none =>
      rw [step_of_refused habsorb] at h
      split at h <;> cases h

theorem opens_iff_of_absorbs {lexeme : Lexeme} (h : Absorbs reading lexeme reading')
    (hdue : reading.operand = none) : reading'.operand = none ↔ lexeme.token = .leftParen := by
  cases h with
  | literal frame enclosing value position => simp
  | opening frame enclosing position => simp
  | operator frame enclosing operand op position => cases hdue
  | closing frame outer enclosing operand position => cases hdue

namespace Pass

theorem absorbAll (h : Pass p taken reading q) : start.absorbAll taken = some reading := by
  induction h with
  | first => rfl
  | next _ hstep ih =>
      have habsorb := absorb_eq_some_iff.2 (absorbs_of_step hstep).1
      rw [absorbAll_append, ih, Option.bind_some, absorbAll_cons, habsorb]
      rfl

theorem drawn_eq (h : Pass p taken reading q) : q.drawn = p.drawn + taken.length := by
  induction h with
  | first => rfl
  | next _ hstep ih =>
      obtain ⟨-, heat⟩ := absorbs_of_step hstep
      obtain ⟨-, -, next, scanner, -, rfl⟩ := Parser.eat_eq_ok_iff.1 heat
      rw [List.length_append, List.length_singleton, ← Nat.add_assoc, ← ih]
      rfl

theorem length_add_remaining_le (h : Pass p taken reading q) :
    taken.length + q.remaining ≤ p.remaining := by
  induction h with
  | first => simp
  | next _ hstep ih =>
      have hlt := remaining_step_lt hstep
      rw [List.length_append, List.length_singleton]
      omega

theorem step_done {reading : Reading} {q : Parser} {taken : List Lexeme}
    (h : Pass p taken reading q) :
    ∃ reading' q', Pass p (taken ++ reading.consumed q) reading' q' ∧
      reading'.step q' = .done (reading.run q).1 (reading.run q).2 := by
  cases hstep : reading.step q with
  | done result q' =>
      rw [consumed_of_done hstep, run_of_done hstep, List.append_nil]
      exact ⟨reading, q, h, hstep⟩
  | more reading' q' =>
      -- one pass further there is less to consume
      have hlt := remaining_step_lt hstep
      have hlast := step_done (h.next hstep)
      rw [List.append_assoc, List.singleton_append] at hlast
      rw [consumed_of_more hstep, run_of_more hstep]
      exact hlast
termination_by q.remaining

end Pass

end Reading

namespace Scan

def before (scan : Scan) (position : Position) : List Lexeme :=
  scan.tokens.filter fun lexeme => lexeme.position < position

theorem tokens_eq_filterMap (scan : Scan) : scan.tokens = scan.items.filterMap Except.toOption := by
  rw [items, List.filterMap_append, filterMap_toOption_ok, filterMap_toOption_failing,
    List.append_nil]

theorem before_item {source : String} {taken : List Lexeme} {item : Item} {more : List Item}
    (h : (ofString source).items = taken.map .ok ++ item :: more) :
    (ofString source).before item.position = taken := by
  have hincreasing := increasing_items source
  rw [h, List.map_append, List.map_cons, List.pairwise_append, List.pairwise_cons] at hincreasing
  obtain ⟨-, ⟨hmore, -⟩, htaken⟩ := hincreasing
  -- of the items, all in front of the place have been scanned, and none of the others is there
  have htokens : (ofString source).tokens = taken ++ (item :: more).filterMap Except.toOption := by
    rw [tokens_eq_filterMap, h, List.filterMap_append, filterMap_toOption_ok]
  have hfront : ∀ l ∈ taken, l.position < item.position := by
    intro l hl
    exact htaken _ (List.mem_map_of_mem (List.mem_map_of_mem hl)) _ List.mem_cons_self
  have hbehind : ∀ l ∈ (item :: more).filterMap Except.toOption, ¬l.position < item.position := by
    intro l hl hlt
    obtain ⟨item', hitem', hl⟩ := List.mem_filterMap.1 hl
    obtain rfl : item' = .ok l := by
      cases item' <;> cases hl
      rfl
    rcases List.mem_cons.1 hitem' with rfl | hmem
    · exact Position.lt_irrefl _ hlt
    · have hgt := hmore _ (List.mem_map_of_mem hmem)
      exact Position.lt_irrefl _ (Position.lt_trans hlt hgt)
  rw [before, htokens, List.filter_append, List.filter_eq_self.2 (by simpa using hfront),
    List.filter_eq_nil_iff.2 (by simpa using hbehind), List.append_nil]

end Scan

namespace Drawn

variable {source : String} {items : List Item}

theorem length_of_ok {e : Expr} (h : Drawn (Scan.ofString source) (.ok e) items) :
    items.length = (Scan.ofString source).lexemes.length + 2 := by
  cases h with
  | read hending => simp [Scan.tokens, hending]

theorem last_of_error {scan : Scan} {failure : Failure} (h : Drawn scan (.error failure) items) :
    ∃ (taken : List Lexeme) (item : Item) (more : List Item),
      scan.items = taken.map .ok ++ item :: more ∧
      items = taken.map .ok ++ [item] ∧ failure.position = item.position := by
  cases h with
  | @refused taken rest lexeme error htokens _ hposition =>
      refine ⟨taken, .ok lexeme, rest.map .ok ++ Scan.failing scan.ending, ?_, ?_, hposition⟩
      · rw [Scan.items, htokens]
        simp
      · exact List.map_append
  | @unscanned error hending =>
      have hitems : scan.items = scan.tokens.map .ok ++ [.error error] := by
        rw [Scan.items, hending]
        rfl
      exact ⟨scan.tokens, .error error, [], hitems, hitems, rfl⟩

theorem length_of_error {failure : Failure}
    (h : Drawn (Scan.ofString source) (.error failure) items) :
    items.length = ((Scan.ofString source).before failure.position).length + 1 := by
  obtain ⟨taken, item, more, hitems, rfl, hposition⟩ := h.last_of_error
  rw [hposition, Scan.before_item hitems]
  simp

end Drawn

namespace Parser

theorem InStep.parse {s : Scanner} {consumed : List Lexeme} {p : Parser}
    (h : InStep s consumed p) : ∃ consumed', InStep s consumed' p.parse.2 := by
  have hexpression : InStep s (consumed ++ p.consumed .expression) p.expression.2 :=
    h.call .expression
  rw [parse_eq_conclude]
  generalize p.expression = result at hexpression ⊢
  obtain ⟨failure | e, p'⟩ := result
  · exact ⟨_, hexpression⟩
  · have heaten := hexpression.eat .endOfInput
    simp only [conclude]
    split
    next heat => exact ⟨_, heat ▸ heaten⟩
    next heat => exact ⟨_, heat ▸ heaten⟩

end Parser

theorem items_eq_take (source : String) :
    (parseWithItems source).2 = (Scanner.ofString source).take (parseWithItems source).2.length := by
  unfold parseWithItems
  cases hfirst : Parser.ofString source with
  | error error =>
      have hitem := Parser.ofString_eq_error_iff.1 hfirst
      exact congrArg (fun item => [item]) hitem.symm
  | ok p =>
      obtain ⟨consumed, hstep⟩ := (Parser.InStep.start hfirst).parse
      have hlength : p.parse.2.pulled.reverse.length = p.parse.2.drawn := List.length_reverse
      change p.parse.2.pulled.reverse = _
      exact hstep.pulled.trans (congrArg _ hlength.symm)

/-- Every reading ends. A pass that is not its last consumes the lookahead, which is never the end of
the input; where an operand was due and is due again, it was an opening parenthesis. The frames put
aside are the parentheses left open. Parsing a source takes an item for each token in front of a
failure and one more, and a second one more where it succeeds. -/
theorem passes_bounded :
    (∀ p : Parser,
      (∃ reading q, Reading.Pass p (p.consumed .expression) reading q ∧
        reading.step q = .done p.expression.1 p.expression.2) ∧
      ∀ taken reading q, Reading.Pass p taken reading q →
        taken.length + q.remaining ≤ p.remaining ∧ q.drawn = p.drawn + taken.length ∧
        (∀ l ∈ taken, l.token ≠ .endOfInput) ∧
        kindCount .leftParen taken = kindCount .rightParen taken + reading.enclosing.length ∧
        ∀ reading' q', reading.step q = .more reading' q' →
          q.eat q.lookahead.kind = (.ok q.lookahead, q') ∧
          (reading.operand = none →
            (reading'.operand = none ↔ q.lookahead.token = .leftParen))) ∧
    ∀ source,
      (parseWithItems source).2 =
        (Scanner.ofString source).take (parseWithItems source).2.length ∧
      (∀ e, parse source = .ok e →
        (parseWithItems source).2.length = (Scan.ofString source).lexemes.length + 2) ∧
      ∀ failure, parse source = .error failure →
        (parseWithItems source).2.length =
          ((Scan.ofString source).before failure.position).length + 1 := by
  refine ⟨fun p => ⟨Reading.Pass.first.step_done, ?_⟩, fun source => ⟨items_eq_take source, ?_, ?_⟩⟩
  · intro taken reading q hpass
    have htaken := hpass.absorbAll
    refine ⟨hpass.length_add_remaining_le, hpass.drawn_eq, Reading.ne_end_of_absorbAll htaken,
      (Reading.tallied_of_absorbAll htaken).depth, ?_⟩
    intro reading' q' hstep
    obtain ⟨habsorbs, heat⟩ := Reading.absorbs_of_step hstep
    exact ⟨heat, Reading.opens_iff_of_absorbs habsorbs⟩
  · intro e hparse
    exact (hparse ▸ drawn_of_parse source).length_of_ok
  · intro failure hparse
    exact (hparse ▸ drawn_of_parse source).length_of_error

-- The third token fails the parse, and a fourth is never asked for.
example : (parseWithItems "2*)+(").2.length = 3 := by with_unfolding_all rfl

end Calculator
