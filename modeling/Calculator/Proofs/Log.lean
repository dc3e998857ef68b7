import Calculator.Proofs.Consumption
import Calculator.Proofs.Places
import Calculator.Proofs.Viability

/-!
How far a source is scanned, and what its log tells of it. A parser draws items only up to the one
that it fails at, and the log of a calculation has the tokens among them.
-/

namespace Calculator

namespace Reading

def scanErrors : Except Failure Expr → List Item
  | .ok _ => []
  | .error (.scan error) => [.error error]
  | .error (.parse _) => []
  | .error (.eval _) => []

namespace Course

variable {reading : Reading} {p : Parser} {lexemes : List Lexeme}
  {result : Except Failure Expr × Parser}

theorem pulled (h : Course reading p lexemes result) (before : List Lexeme)
    (hp : p.pulled.reverse = (before ++ [p.lookahead]).map .ok) :
    result.2.pulled.reverse =
      (before ++ (lexemes ++ [result.2.lookahead])).map .ok ++ scanErrors result.1 := by
  induction h generalizing before with
  | @consumed _ _ p next scanner _ _ _ _ _ ih =>
      have hnext : (.ok next :: p.pulled).reverse =
          (before ++ [p.lookahead] ++ [next]).map Except.ok := by
        rw [List.reverse_cons, hp]
        simp
      simpa using ih _ hnext
  | unscanned =>
      rw [List.reverse_cons, hp]
      rfl
  | whole => simpa [scanErrors] using hp
  | refused => simpa [scanErrors] using hp

def left : Except Failure Expr × Parser → Scan
  | (.ok _, p) => p.ahead
  | (.error (.scan error), p) => ⟨[p.lookahead], .error error⟩
  | (.error (.parse _), p) => p.ahead
  | (.error (.eval _), p) => p.ahead

theorem ahead (h : Course reading p lexemes result) :
    p.ahead = ⟨lexemes ++ (left result).lexemes, (left result).ending⟩ := by
  induction h with
  | consumed habsorb hnext _ ih =>
      rw [Parser.ahead_of_next hnext] at ih
      rw [Parser.ahead, if_neg (ne_end_of_absorb habsorb), ih]
      rfl
  | unscanned habsorb hnext =>
      rw [Parser.ahead, if_neg (ne_end_of_absorb habsorb), Scanner.scan_of_error hnext]
      rfl
  | whole => rfl
  | refused => rfl

theorem settled (h : Course reading p lexemes result) (hp : p.Settled) {e : Expr}
    (hresult : result.1 = .ok e) : result.2.Settled := by
  induction h with
  | consumed _ hnext _ ih => exact ih (Parser.settled_of_next hnext _) hresult
  | unscanned => cases hresult
  | whole => exact hp
  | refused => cases hresult

theorem fails {failure : Failure} {p' : Parser} (h : Course reading p lexemes (.error failure, p')) :
    (∃ error, failure = .scan error) ∨
      ∃ reading', reading.absorbAll lexemes = some reading' ∧
        reading'.absorb p'.lookahead = none ∧ reading'.whole? = none ∧
        failure = .parse (reading'.complaint p'.lookahead) := by
  generalize hresult : (Except.error failure, p') = result at h
  induction h with
  | consumed habsorb _ _ ih =>
      rw [absorbAll_cons, habsorb]
      exact ih hresult
  | unscanned =>
      cases hresult
      exact Or.inl ⟨_, rfl⟩
  | whole => cases hresult
  | refused habsorb hwhole =>
      cases hresult
      exact Or.inr ⟨_, rfl, habsorb, hwhole, rfl⟩

end Course

end Reading

theorem Scan.tokens_append (lexemes : List Lexeme) (scan : Scan) :
    tokens ⟨lexemes ++ scan.lexemes, scan.ending⟩ = lexemes ++ scan.tokens := by
  obtain ⟨rest, ending⟩ := scan
  cases ending <;> simp [tokens]

inductive Drawn (scan : Scan) : Except Failure Expr → List Item → Prop
  | read {e : Expr} {position : Position} :
      scan.ending = .ok position →
        Drawn scan (.ok e) (scan.tokens.map .ok ++ [.ok ⟨.endOfInput, position⟩])
  | refused {taken rest : List Lexeme} {lexeme : Lexeme} {error : ParseError} :
      scan.tokens = taken ++ lexeme :: rest → error.found = lexeme.kind →
        error.position = lexeme.position →
          Drawn scan (.error (.parse error)) ((taken ++ [lexeme]).map .ok)
  | unscanned {error : ScanError} :
      scan.ending = .error error → Drawn scan (.error (.scan error)) scan.items

namespace Parser

theorem tokens_ahead (p : Parser) : ∃ rest, p.ahead.tokens = p.lookahead :: rest := by
  obtain ⟨⟨token, position⟩, scanner, pulled⟩ := p
  by_cases hend : token = .endOfInput
  · subst hend
    exact ⟨[], rfl⟩
  · rw [ahead, if_neg hend]
    have htokens := Scan.tokens_append [⟨token, position⟩] scanner.scan
    exact ⟨scanner.scan.tokens, htokens⟩

theorem tokens_of_ahead {p p' : Parser} {lexemes : List Lexeme}
    (h : p.ahead = ⟨lexemes ++ p'.ahead.lexemes, p'.ahead.ending⟩) :
    ∃ rest, p.ahead.tokens = lexemes ++ p'.lookahead :: rest := by
  obtain ⟨rest, hrest⟩ := p'.tokens_ahead
  exact ⟨rest, by rw [h, Scan.tokens_append, hrest]⟩

theorem drawn_of_refused {p p' : Parser} {lexemes : List Lexeme} {error : ParseError}
    (hahead : p.ahead = ⟨lexemes ++ p'.ahead.lexemes, p'.ahead.ending⟩)
    (hpulled : p'.pulled.reverse = (lexemes ++ [p'.lookahead]).map .ok)
    (hfound : error.found = p'.lookahead.kind)
    (hposition : error.position = p'.lookahead.position) :
    Drawn p.ahead (.error (.parse error)) p'.pulled.reverse := by
  obtain ⟨rest, htokens⟩ := tokens_of_ahead hahead
  rw [hpulled]
  exact .refused htokens hfound hposition

theorem drawn_of_read {p p' : Parser} {lexemes : List Lexeme} {e : Expr}
    (hahead : p.ahead = ⟨lexemes ++ p'.ahead.lexemes, p'.ahead.ending⟩)
    (hpulled : p'.pulled.reverse = (lexemes ++ [p'.lookahead]).map .ok)
    (hsettled : p'.Settled) :
    Drawn p.ahead (conclude (.ok e, p')).1 (conclude (.ok e, p')).2.pulled.reverse := by
  by_cases hend : p'.lookahead.token = .endOfInput
  · have hlookahead : p'.lookahead = ⟨.endOfInput, p'.lookahead.position⟩ := by rw [← hend]
    have hleft : p'.ahead = ⟨[], .ok p'.lookahead.position⟩ := if_pos hend
    rw [hleft, List.append_nil] at hahead
    rw [conclude_of_end hend hsettled, List.reverse_cons, hpulled, hahead, hlookahead]
    exact .read rfl
  · rw [conclude_of_ne hend]
    exact drawn_of_refused hahead hpulled rfl rfl

theorem drawn_parse {p : Parser} (hsettled : p.Settled) (hpulled : p.pulled = [.ok p.lookahead]) :
    Drawn p.ahead p.parse.1 p.parse.2.pulled.reverse := by
  have hcourse := Reading.start.course p
  rw [parse_eq_conclude, expression]
  generalize Reading.start.consumed p = lexemes at hcourse
  generalize Reading.start.run p = result at hcourse
  have hahead := hcourse.ahead
  have hdrawn := hcourse.pulled [] (by rw [hpulled]; rfl)
  obtain ⟨failure | e, p'⟩ := result
  -- a failed reading has drawn everything there is to draw; one that came to a tree draws once more
  · rcases hcourse.fails with ⟨error, rfl⟩ | ⟨reading, -, -, -, rfl⟩
    · have hitems : p.ahead.items = p'.pulled.reverse := by
        rw [hahead, hdrawn]
        rfl
      exact hitems ▸ .unscanned (congrArg Scan.ending hahead)
    · rw [Reading.scanErrors, List.append_nil] at hdrawn
      exact drawn_of_refused hahead hdrawn (reading.complaint_found _) (reading.complaint_position _)
  · rw [Reading.scanErrors, List.append_nil] at hdrawn
    exact drawn_of_read hahead hdrawn (hcourse.settled hsettled rfl)

end Parser

theorem drawn_of_parse (source : String) :
    Drawn (Scan.ofString source) (parse source) (parseWithItems source).2 := by
  unfold parse parseWithItems Parser.ofString Parser.start Scan.ofString
  rcases hnext : (Scanner.ofString source).nextToken with ⟨error | next, scanner⟩
  · rw [Scanner.scan_of_error hnext]
    exact .unscanned rfl
  · have hdrawn := Parser.drawn_parse (Parser.settled_of_next hnext [.ok next]) rfl
    rw [Parser.ahead_of_next hnext] at hdrawn
    exact hdrawn

def loggedLexemes (items : List Item) : List Lexeme :=
  (items.filterMap Except.toOption).filter fun lexeme => lexeme.token ≠ .endOfInput

theorem filterMap_ofItem? (items : List Item) :
    items.filterMap Event.ofItem? = (loggedLexemes items).map .scanned := by
  induction items with
  | nil => rfl
  | cons item items ih =>
      rcases item with error | lexeme
      · exact ih
      · by_cases hend : lexeme.token = .endOfInput
        · simpa [loggedLexemes, Event.ofItem?, Except.toOption, hend] using ih
        · simpa [loggedLexemes, Event.ofItem?, Except.toOption, hend] using ih

theorem loggedLexemes_ok (lexemes : List Lexeme) :
    loggedLexemes (lexemes.map .ok) =
      lexemes.filter fun lexeme => lexeme.token ≠ .endOfInput := by
  rw [loggedLexemes, Scan.filterMap_toOption_ok]

theorem loggedLexemes_append (items items' : List Item) :
    loggedLexemes (items ++ items') = loggedLexemes items ++ loggedLexemes items' := by
  simp [loggedLexemes]

namespace Scanner

variable {s : Scanner}

theorem logged_lexemes (s : Scanner) :
    (s.scan.lexemes.filter fun lexeme => lexeme.token ≠ .endOfInput) = s.scan.lexemes := by
  apply List.filter_eq_self.2
  intro lexeme hmem
  simpa using ne_end_of_mem_scan hmem

theorem logged_tokens (s : Scanner) :
    (s.scan.tokens.filter fun lexeme => lexeme.token ≠ .endOfInput) = s.scan.lexemes := by
  unfold Scan.tokens
  split
  · rw [List.filter_append, logged_lexemes]
    simp
  · exact s.logged_lexemes

theorem logged_items (s : Scanner) : loggedLexemes s.scan.items = s.scan.lexemes := by
  have hfailing : loggedLexemes (Scan.failing s.scan.ending) = [] := by
    rw [loggedLexemes, Scan.filterMap_toOption_failing, List.filter_nil]
  rw [Scan.items, loggedLexemes_append, loggedLexemes_ok, logged_tokens, hfailing,
    List.append_nil]

end Scanner

theorem Scan.initial_lexemes {scan : Scan} {taken rest : List Lexeme} {lexeme : Lexeme}
    (h : scan.tokens = taken ++ lexeme :: rest) :
    taken <+: scan.lexemes ∧ (lexeme.token ≠ .endOfInput → taken ++ [lexeme] <+: scan.lexemes) := by
  have hinitial : taken ++ [lexeme] <+: scan.tokens := ⟨rest, by rw [h]; simp⟩
  have hshorter : taken <+: taken ++ [lexeme] := List.prefix_append _ _
  unfold tokens at hinitial
  split at hinitial
  · rcases List.prefix_concat_iff.1 hinitial with heq | hinitial
    · obtain ⟨rfl, hlexeme⟩ := List.append_inj' heq rfl
      obtain rfl := List.singleton_inj.1 hlexeme
      exact ⟨List.prefix_rfl, fun hne => absurd rfl hne⟩
    · exact ⟨hshorter.trans hinitial, fun _ => hinitial⟩
  · exact ⟨hshorter.trans hinitial, fun _ => hinitial⟩

theorem Item.not_beyond_last {items : List Item} {last : Item}
    (h : ((items ++ [last]).map Item.position).Pairwise (· < ·)) :
    ∀ item ∈ items ++ [last], ¬last.position < item.position := by
  rw [List.map_append, List.pairwise_append] at h
  intro item hitem hlt
  rcases List.mem_append.1 hitem with hmem | hmem
  · have hbefore := h.2.2 _ (List.mem_map_of_mem hmem) last.position (by simp)
    exact Position.lt_irrefl _ (Position.lt_trans hlt hbefore)
  · rw [List.mem_singleton.1 hmem] at hlt
    exact Position.lt_irrefl _ hlt

namespace Drawn

variable {source : String} {items : List Item} {result : Except Failure Expr}

theorem not_beyond {failure : Failure} (h : Drawn (Scan.ofString source) (.error failure) items) :
    ∀ item ∈ items, ¬failure.position < item.position := by
  have hincreasing := Scan.increasing_items source
  cases h with
  | @refused taken rest lexeme error htokens _ hposition =>
      have hinitial : (taken.map .ok ++ [.ok lexeme] : List Item) <+: (Scan.ofString source).items := by
        rw [Scan.items, htokens]
        exact ⟨rest.map .ok ++ Scan.failing (Scan.ofString source).ending, by simp⟩
      have hlast := Item.not_beyond_last
        (hincreasing.sublist (hinitial.map Item.position).sublist)
      have hfailure : Failure.position (.parse error) = Item.position (.ok lexeme) := hposition
      rw [hfailure, List.map_append]
      exact hlast
  | @unscanned error hending =>
      have hitems : (Scan.ofString source).items =
          (Scan.ofString source).tokens.map .ok ++ [.error error] := by
        rw [Scan.items, hending]
        rfl
      rw [hitems] at hincreasing ⊢
      exact Item.not_beyond_last hincreasing

theorem logged_refused {error : ParseError}
    (h : Drawn (Scan.ofString source) (.error (.parse error)) items) :
    ∃ taken lexeme rest, (Scan.ofString source).tokens = taken ++ lexeme :: rest ∧
      lexeme.kind = error.found ∧ lexeme.position = error.position ∧
      loggedLexemes items =
        if error.found = .endOfInput then taken else taken ++ [lexeme] := by
  cases h with
  | @refused taken rest lexeme _ htokens hfound hposition =>
      refine ⟨taken, lexeme, rest, htokens, hfound.symm, hposition.symm, ?_⟩
      have htaken : (taken.filter fun l => l.token ≠ .endOfInput) = taken := by
        apply List.filter_eq_self.2
        intro l hl
        simpa using Scanner.ne_end_of_mem_scan ((Scan.initial_lexemes htokens).1.subset hl)
      rw [loggedLexemes_ok, List.filter_append, htaken, hfound]
      by_cases hend : lexeme.token = .endOfInput
      · have hkind : lexeme.kind = .endOfInput := Token.kind_eq_endOfInput_iff.2 hend
        simp [hend, hkind]
      · have hkind : lexeme.kind ≠ .endOfInput := mt Token.kind_eq_endOfInput_iff.1 hend
        simp [hend, hkind]

theorem logged_read {e : Expr} (h : Drawn (Scan.ofString source) (.ok e) items) :
    (∃ position, (Scan.ofString source).ending = .ok position) ∧
      loggedLexemes items = (Scan.ofString source).lexemes := by
  cases h with
  | @read _ position hending =>
      refine ⟨⟨position, hending⟩, ?_⟩
      rw [loggedLexemes_append, loggedLexemes_ok, Scan.ofString, Scanner.logged_tokens]
      exact List.append_nil _

theorem logged_unscanned {error : ScanError}
    (h : Drawn (Scan.ofString source) (.error (.scan error)) items) :
    (Scan.ofString source).ending = .error error ∧
      loggedLexemes items = (Scan.ofString source).lexemes := by
  cases h with
  | unscanned hending => exact ⟨hending, (Scanner.ofString source).logged_items⟩

theorem logged_initial (h : Drawn (Scan.ofString source) result items) :
    loggedLexemes items <+: (Scan.ofString source).lexemes := by
  rcases result with (error | error | error) | e
  · exact h.logged_unscanned.2 ▸ List.prefix_rfl
  · obtain ⟨taken, lexeme, rest, htokens, hkind, -, hlogged⟩ := h.logged_refused
    obtain ⟨hshorter, hinitial⟩ := Scan.initial_lexemes htokens
    rw [hlogged]
    split
    next => exact hshorter
    next hne => exact hinitial fun hend => hne (hkind ▸ Token.kind_eq_endOfInput_iff.2 hend)
  · cases h
  · exact h.logged_read.2 ▸ List.prefix_rfl

end Drawn

theorem log_eq (source : String) :
    (calculate source).2 =
      .begun source :: ((loggedLexemes (parseWithItems source).2).map .scanned ++
        (((parse source).toOption.elim [] Expr.applications).map .applied ++
          (evaluate source).toOption.toList.map .finished)) := by
  simp only [evaluate, calculate, parse, filterMap_ofItem?, Expr.evaluate_eq]
  rcases (parseWithItems source).1 with failure | e
  · simp [Except.toOption]
  · cases hvalue : e.value <;> simp [Except.toOption, hvalue]

def Event.entry (event : Event) : String × String × List (String × String) :=
  (event.severity.text, event.message, event.fields)

theorem calculate_log (source : String) :
    ∃ (scanned : List Lexeme) (applied : List Application),
      (calculate source).2 =
          .begun source :: (scanned.map .scanned ++
            (applied.map .applied ++ (evaluate source).toOption.toList.map .finished)) ∧
        (Event.begun source).entry = ("DEBUG", "evaluating expression", [("source", source)]) ∧
        (∀ lexeme, (Event.scanned lexeme).message = "scanned token") ∧
        (∀ application, (Event.applied application).message = "applied operator") ∧
        (∀ value, (Event.finished value).entry =
          ("DEBUG", "evaluated expression", [("value", value.text)])) ∧
        (scanned.map Lexeme.position).Pairwise (· < ·) ∧
        (∀ e, parse source = .ok e →
          (∃ position, (Scan.ofString source).ending = .ok position) ∧
            scanned = (Scan.ofString source).lexemes) ∧
        (∀ error, parse source = .error (.parse error) →
          ∃ taken lexeme rest, (Scan.ofString source).tokens = taken ++ lexeme :: rest ∧
            lexeme.kind = error.found ∧ lexeme.position = error.position ∧
            scanned = if error.found = .endOfInput then taken else taken ++ [lexeme]) ∧
        (∀ error, parse source = .error (.scan error) →
          (Scan.ofString source).ending = .error error ∧
            scanned = (Scan.ofString source).lexemes) ∧
        ∀ failure, parse source = .error failure →
          ∀ item ∈ (parseWithItems source).2, ¬failure.position < item.position := by
  have hdrawn := drawn_of_parse source
  have hinitial := hdrawn.logged_initial.map Lexeme.position
  have hincreasing := (Scan.increasing_lexemes source).sublist hinitial.sublist
  refine ⟨_, _, log_eq source, rfl, fun _ => rfl, fun _ => rfl, fun _ => rfl, hincreasing,
    ?_, ?_, ?_, ?_⟩
  · intro e hparse
    exact (hparse ▸ hdrawn).logged_read
  · intro error hparse
    exact (hparse ▸ hdrawn).logged_refused
  · intro error hparse
    exact (hparse ▸ hdrawn).logged_unscanned
  · intro failure hparse
    exact (hparse ▸ hdrawn).not_beyond

example :
    (calculate "7 *)2$").2.map Event.fields =
      [[("source", "7 *)2$")],
        [("token", "Token(INTEGER, 7)"), ("position", "line 1, column 1")],
        [("token", "Token(MUL, '*')"), ("position", "line 1, column 3")],
        [("token", "Token(RPAREN, ')')"), ("position", "line 1, column 4")]] := by
  with_unfolding_all rfl

end Calculator
