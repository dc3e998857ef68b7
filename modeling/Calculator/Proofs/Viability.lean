import Calculator.Proofs.Grammaticality

/-!
Which token sequences can still become an input, and which error is reported: it is the first one
that no continuation could have avoided.
-/

namespace Calculator

def Viable (tokens : List Lexeme) : Prop :=
  ∃ lexemes e position, Derives (.chain .additive) lexemes e ∧
    tokens <+: lexemes ++ [⟨.endOfInput, position⟩]

theorem Viable.of_initial {xs ys : List Lexeme} (h : Viable ys) (hinitial : xs <+: ys) :
    Viable xs := by
  obtain ⟨lexemes, e, position, hderives, hys⟩ := h
  exact ⟨lexemes, e, position, hderives, hinitial.trans hys⟩

namespace Reading

variable {reading : Reading} {lexemes : List Lexeme}

-- Any reading can be finished: a literal where an operand is due, then one parenthesis a frame.
theorem exists_closing (frame : Frame) (enclosing : List Frame) (operand : Expr) :
    ∃ rest reading e, absorbAll ⟨frame, enclosing, some operand⟩ rest = some reading ∧
      reading.whole? = some e := by
  induction enclosing generalizing frame operand with
  | nil => exact ⟨[], _, _, rfl, rfl⟩
  | cons outer enclosing ih =>
      obtain ⟨rest, reading, e, habsorb, hwhole⟩ := ih outer (frame.close operand)
      exact ⟨⟨.rightParen, .start⟩ :: rest, reading, e, habsorb, hwhole⟩

theorem exists_completion (reading : Reading) :
    ∃ rest reading' e, reading.absorbAll rest = some reading' ∧ reading'.whole? = some e := by
  obtain ⟨frame, enclosing, operand⟩ := reading
  cases operand with
  | none =>
      obtain ⟨rest, reading, e, habsorb, hwhole⟩ :=
        exists_closing frame enclosing (.literal 0 .start)
      exact ⟨⟨.integer 0, .start⟩ :: rest, reading, e, habsorb, hwhole⟩
  | some operand => exact exists_closing frame enclosing operand

theorem viable_of_absorbAll (h : start.absorbAll lexemes = some reading) : Viable lexemes := by
  obtain ⟨rest, reading', e, habsorb, hwhole⟩ := reading.exists_completion
  refine ⟨lexemes ++ rest, e, .start, ?_, ?_⟩
  · apply derives_iff_absorbAll.2
    refine ⟨reading', ?_, hwhole⟩
    rw [absorbAll_append, h]
    exact habsorb
  · exact (List.prefix_append lexemes rest).trans (List.prefix_append _ _)

theorem absorbAll_of_viable (h : Viable lexemes) (hne : ∀ l ∈ lexemes, l.token ≠ .endOfInput) :
    ∃ reading, start.absorbAll lexemes = some reading := by
  obtain ⟨expression, e, position, hderives, hinitial⟩ := h
  obtain ⟨reading, habsorb, -⟩ := derives_iff_absorbAll.1 hderives
  rcases List.prefix_concat_iff.1 hinitial with rfl | hinitial
  · exact absurd rfl (hne ⟨.endOfInput, position⟩ (by simp))
  · obtain ⟨rest, rfl⟩ := hinitial
    rw [absorbAll_append] at habsorb
    obtain ⟨reading', hreading', -⟩ := Option.bind_eq_some_iff.1 habsorb
    exact ⟨reading', hreading'⟩

theorem derives_of_viable_end {position : Position}
    (h : Viable (lexemes ++ [⟨.endOfInput, position⟩])) :
    ∃ e, Derives (.chain .additive) lexemes e := by
  obtain ⟨expression, e, position', hderives, hinitial⟩ := h
  obtain ⟨reading, habsorb, -⟩ := derives_iff_absorbAll.1 hderives
  rcases List.prefix_concat_iff.1 hinitial with heq | hinitial
  · obtain ⟨rfl, -⟩ := List.append_inj' heq rfl
    exact ⟨e, hderives⟩
  · have hmem := hinitial.subset (show (⟨.endOfInput, position⟩ : Lexeme) ∈ _ by simp)
    exact absurd rfl (ne_end_of_absorbAll habsorb _ hmem)

theorem not_viable_of_refused {lexeme : Lexeme} (h : start.absorbAll lexemes = some reading)
    (hrefused : reading.absorb lexeme = none) (hne : lexeme.token ≠ .endOfInput) :
    ¬Viable (lexemes ++ [lexeme]) := by
  intro hviable
  have hall : ∀ l ∈ lexemes ++ [lexeme], l.token ≠ .endOfInput := by
    intro l hl
    rcases List.mem_append.1 hl with hl | hl
    · exact ne_end_of_absorbAll h l hl
    · obtain rfl := List.mem_singleton.1 hl
      exact hne
  obtain ⟨reading', hreading'⟩ := absorbAll_of_viable hviable hall
  rw [absorbAll_append, h, Option.bind_some, absorbAll_cons, hrefused] at hreading'
  cases hreading'

theorem not_viable_end (h : start.absorbAll lexemes = some reading) (hopen : reading.whole? = none)
    (position : Position) : ¬Viable (lexemes ++ [⟨.endOfInput, position⟩]) := by
  intro hviable
  obtain ⟨e, hderives⟩ := derives_of_viable_end hviable
  obtain ⟨reading', habsorb, hwhole⟩ := derives_iff_absorbAll.1 hderives
  rw [h] at habsorb
  cases habsorb
  rw [hopen] at hwhole
  cases hwhole

theorem viable_end {e : Expr} (h : start.absorbAll lexemes = some reading)
    (hwhole : reading.whole? = some e) (position : Position) :
    Viable (lexemes ++ [⟨.endOfInput, position⟩]) :=
  ⟨lexemes, e, position, derives_iff_absorbAll.2 ⟨reading, h, hwhole⟩, List.prefix_rfl⟩

theorem complaint_found (reading : Reading) (lexeme : Lexeme) :
    (reading.complaint lexeme).found = lexeme.kind := by
  unfold complaint
  split
  · rfl
  · split <;> rfl

theorem complaint_position (reading : Reading) (lexeme : Lexeme) :
    (reading.complaint lexeme).position = lexeme.position := by
  unfold complaint
  split
  · rfl
  · split <;> rfl

end Reading

theorem Scan.exists_tokens (scan : Scan) : ∃ tail, scan.tokens = scan.lexemes ++ tail := by
  unfold Scan.tokens
  split
  · exact ⟨_, rfl⟩
  · exact ⟨[], (List.append_nil _).symm⟩

inductive Verdict (scan : Scan) : Except Failure Expr → Prop
  | refused {taken rest : List Lexeme} {lexeme : Lexeme} {error : ParseError} :
      scan.tokens = taken ++ lexeme :: rest → Viable taken → ¬Viable (taken ++ [lexeme]) →
        error.found = lexeme.kind → error.position = lexeme.position →
          Verdict scan (.error (.parse error))
  | unscanned {error : ScanError} :
      Viable scan.tokens → scan.ending = .error error → Verdict scan (.error (.scan error))
  | read {e : Expr} {position : Position} :
      Viable scan.tokens → scan.ending = .ok position → Verdict scan (.ok e)

namespace Reading

theorem verdict_of_refused {scan : Scan} (hne : ∀ l ∈ scan.lexemes, l.token ≠ .endOfInput)
    (h : start.absorbAll scan.lexemes = none) :
    Verdict scan (start.readAll scan.lexemes scan.ending) := by
  obtain ⟨taken, lexeme, rest, reading, hlexemes, htaken, hrefused⟩ := exists_refused h
  obtain ⟨tail, htokens⟩ := scan.exists_tokens
  have hend : lexeme.token ≠ .endOfInput := by
    apply hne
    rw [hlexemes]
    simp
  rw [hlexemes, List.append_assoc] at htokens
  rw [hlexemes, readAll_append htaken, readAll, hrefused]
  exact .refused htokens (viable_of_absorbAll htaken) (not_viable_of_refused htaken hrefused hend)
    (complaint_found _ _) (complaint_position _ _)

theorem verdict_of_absorbAll {scan : Scan} {reading : Reading}
    (h : start.absorbAll scan.lexemes = some reading) :
    Verdict scan (start.readAll scan.lexemes scan.ending) := by
  obtain ⟨lexemes, ending⟩ := scan
  have hresult := readAll_append h [] ending
  rw [List.append_nil] at hresult
  rw [hresult]
  cases ending with
  | error error => exact .unscanned (viable_of_absorbAll h) rfl
  | ok position =>
      rw [readAll]
      cases hwhole : reading.whole? with
      | none =>
          exact .refused rfl (viable_of_absorbAll h) (not_viable_end h hwhole position)
            (complaint_found _ _) (complaint_position _ _)
      | some e => exact .read (viable_end h hwhole position) rfl

end Reading

theorem verdict_parse (source : String) : Verdict (Scan.ofString source) (parse source) := by
  rw [parse_eq_readAll]
  cases h : Reading.start.absorbAll (Scan.ofString source).lexemes with
  | none => exact Reading.verdict_of_refused (fun l hl => Scanner.ne_end_of_mem_scan hl) h
  | some reading => exact Reading.verdict_of_absorbAll h

theorem parse_fails_earliest (source : String) :
    ((∃ j, ¬Viable ((Scan.ofString source).tokens.take j)) →
      ∃ j lexeme error, (∀ i ≤ j, Viable ((Scan.ofString source).tokens.take i)) ∧
        ¬Viable ((Scan.ofString source).tokens.take (j + 1)) ∧
        (Scan.ofString source).tokens[j]? = some lexeme ∧
        parse source = .error (.parse error) ∧ evaluate source = .error (.parse error) ∧
        error.found = lexeme.kind ∧ error.position = lexeme.position) ∧
      ((∀ j, Viable ((Scan.ofString source).tokens.take j)) →
        ∀ error, (Scan.ofString source).ending = .error error →
          parse source = .error (.scan error) ∧ evaluate source = .error (.scan error)) ∧
      ((∀ j, Viable ((Scan.ofString source).tokens.take j)) →
        ∀ position, (Scan.ofString source).ending = .ok position → ∃ e, parse source = .ok e) := by
  have hverdict := verdict_parse source
  have hevaluate : ∀ failure, parse source = .error failure → evaluate source = .error failure :=
    fun _ => evaluate_of_parse_error
  generalize parse source = result at hverdict hevaluate ⊢
  cases hverdict with
  | @refused taken rest lexeme error htokens htaken hrefused hfound hposition =>
      have hlong : ¬Viable ((Scan.ofString source).tokens.take (taken.length + 1)) := by
        rw [htokens, List.take_length_add_append]
        exact hrefused
      refine ⟨fun _ => ?_, fun hall => absurd (hall _) hlong, fun hall => absurd (hall _) hlong⟩
      refine ⟨taken.length, lexeme, error, ?_, hlong, ?_, rfl, hevaluate _ rfl, hfound, hposition⟩
      · intro i hi
        rw [htokens, List.take_append_of_le_length hi]
        exact htaken.of_initial (List.take_prefix i taken)
      · simp [htokens]
  | @unscanned error hviable hending =>
      refine ⟨?_, ?_, ?_⟩
      · rintro ⟨j, hj⟩
        exact absurd (hviable.of_initial (List.take_prefix j _)) hj
      · intro _ error' hending'
        rw [hending] at hending'
        cases hending'
        exact ⟨rfl, hevaluate _ rfl⟩
      · intro _ position hending'
        rw [hending] at hending'
        cases hending'
  | @read e position hviable hending =>
      refine ⟨?_, ?_, fun _ _ _ => ⟨e, rfl⟩⟩
      · rintro ⟨j, hj⟩
        exact absurd (hviable.of_initial (List.take_prefix j _)) hj
      · intro _ error hending'
        rw [hending] at hending'
        cases hending'

end Calculator
