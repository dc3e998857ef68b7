import Calculator.Proofs.Division
import Calculator.Proofs.Viability

namespace Calculator

/-- What a failure says of the text, cut at its place into what comes `before` and the `rest`. -/
def Failure.Shown (before rest : List Char) : Failure → Prop
  | .scan (.unknownCharacter c _) =>
      (∃ rest', rest = c :: rest') ∧ ¬WhiteSpace c ∧ c.isDigit = false ∧
        c ∉ ['+', '-', '*', '/', '(', ')']
  | .scan (.literalTooLarge literal _) =>
      Digits literal.toList ∧ Int64.maxValue.toInt < Numeral.value literal.toList ∧
        ∃ rest', rest = literal.toList ++ rest' ∧ Apart before literal.toList ∧
          Apart literal.toList rest'
  | .parse error =>
      (error.found = .endOfInput → rest = []) ∧
        (error.found ≠ .endOfInput →
          ∃ token, token.kind = error.found ∧
            Item.Begins (.ok ⟨token, error.position⟩) before rest)
  | .eval (.divisionByZero _) => ∃ rest', rest = '/' :: rest'

theorem exists_token_of_symbol {c : Char} (h : c ∈ ['+', '-', '*', '/', '(', ')']) :
    ∃ token : Token, token.kind.symbol = some c := by
  simp only [List.mem_cons, List.not_mem_nil, or_false] at h
  rcases h with rfl | rfl | rfl | rfl | rfl | rfl
  · exact ⟨.operator .add, rfl⟩
  · exact ⟨.operator .sub, rfl⟩
  · exact ⟨.operator .mul, rfl⟩
  · exact ⟨.operator .div, rfl⟩
  · exact ⟨.leftParen, rfl⟩
  · exact ⟨.rightParen, rfl⟩

namespace Item.Begins

variable {before rest : List Char}

theorem shown {error : ScanError} (h : Item.Begins (.error error) before rest) :
    (Failure.scan error).Shown before rest := by
  obtain ⟨taken, rest', rfl, hspells, hbefore, hbehind, -⟩ := h
  cases hspells with
  | tooLarge position hdigits hlarge =>
      simp only [Failure.Shown, String.toList_ofList]
      exact ⟨hdigits, hlarge, rest', rfl, hbefore, hbehind⟩
  | unknown position hblank hdigit hnone =>
      refine ⟨⟨rest', rfl⟩, hblank, hdigit, ?_⟩
      intro hsymbol
      obtain ⟨token, htoken⟩ := exists_token_of_symbol hsymbol
      exact hnone token htoken

theorem rest_of_division {position : Position}
    (h : Item.Begins (.ok ⟨.operator .div, position⟩) before rest) : ∃ rest', rest = '/' :: rest' := by
  obtain ⟨taken, rest', rfl, hspells, -⟩ := h
  cases hspells with
  | symbol position hsymbol =>
      cases hsymbol
      exact ⟨rest', rfl⟩

theorem endOf_eq {item : Item} (h : item.Begins before rest) :
    Position.endOf before = item.position := by
  obtain ⟨taken, rest', -, -, -, -, hposition⟩ := h
  exact hposition.symm

end Item.Begins

theorem Scan.mem_tokens {scan : Scan} {lexeme : Lexeme} (h : lexeme ∈ scan.tokens) :
    lexeme ∈ scan.lexemes ∨
      ∃ position, scan.ending = .ok position ∧ lexeme = ⟨.endOfInput, position⟩ := by
  unfold tokens at h
  split at h
  next position hending =>
      rcases List.mem_append.1 h with h | h
      · exact Or.inl h
      · exact Or.inr ⟨position, hending, List.mem_singleton.1 h⟩
  next => exact Or.inl h

section

variable {source : String}

theorem exists_shown_refused {lexeme : Lexeme} {error : ParseError}
    (h : lexeme ∈ (Scan.ofString source).tokens) (hfound : error.found = lexeme.kind)
    (hposition : error.position = lexeme.position) :
    ∃ before rest, source.toList = before ++ rest ∧ Position.endOf before = error.position ∧
      (Failure.parse error).Shown before rest := by
  rcases Scan.mem_tokens h with hmem | ⟨position, hending, rfl⟩
  · obtain ⟨before, rest, htext, hbegins⟩ := Scan.begins_of_mem hmem
    have hne : error.found ≠ .endOfInput := by
      rw [hfound]
      exact fun hkind =>
        Scanner.ne_end_of_mem_scan hmem (Token.kind_eq_endOfInput_iff.1 hkind)
    refine ⟨before, rest, htext, hbegins.endOf_eq.trans hposition.symm, ?_, ?_⟩
    · exact fun hend => absurd hend hne
    · intro _
      rw [hposition]
      exact ⟨lexeme.token, hfound.symm, hbegins⟩
  · have hend := Scan.position_of_ending hending
    refine ⟨source.toList, [], (List.append_nil _).symm, (hposition.trans hend).symm, ?_, ?_⟩
    · exact fun _ => rfl
    · exact fun hne => absurd hfound hne

theorem exists_shown_division {e : Expr} {failure : Failure} (h : parse source = .ok e)
    (hfailure : evaluate source = .error failure) :
    ∃ before rest, source.toList = before ++ rest ∧ Position.endOf before = failure.position ∧
      failure.Shown before rest := by
  obtain ⟨t, ht, rfl⟩ := exists_firstFailing_of_evaluate h hfailure
  have hmem := Expr.lexeme_mem_inorder ht.mem
  obtain ⟨position, left, right, a, b, rfl, -⟩ := ht.failing
  rw [inorder_of_parse h] at hmem
  obtain ⟨before, rest, htext, hbegins⟩ := Scan.begins_of_mem (List.mem_filter.1 hmem).1
  exact ⟨before, rest, htext, hbegins.endOf_eq, hbegins.rest_of_division⟩

theorem exists_shown {failure : Failure} (h : evaluate source = .error failure) :
    ∃ before rest, source.toList = before ++ rest ∧ Position.endOf before = failure.position ∧
      failure.Shown before rest := by
  have hverdict := verdict_parse source
  generalize hparse : parse source = result at hverdict
  cases hverdict with
  | @refused taken rest lexeme error htokens _ _ hfound hposition =>
      rw [evaluate_of_parse_error hparse] at h
      cases h
      refine exists_shown_refused ?_ hfound hposition
      rw [htokens]
      exact List.mem_append_right _ List.mem_cons_self
  | unscanned _ hending =>
      rw [evaluate_of_parse_error hparse] at h
      cases h
      obtain ⟨before, rest, htext, hbegins⟩ := Scan.begins_of_ending_error hending
      exact ⟨before, rest, htext, hbegins.endOf_eq, hbegins.shown⟩
  | read => exact exists_shown_division hparse h

/-- The place of a failure cuts its source in one way only, and there the source shows what the
failure names. -/
theorem evaluate_failure_shown {failure : Failure} (h : evaluate source = .error failure) :
    ∃ before rest, source.toList = before ++ rest ∧ Position.endOf before = failure.position ∧
      (∀ before' rest', source.toList = before' ++ rest' →
        Position.endOf before' = failure.position → before' = before ∧ rest' = rest) ∧
      failure.Shown before rest := by
  obtain ⟨before, rest, htext, hposition, hshown⟩ := exists_shown h
  refine ⟨before, rest, htext, hposition, ?_, hshown⟩
  intro before' rest' htext' hposition'
  have hbefore : before' = before := by
    refine Position.endOf_injective ⟨rest', htext'.symm⟩ ⟨rest, htext.symm⟩ ?_
    rw [hposition, hposition']
  subst hbefore
  rw [htext] at htext'
  exact ⟨rfl, (List.append_cancel_left htext').symm⟩

theorem evaluate_failure_shown_line :
    evaluate "1 +\n\u3000(00099999999999999999999)*$" =
        .error (.scan (.literalTooLarge "00099999999999999999999" ⟨2, 3⟩)) ∧
      ∃ before rest, "1 +\n\u3000(00099999999999999999999)*$".toList = before ++ rest ∧
        Position.endOf before = ⟨2, 3⟩ ∧
        (∀ before' rest', "1 +\n\u3000(00099999999999999999999)*$".toList = before' ++ rest' →
          Position.endOf before' = ⟨2, 3⟩ → before' = before ∧ rest' = rest) ∧
        (Failure.scan (.literalTooLarge "00099999999999999999999" ⟨2, 3⟩)).Shown before rest := by
  have h : evaluate "1 +\n\u3000(00099999999999999999999)*$" =
      .error (.scan (.literalTooLarge "00099999999999999999999" ⟨2, 3⟩)) := by
    with_unfolding_all rfl
  exact ⟨h, evaluate_failure_shown h⟩

end

end Calculator
