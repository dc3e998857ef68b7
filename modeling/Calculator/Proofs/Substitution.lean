import Calculator.Proofs.Likeness

/-!
A group inside a source stands for its value. Whatever stands around it, and whether or not that can
be read, a source of the same value may stand in its place.
-/

namespace Calculator

def parenthesized (lexemes : List Lexeme) : List Lexeme :=
  ⟨.leftParen, .start⟩ :: (lexemes ++ [⟨.rightParen, .start⟩])

theorem Lexed.itemized_group {before behind s : String} {items items' : List Item}
    {lexemes : List Lexeme} (h : Lexed s.toList lexemes) (hbefore : Itemized before.toList items)
    (hbehind : Itemized behind.toList items') :
    Itemized (before ++ "(" ++ s ++ ")" ++ behind).toList
      (items ++ ((parenthesized lexemes).map .ok ++ items')) := by
  have hclose : Itemized (s.toList ++ ')' :: behind.toList)
      (lexemes.map .ok ++ .ok ⟨.rightParen, .start⟩ :: items') := h.itemized.between rfl hbehind
  have hopen : Itemized (before.toList ++ '(' :: (s.toList ++ ')' :: behind.toList))
      (items ++ .ok ⟨.leftParen, .start⟩ ::
        (lexemes.map .ok ++ .ok ⟨.rightParen, .start⟩ :: items')) := hbefore.between rfl hclose
  have htext : (before ++ "(" ++ s ++ ")" ++ behind).toList =
      before.toList ++ '(' :: (s.toList ++ ')' :: behind.toList) := by simp
  rw [htext]
  simpa [parenthesized] using hopen

variable {r : Expr → Expr → Prop}

namespace Reading

theorem agree_append {items items' : List Item} {position : Position}
    (h : ∀ reading : Reading,
      Agree r (reading.readItems position items) (reading.readItems position items'))
    (before : List Item) (reading : Reading) :
    Agree r (reading.readItems position (before ++ items))
      (reading.readItems position (before ++ items')) := by
  induction before generalizing reading with
  | nil => exact h reading
  | cons item before ih =>
      cases item with
      | error error => exact .error rfl
      | ok lexeme =>
          rw [List.cons_append, List.cons_append, readItems_ok, readItems_ok]
          cases reading.absorb lexeme with
          | none => exact .error rfl
          | some next => exact ih next

theorem agree_group (hr : Congruence r) {lexemes lexemes' : List Lexeme} {e e' : Expr}
    (h : Derives (.chain .additive) lexemes e) (h' : Derives (.chain .additive) lexemes' e')
    (he : r e e') (behind : List Item) (position : Position) (reading : Reading) :
    Agree r (reading.readItems position ((parenthesized lexemes).map .ok ++ behind))
      (reading.readItems position ((parenthesized lexemes').map .ok ++ behind)) := by
  obtain ⟨frame, enclosing, operand⟩ := reading
  cases operand with
  | none =>
      have hread : absorbAll ⟨frame, enclosing, none⟩ (parenthesized lexemes) =
          some ⟨frame, enclosing, some e⟩ := reads_of_derives (.group h) frame enclosing
      have hread' : absorbAll ⟨frame, enclosing, none⟩ (parenthesized lexemes') =
          some ⟨frame, enclosing, some e'⟩ := reads_of_derives (.group h') frame enclosing
      rw [readItems_append hread, readItems_append hread']
      have halike : Reading.Alike r ⟨frame, enclosing, some e⟩ ⟨frame, enclosing, some e'⟩ :=
        ⟨.refl hr frame, List.forall₂_same.2 fun outer _ => .refl hr outer, .some he⟩
      exact halike.readItems hr position position rfl
  | some operand =>
      -- no operand is due, and both are refused at the parenthesis
      exact .error rfl

end Reading

theorem parse_group_agrees (hr : Congruence r) (hequiv : Equivalence r) (before behind : String)
    {s s' : String} {e e' : Expr} (h : parse s = .ok e) (h' : parse s' = .ok e') (he : r e e') :
    Agree r (parse (before ++ "(" ++ s ++ ")" ++ behind))
      (parse (before ++ "(" ++ s' ++ ")" ++ behind)) := by
  obtain ⟨lexemes, hlexed, hderives⟩ := written_of_parse h
  obtain ⟨lexemes', hlexed', hderives'⟩ := written_of_parse h'
  obtain ⟨items, position, hbefore, -⟩ := (Scanner.ofString before).exists_itemized
  obtain ⟨items', -, hbehind, -⟩ := (Scanner.ofString behind).exists_itemized
  have hfirst := parse_agrees hr (hlexed.itemized_group hbefore hbehind) position
  have hsecond := parse_agrees hr (hlexed'.itemized_group hbefore hbehind) position
  have hgroup := Reading.agree_append (Reading.agree_group hr hderives hderives' he items' position)
    items .start
  exact hfirst.trans hequiv (hgroup.trans hequiv (hsecond.symm hequiv))

/-- The trees have the same value, or the same error but for its place. -/
def SameValue (e e' : Expr) : Prop := e.unplaced.value = e'.unplaced.value

theorem sameValue_congruence : Congruence SameValue where
  literal value p q := rfl
  binary op p q left left' right right' hleft hright := by
    unfold SameValue at *
    simp only [Expr.unplaced, Expr.value, hleft, hright]

theorem sameValue_equivalence : Equivalence SameValue := ⟨fun _ => rfl, Eq.symm, Eq.trans⟩

theorem mapError_eval (result : Except EvalError Number) :
    (result.mapError Failure.eval).mapError Failure.unplaced =
      (result.mapError EvalError.unplaced).mapError Failure.eval := by
  cases result <;> rfl

theorem evaluate_eq_of_agree {source source' : String}
    (h : Agree SameValue (parse source) (parse source')) :
    (evaluate source).mapError Failure.unplaced = (evaluate source').mapError Failure.unplaced := by
  generalize hparse : parse source = result at h
  generalize hparse' : parse source' = result' at h
  cases h with
  | error hfailure =>
      rw [evaluate_of_parse_error hparse, evaluate_of_parse_error hparse']
      exact congrArg Except.error hfailure
  | @ok e e' he =>
      rw [evaluate_of_parse_ok hparse, evaluate_of_parse_ok hparse']
      have he : e.unplaced.value = e'.unplaced.value := he
      rw [mapError_eval, mapError_eval, ← e.value_unplaced, ← e'.value_unplaced, he]

theorem evaluate_group_congr (before behind : String) {s s' : String} {v : Number}
    (h : evaluate s = .ok v) (h' : evaluate s' = .ok v) :
    (evaluate (before ++ "(" ++ s ++ ")" ++ behind)).mapError Failure.unplaced =
      (evaluate (before ++ "(" ++ s' ++ ")" ++ behind)).mapError Failure.unplaced := by
  obtain ⟨e, hparse, hvalue⟩ := evaluate_eq_ok_iff.1 h
  obtain ⟨e', hparse', hvalue'⟩ := evaluate_eq_ok_iff.1 h'
  have hsame : SameValue e e' := by
    rw [SameValue, e.value_unplaced, e'.value_unplaced, hvalue, hvalue']
  exact evaluate_eq_of_agree
    (parse_group_agrees sameValue_congruence sameValue_equivalence before behind hparse hparse' hsame)

-- The text around the groups cannot be read, and is refused at different places.
theorem evaluate_group_congr_refused :
    evaluate "6 / 2" = .ok (.integer 3) ∧ evaluate "1+\n\u30002" = .ok (.integer 3) ∧
      (evaluate ("7 /\n(4 - " ++ "(" ++ "6 / 2" ++ ")" ++ ") 1 + $")).mapError Failure.unplaced =
        (evaluate ("7 /\n(4 - " ++ "(" ++ "1+\n\u30002" ++ ")" ++ ") 1 + $")).mapError
          Failure.unplaced := by
  have hparse : parse "6 / 2" =
      .ok (.binary .div ⟨1, 3⟩ (.literal 6 ⟨1, 1⟩) (.literal 2 ⟨1, 5⟩)) := by
    with_unfolding_all rfl
  have hparse' : parse "1+\n\u30002" =
      .ok (.binary .add ⟨1, 2⟩ (.literal 1 ⟨1, 1⟩) (.literal 2 ⟨2, 2⟩)) := by
    with_unfolding_all rfl
  have h : evaluate "6 / 2" = .ok (.integer 3) :=
    evaluate_eq_ok_iff.2 ⟨_, hparse, by with_unfolding_all rfl⟩
  have h' : evaluate "1+\n\u30002" = .ok (.integer 3) :=
    evaluate_eq_ok_iff.2 ⟨_, hparse', by with_unfolding_all rfl⟩
  exact ⟨h, h', evaluate_group_congr "7 /\n(4 - " ") 1 + $" h h'⟩

end Calculator
