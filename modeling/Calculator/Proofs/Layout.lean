import Calculator.Proofs.Substitution

/-!
Blanks between tokens. Where no run of digits is cut, blanks may be put in or left out: the items of
a source stay the same up to their places, and with them its tree and its value.
-/

namespace Calculator

namespace Blank

theorem not_isDigit {text : List Char} {c : Char} (h : Blank text) (hc : c ∈ text) :
    c.isDigit = false := by
  apply Bool.eq_false_iff.2
  intro hdigit
  exact not_whiteSpace_of_isDigit hdigit (h c hc)

theorem apart_left {blanks : List Char} (h : Blank blanks) (text : List Char) :
    Apart blanks text := by
  rintro c hc - - ⟨hdigit, -⟩
  simp [h.not_isDigit (List.mem_of_getLast? hc)] at hdigit

theorem apart_right {blanks : List Char} (h : Blank blanks) (text : List Char) :
    Apart text blanks := by
  rintro - - d hd ⟨-, hdigit⟩
  simp [h.not_isDigit (List.mem_of_mem_head? hd)] at hdigit

theorem itemized {blanks : List Char} (h : Blank blanks) : Itemized blanks [] :=
  ⟨[], blanks, .ended h, rfl⟩

end Blank

theorem Itemized.insert_blanks {u v blanks : List Char} {items items' : List Item}
    (hu : Itemized u items) (hv : Itemized v items') (hapart : Apart u v) (hblank : Blank blanks) :
    Itemized (u ++ blanks ++ v) (items ++ items') := by
  by_cases hnil : blanks = []
  · subst hnil
    simpa using hu.append hv hapart
  · have hfront : Itemized (u ++ blanks) items := by
      simpa using hu.append hblank.itemized (hblank.apart_right u)
    exact hfront.append hv ((apart_append_left hnil).2 (hblank.apart_left v))

theorem Scanner.item_unplaced {s : Scanner} {items : List Item} (h : Itemized s.rest items)
    (n : Nat) :
    (s.item n).unplaced =
      ((items.map Item.unplaced)[n]?).getD (.ok ⟨.endOfInput, .start⟩) := by
  obtain ⟨stretches, trailing, position, hmunches, hitem, -⟩ := s.exists_munches
  rw [h.unplaced_unique ⟨stretches, trailing, hmunches, rfl⟩, hitem]
  cases hn : stretches[n]? with
  | none => simp [hn, Item.unplaced, Lexeme.unplaced]
  | some stretch => simp [hn]

def SameShape (e e' : Expr) : Prop := e.unplaced = e'.unplaced

theorem sameShape_congruence : Congruence SameShape where
  literal value p q := rfl
  binary op p q left left' right right' hleft hright := by
    unfold SameShape at *
    simp only [Expr.unplaced, hleft, hright]

theorem sameShape_equivalence : Equivalence SameShape := ⟨fun _ => rfl, Eq.symm, Eq.trans⟩

theorem parse_agrees_of_itemized {r : Expr → Expr → Prop} (hr : Congruence r)
    (hequiv : Equivalence r) {source source' : String} {items : List Item}
    (h : Itemized source.toList items) (h' : Itemized source'.toList items) :
    Agree r (parse source) (parse source') :=
  (parse_agrees hr h .start).trans hequiv ((parse_agrees hr h' .start).symm hequiv)

theorem Agree.unplaced_eq {result result' : Except Failure Expr}
    (h : Agree SameShape result result') :
    (result.map Expr.unplaced).mapError Failure.unplaced =
      (result'.map Expr.unplaced).mapError Failure.unplaced := by
  cases h with
  | ok he => exact congrArg Except.ok he
  | error hfailure => exact congrArg Except.error hfailure

theorem insert_blanks_congr {u blanks v : String} (hapart : Apart u.toList v.toList)
    (hblank : Blank blanks.toList) :
    (∀ n, ((Scanner.ofString (u ++ blanks ++ v)).item n).unplaced =
        ((Scanner.ofString (u ++ v)).item n).unplaced) ∧
      ((parse (u ++ blanks ++ v)).map Expr.unplaced).mapError Failure.unplaced =
        ((parse (u ++ v)).map Expr.unplaced).mapError Failure.unplaced ∧
      (evaluate (u ++ blanks ++ v)).mapError Failure.unplaced =
        (evaluate (u ++ v)).mapError Failure.unplaced := by
  obtain ⟨items, -, hu, -⟩ := (Scanner.ofString u).exists_itemized
  obtain ⟨items', -, hv, -⟩ := (Scanner.ofString v).exists_itemized
  have hplain : Itemized (u ++ v).toList (items ++ items') := by
    rw [String.toList_append]
    exact hu.append hv hapart
  have hspaced : Itemized (u ++ blanks ++ v).toList (items ++ items') := by
    rw [String.toList_append, String.toList_append]
    exact hu.insert_blanks hv hapart hblank
  refine ⟨?_, ?_, ?_⟩
  · intro n
    rw [Scanner.item_unplaced hspaced, Scanner.item_unplaced hplain]
  · exact (parse_agrees_of_itemized sameShape_congruence sameShape_equivalence hspaced
      hplain).unplaced_eq
  · exact evaluate_eq_of_agree
      (parse_agrees_of_itemized sameValue_congruence sameValue_equivalence hspaced hplain)

-- The blanks move what cannot be read to another line.
theorem insert_blanks_congr_lines :
    Apart "8 /(3".toList "-3)99999999999999999999$".toList ∧ Blank "\n\u3000\t".toList ∧
      (∀ n, ((Scanner.ofString
          ("8 /(3" ++ "\n\u3000\t" ++ "-3)99999999999999999999$")).item n).unplaced =
        ((Scanner.ofString ("8 /(3" ++ "-3)99999999999999999999$")).item n).unplaced) ∧
      ((parse ("8 /(3" ++ "\n\u3000\t" ++ "-3)99999999999999999999$")).map
          Expr.unplaced).mapError Failure.unplaced =
        ((parse ("8 /(3" ++ "-3)99999999999999999999$")).map Expr.unplaced).mapError
          Failure.unplaced ∧
      (evaluate ("8 /(3" ++ "\n\u3000\t" ++ "-3)99999999999999999999$")).mapError
          Failure.unplaced =
        (evaluate ("8 /(3" ++ "-3)99999999999999999999$")).mapError Failure.unplaced := by
  have hapart : Apart "8 /(3".toList "-3)99999999999999999999$".toList := by
    rintro c - d hd ⟨-, hdigit⟩
    cases hd
    cases hdigit
  have hblank : Blank "\n\u3000\t".toList := by
    intro c hc
    have hall : "\n\u3000\t".toList.all isBlank := by decide
    exact isBlank_iff_whiteSpace.1 (List.all_eq_true.1 hall c hc)
  exact ⟨hapart, hblank, insert_blanks_congr hapart hblank⟩

end Calculator
