import Calculator.Proofs.Lexing
import Calculator.Proofs.Places

namespace Calculator

namespace Position

/-- Where the place `p` of a text comes to be when the text begins at `origin`. -/
def moved (p origin : Position) : Position :=
  if p.line = 1 then ⟨origin.line, origin.column + p.column - 1⟩
  else ⟨origin.line + p.line - 1, p.column⟩

theorem moved_first (column : Nat) (origin : Position) :
    moved ⟨1, column⟩ origin = ⟨origin.line, origin.column + column - 1⟩ := rfl

theorem moved_later {line : Nat} (h : line ≠ 1) (column : Nat) (origin : Position) :
    moved ⟨line, column⟩ origin = ⟨origin.line + line - 1, column⟩ := if_neg h

theorem advance_newline (line column : Nat) : advance ⟨line, column⟩ '\n' = ⟨line + 1, 1⟩ := rfl

theorem advance_of_ne {c : Char} (h : c ≠ '\n') (line column : Nat) :
    advance ⟨line, column⟩ c = ⟨line, column + 1⟩ := if_neg h

theorem advance_moved {p : Position} (hline : 0 < p.line) (hcolumn : 0 < p.column)
    (origin : Position) (c : Char) : (p.moved origin).advance c = (p.advance c).moved origin := by
  obtain ⟨line, column⟩ := p
  have hline : 0 < line := hline
  have hcolumn : 0 < column := hcolumn
  by_cases hc : c = '\n'
  · subst hc
    by_cases hfirst : line = 1
    · subst hfirst
      rfl
    · have hnext : line + 1 ≠ 1 := by omega
      have hadd : origin.line + (line + 1) - 1 = origin.line + line - 1 + 1 := by omega
      rw [moved_later hfirst, advance_newline, advance_newline, moved_later hnext, hadd]
  · by_cases hfirst : line = 1
    · subst hfirst
      have hadd : origin.column + (column + 1) - 1 = origin.column + column - 1 + 1 := by omega
      rw [moved_first, advance_of_ne hc, advance_of_ne hc, moved_first, hadd]
    · rw [moved_later hfirst, advance_of_ne hc, advance_of_ne hc, moved_later hfirst]

theorem past_moved {p : Position} (hline : 0 < p.line) (hcolumn : 0 < p.column)
    (origin : Position) (text : List Char) :
    (p.moved origin).past text = (p.past text).moved origin := by
  induction text generalizing p with
  | nil => rfl
  | cons c text ih =>
      have hadvance : 0 < (p.advance c).line ∧ 0 < (p.advance c).column := by
        unfold advance
        split <;> simp [hline]
      rw [past_cons, past_cons, advance_moved hline hcolumn, ih hadvance.1 hadvance.2]

theorem endOf_append (xs ys : List Char) : endOf (xs ++ ys) = (endOf ys).moved (endOf xs) := by
  calc endOf (xs ++ ys) = (start.moved (endOf xs)).past ys := (past_start_append xs ys).symm
    _ = (start.past ys).moved (endOf xs) := past_moved Nat.one_pos Nat.one_pos _ ys
    _ = (endOf ys).moved (endOf xs) := by rw [past_start]

end Position

namespace Item

def movedTo (position : Position) : Item → Item
  | .ok lexeme => .ok ⟨lexeme.token, position⟩
  | .error (.unknownCharacter c _) => .error (.unknownCharacter c position)
  | .error (.literalTooLarge literal _) => .error (.literalTooLarge literal position)

def moved (item : Item) (origin : Position) : Item := item.movedTo (item.position.moved origin)

theorem position_movedTo (position : Position) (item : Item) :
    (item.movedTo position).position = position := by
  rcases item with (⟨c, p⟩ | ⟨literal, p⟩) | lexeme <;> rfl

theorem eq_of_unplaced {item item' : Item} (h : item.unplaced = item'.unplaced)
    (hposition : item.position = item'.position) : item = item' := by
  rcases item with (⟨c, p⟩ | ⟨literal, p⟩) | ⟨token, p⟩ <;>
    rcases item' with (⟨c', q⟩ | ⟨literal', q⟩) | ⟨token', q⟩ <;> cases h <;> cases hposition <;> rfl

end Item

theorem Spells.movedTo {text : List Char} {item : Item} (h : Spells text item)
    (position : Position) : Spells text (item.movedTo position) := by
  cases h with
  | integer _ hdigits hvalue => exact .integer position hdigits hvalue
  | tooLarge _ hdigits hlarge => exact .tooLarge position hdigits hlarge
  | symbol _ hsymbol => exact .symbol position hsymbol
  | unknown _ hblank hdigit hnone => exact .unknown position hblank hdigit hnone

def Stretch.moved (origin : Position) (stretch : Stretch) : Stretch :=
  { stretch with item := stretch.item.moved origin }

theorem Munches.moved {text trailing : List Char} {stretches : List Stretch}
    (h : Munches text stretches trailing) (origin : Position) :
    Munches text (stretches.map (Stretch.moved origin)) trailing := by
  induction h with
  | ended hblank => exact .ended hblank
  | item hblanks hspells hlongest _ ih => exact .item hblanks (hspells.movedTo _) hlongest ih

namespace Placed

variable {before text trailing : List Char} {stretches stretches' : List Stretch}

theorem moved (h : Placed text stretches) (before : List Char) :
    Placed (before ++ text) (stretches.map (Stretch.moved (Position.endOf before))) := by
  induction h with
  | ended text => exact .ended (before ++ text)
  | @item text stretch stretches hposition _ ih =>
      rw [← List.append_assoc] at ih
      refine .item ?_ ih
      change (stretch.item.movedTo _).position = _
      rw [Item.position_movedTo, hposition, List.append_assoc]
      exact (Position.endOf_append before _).symm

theorem behind {blanks : List Char} (h : Placed (before ++ blanks) stretches) :
    Placed before (Stretch.behind blanks stretches) := by
  cases h with
  | ended => exact .ended before
  | item hposition hrest =>
      refine .item ?_ ?_
      · rw [hposition, List.append_assoc]
      · simpa [Stretch.text] using hrest

theorem append (h : Placed before stretches)
    (h' : Placed (before ++ (stretches.flatMap Stretch.text ++ trailing)) stretches') :
    Placed before (stretches ++ Stretch.behind trailing stretches') := by
  induction h with
  | ended before => exact h'.behind
  | item hposition _ ih =>
      refine .item hposition (ih ?_)
      simpa [Stretch.text] using h'

theorem unique (h : Placed before stretches) (h' : Placed before stretches')
    (hunplaced : stretches'.map Stretch.unplaced = stretches.map Stretch.unplaced) :
    stretches' = stretches := by
  induction h generalizing stretches' with
  | ended before => exact List.map_eq_nil_iff.1 hunplaced
  | @item before stretch stretches hposition _ ih =>
      obtain ⟨stretch', rest, rfl, hstretch, hrest⟩ := List.map_eq_cons_iff.1 hunplaced
      obtain ⟨blanks, taken, item⟩ := stretch
      obtain ⟨blanks', taken', item'⟩ := stretch'
      simp only [Stretch.unplaced, Stretch.mk.injEq] at hstretch
      obtain ⟨rfl, rfl, hitem⟩ := hstretch
      cases h' with
      | item hposition' hplaced =>
          obtain rfl := Item.eq_of_unplaced hitem (hposition'.trans hposition.symm)
          rw [ih hplaced hrest]

end Placed

def Located (before text : List Char) (items : List Item) : Prop :=
  ∃ stretches trailing, Munches text stretches trailing ∧ Placed before stretches ∧
    stretches.map Stretch.item = items

namespace Located

variable {before text text' : List Char} {items items' : List Item}

theorem unique (h : Located before text items) (h' : Located before text items') :
    items' = items := by
  obtain ⟨stretches, trailing, hmunches, hplaced, rfl⟩ := h
  obtain ⟨stretches', trailing', hmunches', hplaced', rfl⟩ := h'
  rw [hplaced.unique hplaced' (hmunches.unique hmunches').1]

theorem moved (h : Located [] text items) (before : List Char) :
    Located before text (items.map fun item => item.moved (Position.endOf before)) := by
  obtain ⟨stretches, trailing, hmunches, hplaced, rfl⟩ := h
  have hmoved := hplaced.moved before
  rw [List.append_nil] at hmoved
  refine ⟨_, trailing, hmunches.moved (Position.endOf before), hmoved, ?_⟩
  simp [Function.comp_def, Stretch.moved]

theorem append (h : Located before text items) (h' : Located (before ++ text) text' items')
    (hapart : Apart text text') : Located before (text ++ text') (items ++ items') := by
  obtain ⟨stretches, trailing, hmunches, hplaced, rfl⟩ := h
  obtain ⟨stretches', trailing', hmunches', hplaced', rfl⟩ := h'
  obtain ⟨trailing'', hjoined⟩ := hmunches.append hmunches' hapart
  rw [hmunches.text_eq] at hplaced'
  refine ⟨_, trailing'', hjoined, hplaced.append hplaced', ?_⟩
  rw [List.map_append, Stretch.map_item_behind]

theorem not_end (h : Located before text items) : ∀ item ∈ items, item.isEnd = false := by
  obtain ⟨stretches, trailing, hmunches, -, rfl⟩ := h
  intro item hitem
  obtain ⟨stretch, hmem, rfl⟩ := List.mem_map.1 hitem
  exact (hmunches.spells stretch hmem).not_end

end Located

namespace Scanner

theorem exists_located (source : String) :
    ∃ items, Located [] source.toList items ∧
      ∀ n, (ofString source).item n =
        items[n]?.getD (.ok ⟨.endOfInput, Position.endOf source.toList⟩) := by
  obtain ⟨stretches, trailing, hmunches, hplaced, hitems, -⟩ := exists_placed source
  refine ⟨_, ⟨stretches, trailing, hmunches, hplaced, rfl⟩, ?_⟩
  intro n
  rw [hitems, List.getElem?_map]

/-- Where no run of digits goes over the seam, the items of two texts one behind the other are those
of the first in front of its end, and then those of the second, moved to where the first ends. -/
theorem item_append {a b : String} (h : Apart a.toList b.toList) :
    ∃ count,
      (∀ n < count, ((ofString a).item n).isEnd = false) ∧
      (∀ n, (ofString a).item (count + n) = .ok ⟨.endOfInput, Position.endOf a.toList⟩) ∧
      (∀ n < count, (ofString (a ++ b)).item n = (ofString a).item n) ∧
      ∀ n, (ofString (a ++ b)).item (count + n) =
        ((ofString b).item n).moved (Position.endOf a.toList) := by
  obtain ⟨items, hlocated, hitem⟩ := exists_located a
  obtain ⟨items', hlocated', hitem'⟩ := exists_located b
  obtain ⟨joined, hjoined, hitem''⟩ := exists_located (a ++ b)
  have hseam := hlocated.append (hlocated'.moved a.toList) h
  rw [String.toList_append] at hjoined hitem''
  obtain rfl := hseam.unique hjoined
  refine ⟨items.length, ?_, ?_, ?_, ?_⟩
  · intro n hn
    rw [hitem, List.getElem?_eq_getElem hn]
    exact hlocated.not_end _ (List.getElem_mem hn)
  · intro n
    rw [hitem, List.getElem?_eq_none (Nat.le_add_right _ n)]
    rfl
  · intro n hn
    rw [hitem'', hitem, List.getElem?_append_left hn, List.getElem?_eq_getElem hn]
    rfl
  · intro n
    rw [hitem'', hitem', List.getElem?_append_right (Nat.le_add_right _ n),
      Nat.add_sub_cancel_left, List.getElem?_map]
    cases items'[n]? with
    | none =>
        rw [Position.endOf_append]
        rfl
    | some item => rfl

-- Both parts have errors and line feeds, and a run of digits ends in front of the seam.
theorem item_append_lines :
    Apart "1$\n 99999999999999999999".toList "+\u30003\n#8".toList ∧
      ∃ count,
        (∀ n < count, ((ofString "1$\n 99999999999999999999").item n).isEnd = false) ∧
        (∀ n, (ofString "1$\n 99999999999999999999").item (count + n) =
          .ok ⟨.endOfInput, ⟨2, 22⟩⟩) ∧
        (∀ n < count, (ofString ("1$\n 99999999999999999999" ++ "+\u30003\n#8")).item n =
          (ofString "1$\n 99999999999999999999").item n) ∧
        ∀ n, (ofString ("1$\n 99999999999999999999" ++ "+\u30003\n#8")).item (count + n) =
          ((ofString "+\u30003\n#8").item n).moved ⟨2, 22⟩ := by
  have hapart : Apart "1$\n 99999999999999999999".toList "+\u30003\n#8".toList := by
    rintro c - d hd ⟨-, hdigit⟩
    cases hd
    cases hdigit
  exact ⟨hapart, item_append hapart⟩

end Scanner

end Calculator
