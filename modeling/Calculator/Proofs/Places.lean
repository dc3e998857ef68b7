import Calculator.Proofs.Recount

/-!
The places of all items of a source. Cut into its stretches, a source has each item where the text
in front of it ends, and later items have later places.
-/

namespace Calculator

/-- Every item has the place of its first character; `before` is the text in front of them all. -/
inductive Placed : List Char → List Stretch → Prop
  | ended (before : List Char) : Placed before []
  | item {before : List Char} {stretch : Stretch} {stretches : List Stretch} :
      stretch.item.position = Position.endOf (before ++ stretch.blanks) →
        Placed (before ++ stretch.text) stretches → Placed before (stretch :: stretches)

namespace Placed

variable {before : List Char} {stretches : List Stretch}

theorem position {pre post : List Stretch} {stretch : Stretch}
    (h : Placed before (pre ++ stretch :: post)) :
    stretch.item.position =
      Position.endOf (before ++ (pre.flatMap Stretch.text ++ stretch.blanks)) := by
  induction pre generalizing before with
  | nil =>
      cases h with
      | item hposition _ => exact hposition
  | cons first pre ih =>
      cases h with
      | item _ hrest => simpa [List.append_assoc] using ih hrest

theorem position_of_mem (h : Placed before stretches) :
    ∀ stretch ∈ stretches, ∃ more, stretch.item.position = Position.endOf (before ++ more) := by
  intro stretch hmem
  obtain ⟨pre, post, rfl⟩ := List.append_of_mem hmem
  exact ⟨_, h.position⟩

theorem increasing (h : Placed before stretches)
    (htaken : ∀ stretch ∈ stretches, stretch.taken ≠ []) :
    (stretches.map fun stretch => stretch.item.position).Pairwise (· < ·) := by
  induction h with
  | ended => exact List.Pairwise.nil
  | @item before first stretches hposition hrest ih =>
      obtain ⟨hfirst, hstretches⟩ := List.forall_mem_cons.1 htaken
      rw [List.map_cons, List.pairwise_cons]
      refine ⟨?_, ih hstretches⟩
      intro p hp
      obtain ⟨stretch, hmem, rfl⟩ := List.mem_map.1 hp
      obtain ⟨more, hmore⟩ := hrest.position_of_mem stretch hmem
      have hlt := Position.endOf_lt_append (before ++ first.blanks)
        (List.append_ne_nil_of_left_ne_nil hfirst more)
      rw [hposition, hmore, Stretch.text]
      simpa only [List.append_assoc] using hlt

end Placed

theorem Munches.spells {text trailing : List Char} {stretches : List Stretch}
    (h : Munches text stretches trailing) :
    ∀ stretch ∈ stretches, Spells stretch.taken stretch.item := by
  induction h with
  | ended => simp
  | item _ hspells _ _ ih => simpa using ⟨hspells, ih⟩

theorem Blank.takeWhile_eq {text : List Char} (h : Blank text) :
    text.takeWhile isBlank = text := by
  have happend : (text ++ []).takeWhile isBlank = text ++ [].takeWhile isBlank :=
    List.takeWhile_append_of_pos h.isBlank_of_mem
  rwa [List.takeWhile_nil, List.append_nil] at happend

theorem Munch.unique {blanks taken taken' rest rest' : List Char} {item item' : Item}
    (hblanks : Blank blanks) (hspells : Spells taken item) (hlongest : Longest taken rest)
    (h : Munch taken' item' rest')
    (hdrop : (blanks ++ (taken ++ rest)).dropWhile isBlank = taken' ++ rest') :
    taken' = taken ∧ rest' = rest := by
  have hcut := List.takeWhile_append_dropWhile (p := isBlank) (l := blanks ++ (taken ++ rest))
  rw [Munches.takeWhile_isBlank hblanks hspells, hdrop] at hcut
  have hrest := List.append_cancel_left hcut
  cases h with
  | ended => exact absurd (List.append_eq_nil_iff.1 hrest.symm).1 hspells.ne_nil
  | item hspells' hlongest' =>
      obtain rfl := Munches.taken_unique hspells' hspells hlongest' hlongest hrest
      exact ⟨rfl, List.append_cancel_left hrest⟩

namespace Scanner

theorem Stands.placed {s : Scanner} {before trailing : List Char} {stretches : List Stretch}
    {position : Position} (h : s.Stands before) (hmunches : Munches s.rest stretches trailing)
    (hitems : ∀ n, s.item n =
      (stretches[n]?.map Stretch.item).getD (.ok ⟨.endOfInput, position⟩)) :
    Placed before stretches ∧ position = Position.endOf (before ++ s.rest) := by
  generalize htext : s.rest = text at hmunches
  induction hmunches generalizing s before with
  | @ended trailing hblank =>
      obtain ⟨taken, -, -, hposition, -⟩ := h.nextToken
      have hfirst : s.nextToken.1 = .ok ⟨.endOfInput, position⟩ := hitems 0
      rw [hfirst, htext, hblank.takeWhile_eq] at hposition
      exact ⟨.ended before, hposition⟩
  | @item blanks taken rest trailing item stretches hblanks hspells hlongest _ ih =>
      obtain ⟨taken', hdrop, hmunch, hposition, hstands⟩ := h.nextToken
      have hfirst : s.nextToken.1 = item := hitems 0
      rw [htext] at hdrop hposition hstands
      rw [Munches.takeWhile_isBlank hblanks hspells] at hposition hstands
      obtain ⟨rfl, hrest⟩ := Munch.unique hblanks hspells hlongest hmunch hdrop
      have hlater : ∀ n, s.nextToken.2.item n =
          (stretches[n]?.map Stretch.item).getD (.ok ⟨.endOfInput, position⟩) := by
        intro n
        rw [← item_succ]
        exact hitems (n + 1)
      rw [hfirst] at hposition
      obtain ⟨hplaced, hend⟩ := ih hstands hlater hrest
      refine ⟨.item hposition (by simpa [Stretch.text] using hplaced), ?_⟩
      rw [hend]
      simp only [List.append_assoc]

theorem exists_placed (source : String) :
    ∃ stretches trailing, Munches source.toList stretches trailing ∧ Placed [] stretches ∧
      (∀ n, (ofString source).item n = (stretches[n]?.map Stretch.item).getD
        (.ok ⟨.endOfInput, Position.endOf source.toList⟩)) ∧
      (ofString source).scan =
        Scan.ofItems (Position.endOf source.toList) (stretches.map Stretch.item) := by
  obtain ⟨stretches, trailing, position, hmunches, hitems, hscan⟩ :=
    (ofString source).exists_munches
  have hstands : (ofString source).Stands [] := Stands.ofText source.toList
  obtain ⟨hplaced, rfl⟩ := hstands.placed hmunches hitems
  exact ⟨stretches, trailing, hmunches, hplaced, hitems, hscan⟩

end Scanner

theorem Scan.exists_placed (source : String) :
    ∃ stretches trailing, Munches source.toList stretches trailing ∧ Placed [] stretches ∧
      ofString source =
        ofItems (Position.endOf source.toList) (stretches.map Stretch.item) := by
  obtain ⟨stretches, trailing, hmunches, hplaced, -, hscan⟩ := Scanner.exists_placed source
  exact ⟨stretches, trailing, hmunches, hplaced, hscan⟩

namespace Scan

theorem lexemes_initial (position : Position) (items : List Item) :
    ((ofItems position items).lexemes.map .ok : List Item) <+: items := by
  induction items with
  | nil => exact List.prefix_rfl
  | cons item items ih =>
      cases item with
      | error error => exact List.nil_prefix
      | ok lexeme =>
          obtain ⟨more, hmore⟩ := ih
          exact ⟨more, congrArg (Except.ok lexeme :: ·) hmore⟩

theorem mem_of_ending_error {position : Position} {items : List Item} {error : ScanError}
    (h : (ofItems position items).ending = .error error) : .error error ∈ items := by
  induction items with
  | nil => cases h
  | cons item items ih =>
      cases item with
      | error error' =>
          cases h
          exact List.mem_cons_self
      | ok lexeme => exact List.mem_cons_of_mem _ (ih h)

theorem position_of_ending_ok {position position' : Position} {items : List Item}
    (h : (ofItems position items).ending = .ok position') : position' = position := by
  induction items with
  | nil =>
      cases h
      rfl
  | cons item items ih =>
      cases item with
      | error error => cases h
      | ok lexeme => exact ih h

def failing : Except ScanError Position → List Item
  | .ok _ => []
  | .error error => [.error error]

def items (scan : Scan) : List Item := scan.tokens.map .ok ++ failing scan.ending

theorem items_cons (lexeme : Lexeme) (scan : Scan) :
    (scan.cons lexeme).items = .ok lexeme :: scan.items := by
  simp only [items, cons, tokens]
  split <;> simp

theorem filterMap_toOption_ok (lexemes : List Lexeme) :
    (lexemes.map .ok : List Item).filterMap Except.toOption = lexemes := by
  rw [List.filterMap_map]
  exact List.filterMap_some

theorem filterMap_toOption_failing (ending : Except ScanError Position) :
    (failing ending).filterMap Except.toOption = [] := by
  cases ending <;> rfl

theorem items_initial (position : Position) (items : List Item) :
    (ofItems position items).items <+: items ++ [.ok ⟨.endOfInput, position⟩] := by
  induction items with
  | nil => exact List.prefix_rfl
  | cons item items ih =>
      cases item with
      | error error => simp [Scan.items, ofItems, tokens, failing]
      | ok lexeme =>
          rw [ofItems, items_cons, List.cons_append]
          exact (List.prefix_cons_inj _).2 ih

theorem increasing_items (source : String) :
    ((ofString source).items.map Item.position).Pairwise (· < ·) := by
  obtain ⟨stretches, trailing, hmunches, hplaced, hscan⟩ := exists_placed source
  have hinitial := (items_initial (Position.endOf source.toList)
    (stretches.map Stretch.item)).map Item.position
  rw [← hscan] at hinitial
  refine List.Pairwise.sublist hinitial.sublist ?_
  rw [List.map_append, List.pairwise_append, List.map_map]
  refine ⟨hplaced.increasing hmunches.taken_ne_nil, by simp, ?_⟩
  intro p hp q hq
  obtain rfl : q = Position.endOf source.toList := by simpa [Item.position] using hq
  obtain ⟨stretch, hmem, rfl⟩ := List.mem_map.1 hp
  obtain ⟨pre, post, rfl⟩ := List.append_of_mem hmem
  have hne : stretch.taken ++ (post.flatMap Stretch.text ++ trailing) ≠ [] :=
    List.append_ne_nil_of_left_ne_nil (hmunches.taken_ne_nil stretch hmem) _
  have hlt := Position.endOf_lt_append (pre.flatMap Stretch.text ++ stretch.blanks) hne
  have hposition := hplaced.position
  rw [List.nil_append] at hposition
  simp only [Function.comp_apply, hposition, hmunches.text_eq]
  simpa [Stretch.text] using hlt

theorem lexemes_prefix_items (scan : Scan) : (scan.lexemes.map .ok : List Item) <+: scan.items := by
  obtain ⟨lexemes, ending⟩ := scan
  cases ending with
  | error error => exact List.prefix_append _ _
  | ok position => simp [items, tokens, failing]

theorem increasing_lexemes (source : String) :
    ((ofString source).lexemes.map Lexeme.position).Pairwise (· < ·) := by
  have hinitial := (ofString source).lexemes_prefix_items.map Item.position
  rw [List.map_map] at hinitial
  exact (increasing_items source).sublist hinitial.sublist

end Scan

def Item.Begins (item : Item) (before rest : List Char) : Prop :=
  ∃ taken rest', rest = taken ++ rest' ∧ Spells taken item ∧ Apart before taken ∧
    Apart taken rest' ∧ item.position = Position.endOf before

theorem Munches.begins {text trailing : List Char} {stretches : List Stretch} {item : Item}
    (h : Munches text stretches trailing) (hplaced : Placed [] stretches)
    (hmem : item ∈ stretches.map Stretch.item) :
    ∃ before rest, text = before ++ rest ∧ item.Begins before rest := by
  obtain ⟨stretch, hstretch, rfl⟩ := List.mem_map.1 hmem
  have hspells := h.spells stretch hstretch
  obtain ⟨pre, post, rfl⟩ := List.append_of_mem hstretch
  obtain ⟨hbefore, hbehind⟩ := h.apart
  refine ⟨pre.flatMap Stretch.text ++ stretch.blanks,
    stretch.taken ++ (post.flatMap Stretch.text ++ trailing), ?_, _, _, rfl, hspells, hbefore,
    hbehind, hplaced.position⟩
  rw [h.text_eq, List.flatMap_append, List.flatMap_cons, Stretch.text]
  simp only [List.append_assoc]

namespace Scan

variable {source : String}

theorem begins_of_mem {lexeme : Lexeme} (h : lexeme ∈ (ofString source).lexemes) :
    ∃ before rest, source.toList = before ++ rest ∧ Item.Begins (.ok lexeme) before rest := by
  obtain ⟨stretches, trailing, hmunches, hplaced, hscan⟩ := exists_placed source
  rw [hscan] at h
  exact hmunches.begins hplaced ((lexemes_initial _ _).subset (List.mem_map_of_mem h))

theorem begins_of_ending_error {error : ScanError} (h : (ofString source).ending = .error error) :
    ∃ before rest, source.toList = before ++ rest ∧ Item.Begins (.error error) before rest := by
  obtain ⟨stretches, trailing, hmunches, hplaced, hscan⟩ := exists_placed source
  rw [hscan] at h
  exact hmunches.begins hplaced (mem_of_ending_error h)

theorem position_of_ending {position : Position} (h : (ofString source).ending = .ok position) :
    position = Position.endOf source.toList := by
  obtain ⟨stretches, trailing, -, -, hscan⟩ := exists_placed source
  rw [hscan] at h
  exact position_of_ending_ok h

end Scan

end Calculator
