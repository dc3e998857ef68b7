import Calculator.Proofs.Munch
import Calculator.Proofs.Scan

namespace Calculator

theorem not_of_mem_head?_dropWhile {p : Char → Bool} {text : List Char} {c : Char}
    (h : c ∈ (text.dropWhile p).head?) : p c = false := by
  have hnot := List.head?_dropWhile_not p text
  rwa [h] at hnot

def Scan.ofItems (position : Position) : List Item → Scan
  | [] => ⟨[], .ok position⟩
  | .ok lexeme :: items => (ofItems position items).cons lexeme
  | .error error :: _ => ⟨[], .error error⟩

namespace Scanner

theorem takeItem_munch (s : Scanner) (h : ∀ c ∈ s.rest.head?, isBlank c = false) :
    ∃ taken, s.rest = taken ++ s.takeItem.2.rest ∧
      s.takeItem.2 = s.marked.pass taken s.takeItem.2.rest ∧
      Munch taken s.takeItem.1 s.takeItem.2.rest := by
  unfold takeItem
  split
  next hrest =>
      have hmarked : s.marked.rest = [] := hrest
      refine ⟨[], rfl, rfl, ?_⟩
      rw [hmarked]
      exact .ended s.position
  next c rest hrest =>
      split
      next hdigit =>
          have hdigits : Digits (c :: rest.takeWhile Char.isDigit) := by
            refine ⟨List.cons_ne_nil _ _, ?_⟩
            intro x hx
            rcases List.mem_cons.1 hx with rfl | hx
            · exact hdigit
            · exact List.all_eq_true.1 List.all_takeWhile x hx
          have hspells := Spells.of_digits hdigits s.position
          refine ⟨_, ?_, rfl, .item hspells ((longest_iff_apart hspells).2 ?_)⟩
          · rw [hrest]
            exact congrArg (c :: ·) List.takeWhile_append_dropWhile.symm
          · rintro - - d hd ⟨-, hddigit⟩
            exact Bool.eq_false_iff.1 (not_of_mem_head?_dropWhile hd) hddigit
      next hdigit =>
          have hblank := isBlank_eq_false_iff.1 (h c (by simp [hrest]))
          have hspells := Spells.of_symbol hblank (Bool.eq_false_iff.2 hdigit) s.position
          refine ⟨[c], hrest, rfl, .item hspells ((longest_iff_apart hspells).2 ?_)⟩
          rintro c' hc' - - ⟨hcdigit, -⟩
          cases hc'
          exact hdigit hcdigit

theorem nextToken_munch (s : Scanner) :
    ∃ taken, s.rest.dropWhile isBlank = taken ++ s.nextToken.2.rest ∧
      s.nextToken.2 = s.skipBlanks.marked.pass taken s.nextToken.2.rest ∧
      Munch taken s.nextToken.1 s.nextToken.2.rest := by
  have hhead : ∀ c ∈ s.skipBlanks.rest.head?, isBlank c = false := by
    rw [rest_skipBlanks]
    exact fun c => not_of_mem_head?_dropWhile
  rw [← rest_skipBlanks]
  exact s.skipBlanks.takeItem_munch hhead

theorem item_of_end {s s' : Scanner} {position : Position}
    (h : s.nextToken = (.ok ⟨.endOfInput, position⟩, s')) (n : Nat) :
    s.item n = .ok ⟨.endOfInput, position⟩ := by
  have hagain := nextToken_of_end h
  induction n generalizing s with
  | zero => exact congrArg Prod.fst h
  | succ n ih =>
      rw [item_succ, h]
      exact ih hagain

theorem exists_munches (s : Scanner) :
    ∃ stretches trailing position, Munches s.rest stretches trailing ∧
      (∀ n, s.item n =
        (stretches[n]?.map Stretch.item).getD (.ok ⟨.endOfInput, position⟩)) ∧
      s.scan = Scan.ofItems position (stretches.map Stretch.item) := by
  obtain ⟨taken, hrest, -, hmunch⟩ := s.nextToken_munch
  have hsplit : s.rest = s.rest.takeWhile isBlank ++ (taken ++ s.nextToken.2.rest) := by
    rw [← hrest]
    exact List.takeWhile_append_dropWhile.symm
  generalize hnext : s.nextToken = next at hrest hmunch hsplit
  obtain ⟨item, s'⟩ := next
  generalize hleft : s'.rest = left at hmunch hsplit
  cases hmunch with
  | ended position =>
      refine ⟨[], s.rest, position, .ended ?_, item_of_end hnext, ?_⟩
      · rw [hsplit, List.append_nil, List.append_nil]
        exact blank_takeWhile s.rest
      · rw [scan_of_ok hnext]
        rfl
  | item hspells hlongest =>
      subst hleft
      have hlt : s'.rest.length < s.rest.length := by
        have hlt := length_rest_nextToken_lt (s := s) (by rw [hnext]; exact hspells.not_end)
        rwa [hnext] at hlt
      obtain ⟨stretches, trailing, position, hmunches, hitem, hscan⟩ := exists_munches s'
      refine ⟨⟨s.rest.takeWhile isBlank, taken, item⟩ :: stretches, trailing, position, ?_, ?_, ?_⟩
      · have hcut := Munches.item (blank_takeWhile s.rest) hspells hlongest hmunches
        rwa [← hsplit] at hcut
      · intro n
        cases n with
        | zero => exact congrArg Prod.fst hnext
        | succ n =>
            rw [item_succ, hnext, hitem]
            rfl
      · cases item with
        | error error => exact scan_of_error hnext
        | ok lexeme =>
            have hne : lexeme.token ≠ .endOfInput := of_decide_eq_false hspells.not_end
            rw [scan_of_ok hnext, if_neg hne, hscan]
            rfl
termination_by s.rest.length

/-- Asked for one item after another, a scanner cuts the source into the stretches of the maximal
munch, and behind them it is at the end of the input for ever. The source has no other cut. -/
theorem item_maximal_munch (source : String) :
    ∃ stretches trailing position,
      Munches source.toList stretches trailing ∧
      source.toList = stretches.flatMap Stretch.text ++ trailing ∧
      (∀ pre stretch post, stretches = pre ++ stretch :: post →
        Apart (pre.flatMap Stretch.text ++ stretch.blanks) stretch.taken ∧
          Apart stretch.taken (post.flatMap Stretch.text ++ trailing)) ∧
      (∀ stretches' trailing', Munches source.toList stretches' trailing' →
        stretches'.map Stretch.unplaced = stretches.map Stretch.unplaced ∧ trailing' = trailing) ∧
      ∀ n, (ofString source).item n =
        (stretches[n]?.map Stretch.item).getD (.ok ⟨.endOfInput, position⟩) := by
  obtain ⟨stretches, trailing, position, hmunches, hitem, -⟩ := (ofString source).exists_munches
  have hmunches : Munches source.toList stretches trailing := hmunches
  refine ⟨stretches, trailing, position, hmunches, hmunches.text_eq, ?_, ?_, hitem⟩
  · rintro pre stretch post rfl
    exact hmunches.apart
  · exact fun stretches' trailing' h => hmunches.unique h

end Scanner

end Calculator
