import Calculator.Proofs.Items

/-!
The places of items. A scanner counts lines as it passes them, and columns from the last place it
has given out or from the start of the line; `Stands` says what its marks are then, and that every
place comes out as if the whole source in front of it were counted afresh.
-/

namespace Calculator

theorem Position.endOf_append_line (before : List Char) {onLine : List Char}
    (h : '\n' ∉ onLine) :
    endOf (before ++ onLine) =
      ⟨(endOf before).line, (endOf before).column + onLine.length⟩ := by
  induction onLine generalizing before with
  | nil => rw [List.append_nil, List.length_nil, Nat.add_zero]
  | cons c onLine ih =>
      rw [List.mem_cons, not_or] at h
      obtain ⟨hc, hrest⟩ := h
      have hstep := ih (before ++ [c]) hrest
      rw [endOf_concat, advance, if_neg (Ne.symm hc)] at hstep
      simp only [List.append_assoc, List.singleton_append] at hstep
      rw [hstep, List.length_cons, Nat.add_assoc, Nat.add_comm 1]

def Mark.between (before rest : List Char) : Mark :=
  ⟨byteLength before, rest, (Position.endOf before).column⟩

def Mark.InFront (mark : Mark) (v before rest : List Char) : Prop :=
  ∃ u, before = u ++ v ∧ mark = between u (v ++ rest)

theorem Mark.InFront.pass {mark : Mark} {v before taken rest : List Char}
    (h : mark.InFront v before (taken ++ rest)) :
    mark.InFront (v ++ taken) (before ++ taken) rest := by
  obtain ⟨u, rfl, rfl⟩ := h
  refine ⟨u, List.append_assoc u v taken, ?_⟩
  rw [List.append_assoc]

theorem Mark.columnAt_between (before : List Char) {onLine : List Char} (rest : List Char)
    (h : '\n' ∉ onLine) :
    (between before (onLine ++ rest)).columnAt (byteLength (before ++ onLine)) =
      (Position.endOf (before ++ onLine)).column := by
  rw [columnAt, between, byteLength_append, Nat.add_sub_cancel_left, countFrom_byteLength,
    Position.endOf_append_line before h]

namespace Scanner

/-- The scanner stands behind `before`. Its line starts in front of it, with no line feed between,
and the last place that was given out lies in front of it too, on this line or on an earlier one. -/
structure Stands (s : Scanner) (before : List Char) : Prop where
  offset : s.offset = byteLength before
  line : s.line = (Position.endOf before).line
  lineStart : ∃ v, '\n' ∉ v ∧ s.lineStart.InFront v before s.rest
  mark : ∃ v, s.mark.InFront v before s.rest

namespace Stands

variable {s : Scanner} {before : List Char}

theorem base (h : s.Stands before) : ∃ v, '\n' ∉ v ∧ s.base.InFront v before s.rest := by
  obtain ⟨v, hv, u, hline, hlineStart⟩ := h.lineStart
  obtain ⟨v', u', hbefore, hmark⟩ := h.mark
  unfold Scanner.base
  split
  next hlater =>
      refine ⟨v', ?_, u', hbefore, hmark⟩
      have hle : byteLength u ≤ byteLength u' := by
        have hle := hlater.1
        rwa [hlineStart, hmark] at hle
      rcases List.append_eq_append_iff.1 (hline.symm.trans hbefore) with
        ⟨w, rfl, rfl⟩ | ⟨w, rfl, rfl⟩
      · exact fun hmem => hv (List.mem_append_right w hmem)
      · -- the mark is not in front of the start of the line, so there is nothing in between
        have hw : w = [] := by
          rw [byteLength_append] at hle
          exact byteLength_eq_zero (by omega)
        rwa [hw]
  next => exact ⟨v, hv, u, hline, hlineStart⟩

theorem position_eq (h : s.Stands before) : s.position = Position.endOf before := by
  obtain ⟨v, hv, u, rfl, hbase⟩ := h.base
  rw [position, h.line, hbase, h.offset, Mark.columnAt_between u s.rest hv]

theorem ofText (text : List Char) : (Scanner.ofText text).Stands [] :=
  ⟨rfl, rfl, ⟨[], List.not_mem_nil, [], rfl, rfl⟩, ⟨[], [], rfl, rfl⟩⟩

theorem marked (h : s.Stands before) : s.marked.Stands before := by
  refine ⟨h.offset, h.line, h.lineStart, [], before, (List.append_nil before).symm, ?_⟩
  rw [Scanner.marked, h.position_eq, h.offset]
  rfl

theorem pass {taken rest : List Char} (h : s.Stands before) (hrest : s.rest = taken ++ rest)
    (hline : '\n' ∉ taken) : (s.pass taken rest).Stands (before ++ taken) := by
  obtain ⟨v, hv, hlineStart⟩ := h.lineStart
  obtain ⟨v', hmark⟩ := h.mark
  rw [hrest] at hlineStart hmark
  refine ⟨?_, ?_, ⟨v ++ taken, ?_, hlineStart.pass⟩, ⟨v' ++ taken, hmark.pass⟩⟩
  · rw [byteLength_append, ← h.offset]
    rfl
  · rw [Position.endOf_append_line before hline]
    exact h.line
  · exact fun hmem => (List.mem_append.1 hmem).elim hv hline

theorem newline {rest : List Char} (h : s.Stands before) (hrest : s.rest = '\n' :: rest) :
    (s.pass ['\n'] rest).newline.Stands (before ++ ['\n']) := by
  obtain ⟨v, hmark⟩ := h.mark
  have hmark : s.mark.InFront v before (['\n'] ++ rest) := by rwa [hrest] at hmark
  have hoffset : s.offset + byteLength ['\n'] = byteLength (before ++ ['\n']) := by
    rw [byteLength_append, ← h.offset]
  refine ⟨hoffset, ?_, ⟨[], List.not_mem_nil, before ++ ['\n'], ?_, ?_⟩, ⟨_, hmark.pass⟩⟩
  · rw [Position.endOf_concat, Position.advance, if_pos rfl]
    exact congrArg (· + 1) h.line
  · rw [List.append_nil]
  · rw [Mark.between, ← hoffset, Position.endOf_concat]
    rfl

theorem skip {c : Char} {rest : List Char} (h : s.Stands before) (hrest : s.rest = c :: rest) :
    (s.skip c rest).Stands (before ++ [c]) := by
  unfold Scanner.skip
  split
  next hc =>
      subst hc
      exact h.newline hrest
  next hc => exact h.pass hrest (by simpa using Ne.symm hc)

theorem skipBlanks (h : s.Stands before) :
    s.skipBlanks.Stands (before ++ s.rest.takeWhile isBlank) := by
  suffices hall : ∀ text (s : Scanner) before, s.rest = text → s.Stands before →
      (s.skipBlanksOf text).Stands (before ++ text.takeWhile isBlank) from hall _ _ _ rfl h
  intro text
  induction text with
  | nil =>
      intro s before _ h
      simpa [skipBlanksOf] using h
  | cons c text ih =>
      intro s before hrest h
      rw [skipBlanksOf, List.takeWhile_cons]
      split
      · have hstep := ih _ _ (s.rest_skip c text) (h.skip hrest)
        simpa using hstep
      · simpa using h

end Stands

theorem takeItem_position (s : Scanner) : s.takeItem.1.position = s.position := by
  unfold takeItem
  split
  · rfl
  · split
    · exact Item.position_ofDigits _ s.position
    · exact Item.position_ofSymbol _ s.position

end Scanner

theorem Munch.not_newline {taken rest : List Char} {item : Item} (h : Munch taken item rest) :
    '\n' ∉ taken := by
  cases h with
  | item hspells hlongest =>
      intro hmem
      exact hspells.not_blank _ hmem (by decide)
  | ended position => exact List.not_mem_nil

namespace Scanner

theorem Stands.nextToken {s : Scanner} {before : List Char} (h : s.Stands before) :
    ∃ taken, s.rest.dropWhile isBlank = taken ++ s.nextToken.2.rest ∧
      Munch taken s.nextToken.1 s.nextToken.2.rest ∧
      s.nextToken.1.position = Position.endOf (before ++ s.rest.takeWhile isBlank) ∧
      s.nextToken.2.Stands (before ++ s.rest.takeWhile isBlank ++ taken) := by
  obtain ⟨taken, hrest, hpass, hmunch⟩ := s.nextToken_munch
  refine ⟨taken, hrest, hmunch, ?_, ?_⟩
  · exact s.skipBlanks.takeItem_position.trans h.skipBlanks.position_eq
  · rw [hpass]
    rw [← rest_skipBlanks] at hrest
    exact h.skipBlanks.marked.pass hrest hmunch.not_newline

inductive Call where
  | nextToken
  | next
deriving DecidableEq, Repr

def call (s : Scanner) : Call → Option Item × Scanner
  | .nextToken => (some s.nextToken.1, s.nextToken.2)
  | .next => s.next

def afterCalls (s : Scanner) (calls : List Call) : Scanner :=
  calls.foldl (fun s c => (s.call c).2) s

theorem next_cases (s : Scanner) :
    s.next = (none, s) ∨ ∃ failed,
      s.next.2 = { s.nextToken.2 with failed := failed } ∧
        ∀ item, s.next.1 = some item → item = s.nextToken.1 := by
  unfold next
  split
  · exact Or.inl rfl
  · refine Or.inr ?_
    split
    next error s' hnext =>
        rw [hnext]
        exact ⟨true, rfl, fun item h => (Option.some.inj h).symm⟩
    next lexeme s' hnext =>
        rw [hnext]
        refine ⟨s'.failed, ?_, ?_⟩
        · split <;> rfl
        · intro item h
          split at h
          · cases h
          · exact (Option.some.inj h).symm

theorem Stands.call {s : Scanner} {before : List Char} (h : s.Stands before) (c : Call) :
    ∃ read, s.rest = read ++ (s.call c).2.rest ∧ (s.call c).2.Stands (before ++ read) := by
  obtain ⟨taken, hrest, -, -, hstands⟩ := h.nextToken
  have hread : s.rest = (s.rest.takeWhile isBlank ++ taken) ++ s.nextToken.2.rest := by
    rw [List.append_assoc, ← hrest, List.takeWhile_append_dropWhile]
  rw [List.append_assoc] at hstands
  cases c with
  | nextToken => exact ⟨_, hread, hstands⟩
  | next =>
      rcases s.next_cases with hnone | ⟨failed, hnext, -⟩
      · refine ⟨[], ?_, ?_⟩ <;> simp [Scanner.call, hnone, h]
      · rw [Scanner.call, hnext]
        exact ⟨_, hread, hstands.offset, hstands.line, hstands.lineStart, hstands.mark⟩

theorem stands_afterCalls (source : String) (calls : List Call) :
    ∃ before, source.toList = before ++ ((ofString source).afterCalls calls).rest ∧
      ((ofString source).afterCalls calls).Stands before := by
  suffices h : ∀ (s : Scanner) before, source.toList = before ++ s.rest → s.Stands before →
      ∃ before', source.toList = before' ++ (s.afterCalls calls).rest ∧
        (s.afterCalls calls).Stands before' from h _ [] rfl (Stands.ofText source.toList)
  induction calls with
  | nil => exact fun s before hsource h => ⟨before, hsource, h⟩
  | cons c calls ih =>
      intro s before hsource h
      obtain ⟨read, hread, hstands⟩ := h.call c
      refine ih _ _ ?_ hstands
      rw [hsource, hread, List.append_assoc]

theorem call_position {source : String} {calls : List Call} {c : Call} {item : Item} {s' : Scanner}
    (h : ((ofString source).afterCalls calls).call c = (some item, s')) :
    ∃ before blanks taken,
      source.toList = before ++ ((ofString source).afterCalls calls).rest ∧
      ((ofString source).afterCalls calls).rest = blanks ++ (taken ++ s'.rest) ∧
      Blank blanks ∧ Munch taken item s'.rest ∧
      item.position = Position.endOf (before ++ blanks) := by
  obtain ⟨before, hsource, hstands⟩ := stands_afterCalls source calls
  generalize (ofString source).afterCalls calls = s at h hsource hstands ⊢
  obtain ⟨taken, hrest, hmunch, hposition, -⟩ := hstands.nextToken
  have hcall : item = s.nextToken.1 ∧ s'.rest = s.nextToken.2.rest := by
    cases c with
    | nextToken =>
        cases h
        exact ⟨rfl, rfl⟩
    | next =>
        have h : s.next = (some item, s') := h
        rcases s.next_cases with hnone | ⟨failed, hnext, hitem⟩
        · rw [h] at hnone
          cases hnone
        · rw [h] at hnext hitem
          have hnext : s' = { s.nextToken.2 with failed := failed } := hnext
          exact ⟨hitem item rfl, by rw [hnext]⟩
  obtain ⟨rfl, hleft⟩ := hcall
  rw [hleft]
  refine ⟨before, s.rest.takeWhile isBlank, taken, hsource, ?_, blank_takeWhile s.rest, hmunch,
    hposition⟩
  rw [← hrest, List.takeWhile_append_dropWhile]

theorem call_position_behind_error :
    (((ofString "1$\n\n\u3000+2").afterCalls [.next, .nextToken]).call .next).1 =
        some (.ok ⟨.operator .add, ⟨3, 2⟩⟩) ∧
      ∃ before blanks taken,
        "1$\n\n\u3000+2".toList = before ++ ['\n', '\n', '\u3000', '+', '2'] ∧
        ['\n', '\n', '\u3000', '+', '2'] = blanks ++ (taken ++ ['2']) ∧
        Blank blanks ∧ Munch taken (.ok ⟨.operator .add, ⟨3, 2⟩⟩) ['2'] ∧
        (⟨3, 2⟩ : Position) = Position.endOf (before ++ blanks) := by
  have h : ((ofString "1$\n\n\u3000+2").afterCalls [.next, .nextToken]).call .next =
      (some (.ok ⟨.operator .add, ⟨3, 2⟩⟩),
        ⟨['2'], 8, 3, ⟨4, ['\u3000', '+', '2'], 1⟩, ⟨7, ['+', '2'], 2⟩, false⟩) := rfl
  exact ⟨congrArg Prod.fst h, call_position h⟩

end Scanner

end Calculator
