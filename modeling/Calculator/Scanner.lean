import Calculator.Blank
import Calculator.Numeral
import Calculator.Failure
import Calculator.Mark

/-!
Reading a text as tokens. Blanks are passed over, and then the longest token that begins at the next
character is taken; what cannot be read is reported and passed over too, so that scanning can go on
behind it. Every item but the end of the input takes at least one character, and so `items` and
`tokenize` come to an end.
-/

namespace Calculator

abbrev Item := Except ScanError Lexeme

namespace Item

def position : Item → Position
  | .ok lexeme => lexeme.position
  | .error error => error.position

def isEnd : Item → Bool
  | .ok lexeme => lexeme.token = .endOfInput
  | .error _ => false

def ofDigits (digits : List Char) (position : Position) : Item :=
  match Numeral.word? digits with
  | some value => .ok ⟨.integer value, position⟩
  | none => .error (.literalTooLarge (String.ofList digits) position)

theorem isEnd_ofDigits (digits : List Char) (position : Position) :
    (ofDigits digits position).isEnd = false := by
  unfold ofDigits
  split <;> rfl

theorem position_ofDigits (digits : List Char) (position : Position) :
    (ofDigits digits position).position = position := by
  unfold ofDigits
  split <;> rfl

def ofSymbol (c : Char) (position : Position) : Item :=
  match Token.ofSymbol? c with
  | some token => .ok ⟨token, position⟩
  | none => .error (.unknownCharacter c position)

theorem isEnd_ofSymbol (c : Char) (position : Position) :
    (ofSymbol c position).isEnd = false := by
  unfold ofSymbol
  split
  next token h =>
      have hne : token ≠ .endOfInput := by
        rintro rfl
        cases Token.ofSymbol?_eq_some_iff.1 h
      exact decide_eq_false hne
  next => rfl

theorem position_ofSymbol (c : Char) (position : Position) :
    (ofSymbol c position).position = position := by
  unfold ofSymbol
  split <;> rfl

end Item

/-- The characters still to be read and the bytes in front of them, the line on which the first of
them stands and where that line starts, the last place that was given a position, and whether the
stream of items has ended in an error. No field holds that the end has been reached: `rest = []` says
so, and the end is found again, at its place and with the same state behind it
(`nextToken_of_end`). -/
structure Scanner where
  rest : List Char
  offset : Nat
  line : Nat
  lineStart : Mark
  mark : Mark
  failed : Bool
deriving DecidableEq, Repr

namespace Scanner

def ofText (text : List Char) : Scanner := ⟨text, 0, 1, .start text, .start text, false⟩

def ofString (source : String) : Scanner := ofText source.toList

/-- Where columns are counted from: the last place that was given a position if it is on this line,
and otherwise the start of the line. -/
def base (s : Scanner) : Mark :=
  if s.lineStart.offset ≤ s.mark.offset ∧ s.mark.offset ≤ s.offset then s.mark else s.lineStart

def position (s : Scanner) : Position := ⟨s.line, s.base.columnAt s.offset⟩

def marked (s : Scanner) : Scanner := { s with mark := ⟨s.offset, s.rest, s.position.column⟩ }

theorem position_marked (s : Scanner) : s.marked.position = s.position := by
  by_cases h : s.lineStart.offset ≤ s.offset
  · have hbase : s.marked.base = ⟨s.offset, s.rest, s.position.column⟩ :=
      if_pos ⟨h, Nat.le_refl s.offset⟩
    rw [position, hbase]
    exact congrArg (Position.mk s.line) (Mark.columnAt_offset _)
  · -- never in a scanner of a text: a line would start behind what has been read of it
    have hbase : s.base = s.lineStart := if_neg fun hmark => h (Nat.le_trans hmark.1 hmark.2)
    have hbase' : s.marked.base = s.lineStart := if_neg fun hmark => h hmark.1
    rw [position, position, hbase, hbase']
    rfl

theorem marked_marked (s : Scanner) : s.marked.marked = s.marked := by
  rw [marked, position_marked]
  rfl

def pass (s : Scanner) (taken rest : List Char) : Scanner :=
  { s with rest := rest, offset := s.offset + byteLength taken }

def newline (s : Scanner) : Scanner :=
  { s with line := s.line + 1, lineStart := ⟨s.offset, s.rest, 1⟩ }

def skip (s : Scanner) (c : Char) (rest : List Char) : Scanner :=
  if c = '\n' then (s.pass [c] rest).newline else s.pass [c] rest

theorem rest_skip (s : Scanner) (c : Char) (rest : List Char) : (s.skip c rest).rest = rest := by
  unfold skip
  split <;> rfl

def skipBlanksOf (s : Scanner) : List Char → Scanner
  | [] => s
  | c :: rest => if isBlank c then (s.skip c rest).skipBlanksOf rest else s

def skipBlanks (s : Scanner) : Scanner := s.skipBlanksOf s.rest

theorem rest_skipBlanks (s : Scanner) : s.skipBlanks.rest = s.rest.dropWhile isBlank := by
  suffices h : ∀ text (s : Scanner), s.rest = text →
      (s.skipBlanksOf text).rest = text.dropWhile isBlank from h s.rest s rfl
  intro text
  induction text with
  | nil => exact fun s hs => hs
  | cons c text ih =>
      intro s hs
      rw [skipBlanksOf, List.dropWhile_cons]
      split
      · exact ih _ (s.rest_skip c text)
      · exact hs

theorem length_rest_skipBlanks_le (s : Scanner) : s.skipBlanks.rest.length ≤ s.rest.length := by
  rw [rest_skipBlanks]
  exact (List.dropWhile_sublist isBlank).length_le

def takeItem (s : Scanner) : Item × Scanner :=
  match s.rest with
  | [] => (.ok ⟨.endOfInput, s.position⟩, s.marked)
  | c :: rest =>
      if c.isDigit then
        let digits := c :: rest.takeWhile Char.isDigit
        (.ofDigits digits s.position, s.marked.pass digits (rest.dropWhile Char.isDigit))
      else (.ofSymbol c s.position, s.marked.pass [c] rest)

theorem takeItem_of_end {s : Scanner} (h : s.rest = []) :
    s.takeItem = (.ok ⟨.endOfInput, s.position⟩, s.marked) := by
  rw [takeItem, h]

theorem takeItem_cases (s : Scanner) :
    (s.takeItem.1.isEnd = true ∧ s.takeItem.2 = s.marked ∧ s.rest = []) ∨
      (s.takeItem.1.isEnd = false ∧ s.takeItem.2.rest.length < s.rest.length) := by
  unfold takeItem
  split
  next h => exact Or.inl ⟨rfl, rfl, h⟩
  next c rest h =>
      refine Or.inr ?_
      split
      · have hle := (List.dropWhile_sublist Char.isDigit (l := rest)).length_le
        exact ⟨Item.isEnd_ofDigits _ _, by rw [h]; exact Nat.lt_succ_of_le hle⟩
      · exact ⟨Item.isEnd_ofSymbol _ _, by rw [h]; exact Nat.lt_succ_self _⟩

/-- Reads one item. Behind the last character this is the end of the input, however often it is
asked for. -/
def nextToken (s : Scanner) : Item × Scanner := s.skipBlanks.takeItem

theorem length_rest_nextToken_lt {s : Scanner} (h : s.nextToken.1.isEnd = false) :
    s.nextToken.2.rest.length < s.rest.length := by
  rcases s.skipBlanks.takeItem_cases with ⟨hend, _, _⟩ | ⟨_, hlt⟩
  · exact absurd hend (Bool.eq_false_iff.1 h)
  · exact Nat.lt_of_lt_of_le hlt s.length_rest_skipBlanks_le

theorem length_rest_lt_of_error {s s' : Scanner} {error : ScanError}
    (h : s.nextToken = (.error error, s')) : s'.rest.length < s.rest.length := by
  have hlt := length_rest_nextToken_lt (s := s) (by rw [h]; rfl)
  rwa [h] at hlt

theorem length_rest_lt_of_ok {s s' : Scanner} {lexeme : Lexeme}
    (h : s.nextToken = (.ok lexeme, s')) (hne : lexeme.token ≠ .endOfInput) :
    s'.rest.length < s.rest.length := by
  have hlt := length_rest_nextToken_lt (s := s) (by rw [h]; exact decide_eq_false hne)
  rwa [h] at hlt

theorem length_rest_nextToken_le (s : Scanner) :
    s.nextToken.2.rest.length ≤ s.rest.length := by
  rcases s.skipBlanks.takeItem_cases with ⟨_, hs, _⟩ | ⟨_, hlt⟩
  · rw [nextToken, hs]
    exact s.length_rest_skipBlanks_le
  · exact Nat.le_of_lt (Nat.lt_of_lt_of_le hlt s.length_rest_skipBlanks_le)

def after (s : Scanner) : Nat → Scanner
  | 0 => s
  | n + 1 => (s.after n).nextToken.2

/-- The item that comes after so many others; no error stops the count. -/
def item (s : Scanner) (n : Nat) : Item := (s.after n).nextToken.1

theorem after_succ (s : Scanner) (n : Nat) : s.after (n + 1) = s.nextToken.2.after n := by
  induction n with
  | zero => rfl
  | succ n ih => exact congrArg (fun t => t.nextToken.2) ih

theorem item_succ (s : Scanner) (n : Nat) : s.item (n + 1) = s.nextToken.2.item n :=
  congrArg (fun t => t.nextToken.1) (s.after_succ n)

/-- The next item of the stream, which ends before the end of the input and behind its first
error. -/
def next (s : Scanner) : Option Item × Scanner :=
  if s.failed then (none, s)
  else
    match s.nextToken with
    | (.error error, s') => (some (.error error), { s' with failed := true })
    | (.ok lexeme, s') =>
        if lexeme.token = .endOfInput then (none, s') else (some (.ok lexeme), s')

theorem length_rest_next_lt {s s' : Scanner} {item : Item} (h : s.next = (some item, s')) :
    s'.rest.length < s.rest.length := by
  unfold next at h
  split at h
  · cases h
  · split at h
    next error t ht =>
        have hlt := length_rest_lt_of_error ht
        cases h
        exact hlt
    next lexeme t ht =>
        split at h
        · cases h
        next hne =>
            cases h
            exact length_rest_lt_of_ok ht hne

def itemsBehind (s : Scanner) (done : List Item) : List Item :=
  match _h : s.next with
  | (none, _) => done.reverse
  | (some item, s') => itemsBehind s' (item :: done)
termination_by s.rest.length
decreasing_by exact length_rest_next_lt _h

def items (s : Scanner) : List Item := s.itemsBehind []

theorem itemsBehind_eq (s : Scanner) (done : List Item) :
    s.itemsBehind done = done.reverse ++ s.items := by
  rw [items, itemsBehind, itemsBehind]
  split
  next => simp
  next item s' h =>
      rw [itemsBehind_eq s' (item :: done), itemsBehind_eq s' [item]]
      simp
termination_by s.rest.length
decreasing_by all_goals exact length_rest_next_lt ‹_›

theorem items_of_next_none {s s' : Scanner} (h : s.next = (none, s')) : s.items = [] := by
  rw [items, itemsBehind]
  split
  next => rfl
  next h' =>
      rw [h] at h'
      cases h'

theorem items_of_next_some {s s' : Scanner} {item : Item} (h : s.next = (some item, s')) :
    s.items = item :: s'.items := by
  rw [items, itemsBehind]
  split
  next h' =>
      rw [h] at h'
      cases h'
  next h' =>
      rw [h] at h'
      cases h'
      exact itemsBehind_eq s' [item]

def tokenizeBehind (s : Scanner) (done : List Lexeme) : Except ScanError (List Lexeme) :=
  match _h : s.nextToken with
  | (.error error, _) => .error error
  | (.ok lexeme, s') =>
      if lexeme.token = .endOfInput then .ok (lexeme :: done).reverse
      else tokenizeBehind s' (lexeme :: done)
termination_by s.rest.length
decreasing_by exact length_rest_lt_of_ok _h ‹_›

def tokenize (s : Scanner) : Except ScanError (List Lexeme) := s.tokenizeBehind []

theorem tokenizeBehind_eq (s : Scanner) (done : List Lexeme) :
    s.tokenizeBehind done = s.tokenize.map (done.reverse ++ ·) := by
  rw [tokenize, tokenizeBehind, tokenizeBehind]
  split
  next => rfl
  next lexeme s' h =>
      split
      next => simp [Except.map]
      next hne =>
          rw [tokenizeBehind_eq s' (lexeme :: done), tokenizeBehind_eq s' [lexeme]]
          cases s'.tokenize <;> simp [Except.map]
termination_by s.rest.length
decreasing_by all_goals exact length_rest_lt_of_ok ‹_› ‹_›

theorem tokenize_of_error {s s' : Scanner} {error : ScanError}
    (h : s.nextToken = (.error error, s')) : s.tokenize = .error error := by
  rw [tokenize, tokenizeBehind]
  split
  next h' =>
      rw [h] at h'
      cases h'
      rfl
  next h' =>
      rw [h] at h'
      cases h'

theorem tokenize_of_end {s s' : Scanner} {position : Position}
    (h : s.nextToken = (.ok ⟨.endOfInput, position⟩, s')) :
    s.tokenize = .ok [⟨.endOfInput, position⟩] := by
  rw [tokenize, tokenizeBehind]
  split
  next h' =>
      rw [h] at h'
      cases h'
  next h' =>
      rw [h] at h'
      cases h'
      rfl

theorem tokenize_of_ok {s s' : Scanner} {lexeme : Lexeme}
    (h : s.nextToken = (.ok lexeme, s')) (hne : lexeme.token ≠ .endOfInput) :
    s.tokenize = s'.tokenize.map (lexeme :: ·) := by
  rw [tokenize, tokenizeBehind]
  split
  next h' =>
      rw [h] at h'
      cases h'
  next h' =>
      rw [h] at h'
      cases h'
      rw [if_neg hne]
      exact tokenizeBehind_eq s' [lexeme]

end Scanner

end Calculator
