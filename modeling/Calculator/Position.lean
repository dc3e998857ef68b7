/-!
Places in a source text. A position moves on by one character at a time, and `past_start` says that
this never departs from counting the lines and columns of the whole text afresh.
-/

namespace Calculator

/-- A line and a column, both counted from one; columns count characters. -/
structure Position where
  line : Nat
  column : Nat
deriving DecidableEq, Repr

namespace Position

def start : Position := ⟨1, 1⟩

def advance (p : Position) (c : Char) : Position :=
  if c = '\n' then ⟨p.line + 1, 1⟩ else ⟨p.line, p.column + 1⟩

def past (p : Position) (text : List Char) : Position := text.foldl advance p

@[simp] theorem past_nil (p : Position) : p.past [] = p := rfl

@[simp] theorem past_cons (p : Position) (c : Char) (text : List Char) :
    p.past (c :: text) = (p.advance c).past text := rfl

/-- The place behind a text, counted afresh: one more than its line feeds, and one more than the
characters behind the last of them. -/
def endOf (text : List Char) : Position :=
  ⟨1 + text.count '\n', 1 + (text.reverse.takeWhile (· ≠ '\n')).length⟩

theorem endOf_concat (text : List Char) (c : Char) :
    endOf (text ++ [c]) = (endOf text).advance c := by
  by_cases h : c = '\n'
  · subst h
    simp [endOf, advance, Nat.add_assoc]
  · simp [endOf, advance, h, Nat.add_comm]

theorem past_start_append (xs ys : List Char) :
    (endOf xs).past ys = endOf (xs ++ ys) := by
  induction ys generalizing xs with
  | nil => simp
  | cons c ys ih =>
      rw [past_cons, ← endOf_concat, ih]
      simp

theorem past_start (text : List Char) : start.past text = endOf text :=
  past_start_append [] text

instance : Ord Position where
  compare p q := (compare p.line q.line).then (compare p.column q.column)

instance : LT Position where
  lt p q := p.line < q.line ∨ p.line = q.line ∧ p.column < q.column

instance (p q : Position) : Decidable (p < q) :=
  inferInstanceAs (Decidable (p.line < q.line ∨ p.line = q.line ∧ p.column < q.column))

theorem lt_iff {p q : Position} :
    p < q ↔ p.line < q.line ∨ p.line = q.line ∧ p.column < q.column := Iff.rfl

theorem compare_eq_lt_iff {p q : Position} : compare p q = .lt ↔ p < q := by
  change (compare p.line q.line).then (compare p.column q.column) = .lt ↔ _
  rw [Ordering.then_eq_lt, Nat.compare_eq_lt, Nat.compare_eq_lt, Nat.compare_eq_eq, lt_iff]

theorem lt_advance (p : Position) (c : Char) : p < p.advance c := by
  unfold advance
  split <;> simp [lt_iff]

theorem lt_irrefl (p : Position) : ¬p < p := by
  simp only [lt_iff]
  omega

theorem lt_trans {p q r : Position} (hpq : p < q) (hqr : q < r) : p < r := by
  simp only [lt_iff] at *
  omega

theorem lt_past (p : Position) {text : List Char} (h : text ≠ []) : p < p.past text := by
  induction text generalizing p with
  | nil => exact absurd rfl h
  | cons c text ih =>
      rw [past_cons]
      cases text with
      | nil => exact lt_advance p c
      | cons d text => exact lt_trans (lt_advance p c) (ih (p.advance c) (List.cons_ne_nil d text))

theorem endOf_lt_append (xs : List Char) {ys : List Char} (h : ys ≠ []) :
    endOf xs < endOf (xs ++ ys) := by
  rw [← past_start_append]
  exact lt_past (endOf xs) h

theorem eq_nil_of_endOf_append {xs more : List Char} (h : endOf xs = endOf (xs ++ more)) :
    more = [] := by
  apply Classical.byContradiction
  intro hne
  have hlt := endOf_lt_append xs hne
  rw [← h] at hlt
  exact lt_irrefl _ hlt

theorem endOf_injective {xs ys text : List Char} (hxs : xs <+: text) (hys : ys <+: text)
    (h : endOf xs = endOf ys) : xs = ys := by
  rcases List.prefix_or_prefix_of_prefix hxs hys with ⟨more, rfl⟩ | ⟨more, rfl⟩
  · rw [eq_nil_of_endOf_append h, List.append_nil]
  · rw [eq_nil_of_endOf_append h.symm, List.append_nil]

def text (p : Position) : String :=
  "line " ++ toString p.line ++ ", column " ++ toString p.column

instance : ToString Position := ⟨text⟩

end Position

end Calculator
