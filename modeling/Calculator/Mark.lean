import Calculator.Position

/-!
Places that columns are counted from. A mark knows how many bytes of the source are in front of it,
and the column of a later place on its line is found by counting the characters in between.
-/

namespace Calculator

def byteLength (text : List Char) : Nat := text.foldl (fun bytes c => bytes + c.utf8Size) 0

theorem foldl_utf8Size (text : List Char) (bytes : Nat) :
    text.foldl (fun bytes c => bytes + c.utf8Size) bytes = bytes + byteLength text := by
  induction text generalizing bytes with
  | nil => rfl
  | cons c text ih =>
      rw [byteLength, List.foldl_cons, List.foldl_cons, ih, ih (0 + c.utf8Size)]
      omega

theorem byteLength_cons (c : Char) (text : List Char) :
    byteLength (c :: text) = c.utf8Size + byteLength text := by
  rw [byteLength, List.foldl_cons, foldl_utf8Size, Nat.zero_add]

theorem byteLength_append (xs ys : List Char) :
    byteLength (xs ++ ys) = byteLength xs + byteLength ys := by
  rw [byteLength, List.foldl_append, foldl_utf8Size]
  rfl

theorem byteLength_eq_zero {text : List Char} (h : byteLength text = 0) : text = [] := by
  cases text with
  | nil => rfl
  | cons c text =>
      have hpos := c.utf8Size_pos
      rw [byteLength_cons] at h
      omega

/-- A place in the source: the bytes in front of it, the characters from there on, and its
column. -/
structure Mark where
  offset : Nat
  text : List Char
  column : Nat
deriving DecidableEq, Repr

namespace Mark

def start (text : List Char) : Mark := ⟨0, text, 1⟩

/-- Counts on from `column`, one for each character that begins within so many bytes. -/
def countFrom (column : Nat) : Nat → List Char → Nat
  | 0, _ => column
  | _ + 1, [] => column
  | bytes + 1, c :: text => countFrom (column + 1) (bytes + 1 - c.utf8Size) text

def columnAt (mark : Mark) (offset : Nat) : Nat :=
  countFrom mark.column (offset - mark.offset) mark.text

theorem columnAt_offset (mark : Mark) : mark.columnAt mark.offset = mark.column := by
  rw [columnAt, Nat.sub_self]
  cases mark.text <;> rfl

theorem countFrom_cons (column bytes : Nat) (c : Char) (text : List Char) :
    countFrom column (c.utf8Size + bytes) (c :: text) = countFrom (column + 1) bytes text := by
  have hpos := c.utf8Size_pos
  obtain ⟨n, hn⟩ : ∃ n, c.utf8Size + bytes = n + 1 := ⟨c.utf8Size + bytes - 1, by omega⟩
  rw [hn, countFrom]
  congr 1
  omega

theorem countFrom_byteLength (column : Nat) (taken rest : List Char) :
    countFrom column (byteLength taken) (taken ++ rest) = column + taken.length := by
  induction taken generalizing column with
  | nil =>
      unfold countFrom byteLength
      cases rest <;> rfl
  | cons c taken ih =>
      rw [byteLength_cons, List.cons_append, countFrom_cons, ih, List.length_cons]
      omega

end Mark

end Calculator
