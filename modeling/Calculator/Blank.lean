/-!
The characters that separate tokens and mean nothing themselves. The scanner looks for them in a
table of ranges; `isBlank_iff_whiteSpace` says that it finds those with the Unicode property
White_Space and no others.
-/

namespace Calculator

def blankRanges : List (Nat × Nat) :=
  [(0x09, 0x0D), (0x20, 0x20), (0x85, 0x85), (0xA0, 0xA0), (0x1680, 0x1680), (0x2000, 0x200A),
   (0x2028, 0x2029), (0x202F, 0x202F), (0x205F, 0x205F), (0x3000, 0x3000)]

def isBlank (c : Char) : Bool := blankRanges.any fun r => r.1 ≤ c.toNat && c.toNat ≤ r.2

theorem isBlank_iff {c : Char} :
    isBlank c = true ↔ ∃ r ∈ blankRanges, r.1 ≤ c.toNat ∧ c.toNat ≤ r.2 := by
  simp [isBlank]

def whiteSpaces : List Nat :=
  [0x0009, 0x000A, 0x000B, 0x000C, 0x000D, 0x0020, 0x0085, 0x00A0, 0x1680, 0x2000, 0x2001, 0x2002,
   0x2003, 0x2004, 0x2005, 0x2006, 0x2007, 0x2008, 0x2009, 0x200A, 0x2028, 0x2029, 0x202F, 0x205F,
   0x3000]

def WhiteSpace (c : Char) : Prop := c.toNat ∈ whiteSpaces

instance (c : Char) : Decidable (WhiteSpace c) := inferInstanceAs (Decidable (c.toNat ∈ whiteSpaces))

theorem whiteSpaces_eq :
    whiteSpaces = blankRanges.flatMap fun r => List.range' r.1 (r.2 + 1 - r.1) := by
  decide

theorem isBlank_iff_whiteSpace {c : Char} : isBlank c = true ↔ WhiteSpace c := by
  rw [isBlank_iff, WhiteSpace, whiteSpaces_eq, List.mem_flatMap]
  constructor
  · rintro ⟨r, hr, hfirst, hlast⟩
    exact ⟨r, hr, List.mem_range'_1.2 (by omega)⟩
  · rintro ⟨r, hr, hmem⟩
    have hrange := List.mem_range'_1.1 hmem
    exact ⟨r, hr, by omega, by omega⟩

theorem isBlank_eq_false_iff {c : Char} : isBlank c = false ↔ ¬WhiteSpace c := by
  rw [← isBlank_iff_whiteSpace, Bool.not_eq_true]

theorem not_whiteSpace_of_isDigit {c : Char} (h : c.isDigit = true) : ¬WhiteSpace c := by
  simp only [Char.isDigit, Bool.and_eq_true, decide_eq_true_eq, UInt32.le_iff_toNat_le] at h
  have hdigit : 48 ≤ c.toNat ∧ c.toNat ≤ 57 := h
  have hout : ∀ n ∈ whiteSpaces, n < 48 ∨ 57 < n := by decide
  intro hblank
  have := hout _ hblank
  omega

end Calculator
