import Calculator.Scanner

namespace Calculator

/-- The lexemes in front of the end of the input, and where that is, or the lexemes in front of the
first error, and this error. -/
structure Scan where
  lexemes : List Lexeme
  ending : Except ScanError Position

namespace Scan

def cons (lexeme : Lexeme) (scan : Scan) : Scan := ⟨lexeme :: scan.lexemes, scan.ending⟩

def tokens (scan : Scan) : List Lexeme :=
  match scan.ending with
  | .ok position => scan.lexemes ++ [⟨.endOfInput, position⟩]
  | .error _ => scan.lexemes

end Scan

namespace Scanner

variable {s s' : Scanner}

def scan (s : Scanner) : Scan :=
  match _h : s.nextToken with
  | (.error error, _) => ⟨[], .error error⟩
  | (.ok lexeme, s') =>
      if lexeme.token = .endOfInput then ⟨[], .ok lexeme.position⟩ else (scan s').cons lexeme
termination_by s.rest.length
decreasing_by exact length_rest_lt_of_ok _h ‹_›

theorem scan_of_error {error : ScanError} (h : s.nextToken = (.error error, s')) :
    s.scan = ⟨[], .error error⟩ := by
  rw [scan]
  split
  next h' =>
      rw [h] at h'
      cases h'
      rfl
  next h' =>
      rw [h] at h'
      cases h'

theorem scan_of_ok {lexeme : Lexeme} (h : s.nextToken = (.ok lexeme, s')) :
    s.scan =
      if lexeme.token = .endOfInput then ⟨[], .ok lexeme.position⟩ else s'.scan.cons lexeme := by
  rw [scan]
  split
  next h' =>
      rw [h] at h'
      cases h'
  next h' =>
      rw [h] at h'
      cases h'
      rfl

theorem skipBlanks_of_end (h : s.rest = []) : s.skipBlanks = s := by
  rw [skipBlanks, h]
  rfl

theorem nextToken_of_end {position : Position}
    (h : s.nextToken = (.ok ⟨.endOfInput, position⟩, s')) :
    s'.nextToken = (.ok ⟨.endOfInput, position⟩, s') := by
  rcases s.skipBlanks.takeItem_cases with ⟨hend, hs, hrest⟩ | ⟨hne, hlt⟩
  · rw [nextToken, takeItem_of_end hrest] at h
    cases h
    have hend' : s.skipBlanks.marked.rest = [] := hrest
    rw [nextToken, skipBlanks_of_end hend', takeItem_of_end hend', position_marked, marked_marked]
  · have hitem : s.skipBlanks.takeItem.1 = .ok ⟨.endOfInput, position⟩ := congrArg Prod.fst h
    rw [hitem] at hne
    cases hne

theorem ne_end_of_mem_scan {s : Scanner} {lexeme : Lexeme} (h : lexeme ∈ s.scan.lexemes) :
    lexeme.token ≠ .endOfInput := by
  fun_induction scan s with
  | case1 s error s' hnext => cases h
  | case2 s first s' hnext hend => cases h
  | case3 s first s' hnext hne ih =>
      rcases List.mem_cons.1 h with rfl | hmem
      · exact hne
      · exact ih hmem

theorem tokenize_eq_scan (s : Scanner) :
    s.tokenize = s.scan.ending.map fun _ => s.scan.tokens := by
  fun_induction scan s with
  | case1 s error s' hnext =>
      rw [tokenize_of_error hnext]
      rfl
  | case2 s lexeme s' hnext hend =>
      obtain ⟨token, position⟩ := lexeme
      cases hend
      rw [tokenize_of_end hnext]
      rfl
  | case3 s lexeme s' hnext hne ih =>
      rw [tokenize_of_ok hnext hne, ih]
      rcases hending : s'.scan.ending with error | position
      · simp [Scan.cons, hending, Except.map]
      · simp [Scan.cons, Scan.tokens, hending, Except.map]

end Scanner

def Scan.ofString (source : String) : Scan := (Scanner.ofString source).scan

end Calculator
