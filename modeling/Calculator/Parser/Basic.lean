import Calculator.Scanner

/-!
One lexeme of lookahead over a scanner, and `eat`, the only way to move on. The next item is drawn at
the moment a lexeme is consumed, so a text that cannot be scanned is noticed before anything is asked
of the lexeme in front of it.
-/

namespace Calculator

/-- The lexeme at hand, the scanner behind it, and every item drawn from the scanner so far, latest
first. -/
structure Parser where
  lookahead : Lexeme
  scanner : Scanner
  pulled : List Item

namespace Parser

def start (scanner : Scanner) : Except ScanError Parser :=
  match scanner.nextToken with
  | (.ok lexeme, scanner') => .ok ⟨lexeme, scanner', [.ok lexeme]⟩
  | (.error error, _) => .error error

def ofString (source : String) : Except ScanError Parser := start (.ofString source)

/-- Consumes the lookahead if it is of the expected kind. Where the next item is an error the
lookahead stays, while the scanner is behind what it could not read. -/
def eat (p : Parser) (expected : Kind) : Except Failure Lexeme × Parser :=
  if p.lookahead.kind = expected then
    match p.scanner.nextToken with
    | (.ok lexeme, scanner) => (.ok p.lookahead, ⟨lexeme, scanner, .ok lexeme :: p.pulled⟩)
    | (.error error, scanner) =>
        (.error (.scan error), ⟨p.lookahead, scanner, .error error :: p.pulled⟩)
  else (.error (.parse (.unexpected expected p.lookahead.kind p.lookahead.position)), p)

theorem eat_eq_ok_iff {p p' : Parser} {expected : Kind} {lexeme : Lexeme} :
    p.eat expected = (.ok lexeme, p') ↔
      p.lookahead.kind = expected ∧ lexeme = p.lookahead ∧
        ∃ next scanner, p.scanner.nextToken = (.ok next, scanner) ∧
          p' = ⟨next, scanner, .ok next :: p.pulled⟩ := by
  unfold eat
  split
  next hkind =>
      split
      next next scanner hnext =>
          constructor
          · intro h
            cases h
            exact ⟨hkind, rfl, next, scanner, hnext, rfl⟩
          · rintro ⟨-, rfl, next', scanner', hnext', rfl⟩
            rw [hnext] at hnext'
            cases hnext'
            rfl
      next error scanner hnext =>
          constructor
          · intro h
            cases h
          · rintro ⟨-, -, next', scanner', hnext', -⟩
            rw [hnext] at hnext'
            cases hnext'
  next hkind =>
      constructor
      · intro h
        cases h
      · rintro ⟨hkind', -⟩
        exact absurd hkind' hkind

def operandMissing (p : Parser) : Failure :=
  .parse (.operandMissing p.lookahead.kind p.lookahead.position)

/-- What is left to consume: at most one lexeme a character, and the lookahead. -/
def remaining (p : Parser) : Nat :=
  p.scanner.rest.length + if p.lookahead.token = .endOfInput then 0 else 1

theorem remaining_eat_lt {p p' : Parser} {expected : Kind} {lexeme : Lexeme}
    (h : p.eat expected = (.ok lexeme, p')) (hexpected : expected ≠ .endOfInput) :
    p'.remaining < p.remaining := by
  obtain ⟨hkind, -, next, scanner, hnext, rfl⟩ := eat_eq_ok_iff.1 h
  have hne : p.lookahead.token ≠ .endOfInput := by
    intro hend
    apply hexpected
    rw [← hkind, Lexeme.kind, hend]
    rfl
  simp only [remaining, if_neg hne]
  by_cases hlast : next.token = .endOfInput
  · have hle := p.scanner.length_rest_nextToken_le
    rw [hnext] at hle
    rw [if_pos hlast]
    exact Nat.lt_succ_of_le hle
  · have hlt := Scanner.length_rest_lt_of_ok hnext hlast
    rw [if_neg hlast]
    exact Nat.succ_lt_succ hlt

end Parser

end Calculator
