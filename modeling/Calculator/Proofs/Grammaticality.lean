import Calculator.Proofs.Derivation

/-!
A source has a tree just when its tokens are an expression, and then it is the tree that the grammar
gives them.
-/

namespace Calculator

theorem Reading.readAll_eq_ok_iff {reading : Reading} {lexemes : List Lexeme}
    {ending : Except ScanError Position} {e : Expr} :
    reading.readAll lexemes ending = .ok e ↔
      ∃ position reading', ending = .ok position ∧ reading.absorbAll lexemes = some reading' ∧
        reading'.whole? = some e := by
  induction lexemes generalizing reading with
  | nil =>
      cases ending with
      | error error => simp [readAll]
      | ok position =>
          cases hwhole : reading.whole? <;> simp [readAll, absorbAll, hwhole]
  | cons lexeme lexemes ih =>
      cases habsorb : reading.absorb lexeme with
      | none => simp [readAll, absorbAll_cons, habsorb]
      | some next =>
          have hnext := @ih next
          simpa [readAll, absorbAll_cons, habsorb] using hnext

theorem Scanner.tokenize_eq_ok_iff {s : Scanner} {lexemes : List Lexeme} {position : Position} :
    s.tokenize = .ok (lexemes ++ [⟨.endOfInput, position⟩]) ↔
      s.scan.lexemes = lexemes ∧ s.scan.ending = .ok position := by
  rw [tokenize_eq_scan]
  cases hending : s.scan.ending with
  | error error => simp [Except.map]
  | ok position' => simp [Except.map, Scan.tokens, hending]

theorem parse_eq_ok_iff_derives (source : String) :
    (∀ e, parse source = .ok e ↔
      ∃ lexemes position,
        (Scanner.ofString source).tokenize = .ok (lexemes ++ [⟨.endOfInput, position⟩]) ∧
          Derives (.chain .additive) lexemes e) ∧
      ∀ lexemes e e', Derives (.chain .additive) lexemes e →
        Derives (.chain .additive) lexemes e' → e = e' := by
  refine ⟨?_, fun lexemes e e' h h' => h.tree_unique h'⟩
  intro e
  rw [parse_eq_readAll, Reading.readAll_eq_ok_iff]
  constructor
  · rintro ⟨position, reading, hending, habsorb, hwhole⟩
    refine ⟨_, position, Scanner.tokenize_eq_ok_iff.2 ⟨rfl, hending⟩, ?_⟩
    exact Reading.derives_iff_absorbAll.2 ⟨reading, habsorb, hwhole⟩
  · rintro ⟨lexemes, position, htokenize, hderives⟩
    obtain ⟨rfl, hending⟩ := Scanner.tokenize_eq_ok_iff.1 htokenize
    obtain ⟨reading, habsorb, hwhole⟩ := Reading.derives_iff_absorbAll.1 hderives
    exact ⟨position, reading, hending, habsorb, hwhole⟩

end Calculator
