import Calculator.Proofs.Grammaticality
import Calculator.Proofs.Interleaving
import Calculator.Proofs.Places

/-!
The two ways to read a whole source. The loop of `tokenize` calls for one item after another; each
call but the last takes a character, so that one call more than there are characters is enough. The
stream yields what the loop finds, but keeps back the end of the input.
-/

namespace Calculator

namespace Scan

def yielded (scan : Scan) : List Item := scan.lexemes.map .ok ++ failing scan.ending

theorem yielded_inj {scan scan' : Scan} (h : scan.yielded = scan'.yielded) :
    scan.lexemes = scan'.lexemes ∧ failing scan.ending = failing scan'.ending := by
  have hlexemes := congrArg (List.filterMap Except.toOption) h
  simp only [yielded, List.filterMap_append, filterMap_toOption_ok, filterMap_toOption_failing,
    List.append_nil] at hlexemes
  rw [yielded, yielded, hlexemes] at h
  exact ⟨hlexemes, List.append_cancel_left h⟩

theorem failing_eq_nil_iff {ending : Except ScanError Position} :
    failing ending = [] ↔ ∃ position, ending = .ok position := by
  cases ending <;> simp [failing]

theorem failing_eq_singleton_iff {ending : Except ScanError Position} {error : ScanError} :
    failing ending = [.error error] ↔ ending = .error error := by
  cases ending <;> simp [failing]

theorem items_ne_nil (scan : Scan) : scan.items ≠ [] := by
  obtain ⟨lexemes, ending⟩ := scan
  cases ending <;> simp [items, tokens, failing]

end Scan

namespace Scanner

variable {s s' : Scanner}

def streamed (s : Scanner) (n : Nat) : Option Item :=
  ((s.afterCalls (List.replicate n .next)).call .next).1

theorem streamed_succ (s : Scanner) (n : Nat) : s.streamed (n + 1) = s.next.2.streamed n := rfl

theorem next_flagged (s : Scanner) :
    (s.flagged false).next =
      (s.nextToken.1.streamed?, s.nextToken.2.flagged s.nextToken.1.isError) :=
  s.call_next_flagged

theorem next_of_none (h : s.next = (none, s')) : s'.next = (none, s') := by
  unfold next at h
  split at h
  next hfailed =>
      cases h
      rw [next, if_pos hfailed]
  next =>
      split at h
      next => cases h
      next lexeme t hnext =>
          split at h
          next hend =>
              -- the stream does not fail at the end of the input, which is read again
              cases h
              obtain ⟨token, position⟩ := lexeme
              cases hend
              rw [next, nextToken_of_end hnext]
              simp
          next => cases h

theorem streamed_eq (s : Scanner) (n : Nat) : s.streamed n = s.items[n]? := by
  induction n generalizing s with
  | zero =>
      rcases hnext : s.next with ⟨_ | item, s'⟩
      · rw [items_of_next_none hnext]
        exact congrArg Prod.fst hnext
      · rw [items_of_next_some hnext]
        exact congrArg Prod.fst hnext
  | succ n ih =>
      rw [streamed_succ, ih]
      rcases hnext : s.next with ⟨_ | item, s'⟩
      · rw [items_of_next_none hnext, items_of_next_none (next_of_none hnext)]
        rfl
      · rw [items_of_next_some hnext]
        rfl

theorem items_flagged (s : Scanner) : (s.flagged false).items = s.scan.yielded := by
  fun_induction scan s with
  | case1 s error s' hnext =>
      have hstream : (s.flagged false).next = (some (.error error), s'.flagged true) := by
        rw [next_flagged, hnext]
        rfl
      rw [items_of_next_some hstream, items_of_next_none s'.call_next_failed]
      rfl
  | case2 s lexeme s' hnext hend =>
      have hstream : (s.flagged false).next = (none, s'.flagged false) := by
        rw [next_flagged, hnext, Item.streamed?, if_pos (by simpa [Item.isEnd] using hend)]
        rfl
      rw [items_of_next_none hstream]
      rfl
  | case3 s lexeme s' hnext hne ih =>
      have hstream : (s.flagged false).next = (some (.ok lexeme), s'.flagged false) := by
        rw [next_flagged, hnext, Item.streamed?, if_neg (by simpa [Item.isEnd] using hne)]
        rfl
      rw [items_of_next_some hstream, ih]
      rfl

theorem streamed_iff (source : String) (scan : Scan) :
    (∀ n, (ofString source).streamed n = scan.yielded[n]?) ↔
      (ofString source).scan.lexemes = scan.lexemes ∧
        Scan.failing (ofString source).scan.ending = Scan.failing scan.ending := by
  have hstreamed : ∀ n, (ofString source).streamed n = (ofString source).scan.yielded[n]? := by
    intro n
    rw [streamed_eq]
    exact congrArg (·[n]?) (ofString source).items_flagged
  simp only [hstreamed]
  constructor
  · exact fun h => Scan.yielded_inj (List.ext_getElem? h)
  · rintro ⟨hlexemes, hfailing⟩ n
    rw [Scan.yielded, Scan.yielded, hlexemes, hfailing]

theorem streamed_ok_iff {source : String} {lexemes : List Lexeme} :
    (∀ n, (ofString source).streamed n = (lexemes.map Except.ok)[n]?) ↔
      (ofString source).scan.lexemes = lexemes ∧
        (ofString source).scan.ending = .ok (Position.endOf source.toList) := by
  have h := streamed_iff source ⟨lexemes, .ok (Position.endOf source.toList)⟩
  rw [Scan.yielded, Scan.failing, List.append_nil, Scan.failing_eq_nil_iff] at h
  rw [h]
  constructor
  · rintro ⟨hlexemes, position, hending⟩
    exact ⟨hlexemes, Scan.position_of_ending hending ▸ hending⟩
  · rintro ⟨hlexemes, hending⟩
    exact ⟨hlexemes, _, hending⟩

theorem streamed_error_iff {source : String} {lexemes : List Lexeme} {error : ScanError} :
    (∀ n, (ofString source).streamed n = (lexemes.map Except.ok ++ [.error error])[n]?) ↔
      (ofString source).scan.lexemes = lexemes ∧
        (ofString source).scan.ending = .error error := by
  rw [← Scan.failing_eq_singleton_iff]
  exact streamed_iff source ⟨lexemes, .error error⟩

theorem tokenizeBehind_of_ok {lexeme : Lexeme} {done : List Lexeme}
    (h : s.nextToken = (.ok lexeme, s')) (hne : lexeme.token ≠ .endOfInput) :
    s.tokenizeBehind done = s'.tokenizeBehind (lexeme :: done) := by
  rw [tokenizeBehind_eq, tokenizeBehind_eq, tokenize_of_ok h hne]
  cases s'.tokenize <;> simp [Except.map]

/-- The loop of `tokenize`, left after so many calls of `nextToken`. -/
def tokenizeWithin : Nat → Scanner → List Lexeme → Option (Except ScanError (List Lexeme))
  | 0, _, _ => none
  | calls + 1, s, done =>
      match s.nextToken with
      | (.error error, _) => some (.error error)
      | (.ok lexeme, s') =>
          if lexeme.token = .endOfInput then some (.ok (lexeme :: done).reverse)
          else tokenizeWithin calls s' (lexeme :: done)

theorem tokenizeWithin_eq (calls : Nat) (s : Scanner) (done : List Lexeme) :
    tokenizeWithin calls s done =
      if s.scan.items.length ≤ calls then some (s.tokenizeBehind done) else none := by
  induction calls generalizing s done with
  | zero =>
      -- every scan has an item, and no call is left for it
      have hpos := List.length_pos_iff.2 s.scan.items_ne_nil
      rw [tokenizeWithin, if_neg (Nat.not_le.2 hpos)]
  | succ calls ih =>
      rw [tokenizeWithin]
      rcases hnext : s.nextToken with ⟨error | lexeme, s'⟩
      · rw [tokenizeBehind_eq, tokenize_of_error hnext, scan_of_error hnext]
        exact (if_pos (Nat.le_add_left 1 calls)).symm
      · by_cases hend : lexeme.token = .endOfInput
        · obtain ⟨token, position⟩ := lexeme
          cases hend
          rw [tokenizeBehind_eq, tokenize_of_end hnext, scan_of_ok hnext]
          simp [Scan.items, Scan.tokens, Scan.failing, Except.map]
        · simp only [if_neg hend]
          rw [ih, tokenizeBehind_of_ok hnext hend, scan_of_ok hnext, if_neg hend, Scan.items_cons,
            List.length_cons]
          simp only [Nat.add_le_add_iff_right]

theorem length_items_scan_le (s : Scanner) : s.scan.items.length ≤ s.rest.length + 1 := by
  fun_induction scan s with
  | case1 s error s' hnext => exact Nat.le_add_left 1 s.rest.length
  | case2 s lexeme s' hnext hend => exact Nat.le_add_left 1 s.rest.length
  | case3 s lexeme s' hnext hne ih =>
      have hlt := length_rest_lt_of_ok hnext hne
      rw [Scan.items_cons, List.length_cons]
      omega

-- A call for each of the two characters does not reach the end of the input.
example : tokenizeWithin 2 (ofString "+(") [] = none := by with_unfolding_all rfl

theorem tokenize_eq_error_iff {error : ScanError} :
    s.tokenize = .error error ↔ s.scan.ending = .error error := by
  rw [tokenize_eq_scan]
  cases s.scan.ending <;> simp [Except.map]

theorem exists_of_tokenize {tokens : List Lexeme} (h : s.tokenize = .ok tokens) :
    ∃ position, tokens = s.scan.lexemes ++ [⟨.endOfInput, position⟩] ∧
      s.scan.ending = .ok position := by
  rw [tokenize_eq_scan] at h
  cases hending : s.scan.ending with
  | error error =>
      rw [hending] at h
      cases h
  | ok position =>
      rw [hending] at h
      cases h
      exact ⟨position, by rw [Scan.tokens, hending], rfl⟩

/-- The loop of `tokenize` is over after one call more than there are characters, if not before. It
finds the lexemes that the stream of a fresh scanner yields before it ends for ever, and behind them
the end of the input, at the place where the source ends, or the error that the stream yields last. -/
theorem tokenize_agrees_with_stream (source : String) :
    (∃ calls ≤ source.length + 1, ∀ n,
      tokenizeWithin n (ofString source) [] =
        if calls ≤ n then some (ofString source).tokenize else none) ∧
      (∀ tokens, (ofString source).tokenize = .ok tokens ↔
        ∃ lexemes : List Lexeme,
          tokens = lexemes ++ [⟨.endOfInput, Position.endOf source.toList⟩] ∧
          (∀ lexeme ∈ lexemes, lexeme.token ≠ .endOfInput) ∧
          ∀ n, (ofString source).streamed n = (lexemes.map Except.ok)[n]?) ∧
      ∀ error, (ofString source).tokenize = .error error ↔
        ∃ lexemes : List Lexeme, ∀ n,
          (ofString source).streamed n = (lexemes.map Except.ok ++ [.error error])[n]? := by
  refine ⟨⟨(ofString source).scan.items.length, ?_, ?_⟩, ?_, ?_⟩
  · exact (ofString source).length_items_scan_le
  · exact fun n => tokenizeWithin_eq n (ofString source) []
  · intro tokens
    constructor
    · intro h
      obtain ⟨position, rfl, hending⟩ := exists_of_tokenize h
      obtain rfl := Scan.position_of_ending hending
      exact ⟨_, rfl, fun _ => ne_end_of_mem_scan, streamed_ok_iff.2 ⟨rfl, hending⟩⟩
    · rintro ⟨lexemes, rfl, -, hstreamed⟩
      exact tokenize_eq_ok_iff.2 (streamed_ok_iff.1 hstreamed)
  · intro error
    rw [tokenize_eq_error_iff]
    constructor
    · exact fun hending => ⟨_, streamed_error_iff.2 ⟨rfl, hending⟩⟩
    · rintro ⟨lexemes, hstreamed⟩
      exact (streamed_error_iff.1 hstreamed).2

-- Without the place of the end the lexemes are not settled: the stream keeps it back.
theorem stream_keeps_back_place :
    ¬((ofString "").tokenize = .ok [⟨.endOfInput, ⟨9, 9⟩⟩] ↔
      ∃ (lexemes : List Lexeme) (position : Position),
        [⟨.endOfInput, ⟨9, 9⟩⟩] = lexemes ++ [⟨.endOfInput, position⟩] ∧
          (∀ lexeme ∈ lexemes, lexeme.token ≠ .endOfInput) ∧
          ∀ n, (ofString "").streamed n = (lexemes.map Except.ok)[n]?) := by
  intro h
  have hend : (ofString "").nextToken = (.ok ⟨.endOfInput, .start⟩, ofString "") := by
    with_unfolding_all rfl
  have hnone : (ofString "").next = (none, ofString "") := by
    rw [next, hend]
    rfl
  have hstreamed (n : Nat) : (ofString "").streamed n = none := by
    rw [streamed_eq, items_of_next_none hnone]
    rfl
  have hplace := h.2 ⟨[], ⟨9, 9⟩, rfl, by simp, hstreamed⟩
  rw [tokenize_of_end hend] at hplace
  cases hplace

end Scanner

end Calculator
