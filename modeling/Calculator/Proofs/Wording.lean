import Calculator.Proofs.Decoding

/-!
The messages of failures. A message tells the place up to its first colon and then the reason, and no
two reasons have the same words; so the message tells the failure.
-/

namespace Calculator

theorem cut_at_first {c : Char} {xs xs' ys ys' : List Char} (hxs : c ∉ xs) (hxs' : c ∉ xs')
    (h : xs ++ c :: ys = xs' ++ c :: ys') : xs = xs' ∧ ys = ys' := by
  induction xs generalizing xs' with
  | nil =>
      cases xs' with
      | nil => exact ⟨rfl, (List.cons.inj h).2⟩
      | cons d xs' => exact absurd ((List.cons.inj h).1 ▸ List.mem_cons_self) hxs'
  | cons d xs ih =>
      cases xs' with
      | nil => exact absurd ((List.cons.inj h).1 ▸ List.mem_cons_self) hxs
      | cons d' xs' =>
          obtain ⟨rfl, hrest⟩ := List.cons.inj h
          obtain ⟨rfl, hys⟩ := ih (List.not_mem_of_not_mem_cons hxs)
            (List.not_mem_of_not_mem_cons hxs') hrest
          exact ⟨rfl, hys⟩

namespace Numeral

theorem toDigits_injective {m n : Nat} (h : Nat.toDigits 10 m = Nat.toDigits 10 n) : m = n := by
  rw [← value_toDigits m, h, value_toDigits]

theorem notMem_toDigits {c : Char} (hc : c.isDigit = false) (n : Nat) : c ∉ Nat.toDigits 10 n := by
  intro hmem
  rw [isDigit_of_mem_toDigits c hmem] at hc
  cases hc

end Numeral

namespace Position

theorem toList_text (p : Position) :
    p.text.toList =
      "line ".toList ++ Nat.toDigits 10 p.line ++
        ',' :: (" column ".toList ++ Nat.toDigits 10 p.column) := by
  simp [text]

theorem text_injective {p p' : Position} (h : p.text = p'.text) : p = p' := by
  have hcomma : ∀ n : Nat, ',' ∉ "line ".toList ++ Nat.toDigits 10 n := by
    intro n
    simp [Numeral.notMem_toDigits]
  have hlist := congrArg String.toList h
  rw [toList_text, toList_text] at hlist
  obtain ⟨hline, hcolumn⟩ := cut_at_first (hcomma p.line) (hcomma p'.line) hlist
  have hlines := Numeral.toDigits_injective (List.append_cancel_left hline)
  have hcolumns := Numeral.toDigits_injective (List.append_cancel_left hcolumn)
  obtain ⟨line, column⟩ := p
  obtain ⟨line', column'⟩ := p'
  obtain rfl : line = line' := hlines
  obtain rfl : column = column' := hcolumns
  rfl

theorem colon_notMem_text (p : Position) : ':' ∉ p.text.toList := by
  rw [toList_text]
  simp [Numeral.notMem_toDigits]

end Position

namespace Kind

theorem text_injective {k k' : Kind} (h : k.text = k'.text) : k = k' := by
  rcases k with _ | (_ | _ | _ | _) | _ | _ | _ <;>
    rcases k' with _ | (_ | _ | _ | _) | _ | _ | _ <;> simp_all [text, Operator.text, Operator.symbol]

theorem comma_notMem_text (k : Kind) : ',' ∉ k.text.toList := by
  rcases k with _ | (_ | _ | _ | _) | _ | _ | _ <;> simp [text, Operator.text, Operator.symbol]

end Kind

namespace ParseError

def demand : ParseError → String
  | unexpected expected _ _ => expected.text
  | operandMissing _ _ => "integer or '('"

theorem comma_notMem_demand (error : ParseError) : ',' ∉ error.demand.toList := by
  cases error with
  | unexpected expected found position => exact expected.comma_notMem_text
  | operandMissing found position => simp [demand]

theorem toList_reason (error : ParseError) :
    error.reason.toList =
      "Expected ".toList ++
        (error.demand.toList ++ ',' :: (" found ".toList ++ (error.found.text.toList ++ ['.']))) := by
  unfold reason demand found
  cases error <;> simp

theorem text_ne_operand (k : Kind) : k.text ≠ "integer or '('" := by
  rcases k with _ | (_ | _ | _ | _) | _ | _ | _ <;>
    simp [Kind.text, Operator.text, Operator.symbol]

theorem unplaced_eq_of_demand {error error' : ParseError} (hdemand : error.demand = error'.demand)
    (hfound : error.found = error'.found) : error.unplaced = error'.unplaced := by
  cases error with
  | unexpected expected found position =>
      cases error' with
      | unexpected expected' found' position' =>
          rw [unplaced, unplaced, Kind.text_injective hdemand, show found = found' from hfound]
      | operandMissing found' position' => exact absurd hdemand (text_ne_operand expected)
  | operandMissing found position =>
      cases error' with
      | unexpected expected' found' position' => exact absurd hdemand.symm (text_ne_operand expected')
      | operandMissing found' position' => rw [unplaced, unplaced, show found = found' from hfound]

theorem unplaced_eq_of_reason {error error' : ParseError} (h : error.reason = error'.reason) :
    error.unplaced = error'.unplaced := by
  have hlist := congrArg String.toList h
  rw [toList_reason, toList_reason] at hlist
  obtain ⟨hdemand, hbehind⟩ := cut_at_first error.comma_notMem_demand error'.comma_notMem_demand
    (List.append_cancel_left hlist)
  have hfound := List.append_cancel_right (List.append_cancel_left hbehind)
  exact unplaced_eq_of_demand (String.toList_inj.1 hdemand)
    (Kind.text_injective (String.toList_inj.1 hfound))

end ParseError

theorem ScanError.unplaced_eq_of_reason {error error' : ScanError}
    (h : error.reason = error'.reason) : error.unplaced = error'.unplaced := by
  have hlist := congrArg String.toList h
  unfold reason at hlist
  cases error with
  | unknownCharacter character position =>
      cases error' with
      | unknownCharacter character' position' =>
          have hcharacter : character = character' := by simpa using hlist
          rw [hcharacter, unplaced, unplaced]
      | literalTooLarge literal' position' => simp at hlist
  | literalTooLarge literal position =>
      cases error' with
      | unknownCharacter character' position' => simp at hlist
      | literalTooLarge literal' position' =>
          have hliteral : literal.toList = literal'.toList := by simpa using hlist
          rw [String.toList_inj.1 hliteral, unplaced, unplaced]

namespace Failure

def initial : Failure → Char
  | scan (.unknownCharacter _ _) => 'U'
  | scan (.literalTooLarge _ _) => 'I'
  | parse _ => 'E'
  | eval _ => 'D'

theorem head?_reason (failure : Failure) : failure.reason.toList.head? = some failure.initial := by
  unfold reason ScanError.reason ParseError.reason EvalError.reason initial
  rcases failure with (_ | _) | (_ | _) | _ <;> simp

variable {failure failure' : Failure}

theorem initial_eq_of_reason (h : failure.reason = failure'.reason) :
    failure.initial = failure'.initial := by
  have hhead := failure.head?_reason
  rw [h, head?_reason] at hhead
  exact (Option.some.inj hhead).symm

theorem scan_initial_ne (error : ScanError) :
    (scan error).initial ≠ 'E' ∧ (scan error).initial ≠ 'D' := by
  cases error <;> simp [initial]

theorem unplaced_eq_of_reason (h : failure.reason = failure'.reason) :
    failure.unplaced = failure'.unplaced := by
  have hinitial := initial_eq_of_reason h
  cases failure with
  | scan error =>
      cases failure' with
      | scan error' => exact congrArg scan (ScanError.unplaced_eq_of_reason h)
      | parse error' => exact absurd hinitial (scan_initial_ne error).1
      | eval error' => exact absurd hinitial (scan_initial_ne error).2
  | parse error =>
      cases failure' with
      | scan error' => exact absurd hinitial.symm (scan_initial_ne error').1
      | parse error' => exact congrArg parse (ParseError.unplaced_eq_of_reason h)
      | eval error' => simp [initial] at hinitial
  | eval error =>
      cases failure' with
      | scan error' => exact absurd hinitial.symm (scan_initial_ne error').2
      | parse error' => simp [initial] at hinitial
      | eval error' => rfl

theorem eq_of_unplaced (h : failure.unplaced = failure'.unplaced)
    (hposition : failure.position = failure'.position) : failure = failure' := by
  rcases failure with (⟨c, p⟩ | ⟨literal, p⟩) | (⟨expected, found, p⟩ | ⟨found, p⟩) | ⟨⟨p⟩⟩ <;>
    rcases failure' with (⟨c', q⟩ | ⟨literal', q⟩) | (⟨expected', found', q⟩ | ⟨found', q⟩) | ⟨⟨q⟩⟩ <;>
      cases h <;> obtain rfl : p = q := hposition <;> rfl

theorem toList_message (failure : Failure) :
    failure.message.toList =
      "Error on ".toList ++ failure.position.text.toList ++ ':' :: ' ' :: failure.reason.toList := by
  unfold message
  simp

theorem place_and_reason_of_message (h : failure.message = failure'.message) :
    failure.position = failure'.position ∧ failure.reason = failure'.reason := by
  have hcolon : ∀ p : Position, ':' ∉ "Error on ".toList ++ p.text.toList := by
    intro p
    simp [p.colon_notMem_text]
  have hlist := congrArg String.toList h
  rw [toList_message, toList_message] at hlist
  obtain ⟨hplace, hbehind⟩ := cut_at_first (hcolon _) (hcolon _) hlist
  have hposition := String.toList_inj.1 (List.append_cancel_left hplace)
  exact ⟨Position.text_injective hposition, String.toList_inj.1 (List.cons.inj hbehind).2⟩

theorem message_faithful (e e' : Failure) : e.message = e'.message ↔ e = e' := by
  constructor
  · intro h
    obtain ⟨hposition, hreason⟩ := place_and_reason_of_message h
    exact eq_of_unplaced (unplaced_eq_of_reason hreason) hposition
  · exact congrArg message

-- The two that come closest: one begins with all that the other has in front of its comma.
example :
    message (.parse (.unexpected .integer .endOfInput ⟨2, 10⟩)) =
        "Error on line 2, column 10: Expected integer, found end of input." ∧
      message (.parse (.operandMissing .endOfInput ⟨2, 10⟩)) =
        "Error on line 2, column 10: Expected integer or '(', found end of input." := by
  with_unfolding_all exact ⟨rfl, rfl⟩

end Failure

end Calculator
