import Mathlib.Data.List.Induction
import Calculator.Proofs.Recount

/-!
The two ways to read a scanner, in any order. Whatever has been asked of it, a scanner differs from
a fresh one that has delivered as many items in no more than whether its stream has failed.
-/

namespace Calculator

def Item.streamed? (item : Item) : Option Item := if item.isEnd then none else some item

def Item.isError : Item → Bool
  | .ok _ => false
  | .error _ => true

namespace Scanner

theorem after_add (s : Scanner) (n k : Nat) : (s.after n).after k = s.after (n + k) := by
  induction k with
  | zero => rfl
  | succ k ih => exact congrArg (fun t => t.nextToken.2) ih

theorem item_add (s : Scanner) (n k : Nat) : (s.after n).item k = s.item (n + k) :=
  congrArg (fun t => t.nextToken.1) (s.after_add n k)

theorem item_end_of_le {s : Scanner} {n m : Nat} {position : Position}
    (h : s.item n = .ok ⟨.endOfInput, position⟩) (hle : n ≤ m) :
    s.item m = .ok ⟨.endOfInput, position⟩ := by
  obtain ⟨k, rfl⟩ := Nat.exists_eq_add_of_le hle
  have hnext : (s.after n).nextToken = (.ok ⟨.endOfInput, position⟩, s.after (n + 1)) :=
    Prod.ext h rfl
  rw [← item_add]
  exact item_of_end hnext k

def flagged (s : Scanner) (failed : Bool) : Scanner := { s with failed := failed }

theorem skip_flagged (s : Scanner) (failed : Bool) (c : Char) (rest : List Char) :
    (s.flagged failed).skip c rest = (s.skip c rest).flagged failed := by
  unfold skip
  split <;> rfl

theorem skipBlanks_flagged (s : Scanner) (failed : Bool) :
    (s.flagged failed).skipBlanks = s.skipBlanks.flagged failed := by
  suffices h : ∀ text (s : Scanner),
      (s.flagged failed).skipBlanksOf text = (s.skipBlanksOf text).flagged failed from h s.rest s
  intro text
  induction text with
  | nil => exact fun s => rfl
  | cons c text ih =>
      intro s
      rw [skipBlanksOf, skipBlanksOf, skip_flagged, ih]
      split <;> rfl

theorem takeItem_flagged (s : Scanner) (failed : Bool) :
    (s.flagged failed).takeItem = (s.takeItem.1, s.takeItem.2.flagged failed) := by
  obtain ⟨rest, offset, line, lineStart, mark, failed'⟩ := s
  cases rest with
  | nil => rfl
  | cons c rest =>
      simp only [takeItem, flagged]
      split <;> rfl

theorem nextToken_flagged (s : Scanner) (failed : Bool) :
    (s.flagged failed).nextToken = (s.nextToken.1, s.nextToken.2.flagged failed) := by
  rw [nextToken, skipBlanks_flagged, takeItem_flagged]
  rfl

theorem call_nextToken_flagged (s : Scanner) (failed : Bool) :
    (s.flagged failed).call .nextToken = (some s.nextToken.1, s.nextToken.2.flagged failed) := by
  rw [call, nextToken_flagged]

theorem call_next_failed (s : Scanner) :
    (s.flagged true).call .next = (none, s.flagged true) := rfl

theorem call_next_flagged (s : Scanner) :
    (s.flagged false).call .next =
      (s.nextToken.1.streamed?, s.nextToken.2.flagged s.nextToken.1.isError) := by
  change (s.flagged false).next = _
  unfold next
  rw [nextToken_flagged]
  rcases s.nextToken with ⟨error | lexeme, s'⟩
  · rfl
  · by_cases hend : lexeme.token = .endOfInput <;>
      simp [Item.streamed?, Item.isEnd, Item.isError, flagged, hend]

/-- The calls with what each has delivered, latest first. -/
def history (s : Scanner) : List Call → List (Call × Option Item)
  | [] => []
  | c :: calls => (s.call c).2.history calls ++ [(c, (s.call c).1)]

theorem afterCalls_concat (s : Scanner) (calls : List Call) (c : Call) :
    s.afterCalls (calls ++ [c]) = ((s.afterCalls calls).call c).2 := by
  simp [afterCalls]

theorem history_concat (s : Scanner) (calls : List Call) (c : Call) :
    s.history (calls ++ [c]) = (c, ((s.afterCalls calls).call c).1) :: s.history calls := by
  induction calls generalizing s with
  | nil => rfl
  | cons first calls ih =>
      rw [List.cons_append, history, ih, history]
      rfl

def streamFails : Call × Option Item → Bool
  | (.nextToken, _) => false
  | (.next, none) => false
  | (.next, some item) => item.isError

def streamFailed (history : List (Call × Option Item)) : Bool := history.any streamFails

theorem streamFailed_cons (entry : Call × Option Item) (earlier : List (Call × Option Item)) :
    streamFailed (entry :: earlier) = (streamFails entry || streamFailed earlier) := rfl

theorem streamFailed_iff {history : List (Call × Option Item)} :
    streamFailed history = true ↔ ∃ error, (.next, some (.error error)) ∈ history := by
  rw [streamFailed, List.any_eq_true]
  constructor
  · rintro ⟨⟨c, reply⟩, hmem, hfails⟩
    cases c with
    | nextToken => cases hfails
    | next =>
        rcases reply with _ | error | lexeme
        · cases hfails
        · exact ⟨error, hmem⟩
        · cases hfails
  · rintro ⟨error, hmem⟩
    exact ⟨_, hmem, rfl⟩

/-- How many items the calls have read: one each, but `next` reads none once it has delivered an
error. -/
def reads : List (Call × Option Item) → Nat
  | [] => 0
  | (.nextToken, _) :: earlier => reads earlier + 1
  | (.next, _) :: earlier => if streamFailed earlier then reads earlier else reads earlier + 1

theorem streamFailed_next (item : Item) (earlier : List (Call × Option Item)) :
    streamFailed ((.next, item.streamed?) :: earlier) = (item.isError || streamFailed earlier) := by
  have hfails : streamFails (.next, item.streamed?) = item.isError := by
    rcases item with error | lexeme
    · rfl
    · by_cases hend : lexeme.token = .endOfInput <;>
        simp [Item.streamed?, Item.isEnd, Item.isError, streamFails, hend]
  rw [streamFailed_cons, hfails]

theorem afterCalls_eq {s : Scanner} (h : s.failed = false) (calls : List Call) :
    s.afterCalls calls =
      (s.after (reads (s.history calls))).flagged (streamFailed (s.history calls)) := by
  induction calls using List.reverseRecOn with
  | nil => exact congrArg s.flagged h
  | append_singleton calls c ih =>
      rw [afterCalls_concat, history_concat, ih]
      generalize s.history calls = earlier
      cases c with
      | nextToken =>
          rw [call_nextToken_flagged]
          rfl
      | next =>
          cases hfailed : streamFailed earlier with
          | true =>
              rw [call_next_failed, reads, if_pos hfailed, streamFailed_cons, hfailed]
              rfl
          | false =>
              rw [call_next_flagged, streamFailed_next, hfailed, Bool.or_false, reads, hfailed]
              rfl

/-- Every call reads the next item, whichever way the items before were read. Only `next` reads
nothing, once it has delivered an error. -/
theorem calls_read_in_turn (source : String) (calls : List Call) :
    (((ofString source).afterCalls calls).call .nextToken).1 =
        some ((ofString source).item (reads ((ofString source).history calls))) ∧
      ((∃ error, (.next, some (.error error)) ∈ (ofString source).history calls) →
        ((ofString source).afterCalls calls).call .next =
          (none, (ofString source).afterCalls calls)) ∧
      ((∀ error, (.next, some (.error error)) ∉ (ofString source).history calls) →
        (((ofString source).afterCalls calls).call .next).1 =
          ((ofString source).item (reads ((ofString source).history calls))).streamed?) ∧
      ∀ n < reads ((ofString source).history calls), ∀ position,
        (ofString source).item n = .ok ⟨.endOfInput, position⟩ →
          (((ofString source).afterCalls calls).call .nextToken).1 =
            some (.ok ⟨.endOfInput, position⟩) := by
  have hnext : (((ofString source).afterCalls calls).call .nextToken).1 =
      some ((ofString source).item (reads ((ofString source).history calls))) := by
    rw [afterCalls_eq rfl, call_nextToken_flagged]
    rfl
  refine ⟨hnext, ?_, ?_, ?_⟩
  · intro hfailed
    rw [afterCalls_eq rfl, streamFailed_iff.2 hfailed, call_next_failed]
  · intro hnone
    have hfailed : streamFailed ((ofString source).history calls) = false := by
      apply Bool.eq_false_iff.2
      intro hfailed
      obtain ⟨error, hmem⟩ := streamFailed_iff.1 hfailed
      exact hnone error hmem
    rw [afterCalls_eq rfl, hfailed, call_next_flagged]
    rfl
  · intro n hn position hend
    rw [hnext, item_end_of_le hend (Nat.le_of_lt hn)]

-- The error goes to `nextToken`, and the stream goes on behind it.
example :
    (ofString "$1").history [.nextToken, .next, .next, .nextToken] =
      [(.nextToken, some (.ok ⟨.endOfInput, ⟨1, 3⟩⟩)), (.next, none),
       (.next, some (.ok ⟨.integer 1, ⟨1, 2⟩⟩)),
       (.nextToken, some (.error (.unknownCharacter '$' ⟨1, 1⟩)))] := by
  with_unfolding_all rfl

end Scanner

end Calculator
