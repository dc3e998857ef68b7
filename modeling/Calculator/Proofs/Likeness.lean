import Mathlib.Data.List.Forall2
import Calculator.Proofs.Lexing

/-!
Readings of the same items, in whatever places and over whatever trees. A relation of trees that
operators keep is kept by a whole reading: both come to related trees, or to failures that differ in
their place at most.
-/

namespace Calculator

/-- The relation looks at no place, and operators keep it. -/
structure Congruence (r : Expr → Expr → Prop) : Prop where
  literal (value : Int64) (p q : Position) : r (.literal value p) (.literal value q)
  binary (op : Operator) (p q : Position) {left left' right right' : Expr} :
    r left left' → r right right' → r (.binary op p left right) (.binary op q left' right')

theorem Congruence.refl {r : Expr → Expr → Prop} (h : Congruence r) (e : Expr) : r e e := by
  induction e with
  | literal value position => exact h.literal value position position
  | binary op position left right ihl ihr => exact h.binary op position position ihl ihr

variable {r : Expr → Expr → Prop}

inductive Pending.Alike (r : Expr → Expr → Prop) : Option Pending → Option Pending → Prop
  | none : Alike r none none
  | some {left left' : Expr} (op : Operator) (p q : Position) :
      r left left' → Alike r (some ⟨left, op, p⟩) (some ⟨left', op, q⟩)

theorem Pending.Alike.complete {pending pending' : Option Pending} {right right' : Expr}
    (hr : Congruence r) (h : Alike r pending pending') (hright : r right right') :
    r (Pending.complete pending right) (Pending.complete pending' right') := by
  cases h with
  | none => exact hright
  | some op p q hleft => exact hr.binary op p q hleft hright

theorem Pending.Alike.refl (hr : Congruence r) (pending : Option Pending) :
    Alike r pending pending := by
  rcases pending with _ | ⟨left, op, position⟩
  · exact .none
  · exact .some op position position (hr.refl left)

structure Frame.Alike (r : Expr → Expr → Prop) (frame frame' : Frame) : Prop where
  sum : Pending.Alike r frame.sum frame'.sum
  product : Pending.Alike r frame.product frame'.product

namespace Frame.Alike

variable {frame frame' : Frame} {operand operand' : Expr}

theorem empty : Frame.Alike r .empty .empty := ⟨.none, .none⟩

theorem operandFor (hr : Congruence r) (h : Frame.Alike r frame frame')
    (hoperand : r operand operand') (level : Level) :
    r (frame.operandFor operand level) (frame'.operandFor operand' level) := by
  have hproduct := h.product.complete hr hoperand
  cases level with
  | multiplicative => exact hproduct
  | additive => exact h.sum.complete hr hproduct

theorem suspend (hr : Congruence r) (h : Frame.Alike r frame frame')
    (hoperand : r operand operand') (op : Operator) (p q : Position) :
    Frame.Alike r (frame.suspend operand op p) (frame'.suspend operand' op q) := by
  have hleft := h.operandFor hr hoperand op.level
  cases hlevel : op.level with
  | additive =>
      rw [hlevel] at hleft
      rw [suspend_additive hlevel, suspend_additive hlevel]
      exact ⟨.some op p q hleft, .none⟩
  | multiplicative =>
      rw [hlevel] at hleft
      rw [suspend_multiplicative hlevel, suspend_multiplicative hlevel]
      exact ⟨h.sum, .some op p q hleft⟩

theorem refl (hr : Congruence r) (frame : Frame) : Frame.Alike r frame frame :=
  ⟨.refl hr frame.sum, .refl hr frame.product⟩

end Frame.Alike

structure Reading.Alike (r : Expr → Expr → Prop) (reading reading' : Reading) : Prop where
  frame : Frame.Alike r reading.frame reading'.frame
  enclosing : List.Forall₂ (Frame.Alike r) reading.enclosing reading'.enclosing
  operand : Option.Rel r reading.operand reading'.operand

inductive Agree (r : Expr → Expr → Prop) : Except Failure Expr → Except Failure Expr → Prop
  | ok {e e' : Expr} : r e e' → Agree r (.ok e) (.ok e')
  | error {failure failure' : Failure} :
      failure.unplaced = failure'.unplaced → Agree r (.error failure) (.error failure')

namespace Agree

variable {result result' result'' : Except Failure Expr}

theorem symm (hr : Equivalence r) (h : Agree r result result') : Agree r result' result := by
  cases h with
  | ok he => exact .ok (hr.symm he)
  | error hfailure => exact .error hfailure.symm

theorem trans (hr : Equivalence r) (h : Agree r result result') (h' : Agree r result' result'') :
    Agree r result result'' := by
  cases h with
  | ok he =>
      cases h' with
      | ok he' => exact .ok (hr.trans he he')
  | error hfailure =>
      cases h' with
      | error hfailure' => exact .error (hfailure.trans hfailure')

end Agree

namespace Reading

def readItems (reading : Reading) (position : Position) (items : List Item) :
    Except Failure Expr :=
  reading.readAll (Scan.ofItems position items).lexemes (Scan.ofItems position items).ending

theorem readItems_ok {reading : Reading} {position : Position} {lexeme : Lexeme}
    {items : List Item} :
    reading.readItems position (.ok lexeme :: items) =
      match reading.absorb lexeme with
      | some next => next.readItems position items
      | none => .error (.parse (reading.complaint lexeme)) := rfl

theorem readItems_append {reading reading' : Reading} {lexemes : List Lexeme}
    (h : reading.absorbAll lexemes = some reading') (position : Position) (items : List Item) :
    reading.readItems position (lexemes.map .ok ++ items) = reading'.readItems position items := by
  induction lexemes generalizing reading with
  | nil =>
      cases h
      rfl
  | cons lexeme lexemes ih =>
      rw [absorbAll_cons] at h
      obtain ⟨next, hnext, hrest⟩ := Option.bind_eq_some_iff.1 h
      rw [List.map_cons, List.cons_append, readItems_ok, hnext]
      exact ih hrest

namespace Alike

variable {reading reading' : Reading} {lexeme lexeme' : Lexeme}

theorem refl (hr : Congruence r) (reading : Reading) : Reading.Alike r reading reading := by
  refine ⟨.refl hr reading.frame, List.forall₂_same.2 fun frame _ => .refl hr frame, ?_⟩
  cases reading.operand with
  | none => exact .none
  | some operand => exact .some (hr.refl operand)

theorem absorb (hr : Congruence r) (h : Reading.Alike r reading reading')
    (htoken : lexeme.token = lexeme'.token) :
    Option.Rel (Reading.Alike r) (reading.absorb lexeme) (reading'.absorb lexeme') := by
  obtain ⟨frame, enclosing, operand⟩ := reading
  obtain ⟨frame', enclosing', operand'⟩ := reading'
  obtain ⟨token, p⟩ := lexeme
  obtain ⟨token', q⟩ := lexeme'
  obtain ⟨hframe, henclosing, hoperand⟩ := h
  subst htoken
  cases hoperand with
  | none =>
      cases token with
      | integer value => exact .some ⟨hframe, henclosing, .some (hr.literal value p q)⟩
      | leftParen => exact .some ⟨.empty, .cons hframe henclosing, .none⟩
      | operator op => exact .none
      | rightParen => exact .none
      | endOfInput => exact .none
  | some hoperand =>
      cases token with
      | operator op => exact .some ⟨hframe.suspend hr hoperand op p q, henclosing, .none⟩
      | rightParen =>
          cases henclosing with
          | nil => exact .none
          | cons houter henclosing =>
              exact .some ⟨houter, henclosing, .some (hframe.operandFor hr hoperand .additive)⟩
      | integer value => exact .none
      | leftParen => exact .none
      | endOfInput => exact .none

theorem complaint (h : Reading.Alike r reading reading') (htoken : lexeme.token = lexeme'.token) :
    (reading.complaint lexeme).unplaced = (reading'.complaint lexeme').unplaced := by
  obtain ⟨frame, enclosing, operand⟩ := reading
  obtain ⟨frame', enclosing', operand'⟩ := reading'
  obtain ⟨hframe, henclosing, hoperand⟩ := h
  have hkind : lexeme.kind = lexeme'.kind := congrArg Token.kind htoken
  cases hoperand with
  | none => simp only [Reading.complaint, ParseError.unplaced, hkind]
  | some hoperand =>
      cases henclosing <;> simp only [Reading.complaint, ParseError.unplaced, hkind]

theorem whole? (hr : Congruence r) (h : Reading.Alike r reading reading') :
    Option.Rel r reading.whole? reading'.whole? := by
  obtain ⟨frame, enclosing, operand⟩ := reading
  obtain ⟨frame', enclosing', operand'⟩ := reading'
  obtain ⟨hframe, henclosing, hoperand⟩ := h
  cases henclosing with
  | cons => exact .none
  | nil =>
      cases hoperand with
      | none => exact .none
      | some hoperand => exact .some (hframe.operandFor hr hoperand .additive)

theorem refused (h : Reading.Alike r reading reading') (htoken : lexeme.token = lexeme'.token) :
    Agree r (.error (.parse (reading.complaint lexeme)))
      (.error (.parse (reading'.complaint lexeme'))) :=
  .error (congrArg Failure.parse (h.complaint htoken))

theorem readAll_nil (hr : Congruence r) (h : Reading.Alike r reading reading') (p q : Position) :
    Agree r (reading.readAll [] (.ok p)) (reading'.readAll [] (.ok q)) := by
  have hwhole := h.whole? hr
  rw [readAll, readAll]
  generalize reading.whole? = whole at hwhole
  generalize reading'.whole? = whole' at hwhole
  cases hwhole with
  | none => exact h.refused rfl
  | some he => exact .ok he

theorem readItems {items items' : List Item} (hr : Congruence r)
    (h : Reading.Alike r reading reading') (p q : Position)
    (hitems : items.map Item.unplaced = items'.map Item.unplaced) :
    Agree r (reading.readItems p items) (reading'.readItems q items') := by
  induction items generalizing reading reading' items' with
  | nil =>
      obtain rfl := List.map_eq_nil_iff.1 hitems.symm
      exact h.readAll_nil hr p q
  | cons item items ih =>
      obtain ⟨item', items', rfl, hitem, hrest⟩ := List.map_eq_cons_iff.1 hitems.symm
      cases item with
      | error error =>
          cases item' with
          | ok lexeme => cases hitem
          | error error' =>
              injection hitem with herror
              exact .error (congrArg Failure.scan herror.symm)
      | ok lexeme =>
          cases item' with
          | error error => cases hitem
          | ok lexeme' =>
              injection hitem with hlexeme
              have hunplaced := congrArg Lexeme.token hlexeme.symm
              have htoken : lexeme.token = lexeme'.token := hunplaced
              have habsorb := h.absorb hr htoken
              rw [readItems_ok, readItems_ok]
              generalize reading.absorb lexeme = next at habsorb
              generalize reading'.absorb lexeme' = next' at habsorb
              cases habsorb with
              | none => exact h.refused htoken
              | some hnext => exact ih hnext hrest.symm

end Alike

end Reading

theorem parse_agrees (hr : Congruence r) {source : String} {items : List Item}
    (h : Itemized source.toList items) (position : Position) :
    Agree r (parse source) (Reading.start.readItems position items) := by
  obtain ⟨items', position', hitemized, hscan⟩ := (Scanner.ofString source).exists_itemized
  have hparse : parse source = Reading.start.readItems position' items' := by
    rw [parse_eq_readAll, Scan.ofString, hscan]
    rfl
  rw [hparse]
  exact (Reading.Alike.refl hr .start).readItems hr position' position
    (hitemized.unplaced_unique h)

end Calculator
