import Calculator.Grammar
import Calculator.Proofs.Absorption

/-!
Readings and derivations. `Consumed` relates a reading to the lexemes it has taken: each pending
operand is derived from its own part of them. In the other direction a derivation says what a
reading does with its lexemes, and therefore they have one tree at most.
-/

namespace Calculator

namespace Frame

def pending (frame : Frame) : Level → Option Pending
  | .additive => frame.sum
  | .multiplicative => frame.product

theorem pending_suspend (frame : Frame) (operand : Expr) (op : Operator) (position : Position) :
    (frame.suspend operand op position).pending op.level =
      some ⟨frame.operandFor operand op.level, op, position⟩ := by
  cases op <;> rfl

theorem product_suspend (frame : Frame) (operand : Expr) {op : Operator} (position : Position)
    (h : op.level = .additive) : (frame.suspend operand op position).product = none := by
  rw [suspend_additive h]

theorem sum_suspend (frame : Frame) (operand : Expr) {op : Operator} (position : Position)
    (h : op.level = .multiplicative) : (frame.suspend operand op position).sum = frame.sum := by
  rw [suspend_multiplicative h]

end Frame

namespace Derives

theorem rest_concat {level : Level} {left e right : Expr} {v w : List Lexeme} {op : Operator}
    {position : Position} (h : Derives (.rest level left) v e) (hop : op ∈ level.operators)
    (hright : Derives level.operand w right) :
    Derives (.rest level left) (v ++ ⟨.operator op, position⟩ :: w)
      (.binary op position e right) := by
  -- a `rest` grows at its end, but is derived from its front
  generalize hphrase : Phrase.rest level left = phrase at h
  induction h generalizing left with
  | integer => cases hphrase
  | group => cases hphrase
  | chain => cases hphrase
  | @done level' e' =>
      cases hphrase
      have hrest : Derives (.rest level e') (⟨.operator op, position⟩ :: (w ++ []))
          (.binary op position e' right) := Derives.operator hop hright Derives.done
      rwa [List.append_nil] at hrest
  | operator hfirst hoperand _ _ ih =>
      cases hphrase
      have hrest := ih rfl
      rw [List.cons_append, List.append_assoc]
      exact Derives.operator hfirst hoperand hrest

theorem chain_concat {level : Level} {left right : Expr} {v w : List Lexeme} {op : Operator}
    {position : Position} (h : Derives (.chain level) v left) (hop : op ∈ level.operators)
    (hright : Derives level.operand w right) :
    Derives (.chain level) (v ++ ⟨.operator op, position⟩ :: w)
      (.binary op position left right) := by
  cases h with
  | chain hoperand hrest =>
      rw [List.append_assoc]
      exact Derives.chain hoperand (hrest.rest_concat hop hright)

end Derives

inductive Pending.Consumed (level : Level) : Option Pending → List Lexeme → Prop
  | none : Consumed level none []
  | some {op : Operator} {left : Expr} {lexemes : List Lexeme} (position : Position) :
      Derives (.chain level) lexemes left → op ∈ level.operators →
        Consumed level (some ⟨left, op, position⟩) (lexemes ++ [⟨.operator op, position⟩])

theorem Pending.Consumed.complete {level : Level} {pending : Option Pending}
    {right : Expr} {v w : List Lexeme} (h : Pending.Consumed level pending v)
    (hright : Derives level.operand w right) :
    Derives (.chain level) (v ++ w) (Pending.complete pending right) := by
  cases h with
  | none => exact Derives.chain_of_operand hright
  | some position hleft hop =>
      rw [List.append_assoc]
      exact hleft.chain_concat hop hright

inductive Frame.Consumed : Frame → List Lexeme → Prop
  | intro {sum product : Option Pending} {v w : List Lexeme} :
      Pending.Consumed .additive sum v → Pending.Consumed .multiplicative product w →
        Consumed ⟨sum, product⟩ (v ++ w)

namespace Frame.Consumed

variable {frame : Frame} {v w : List Lexeme} {operand : Expr}

theorem empty : Frame.Consumed .empty [] := .intro .none .none

theorem close (h : frame.Consumed v) (hoperand : Derives .factor w operand) :
    Derives (.chain .additive) (v ++ w) (frame.close operand) := by
  obtain ⟨hsum, hproduct⟩ := h
  rw [List.append_assoc]
  exact hsum.complete (hproduct.complete hoperand)

theorem suspend (h : frame.Consumed v) (hoperand : Derives .factor w operand) (op : Operator)
    (position : Position) :
    (frame.suspend operand op position).Consumed (v ++ w ++ [⟨.operator op, position⟩]) := by
  cases hlevel : op.level with
  | additive =>
      have hop := Level.mem_operators_iff.2 hlevel
      rw [suspend_additive hlevel]
      have hframe := Frame.Consumed.intro (.some position (h.close hoperand) hop) .none
      rw [List.append_nil] at hframe
      exact hframe
  | multiplicative =>
      have hop := Level.mem_operators_iff.2 hlevel
      rw [suspend_multiplicative hlevel]
      obtain ⟨hsum, hproduct⟩ := h
      have hframe := Frame.Consumed.intro hsum (.some position (hproduct.complete hoperand) hop)
      simpa only [List.append_assoc] using hframe

end Frame.Consumed

/-- What the frames around the innermost one have taken, each with the parenthesis behind it. -/
inductive Enclosed : List Frame → List Lexeme → Prop
  | nil : Enclosed [] []
  | cons {frame : Frame} {enclosing : List Frame} {u v : List Lexeme} (position : Position) :
      Enclosed enclosing u → frame.Consumed v →
        Enclosed (frame :: enclosing) (u ++ v ++ [⟨.leftParen, position⟩])

inductive Reading.Consumed : Reading → List Lexeme → Prop
  | due {frame : Frame} {enclosing : List Frame} {u v : List Lexeme} :
      Enclosed enclosing u → frame.Consumed v → Consumed ⟨frame, enclosing, none⟩ (u ++ v)
  | read {frame : Frame} {enclosing : List Frame} {operand : Expr} {u v w : List Lexeme} :
      Enclosed enclosing u → frame.Consumed v → Derives .factor w operand →
        Consumed ⟨frame, enclosing, some operand⟩ (u ++ v ++ w)

namespace Reading

variable {reading reading' : Reading} {lexeme : Lexeme} {lexemes : List Lexeme}

theorem Consumed.absorb (h : reading.Consumed lexemes) (habsorb : Absorbs reading lexeme reading') :
    reading'.Consumed (lexemes ++ [lexeme]) := by
  cases habsorb with
  | literal frame enclosing value position =>
      obtain ⟨henclosing, hframe⟩ := h
      exact .read henclosing hframe .integer
  | opening frame enclosing position =>
      obtain ⟨henclosing, hframe⟩ := h
      rw [← List.append_nil (_ ++ _ ++ _)]
      exact .due (.cons position henclosing hframe) Frame.Consumed.empty
  | operator frame enclosing operand op position =>
      obtain - | ⟨henclosing, hframe, hoperand⟩ := h
      have hdue := Consumed.due henclosing (hframe.suspend hoperand op position)
      simpa only [List.append_assoc] using hdue
  | closing frame outer enclosing operand position =>
      obtain - | ⟨henclosing, hframe, hoperand⟩ := h
      obtain - | ⟨position', houtside, houter⟩ := henclosing
      have hgroup : Derives .factor (⟨.leftParen, position'⟩ :: (_ ++ [⟨.rightParen, position⟩]))
          (frame.close operand) := .group (hframe.close hoperand)
      have hread := Consumed.read houtside houter hgroup
      simpa only [List.append_assoc, List.cons_append, List.nil_append] using hread

theorem Consumed.absorbAll {taken : List Lexeme} (h : reading.Consumed taken)
    (habsorb : reading.absorbAll lexemes = some reading') :
    reading'.Consumed (taken ++ lexemes) :=
  absorbAll_keeps Consumed.absorb h habsorb

theorem consumed_start : start.Consumed [] :=
  Consumed.due .nil Frame.Consumed.empty

theorem Consumed.derives {e : Expr} (h : reading.Consumed lexemes)
    (hwhole : reading.whole? = some e) : Derives (.chain .additive) lexemes e := by
  obtain ⟨frame, operand, rfl, rfl⟩ := whole?_eq_some_iff.1 hwhole
  obtain - | ⟨henclosing, hframe, hoperand⟩ := h
  cases henclosing
  exact hframe.close hoperand

/-- The reading stands behind an operand that gives the level `e` on its left. A multiplicative
phrase leaves the pending sum as it was. -/
def Arrives (level : Level) (e : Expr) (sum : Option Pending) (enclosing : List Frame)
    (reading? : Option Reading) : Prop :=
  ∃ frame operand, reading? = some ⟨frame, enclosing, some operand⟩ ∧
    frame.operandFor operand level = e ∧ (level = .multiplicative → frame.sum = sum)

def Reads : Phrase → List Lexeme → Expr → Prop
  | .factor, lexemes, e =>
      ∀ frame enclosing, absorbAll ⟨frame, enclosing, none⟩ lexemes = some ⟨frame, enclosing, some e⟩
  | .chain level, lexemes, e =>
      ∀ frame enclosing, frame.pending level = none → (level = .additive → frame.product = none) →
        Arrives level e frame.sum enclosing (absorbAll ⟨frame, enclosing, none⟩ lexemes)
  | .rest level left, lexemes, e =>
      ∀ frame enclosing operand, frame.operandFor operand level = left →
        Arrives level e frame.sum enclosing (absorbAll ⟨frame, enclosing, some operand⟩ lexemes)

theorem Reads.operand {level : Level} {right : Expr} (h : Reads level.operand lexemes right)
    (frame : Frame) (enclosing : List Frame) (hproduct : level = .additive → frame.product = none) :
    Arrives level (Pending.complete (frame.pending level) right) frame.sum enclosing
      (absorbAll ⟨frame, enclosing, none⟩ lexemes) := by
  cases level with
  | additive =>
      obtain ⟨frame', operand, habsorb, rfl, hsum⟩ := h frame enclosing (hproduct rfl) (by rintro ⟨⟩)
      refine ⟨frame', operand, habsorb, ?_, by rintro ⟨⟩⟩
      rw [Frame.pending, ← hsum rfl]
      rfl
  | multiplicative => exact ⟨frame, right, h frame enclosing, rfl, fun _ => rfl⟩

theorem reads_of_derives {phrase : Phrase} {e : Expr} (h : Derives phrase lexemes e) :
    Reads phrase lexemes e := by
  -- over any frame whatsoever: the phrases inside are read in frames that hold what stands before
  induction h with
  | integer =>
      intro frame enclosing
      rfl
  | @group inner e p q _ ih =>
      intro frame enclosing
      obtain ⟨frame', operand, habsorb, rfl, -⟩ :=
        ih .empty (frame :: enclosing) rfl (fun _ => rfl)
      have hopen : absorb ⟨frame, enclosing, none⟩ ⟨.leftParen, p⟩ =
          some ⟨.empty, frame :: enclosing, none⟩ := rfl
      rw [absorbAll_cons, hopen, Option.bind_some, absorbAll_append, habsorb]
      rfl
  | @chain level v w left e _ _ ihoperand ihrest =>
      intro frame enclosing hpending hproduct
      obtain ⟨frame', operand, habsorb, hleft, hsum⟩ := ihoperand.operand frame enclosing hproduct
      rw [hpending] at hleft
      obtain ⟨frame'', operand', habsorb', he, hsum'⟩ := ihrest frame' enclosing operand hleft
      rw [absorbAll_append, habsorb]
      exact ⟨frame'', operand', habsorb', he, fun h => (hsum' h).trans (hsum h)⟩
  | done =>
      intro frame enclosing operand hleft
      exact ⟨frame, operand, rfl, hleft, fun _ => rfl⟩
  | @operator level op position v w left right e hmem _ _ ihoperand ihrest =>
      intro frame enclosing operand hleft
      obtain rfl := Level.mem_operators_iff.1 hmem
      have hop : absorb ⟨frame, enclosing, some operand⟩ ⟨.operator op, position⟩ =
          some ⟨frame.suspend operand op position, enclosing, none⟩ := rfl
      obtain ⟨frame', operand', habsorb, hright, hsum⟩ :=
        ihoperand.operand _ enclosing (frame.product_suspend operand position)
      rw [Frame.pending_suspend, hleft] at hright
      obtain ⟨frame'', operand'', habsorb', he, hsum'⟩ := ihrest frame' enclosing operand' hright
      rw [absorbAll_cons, hop, Option.bind_some, absorbAll_append, habsorb]
      refine ⟨frame'', operand'', habsorb', he, ?_⟩
      intro hlevel
      rw [hsum' hlevel, hsum hlevel, frame.sum_suspend operand position hlevel]

theorem derives_iff_absorbAll {e : Expr} :
    Derives (.chain .additive) lexemes e ↔
      ∃ reading, start.absorbAll lexemes = some reading ∧ reading.whole? = some e := by
  constructor
  · intro h
    obtain ⟨frame, operand, habsorb, he, -⟩ := reads_of_derives h .empty [] rfl (fun _ => rfl)
    exact ⟨_, habsorb, congrArg some he⟩
  · rintro ⟨reading, habsorb, hwhole⟩
    exact (consumed_start.absorbAll habsorb).derives hwhole

end Reading

theorem Derives.tree_unique {lexemes : List Lexeme} {e e' : Expr}
    (h : Derives (.chain .additive) lexemes e) (h' : Derives (.chain .additive) lexemes e') :
    e = e' := by
  obtain ⟨reading, habsorb, hwhole⟩ := Reading.derives_iff_absorbAll.1 h
  obtain ⟨reading', habsorb', hwhole'⟩ := Reading.derives_iff_absorbAll.1 h'
  rw [habsorb] at habsorb'
  cases habsorb'
  rw [hwhole] at hwhole'
  exact Option.some.inj hwhole'

end Calculator
