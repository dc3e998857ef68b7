import Calculator.Expr.Text
import Calculator.Token
import Calculator.Numeral
import Calculator.Unplaced

/-!
Trees read back from their text. A minus sign that begins a word belongs to a literal, and one behind
an opening parenthesis is an operator; with that the text of a tree tells all of it but the places.
-/

namespace Calculator

def Operator.ofSymbol? (c : Char) : Option Operator := (Token.ofSymbol? c).bind Token.operator?

theorem Operator.ofSymbol?_symbol (op : Operator) : ofSymbol? op.symbol = some op := by
  cases op <;> rfl

namespace Numeral

def signed? (word : List Char) : Option Int64 :=
  if word.head? = some '-' then int64? (-(value word.tail : Int)) else int64? (value word)

theorem signed?_minus (digits : List Char) :
    signed? ('-' :: digits) = int64? (-(value digits : Int)) := if_pos rfl

theorem signed?_digits {digits : List Char} (h : ∀ c ∈ digits, c.isDigit = true) :
    signed? digits = int64? (value digits) := by
  apply if_neg
  intro hhead
  have hdigit := h '-' (List.mem_of_mem_head? hhead)
  cases hdigit

theorem value_toDigits (n : Nat) : value (Nat.toDigits 10 n) = n := Nat.ofDigitChars_ten_toDigits

theorem isDigit_of_mem_toDigits {n : Nat} : ∀ c ∈ Nat.toDigits 10 n, c.isDigit = true :=
  fun _ hc => Nat.isDigit_of_mem_toDigits (by decide) (by decide) hc

theorem toList_toString_int (n : Int) :
    (toString n).toList =
      if 0 ≤ n then Nat.toDigits 10 n.toNat else '-' :: Nat.toDigits 10 (-n).toNat := by
  rw [Int.toString_eq_repr, Int.repr_eq_if]
  split
  · exact Nat.toList_repr
  · rw [String.toList_append, Nat.toList_repr]
    rfl

theorem signed?_toString (w : Int64) : signed? (toString w.toInt).toList = some w := by
  rw [toList_toString_int]
  split
  next h =>
      rw [signed?_digits isDigit_of_mem_toDigits, value_toDigits, int64?_eq_some_iff]
      omega
  next h =>
      rw [signed?_minus, value_toDigits, int64?_eq_some_iff]
      omega

def inWord (c : Char) : Bool := c = '-' || c.isDigit

theorem inWord_of_mem_toString {n : Int} : ∀ c ∈ (toString n).toList, inWord c = true := by
  intro c hc
  rw [toList_toString_int] at hc
  unfold inWord
  split at hc
  · simp [isDigit_of_mem_toDigits c hc]
  · rcases List.mem_cons.1 hc with rfl | hc
    · rfl
    · simp [isDigit_of_mem_toDigits c hc]

theorem toString_ne_nil (n : Int) : (toString n).toList ≠ [] := by
  rw [toList_toString_int]
  split
  · exact Nat.toDigits_ne_nil
  · exact List.cons_ne_nil _ _

end Numeral

namespace Expr

def parenthesized : Expr → String
  | literal value _ => toString value.toInt
  | binary op _ left right =>
      "(" ++ op.text ++ " " ++ left.parenthesized ++ " " ++ right.parenthesized ++ ")"

theorem render_sexpr (e : Expr) (level : Nat) : Layout.sexpr.render level e = e.parenthesized := by
  induction e generalizing level with
  | literal value position => rfl
  | binary op position left right ihl ihr =>
      rw [Layout.render, ihl, ihr, parenthesized]
      rfl

theorem sexpr_eq_parenthesized (e : Expr) : e.sexpr = e.parenthesized := by
  rw [sexpr, Layout.write_eq_render, render_sexpr]

theorem parenthesized_unplaced (e : Expr) : e.unplaced.parenthesized = e.parenthesized := by
  induction e with
  | literal value position => rfl
  | binary op position left right ihl ihr => rw [unplaced, parenthesized, ihl, ihr, parenthesized]

end Expr

namespace Decoding

def expect? (c : Char) : List Char → Option (List Char)
  | [] => none
  | d :: text => if d = c then some text else none

theorem expect?_cons (c : Char) (text : List Char) : expect? c (c :: text) = some text := if_pos rfl

def operator? : List Char → Option (Operator × List Char)
  | [] => none
  | c :: text => (Operator.ofSymbol? c).map fun op => (op, text)

theorem operator?_cons (op : Operator) (text : List Char) :
    operator? (op.symbol :: text) = some (op, text) := by
  rw [operator?, Operator.ofSymbol?_symbol, Option.map_some]

def literal? (text : List Char) : Option (Expr × List Char) :=
  (Numeral.signed? (text.takeWhile Numeral.inWord)).map fun value =>
    (.literal value .start, text.dropWhile Numeral.inWord)

/-- The tree at the front of a text, and what is behind it. The number bounds the depth. -/
def tree? : Nat → List Char → Option (Expr × List Char)
  | 0, _ => none
  | depth + 1, text =>
      match expect? '(' text with
      | none => literal? text
      | some text => do
          let (op, text) ← operator? text
          let text ← expect? ' ' text
          let (left, text) ← tree? depth text
          let text ← expect? ' ' text
          let (right, text) ← tree? depth text
          let text ← expect? ')' text
          some (.binary op .start left right, text)

/-- No literal goes on into the text. -/
def Ends (text : List Char) : Prop := ∀ c ∈ text.head?, Numeral.inWord c = false

theorem literal?_toString (w : Int64) {rest : List Char} (h : Ends rest) :
    literal? ((toString w.toInt).toList ++ rest) = some (.literal w .start, rest) := by
  have hword := @Numeral.inWord_of_mem_toString w.toInt
  have hrest : rest.takeWhile Numeral.inWord = [] ∧ rest.dropWhile Numeral.inWord = rest := by
    cases rest with
    | nil => exact ⟨rfl, rfl⟩
    | cons c rest =>
        have hc := h c rfl
        simp [hc]
  rw [literal?, List.takeWhile_append_of_pos hword, List.dropWhile_append_of_pos hword, hrest.1,
    hrest.2, List.append_nil, Numeral.signed?_toString, Option.map_some]

theorem toList_parenthesized (op : Operator) (position : Position) (left right : Expr)
    (rest : List Char) :
    (Expr.binary op position left right).parenthesized.toList ++ rest =
      '(' :: op.symbol :: ' ' :: (left.parenthesized.toList ++
        ' ' :: (right.parenthesized.toList ++ ')' :: rest)) := by
  simp [Expr.parenthesized, Operator.text]

theorem expect?_literal (w : Int64) (rest : List Char) :
    expect? '(' ((toString w.toInt).toList ++ rest) = none := by
  obtain ⟨c, word, hword⟩ := List.exists_cons_of_ne_nil (Numeral.toString_ne_nil w.toInt)
  have hc : Numeral.inWord c = true :=
    Numeral.inWord_of_mem_toString c (hword ▸ List.mem_cons_self)
  rw [hword]
  apply if_neg
  rintro rfl
  cases hc

theorem tree?_parenthesized (e : Expr) {depth : Nat} (hdepth : e.size ≤ depth) {rest : List Char}
    (hrest : Ends rest) :
    tree? depth (e.parenthesized.toList ++ rest) = some (e.unplaced, rest) := by
  induction e generalizing depth rest with
  | literal value position =>
      cases depth with
      | zero => cases hdepth
      | succ depth =>
          rw [Expr.parenthesized, tree?, expect?_literal]
          exact literal?_toString value hrest
  | binary op position left right ihl ihr =>
      cases depth with
      | zero => cases hdepth
      | succ depth =>
          rw [Expr.size] at hdepth
          have hleft := ihl (show left.size ≤ depth by omega)
            (show Ends (' ' :: (right.parenthesized.toList ++ ')' :: rest)) by
              intro c hc
              cases hc
              rfl)
          have hright := ihr (show right.size ≤ depth by omega)
            (show Ends (')' :: rest) by
              intro c hc
              cases hc
              rfl)
          rw [toList_parenthesized, tree?, expect?_cons]
          simp only [operator?_cons, expect?_cons, hleft, hright, Option.bind_eq_bind,
            Option.bind_some, Expr.unplaced]

end Decoding

namespace Expr

theorem size_le_length_parenthesized (e : Expr) : e.size ≤ e.parenthesized.toList.length := by
  induction e with
  | literal value position => exact List.length_pos_iff.2 (Numeral.toString_ne_nil value.toInt)
  | binary op position left right ihl ihr =>
      have hlength := congrArg List.length
        (Decoding.toList_parenthesized op position left right [])
      simp only [List.append_nil, List.length_cons, List.length_append, List.length_nil] at hlength
      rw [size, hlength]
      omega

def ofSexpr? (text : String) : Option Expr :=
  match Decoding.tree? text.toList.length text.toList with
  | some (e, []) => some e
  | _ => none

theorem ofSexpr?_parenthesized (e : Expr) : ofSexpr? e.parenthesized = some e.unplaced := by
  have hread := Decoding.tree?_parenthesized e (size_le_length_parenthesized e)
    (show Decoding.Ends [] by
      intro c hc
      cases hc)
  rw [List.append_nil] at hread
  rw [ofSexpr?, hread]

example : ofSexpr? "(- -1 (/ 2 3))" =
    some (.binary .sub .start (.literal (-1) .start)
      (.binary .div .start (.literal 2 .start) (.literal 3 .start))) := by
  with_unfolding_all rfl

/-- The text with operators in front tells a tree up to its places, and it can be read back. -/
theorem sexpr_faithful :
    (∀ e : Expr, e.sexpr = e.parenthesized) ∧
    (∀ e e' : Expr, e.sexpr = e'.sexpr ↔ e.unplaced = e'.unplaced) ∧
    ∀ e : Expr, ofSexpr? e.sexpr = some e.unplaced := by
  refine ⟨sexpr_eq_parenthesized, fun e e' => ⟨fun h => ?_, fun h => ?_⟩, fun e => ?_⟩
  · rw [sexpr_eq_parenthesized, sexpr_eq_parenthesized] at h
    have hread := congrArg ofSexpr? h
    rw [ofSexpr?_parenthesized, ofSexpr?_parenthesized] at hread
    exact Option.some.inj hread
  · rw [sexpr_eq_parenthesized, sexpr_eq_parenthesized, ← parenthesized_unplaced e, h,
      parenthesized_unplaced]
  · rw [sexpr_eq_parenthesized, ofSexpr?_parenthesized]

end Expr

end Calculator
