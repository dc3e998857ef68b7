import Calculator.Proofs.Decoding

/-!
The indented dump of a tree. It is told line by line, by recursion; the lines of an operand tell where
they end, and so the dump has all of a tree but the places.
-/

namespace Calculator

namespace Numeral

theorem toString_toInt_injective {v w : Int64} (h : toString v.toInt = toString w.toInt) :
    v = w := by
  have hread := congrArg (fun text : String => signed? text.toList) h
  simpa only [signed?_toString, Option.some.injEq] using hread

theorem newline_notMem_toString (n : Int) : '\n' ∉ (toString n).toList := by
  intro hmem
  cases inWord_of_mem_toString '\n' hmem

end Numeral

def margin (depth : Nat) : String := String.ofList (List.replicate (4 * depth) ' ')

theorem newline_notMem_margin (depth : Nat) : '\n' ∉ (margin depth).toList := by
  simp [margin]

theorem Layout.toList_indent (level : Nat) :
    (indent level).toList = List.replicate (2 * level) ' ' := by
  rw [indent, String.toList_join]
  induction level with
  | zero => rfl
  | succ level ih =>
      rw [List.replicate_succ, List.flatMap_cons, ih]
      rfl

theorem Layout.indent_eq_margin (depth : Nat) : indent (2 * depth) = margin depth := by
  rw [← String.toList_inj, toList_indent, margin, String.toList_ofList, ← Nat.mul_assoc]

theorem Operator.newline_notMem_tag (op : Operator) : '\n' ∉ op.tag.toList := by
  cases op <;> decide

def IsLine (line : String) : Prop := line ≠ "" ∧ '\n' ∉ line.toList

theorem splitOn_lines {lines : List String} (hne : lines ≠ [])
    (h : ∀ line ∈ lines, IsLine line) :
    ("\n".intercalate lines).toList.splitOn '\n' = lines.map String.toList := by
  rw [String.toList_intercalate]
  apply List.splitOn_intercalate
  · intro characters hmem
    obtain ⟨line, hline, rfl⟩ := List.mem_map.1 hmem
    exact (h line hline).2
  · exact mt List.map_eq_nil_iff.1 hne

namespace Expr

def dumpLines : Nat → Expr → List String
  | depth, literal value _ => [margin depth ++ "Num(" ++ toString value.toInt ++ ")"]
  | depth, binary op _ left right =>
      [margin depth ++ "BinOp:", margin depth ++ "  left:"] ++
        left.dumpLines (depth + 1) ++
        [margin depth ++ "  op: " ++ op.tag, margin depth ++ "  right:"] ++
        right.dumpLines (depth + 1)

theorem dumpLines_ne_nil (depth : Nat) (e : Expr) : e.dumpLines depth ≠ [] := by
  cases e with
  | literal value position => exact List.cons_ne_nil _ _
  | binary op position left right => simp [dumpLines]

theorem dumpLines_unplaced (depth : Nat) (e : Expr) :
    e.unplaced.dumpLines depth = e.dumpLines depth := by
  induction e generalizing depth with
  | literal value position => rfl
  | binary op position left right ihl ihr => simp only [unplaced, dumpLines, ihl, ihr]

theorem isLine_of_mem_dumpLines {depth : Nat} {e : Expr} {line : String}
    (h : line ∈ e.dumpLines depth) : IsLine line := by
  induction e generalizing depth with
  | literal value position =>
      have hvalue := Numeral.newline_notMem_toString value.toInt
      rw [dumpLines, List.mem_singleton] at h
      subst h
      simpa [IsLine, newline_notMem_margin] using hvalue
  | binary op position left right ihl ihr =>
      have htag := op.newline_notMem_tag
      simp only [dumpLines, List.mem_append, List.mem_cons, List.not_mem_nil, or_false] at h
      rcases h with (((rfl | rfl) | hleft) | rfl | rfl) | hright
      · simp [IsLine, newline_notMem_margin]
      · simp [IsLine, newline_notMem_margin]
      · exact ihl hleft
      · simp [IsLine, newline_notMem_margin, htag]
      · simp [IsLine, newline_notMem_margin]
      · exact ihr hright

theorem render_dump (depth : Nat) (e : Expr) :
    Layout.dump.render (2 * depth) e = "\n".intercalate (e.dumpLines depth) := by
  induction e generalizing depth with
  | literal value position =>
      rw [dumpLines, String.intercalate_singleton, ← Layout.indent_eq_margin]
      rfl
  | binary op position left right ihl ihr =>
      -- two levels of the writer are one step down
      have hdown : 2 * depth + 2 = 2 * (depth + 1) := rfl
      have hleft := left.dumpLines_ne_nil (depth + 1)
      have hright := right.dumpLines_ne_nil (depth + 1)
      rw [dumpLines, String.intercalate_append_of_ne_nil (by simp) hright,
        String.intercalate_append_of_ne_nil (by simp) (by simp),
        String.intercalate_append_of_ne_nil (by simp) hleft, Layout.render, hdown, ihl, ihr]
      simp [Layout.dump, Layout.indent_eq_margin, String.append_assoc]

theorem dump_eq_intercalate (e : Expr) : e.dump = "\n".intercalate (e.dumpLines 0) := by
  rw [dump, Layout.write_eq_render]
  exact render_dump 0 e

theorem literal_line_ne (margin : String) (word : String) :
    margin ++ "Num(" ++ word ++ ")" ≠ margin ++ "BinOp:" := by
  intro h
  rw [String.append_assoc, String.append_assoc, String.append_right_inj] at h
  simpa using congrArg String.toList h

theorem dumpLines_append_inj {e e' : Expr} {depth : Nat} {rest rest' : List String}
    (h : e.dumpLines depth ++ rest = e'.dumpLines depth ++ rest') :
    e.unplaced = e'.unplaced ∧ rest = rest' := by
  induction e generalizing e' depth rest rest' with
  | literal value position =>
      cases e' with
      | literal value' position' =>
          obtain ⟨hline, hrest⟩ := List.cons.inj h
          rw [String.append_left_inj, String.append_right_inj] at hline
          rw [Numeral.toString_toInt_injective hline]
          exact ⟨rfl, hrest⟩
      | binary op' position' left' right' =>
          exact absurd (List.cons.inj h).1 (literal_line_ne _ _)
  | binary op position left right ihl ihr =>
      cases e' with
      | literal value' position' =>
          exact absurd (List.cons.inj h).1.symm (literal_line_ne _ _)
      | binary op' position' left' right' =>
          simp only [dumpLines, List.append_assoc, List.cons_append, List.nil_append,
            List.cons.injEq, true_and] at h
          obtain ⟨hleft, hbehind⟩ := ihl h
          obtain ⟨htag, hbelow⟩ := List.cons.inj hbehind
          obtain ⟨hright, hrest⟩ := ihr (List.cons.inj hbelow).2
          rw [String.append_right_inj] at htag
          rw [unplaced, unplaced, Operator.tag_injective htag, hleft, hright]
          exact ⟨rfl, hrest⟩

theorem dumpLines_inj {e e' : Expr} {depth : Nat} :
    e.dumpLines depth = e'.dumpLines depth ↔ e.unplaced = e'.unplaced := by
  constructor
  · intro h
    exact (dumpLines_append_inj (congrArg (· ++ []) h)).1
  · intro h
    rw [← dumpLines_unplaced, h, dumpLines_unplaced]

theorem splitOn_dump (e : Expr) :
    e.dump.toList.splitOn '\n' = (e.dumpLines 0).map String.toList := by
  rw [dump_eq_intercalate]
  exact splitOn_lines (e.dumpLines_ne_nil 0) fun _ => isLine_of_mem_dumpLines

theorem dump_inj {e e' : Expr} : e.dump = e'.dump ↔ e.unplaced = e'.unplaced := by
  rw [← @dumpLines_inj e e' 0]
  constructor
  · intro h
    have hlines := congrArg (fun text : String => text.toList.splitOn '\n') h
    simp only [splitOn_dump] at hlines
    exact (List.map_inj_right fun _ _ => String.toList_inj.1).1 hlines
  · intro h
    rw [dump_eq_intercalate, h, dump_eq_intercalate]

theorem dump_faithful :
    (∀ e : Expr, e.dump = "\n".intercalate (e.dumpLines 0)) ∧
    (∀ e : Expr, ∀ line ∈ e.dumpLines 0, IsLine line) ∧
    ∀ e e' : Expr, e.dump = e'.dump ↔ e.unplaced = e'.unplaced :=
  ⟨dump_eq_intercalate, fun _ _ => isLine_of_mem_dumpLines, fun _ _ => dump_inj⟩

example :
    (binary .add .start (literal (-2) .start)
      (binary .mul .start (literal 3 .start) (literal 4 .start))).dump =
        "BinOp:\n  left:\n    Num(-2)\n  op: PLUS\n  right:\n    BinOp:\n      left:\n" ++
          "        Num(3)\n      op: MUL\n      right:\n        Num(4)" := by
  with_unfolding_all rfl

end Expr

end Calculator
