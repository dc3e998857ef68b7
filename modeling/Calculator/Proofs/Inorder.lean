import Calculator.Proofs.Exactness
import Calculator.Proofs.Lexing
import Calculator.Proofs.Places

/-!
The nodes of a tree in the order of the text. A tree that has been read lists the operands and
operators of its source, each once and at its place, and no two of its nodes share a place.
-/

namespace Calculator

def Lexeme.inTree (l : Lexeme) : Bool := l.kind ∉ [.leftParen, .rightParen, .endOfInput]

namespace Expr

def inorder : Expr → List Lexeme
  | literal value position => [⟨.integer value, position⟩]
  | binary op position left right =>
      left.inorder ++ ⟨.operator op, position⟩ :: right.inorder

def lexeme : Expr → Lexeme
  | literal value position => ⟨.integer value, position⟩
  | binary op position _ _ => ⟨.operator op, position⟩

theorem position_lexeme (e : Expr) : e.lexeme.position = e.position := by
  cases e <;> rfl

theorem lexeme_mem_inorder {t e : Expr} (h : t ∈ e.subtrees) : t.lexeme ∈ e.inorder := by
  induction e with
  | literal value position =>
      obtain rfl := List.mem_singleton.1 h
      exact List.mem_singleton_self _
  | binary op position left right ihl ihr =>
      rw [inorder, List.mem_append]
      rcases mem_subtrees_binary.1 h with rfl | h | h
      · exact Or.inr List.mem_cons_self
      · exact Or.inl (ihl h)
      · exact Or.inr (List.mem_cons_of_mem _ (ihr h))

def Increasing (e : Expr) : Prop := (e.inorder.map Lexeme.position).Pairwise (· < ·)

theorem Increasing.operands {op : Operator} {position : Position} {left right : Expr}
    (h : (binary op position left right).Increasing) :
    left.Increasing ∧ right.Increasing ∧
      ∀ t ∈ left.subtrees, ∀ t' ∈ right.subtrees, t.position < t'.position := by
  rw [Increasing, inorder, List.map_append, List.map_cons, List.pairwise_append,
    List.pairwise_cons] at h
  obtain ⟨hleft, ⟨-, hright⟩, hbetween⟩ := h
  refine ⟨hleft, hright, ?_⟩
  intro t ht t' ht'
  rw [← t.position_lexeme, ← t'.position_lexeme]
  apply hbetween
  · exact List.mem_map_of_mem (lexeme_mem_inorder ht)
  · exact List.mem_cons_of_mem _ (List.mem_map_of_mem (lexeme_mem_inorder ht'))

end Expr

def Phrase.inorder : Phrase → List Lexeme
  | factor => []
  | chain _ => []
  | rest _ left => left.inorder

theorem Level.inorder_operand (level : Level) : level.operand.inorder = [] := by
  cases level <;> rfl

theorem Derives.inorder_eq {phrase : Phrase} {lexemes : List Lexeme} {e : Expr}
    (h : Derives phrase lexemes e) :
    e.inorder = phrase.inorder ++ lexemes.filter Lexeme.inTree := by
  induction h with
  | integer => rfl
  | @group lexemes e p q _ ih =>
      have hopen : (⟨.leftParen, p⟩ : Lexeme).inTree = false := rfl
      have hclose : (⟨.rightParen, q⟩ : Lexeme).inTree = false := rfl
      simpa [Phrase.inorder, hopen, hclose] using ih
  | @chain level v w left e _ _ ihoperand ihrest =>
      rw [level.inorder_operand] at ihoperand
      calc e.inorder = left.inorder ++ w.filter Lexeme.inTree := ihrest
        _ = (v ++ w).filter Lexeme.inTree := by
          rw [ihoperand, List.nil_append, List.filter_append]
  | done => simp [Phrase.inorder]
  | @operator level op position v w left right e _ _ _ ihoperand ihrest =>
      rw [level.inorder_operand] at ihoperand
      have hop : (⟨.operator op, position⟩ : Lexeme).inTree = true := rfl
      calc e.inorder
          = (left.inorder ++ ⟨.operator op, position⟩ :: right.inorder) ++
              w.filter Lexeme.inTree := ihrest
        _ = left.inorder ++
              (⟨.operator op, position⟩ :: (v ++ w)).filter Lexeme.inTree := by
          rw [ihoperand, List.filter_cons_of_pos hop, List.filter_append]
          simp

theorem inorder_of_parse {source : String} {e : Expr} (h : parse source = .ok e) :
    e.inorder = (Scan.ofString source).lexemes.filter Lexeme.inTree := by
  obtain ⟨lexemes, position, hscan, hderives⟩ := parse_eq_ok_iff_scan.1 h
  rw [hscan]
  exact hderives.inorder_eq

theorem increasing_of_parse {source : String} {e : Expr} (h : parse source = .ok e) :
    e.Increasing := by
  rw [Expr.Increasing, inorder_of_parse h]
  exact (Scan.increasing_lexemes source).sublist (List.filter_sublist.map Lexeme.position)

theorem Position.nodup_of_increasing {positions : List Position}
    (h : positions.Pairwise (· < ·)) : positions.Nodup := by
  refine h.imp ?_
  rintro p q hlt rfl
  exact lt_irrefl p hlt

theorem parse_inorder {source : String} {e : Expr} (h : parse source = .ok e) :
    ∃ lexemes, (Scanner.ofString source).tokenize = .ok lexemes ∧
      e.inorder = lexemes.filter Lexeme.inTree ∧
      (e.inorder.map Lexeme.position).Pairwise (· < ·) ∧
      (e.inorder.map Lexeme.position).Nodup := by
  obtain ⟨lexemes, position, hscan, -⟩ := parse_eq_ok_iff_scan.1 h
  have hinorder := inorder_of_parse h
  have hincreasing : (e.inorder.map Lexeme.position).Pairwise (· < ·) := increasing_of_parse h
  rw [hscan] at hinorder
  refine ⟨lexemes ++ [⟨.endOfInput, position⟩], ?_, ?_, hincreasing,
    Position.nodup_of_increasing hincreasing⟩
  · exact Scanner.tokenize_eq_ok_iff.2 ⟨congrArg Scan.lexemes hscan, congrArg Scan.ending hscan⟩
  · have hend : (⟨.endOfInput, position⟩ : Lexeme).inTree = false := rfl
    rw [hinorder, List.filter_append]
    simp [hend]

theorem parse_inorder_lines :
    parse "(7 -\n\n\u3000(3))*2" =
        .ok (.binary .mul ⟨3, 6⟩ (.binary .sub ⟨1, 4⟩ (.literal 7 ⟨1, 2⟩) (.literal 3 ⟨3, 3⟩))
          (.literal 2 ⟨3, 7⟩)) ∧
      ∃ lexemes, (Scanner.ofString "(7 -\n\n\u3000(3))*2").tokenize = .ok lexemes ∧
        [⟨.integer 7, ⟨1, 2⟩⟩, ⟨.operator .sub, ⟨1, 4⟩⟩, ⟨.integer 3, ⟨3, 3⟩⟩,
          ⟨.operator .mul, ⟨3, 6⟩⟩, ⟨.integer 2, ⟨3, 7⟩⟩] =
            lexemes.filter Lexeme.inTree ∧
        ([⟨1, 2⟩, ⟨1, 4⟩, ⟨3, 3⟩, ⟨3, 6⟩, ⟨3, 7⟩] : List Position).Pairwise (· < ·) ∧
        ([⟨1, 2⟩, ⟨1, 4⟩, ⟨3, 3⟩, ⟨3, 6⟩, ⟨3, 7⟩] : List Position).Nodup := by
  have h : parse "(7 -\n\n\u3000(3))*2" =
      .ok (.binary .mul ⟨3, 6⟩ (.binary .sub ⟨1, 4⟩ (.literal 7 ⟨1, 2⟩) (.literal 3 ⟨3, 3⟩))
        (.literal 2 ⟨3, 7⟩)) := by
    with_unfolding_all rfl
  exact ⟨h, parse_inorder h⟩

end Calculator
