import Calculator.Proofs.Items
import Calculator.Proofs.Grammaticality

/-!
Lexemes of a text and its tree, places set aside. A text that is put together from others has their
lexemes one behind the other, and whether lexemes have a tree, and which, does not depend on where
they stand.
-/

namespace Calculator

namespace Phrase

def unplaced : Phrase → Phrase
  | factor => factor
  | chain level => chain level
  | rest level left => rest level left.unplaced

theorem unplaced_eq_factor {phrase : Phrase} (h : phrase.unplaced = factor) :
    phrase = factor := by
  cases phrase <;> cases h
  rfl

theorem unplaced_eq_chain {phrase : Phrase} {level : Level} (h : phrase.unplaced = chain level) :
    phrase = chain level := by
  cases phrase <;> cases h
  rfl

theorem unplaced_eq_rest {phrase : Phrase} {level : Level} {e : Expr}
    (h : phrase.unplaced = rest level e) : ∃ left, phrase = rest level left ∧ left.unplaced = e := by
  cases phrase <;> cases h
  exact ⟨_, rfl, rfl⟩

end Phrase

theorem Lexeme.eq_of_token {lexemes : List Lexeme} {token : Token} {tokens : List Token}
    (h : lexemes.map Lexeme.token = token :: tokens) :
    ∃ position lexemes', lexemes = ⟨token, position⟩ :: lexemes' ∧
      lexemes'.map Lexeme.token = tokens := by
  obtain ⟨⟨token', position⟩, lexemes', rfl, rfl, htokens⟩ := List.map_eq_cons_iff.1 h
  exact ⟨position, lexemes', rfl, htokens⟩

theorem Derives.of_tokens_eq {phrase phrase' : Phrase} {lexemes lexemes' : List Lexeme} {e : Expr}
    (h : Derives phrase lexemes e) (hphrase : phrase'.unplaced = phrase.unplaced)
    (htokens : lexemes'.map Lexeme.token = lexemes.map Lexeme.token) :
    ∃ e', Derives phrase' lexemes' e' ∧ e'.unplaced = e.unplaced := by
  induction h generalizing phrase' lexemes' with
  | @integer value position =>
      obtain rfl := Phrase.unplaced_eq_factor hphrase
      obtain ⟨position', lexemes', rfl, hnil⟩ := Lexeme.eq_of_token htokens
      obtain rfl := List.map_eq_nil_iff.1 hnil
      exact ⟨_, .integer, rfl⟩
  | @group inner e p q _ ih =>
      obtain rfl := Phrase.unplaced_eq_factor hphrase
      obtain ⟨p', lexemes', rfl, hrest⟩ := Lexeme.eq_of_token htokens
      rw [List.map_append] at hrest
      obtain ⟨inner', closing, rfl, hinner, hclosing⟩ := List.map_eq_append_iff.1 hrest
      obtain ⟨q', closing, rfl, hnil⟩ := Lexeme.eq_of_token hclosing
      obtain rfl := List.map_eq_nil_iff.1 hnil
      have hchain : (Phrase.chain .additive).unplaced = (Phrase.chain .additive).unplaced := rfl
      obtain ⟨e', hderives, he⟩ := ih hchain hinner
      exact ⟨e', .group hderives, he⟩
  | @chain level v w left e _ _ ihoperand ihrest =>
      obtain rfl := Phrase.unplaced_eq_chain hphrase
      rw [List.map_append] at htokens
      obtain ⟨v', w', rfl, hv, hw⟩ := List.map_eq_append_iff.1 htokens
      obtain ⟨left', hoperand, hleft⟩ := ihoperand rfl hv
      have hphrase : (Phrase.rest level left').unplaced = (Phrase.rest level left).unplaced :=
        congrArg (Phrase.rest level) hleft
      obtain ⟨e', hrest, he⟩ := ihrest hphrase hw
      exact ⟨e', .chain hoperand hrest, he⟩
  | @done level e =>
      obtain ⟨left, rfl, hleft⟩ := Phrase.unplaced_eq_rest hphrase
      obtain rfl := List.map_eq_nil_iff.1 htokens
      exact ⟨left, .done, hleft⟩
  | @operator level op position v w left right e hop _ _ ihoperand ihrest =>
      obtain ⟨left', rfl, hleft⟩ := Phrase.unplaced_eq_rest hphrase
      obtain ⟨position', lexemes', rfl, hvw⟩ := Lexeme.eq_of_token htokens
      rw [List.map_append] at hvw
      obtain ⟨v', w', rfl, hv, hw⟩ := List.map_eq_append_iff.1 hvw
      obtain ⟨right', hoperand, hright⟩ := ihoperand rfl hv
      have hphrase : (Phrase.rest level (.binary op position' left' right')).unplaced =
          (Phrase.rest level (.binary op position left right)).unplaced := by
        simp only [Phrase.unplaced, Expr.unplaced, hleft, hright]
      obtain ⟨e', hrest, he⟩ := ihrest hphrase hw
      exact ⟨e', .operator hop hoperand hrest, he⟩

/-- The items are what is read off the text, wherever they may stand. -/
def Itemized (text : List Char) (items : List Item) : Prop :=
  ∃ stretches trailing, Munches text stretches trailing ∧ stretches.map Stretch.item = items

namespace Itemized

variable {text text' : List Char} {items items' : List Item}

theorem append (h : Itemized text items) (h' : Itemized text' items') (hapart : Apart text text') :
    Itemized (text ++ text') (items ++ items') := by
  obtain ⟨stretches, trailing, hmunches, rfl⟩ := h
  obtain ⟨stretches', trailing', hmunches', rfl⟩ := h'
  obtain ⟨trailing'', hjoined⟩ := hmunches.append hmunches' hapart
  refine ⟨_, trailing'', hjoined, ?_⟩
  rw [List.map_append, Stretch.map_item_behind]

theorem of_spells {item : Item} (h : Spells text item) : Itemized text [item] := by
  have hlongest : Longest text [] := fun more item hmore _ => List.prefix_nil.1 hmore
  have hmunches := Munches.item blank_nil h hlongest (.ended blank_nil)
  rw [List.nil_append, List.append_nil] at hmunches
  exact ⟨_, _, hmunches, rfl⟩

theorem between {lexeme : Lexeme} {c : Char} (h : Itemized text items)
    (hsymbol : lexeme.kind.symbol = some c) (h' : Itemized text' items') :
    Itemized (text ++ c :: text') (items ++ .ok lexeme :: items') := by
  have hplain := Kind.plain_of_symbol hsymbol
  have hlexeme : Itemized [c] [.ok lexeme] := of_spells (.symbol lexeme.position hsymbol)
  have hbehind : Apart [c] text' := by
    rintro d hd - - ⟨hdigit, -⟩
    obtain rfl : c = d := Option.some.inj hd
    rw [hplain.2] at hdigit
    cases hdigit
  have hbefore : Apart text (c :: text') := by
    rintro - - d hd ⟨-, hdigit⟩
    obtain rfl : c = d := Option.some.inj hd
    rw [hplain.2] at hdigit
    cases hdigit
  exact h.append (hlexeme.append h' hbehind) hbefore

theorem unplaced_unique (h : Itemized text items) (h' : Itemized text items') :
    items.map Item.unplaced = items'.map Item.unplaced := by
  obtain ⟨stretches, trailing, hmunches, rfl⟩ := h
  obtain ⟨stretches', trailing', hmunches', rfl⟩ := h'
  have hmap := congrArg (List.map Stretch.item) (hmunches'.unique hmunches).1
  simpa [Function.comp_def, Stretch.unplaced] using hmap

end Itemized

theorem Scanner.exists_itemized (s : Scanner) :
    ∃ items position, Itemized s.rest items ∧ s.scan = Scan.ofItems position items := by
  obtain ⟨stretches, trailing, position, hmunches, -, hscan⟩ := s.exists_munches
  exact ⟨_, position, ⟨stretches, trailing, hmunches, rfl⟩, hscan⟩

def Lexed (text : List Char) (lexemes : List Lexeme) : Prop :=
  ∃ stretches trailing,
    Munches text stretches trailing ∧ stretches.map Stretch.item = lexemes.map .ok

namespace Lexed

variable {text text' : List Char} {lexemes lexemes' : List Lexeme}

theorem itemized (h : Lexed text lexemes) : Itemized text (lexemes.map .ok) := h

theorem nil : Lexed [] [] := ⟨[], [], .ended blank_nil, rfl⟩

theorem of_spells {lexeme : Lexeme} (h : Spells text (.ok lexeme)) : Lexed text [lexeme] :=
  Itemized.of_spells h

theorem between {lexeme : Lexeme} {c : Char} (h : Lexed text lexemes)
    (hsymbol : lexeme.kind.symbol = some c) (h' : Lexed text' lexemes') :
    Lexed (text ++ c :: text') (lexemes ++ lexeme :: lexemes') := by
  have hbetween := h.itemized.between hsymbol h'.itemized
  rw [← List.map_cons, ← List.map_append] at hbetween
  exact hbetween

end Lexed

namespace Scan

theorem ofItems_ok (position : Position) (lexemes : List Lexeme) :
    ofItems position (lexemes.map .ok) = ⟨lexemes, .ok position⟩ := by
  induction lexemes with
  | nil => rfl
  | cons lexeme lexemes ih =>
      rw [List.map_cons, ofItems, ih]
      rfl

theorem items_of_ending_ok {position position' : Position} {items : List Item}
    (h : (ofItems position items).ending = .ok position') :
    items = (ofItems position items).lexemes.map .ok := by
  induction items with
  | nil => rfl
  | cons item items ih =>
      cases item with
      | error error => cases h
      | ok lexeme => exact congrArg (Except.ok lexeme :: ·) (ih h)

end Scan

theorem Item.exists_lexemes {items : List Item} {lexemes : List Lexeme}
    (h : items.map Item.unplaced = (lexemes.map Except.ok : List Item).map Item.unplaced) :
    ∃ lexemes' : List Lexeme, items = lexemes'.map .ok ∧
      lexemes'.map Lexeme.token = lexemes.map Lexeme.token := by
  induction items generalizing lexemes with
  | nil =>
      have hnil : lexemes = [] := by simpa using h.symm
      exact ⟨[], rfl, by rw [hnil]⟩
  | cons item items ih =>
      cases lexemes with
      | nil => cases h
      | cons lexeme lexemes =>
          obtain ⟨hitem, hitems⟩ := List.cons.inj h
          cases item with
          | error error => cases hitem
          | ok lexeme' =>
              obtain ⟨lexemes', rfl, htokens⟩ := ih hitems
              refine ⟨lexeme' :: lexemes', rfl, ?_⟩
              have hunplaced : lexeme'.unplaced = lexeme.unplaced := by injection hitem
              have htoken : lexeme'.unplaced.token = lexeme.unplaced.token := by rw [hunplaced]
              exact List.cons_eq_cons.2 ⟨htoken, htokens⟩

namespace Scanner

theorem lexed_of_scan {s : Scanner} {position : Position} (h : s.scan.ending = .ok position) :
    Lexed s.rest s.scan.lexemes := by
  obtain ⟨items, position', hitemized, hscan⟩ := s.exists_itemized
  rw [hscan] at h ⊢
  rw [Scan.items_of_ending_ok h] at hitemized
  exact hitemized

theorem scan_of_lexed {s : Scanner} {lexemes : List Lexeme} (h : Lexed s.rest lexemes) :
    ∃ lexemes' position, s.scan = ⟨lexemes', .ok position⟩ ∧
      lexemes'.map Lexeme.token = lexemes.map Lexeme.token := by
  obtain ⟨items, position, hitemized, hscan⟩ := s.exists_itemized
  have hunplaced := hitemized.unplaced_unique h.itemized
  obtain ⟨lexemes', hlexemes, htokens⟩ := Item.exists_lexemes hunplaced
  refine ⟨lexemes', position, ?_, htokens⟩
  rw [hscan, hlexemes, Scan.ofItems_ok]

end Scanner

theorem parse_eq_ok_iff_scan {source : String} {e : Expr} :
    parse source = .ok e ↔
      ∃ lexemes position, Scan.ofString source = ⟨lexemes, .ok position⟩ ∧
        Derives (.chain .additive) lexemes e := by
  rw [parse_eq_readAll, Reading.readAll_eq_ok_iff]
  constructor
  · rintro ⟨position, reading, hending, habsorb, hwhole⟩
    refine ⟨_, position, ?_, Reading.derives_iff_absorbAll.2 ⟨reading, habsorb, hwhole⟩⟩
    rw [← hending]
  · rintro ⟨lexemes, position, hscan, hderives⟩
    obtain ⟨reading, habsorb, hwhole⟩ := Reading.derives_iff_absorbAll.1 hderives
    rw [hscan]
    exact ⟨position, reading, rfl, habsorb, hwhole⟩

def Written (phrase : Phrase) (text : String) (e : Expr) : Prop :=
  ∃ lexemes, Lexed text.toList lexemes ∧ Derives phrase lexemes e

theorem Written.parse {source : String} {e : Expr} (h : Written (.chain .additive) source e) :
    ∃ e', parse source = .ok e' ∧ e'.unplaced = e.unplaced := by
  obtain ⟨lexemes, hlexed, hderives⟩ := h
  have hrest : Lexed (Scanner.ofString source).rest lexemes := hlexed
  obtain ⟨lexemes', position, hscan, htokens⟩ := Scanner.scan_of_lexed hrest
  obtain ⟨e', hderives', he⟩ := hderives.of_tokens_eq rfl htokens
  exact ⟨e', parse_eq_ok_iff_scan.2 ⟨lexemes', position, hscan, hderives'⟩, he⟩

theorem written_of_parse {source : String} {e : Expr} (h : parse source = .ok e) :
    Written (.chain .additive) source e := by
  obtain ⟨lexemes, position, hscan, hderives⟩ := parse_eq_ok_iff_scan.1 h
  have hending : (Scanner.ofString source).scan.ending = .ok position :=
    congrArg Scan.ending hscan
  have hlexemes : (Scanner.ofString source).scan.lexemes = lexemes := congrArg Scan.lexemes hscan
  have hlexed := Scanner.lexed_of_scan hending
  rw [hlexemes] at hlexed
  exact ⟨lexemes, hlexed, hderives⟩

end Calculator
