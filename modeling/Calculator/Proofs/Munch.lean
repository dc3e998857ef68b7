import Calculator.Unplaced

/-!
The items of a text are its maximal munch: blanks are passed over, and each item is read from the
longest stretch of characters that spells one. `Munches.unique` says that there is only one way to
cut a text so.
-/

namespace Calculator

def Blank (text : List Char) : Prop := ∀ c ∈ text, WhiteSpace c

theorem blank_nil : Blank [] := by
  intro c hc
  cases hc

theorem Blank.append {xs ys : List Char} (h : Blank xs) (h' : Blank ys) : Blank (xs ++ ys) := by
  intro c hc
  exact (List.mem_append.1 hc).elim (h c) (h' c)

theorem Blank.isBlank_of_mem {text : List Char} (h : Blank text) : ∀ c ∈ text, isBlank c = true :=
  fun c hc => isBlank_iff_whiteSpace.2 (h c hc)

theorem blank_takeWhile (text : List Char) : Blank (text.takeWhile isBlank) :=
  fun c hc => isBlank_iff_whiteSpace.1 (List.all_eq_true.1 List.all_takeWhile c hc)

def Digits (text : List Char) : Prop := text ≠ [] ∧ ∀ c ∈ text, c.isDigit = true

theorem not_digits {c : Char} (h : c.isDigit = false) : ¬Digits [c] := by
  intro hdigits
  rw [hdigits.2 c List.mem_cons_self] at h
  cases h

inductive Spells : List Char → Item → Prop
  | integer {digits : List Char} {value : Int64} (position : Position) :
      Digits digits → value.toInt = Numeral.value digits →
        Spells digits (.ok ⟨.integer value, position⟩)
  | tooLarge {digits : List Char} (position : Position) :
      Digits digits → Int64.maxValue.toInt < Numeral.value digits →
        Spells digits (.error (.literalTooLarge (String.ofList digits) position))
  | symbol {c : Char} {token : Token} (position : Position) :
      token.kind.symbol = some c → Spells [c] (.ok ⟨token, position⟩)
  | unknown {c : Char} (position : Position) :
      ¬WhiteSpace c → c.isDigit = false → (∀ token : Token, token.kind.symbol ≠ some c) →
        Spells [c] (.error (.unknownCharacter c position))

theorem Kind.plain_of_symbol {kind : Kind} {c : Char} (h : kind.symbol = some c) :
    ¬WhiteSpace c ∧ c.isDigit = false := by
  rcases kind with _ | (_ | _ | _ | _) | _ | _ | _ <;> cases h <;> decide

namespace Spells

variable {text : List Char} {item : Item} {c : Char}

theorem digits_or_single (h : Spells text item) :
    Digits text ∨ ∃ c, text = [c] ∧ ¬WhiteSpace c ∧ c.isDigit = false := by
  cases h with
  | integer position hdigits hvalue => exact Or.inl hdigits
  | tooLarge position hdigits hlarge => exact Or.inl hdigits
  | symbol position hsymbol => exact Or.inr ⟨_, rfl, Kind.plain_of_symbol hsymbol⟩
  | unknown position hblank hdigit hnone => exact Or.inr ⟨_, rfl, hblank, hdigit⟩

theorem ne_nil (h : Spells text item) : text ≠ [] := by
  rcases h.digits_or_single with hdigits | ⟨c, rfl, -⟩
  · exact hdigits.1
  · exact List.cons_ne_nil c []

theorem not_blank (h : Spells text item) : ∀ c ∈ text, ¬WhiteSpace c := by
  rcases h.digits_or_single with hdigits | ⟨c, rfl, hblank, -⟩
  · exact fun c hc => not_whiteSpace_of_isDigit (hdigits.2 c hc)
  · simpa using hblank

theorem not_blank_append {blanks rest : List Char} (h : Spells text item) :
    ¬Blank (blanks ++ (text ++ rest)) := by
  intro hblank
  obtain ⟨c, text, rfl⟩ := List.exists_cons_of_ne_nil h.ne_nil
  exact h.not_blank c List.mem_cons_self (hblank c (by simp))

theorem not_end (h : Spells text item) : item.isEnd = false := by
  cases h with
  | integer => rfl
  | tooLarge => rfl
  | symbol position hsymbol =>
      refine decide_eq_false ?_
      rintro rfl
      cases hsymbol
  | unknown => rfl

theorem of_digits (h : Digits text) (position : Position) :
    Spells text (.ofDigits text position) := by
  unfold Item.ofDigits
  split
  next value hword => exact .integer position h (Numeral.word?_eq_some_iff.1 hword)
  next hword => exact .tooLarge position h (Numeral.word?_eq_none_iff.1 hword)

theorem of_symbol (hblank : ¬WhiteSpace c) (hdigit : c.isDigit = false)
    (position : Position) : Spells [c] (.ofSymbol c position) := by
  unfold Item.ofSymbol
  split
  next token htoken => exact .symbol position (Token.ofSymbol?_eq_some_iff.1 htoken)
  next hnone =>
      refine .unknown position hblank hdigit ?_
      intro token htoken
      rw [Token.ofSymbol?_eq_some_iff.2 htoken] at hnone
      cases hnone

theorem eq_ofDigits (h : Spells text item) (hdigits : Digits text) :
    item = .ofDigits text item.position := by
  unfold Item.ofDigits
  cases h with
  | integer position _ hvalue =>
      rw [Numeral.word?_eq_some_iff.2 hvalue]
      rfl
  | tooLarge position _ hlarge =>
      rw [Numeral.word?_eq_none_iff.2 hlarge]
      rfl
  | symbol position hsymbol => exact absurd hdigits (not_digits (Kind.plain_of_symbol hsymbol).2)
  | unknown position _ hdigit _ => exact absurd hdigits (not_digits hdigit)

theorem eq_ofSymbol (h : Spells [c] item) (hdigit : c.isDigit = false) :
    item = .ofSymbol c item.position := by
  unfold Item.ofSymbol
  cases h with
  | integer position hdigits _ => exact absurd hdigits (not_digits hdigit)
  | tooLarge position hdigits _ => exact absurd hdigits (not_digits hdigit)
  | symbol position hsymbol =>
      rw [Token.ofSymbol?_eq_some_iff.2 hsymbol]
      rfl
  | unknown position _ _ hnone =>
      have hsymbol : Token.ofSymbol? c = none := by
        apply Option.eq_none_iff_forall_ne_some.2
        exact fun token htoken => hnone token (Token.ofSymbol?_eq_some_iff.1 htoken)
      rw [hsymbol]
      rfl

theorem unplaced_unique {item' : Item} (h : Spells text item) (h' : Spells text item') :
    item.unplaced = item'.unplaced := by
  rcases h.digits_or_single with hdigits | ⟨c, rfl, -, hdigit⟩
  · rw [h.eq_ofDigits hdigits, h'.eq_ofDigits hdigits]
    unfold Item.ofDigits
    cases Numeral.word? text <;> rfl
  · rw [h.eq_ofSymbol hdigit, h'.eq_ofSymbol hdigit]
    unfold Item.ofSymbol
    cases Token.ofSymbol? c <;> rfl

end Spells

def Longest (taken rest : List Char) : Prop :=
  ∀ more item, more <+: rest → Spells (taken ++ more) item → more = []

/-- No run of digits goes on from one text into the other. -/
def Apart (xs ys : List Char) : Prop :=
  ∀ c ∈ xs.getLast?, ∀ d ∈ ys.head?, ¬(c.isDigit = true ∧ d.isDigit = true)

theorem apart_append_left {xs ys zs : List Char} (h : ys ≠ []) :
    Apart (xs ++ ys) zs ↔ Apart ys zs := by
  rw [Apart, Apart, List.getLast?_append, List.getLast?_eq_some_getLast h, Option.some_or]

theorem apart_append_right {xs ys zs : List Char} (h : ys ≠ []) :
    Apart xs (ys ++ zs) ↔ Apart xs ys := by
  rw [Apart, Apart, List.head?_append, List.head?_eq_some_head h, Option.some_or]

theorem longest_iff_apart {taken rest : List Char} {item : Item} (h : Spells taken item) :
    Longest taken rest ↔ Apart taken rest := by
  constructor
  · rintro hlongest c hc d hd ⟨hcdigit, hddigit⟩
    obtain ⟨rest', rfl⟩ := List.head?_eq_some_iff.1 hd
    -- the whole of `taken` is a run of digits, and would go on with `d`
    have htaken : Digits taken := by
      rcases h.digits_or_single with hdigits | ⟨c', rfl, -, hdigit⟩
      · exact hdigits
      · obtain rfl : c' = c := Option.some.inj hc
        rw [hcdigit] at hdigit
        cases hdigit
    have hmore : Digits (taken ++ [d]) := by
      refine ⟨by simp, ?_⟩
      intro x hx
      rcases List.mem_append.1 hx with hx | hx
      · exact htaken.2 x hx
      · rw [List.mem_singleton.1 hx]
        exact hddigit
    have hnil := hlongest [d] _ (by simp) (Spells.of_digits hmore .start)
    cases hnil
  · intro hapart more item' hmore hspells
    cases more with
    | nil => rfl
    | cons d more =>
        have hdigits : Digits (taken ++ d :: more) := by
          rcases hspells.digits_or_single with hdigits | ⟨c, hc, -⟩
          · exact hdigits
          · have hlength := congrArg List.length hc
            have hpos := List.length_pos_iff.2 h.ne_nil
            simp at hlength
            omega
        obtain ⟨rest', rfl⟩ := hmore
        have hlast := hdigits.2 (taken.getLast h.ne_nil) (by simp)
        have hnext := hdigits.2 d (by simp)
        have hstop := hapart _ (List.getLast?_eq_some_getLast h.ne_nil) d rfl
        exact absurd ⟨hlast, hnext⟩ hstop

inductive Munch : List Char → Item → List Char → Prop
  | item {taken rest : List Char} {item : Item} :
      Spells taken item → Longest taken rest → Munch taken item rest
  | ended (position : Position) : Munch [] (.ok ⟨.endOfInput, position⟩) []

structure Stretch where
  blanks : List Char
  taken : List Char
  item : Item

namespace Stretch

def text (stretch : Stretch) : List Char := stretch.blanks ++ stretch.taken

def unplaced (stretch : Stretch) : Stretch := { stretch with item := stretch.item.unplaced }

def behind (blanks : List Char) : List Stretch → List Stretch
  | [] => []
  | stretch :: stretches => { stretch with blanks := blanks ++ stretch.blanks } :: stretches

theorem map_item_behind (blanks : List Char) (stretches : List Stretch) :
    (behind blanks stretches).map item = stretches.map item := by
  cases stretches <;> rfl

end Stretch

/-- A text cut into stretches, each taken as long as it can be, and the blanks behind the last. -/
inductive Munches : List Char → List Stretch → List Char → Prop
  | ended {trailing : List Char} : Blank trailing → Munches trailing [] trailing
  | item {blanks taken rest trailing : List Char} {item : Item} {stretches : List Stretch} :
      Blank blanks → Spells taken item → Longest taken rest → Munches rest stretches trailing →
        Munches (blanks ++ (taken ++ rest)) (⟨blanks, taken, item⟩ :: stretches) trailing

namespace Munches

variable {text trailing : List Char} {stretches : List Stretch}

theorem text_eq (h : Munches text stretches trailing) :
    text = stretches.flatMap Stretch.text ++ trailing := by
  induction h with
  | ended hblank => rfl
  | item hblanks hspells hlongest _ ih =>
      rw [List.flatMap_cons, List.append_assoc, ← ih, Stretch.text, List.append_assoc]

theorem taken_ne_nil (h : Munches text stretches trailing) :
    ∀ stretch ∈ stretches, stretch.taken ≠ [] := by
  induction h with
  | ended => simp
  | item _ hspells _ _ ih => simpa using ⟨hspells.ne_nil, ih⟩

theorem apart {pre post : List Stretch} {stretch : Stretch}
    (h : Munches text (pre ++ stretch :: post) trailing) :
    Apart (pre.flatMap Stretch.text ++ stretch.blanks) stretch.taken ∧
      Apart stretch.taken (post.flatMap Stretch.text ++ trailing) := by
  induction pre generalizing text with
  | nil =>
      cases h with
      | @item blanks taken rest _ _ _ hblanks hspells hlongest hrest =>
          refine ⟨?_, ?_⟩
          · rintro c hc d - ⟨hdigit, -⟩
            exact not_whiteSpace_of_isDigit hdigit (hblanks c (List.mem_of_getLast? hc))
          · rw [← hrest.text_eq]
            exact (longest_iff_apart hspells).1 hlongest
  | cons first pre ih =>
      cases h with
      | @item blanks taken rest _ _ _ hblanks hspells hlongest hrest =>
          have hrest : Munches rest (pre ++ stretch :: post) trailing := hrest
          obtain ⟨hbefore, hbehind⟩ := ih hrest
          refine ⟨?_, hbehind⟩
          rw [List.flatMap_cons, List.append_assoc]
          by_cases hnil : pre.flatMap Stretch.text ++ stretch.blanks = []
          · -- nothing stands between what `first` has taken and what the stretch has
            have hstretch : stretch.taken ≠ [] := hrest.taken_ne_nil stretch (by simp)
            have hrest' : rest = stretch.taken ++ (post.flatMap Stretch.text ++ trailing) := by
              rw [hrest.text_eq, List.flatMap_append, List.flatMap_cons, Stretch.text,
                ← List.append_assoc, ← List.append_assoc, hnil]
              simp
            have hapart := (longest_iff_apart hspells).1 hlongest
            rw [hrest', apart_append_right hstretch] at hapart
            rw [hnil, List.append_nil]
            exact (apart_append_left hspells.ne_nil).2 hapart
          · exact (apart_append_left hnil).2 hbefore

theorem takeWhile_isBlank {blanks taken rest : List Char} {item : Item} (hblanks : Blank blanks)
    (hspells : Spells taken item) : (blanks ++ (taken ++ rest)).takeWhile isBlank = blanks := by
  rw [List.takeWhile_append_of_pos hblanks.isBlank_of_mem]
  obtain ⟨c, taken, rfl⟩ := List.exists_cons_of_ne_nil hspells.ne_nil
  have hplain := isBlank_eq_false_iff.2 (hspells.not_blank c List.mem_cons_self)
  simp [hplain]

theorem blanks_unique {blanks blanks' taken taken' rest rest' : List Char} {item item' : Item}
    (hblanks : Blank blanks) (hblanks' : Blank blanks') (hspells : Spells taken item)
    (hspells' : Spells taken' item') (h : blanks ++ (taken ++ rest) = blanks' ++ (taken' ++ rest')) :
    blanks = blanks' := by
  rw [← takeWhile_isBlank hblanks hspells, h, takeWhile_isBlank hblanks' hspells']

theorem taken_unique {taken taken' rest rest' : List Char} {item item' : Item}
    (hspells : Spells taken item) (hspells' : Spells taken' item')
    (hlongest : Longest taken rest) (hlongest' : Longest taken' rest')
    (h : taken ++ rest = taken' ++ rest') : taken = taken' := by
  rcases List.append_eq_append_iff.1 h with ⟨more, rfl, rfl⟩ | ⟨more, rfl, rfl⟩
  · rw [hlongest more _ (List.prefix_append more rest') hspells', List.append_nil]
  · rw [hlongest' more _ (List.prefix_append more rest) hspells, List.append_nil]

theorem unique {stretches' : List Stretch} {trailing' : List Char}
    (h : Munches text stretches trailing) (h' : Munches text stretches' trailing') :
    stretches'.map Stretch.unplaced = stretches.map Stretch.unplaced ∧ trailing' = trailing := by
  induction h generalizing stretches' with
  | @ended trailing hblank =>
      generalize htext : trailing = text at h'
      cases h' with
      | ended =>
          subst htext
          exact ⟨rfl, rfl⟩
      | item _ hspells _ _ => exact absurd (htext ▸ hblank) hspells.not_blank_append
  | @item blanks taken rest trailing item stretches hblanks hspells hlongest _ ih =>
      generalize htext : blanks ++ (taken ++ rest) = text at h'
      cases h' with
      | ended hblank => exact absurd (htext ▸ hblank) hspells.not_blank_append
      | item hblanks' hspells' hlongest' hrest =>
          obtain rfl := blanks_unique hblanks hblanks' hspells hspells' htext
          have htaken := List.append_cancel_left htext
          obtain rfl := taken_unique hspells hspells' hlongest hlongest' htaken
          obtain rfl := List.append_cancel_left htaken
          obtain ⟨hmap, rfl⟩ := ih hrest
          refine ⟨?_, rfl⟩
          rw [List.map_cons, List.map_cons, hmap, Stretch.unplaced, Stretch.unplaced,
            hspells.unplaced_unique hspells']

theorem append {text' trailing' : List Char} {stretches' : List Stretch}
    (h : Munches text stretches trailing) (h' : Munches text' stretches' trailing')
    (hapart : Apart text text') :
    ∃ trailing'',
      Munches (text ++ text') (stretches ++ Stretch.behind trailing stretches') trailing'' := by
  induction h with
  | @ended trailing hblank =>
      cases h' with
      | ended hblank' => exact ⟨trailing ++ text', .ended (hblank.append hblank')⟩
      | item hblanks hspells hlongest hrest =>
          refine ⟨trailing', ?_⟩
          rw [← List.append_assoc]
          exact .item (hblank.append hblanks) hspells hlongest hrest
  | @item blanks taken rest trailing item stretches hblanks hspells hlongest hrest ih =>
      have hlongest' : Longest taken (rest ++ text') ∧ Apart rest text' := by
        rw [longest_iff_apart hspells] at hlongest ⊢
        rw [apart_append_left (by simp [hspells.ne_nil])] at hapart
        cases rest with
        | nil =>
            rw [List.append_nil] at hapart
            exact ⟨hapart, fun c hc => by cases hc⟩
        | cons d rest =>
            rw [apart_append_left (List.cons_ne_nil d rest)] at hapart
            exact ⟨(apart_append_right (List.cons_ne_nil d rest)).2 hlongest, hapart⟩
      obtain ⟨trailing'', hjoined⟩ := ih hlongest'.2
      refine ⟨trailing'', ?_⟩
      rw [List.append_assoc, List.append_assoc]
      exact .item hblanks hspells hlongest'.1 hjoined

end Munches

end Calculator
