import BinaryPoint.Proofs.Expression.Brackets
import BinaryPoint.Proofs.Vec.Reading

/-!
# Two readers of bracketed text

A text with one pair of brackets around it is read as a vector, where blanks separate literals
as commas do, and as an expression, which has its blanks removed first. Both accept the same
texts without blanks, with the same vector, although one goes by what is between delimiters and
the other by the form of the run; and blanks that stand beside a comma or a bracket make no
difference.

* `literals_spaced`: the literals of items with commas and any blanks between them.
* `isGroup_of_ofText`: brackets that hold a vector have the form of a vector literal.
* `isGroup_of_evaluate`: so do brackets that have a value as an expression.
* `evaluate_bracketed`: both readers on every bracketed text.
-/
namespace BinaryPoint

open Literal (IsGroup)
open Token (cut depthAfter)

/-! ## Blanks beside delimiters -/

theorem Text.Spaced.refl : ∀ pieces : List Text, Text.Spaced pieces pieces.flatten
  | [] => .nil
  | p :: pieces => .piece p (refl pieces)

/-- The first piece, and the blanks before it. -/
theorem Text.Spaced.of_cons {p : Text} {pieces : List Text} {text : Text}
    (h : Text.Spaced (p :: pieces) text) : ∃ blanks rest, text = blanks ++ (p ++ rest) ∧
      (∀ c ∈ blanks, Text.isBlank c = true) ∧ Text.Spaced pieces rest := by
  generalize hp : p :: pieces = all at h
  induction h with
  | nil => cases hp
  | @blank c _ _ hc _ ih =>
    obtain ⟨blanks, rest, rfl, hb, hs⟩ := ih hp
    refine ⟨c :: blanks, rest, rfl, fun d hd => ?_, hs⟩
    rcases List.mem_cons.mp hd with rfl | hd
    · exact hc
    · exact hb d hd
  | @piece _ _ text hs => cases hp; exact ⟨[], text, rfl, List.forall_mem_nil _, hs⟩

theorem Text.Spaced.isBlank_of_nil {text : Text} (h : Text.Spaced [] text) :
    ∀ c ∈ text, Text.isBlank c = true := by
  generalize hp : ([] : List Text) = all at h
  induction h with
  | nil => exact List.forall_mem_nil _
  | blank hc _ ih =>
    intro d hd
    rcases List.mem_cons.mp hd with rfl | hd
    · exact hc
    · exact ih hp d hd
  | piece => cases hp

namespace Vec

theorem isDelimiter_of_isBlank {c : Char} (h : Text.isBlank c = true) : isDelimiter c = true := by
  simp [isDelimiter, h]

/-- Items with commas between them, as the pieces of a text in brackets. -/
def bracketPieces (items : List Text) : List Text :=
  ['['] :: (items.intersperse [','] ++ [[']']])

theorem flatten_bracketPieces (items : List Text) :
    (bracketPieces items).flatten = '[' :: (Text.join [','] items ++ [']']) := by
  simp [bracketPieces, Text.join]

theorem literals_blanks {blanks : Text} (h : ∀ c ∈ blanks, Text.isBlank c = true) (rest : Text) :
    literals (blanks ++ rest) = literals rest :=
  literals_delimiters (fun c hc => isDelimiter_of_isBlank (h c hc)) rest

/-- An item ends at the delimiter behind it, and one that is empty is no literal. -/
theorem literals_item {item : Text} (hi : ∀ c ∈ item, isDelimiter c = false) {d : Char}
    (hd : isDelimiter d = true) {pieces : List Text} {text : Text}
    (h : Text.Spaced (item :: [d] :: pieces) text) : ∃ rest, Text.Spaced pieces rest ∧
      literals text = [item].filter (fun p => !p.isEmpty) ++ literals rest := by
  obtain ⟨blanks, after, rfl, hb, hs⟩ := h.of_cons
  obtain ⟨blanks', rest, rfl, hb', hs'⟩ := hs.of_cons
  refine ⟨rest, hs', ?_⟩
  have hrest : literals (blanks' ++ ([d] ++ rest)) = literals rest := by
    rw [literals_blanks hb']; exact literals_delimiter hd rest
  rw [literals_blanks hb]
  by_cases hn : item = []
  · rw [hn]; exact hrest
  · rw [List.filter_cons_of_pos (by simpa using hn), ← hrest]
    cases blanks' with
    | nil => exact (literals_piece ⟨hn, hi⟩ hd rest).trans (by rw [← hrest]; rfl)
    | cons c blanks' =>
      have hc := isDelimiter_of_isBlank (hb' c List.mem_cons_self)
      rw [List.cons_append, literals_piece ⟨hn, hi⟩ hc, literals_delimiter hc]
      rfl

theorem literals_spaced : ∀ {items : List Text}, (∀ item ∈ items, ∀ c ∈ item,
    isDelimiter c = false) → ∀ {text : Text},
    Text.Spaced (items.intersperse [','] ++ [[']']]) text →
      literals text = items.filter fun p => !p.isEmpty
  | [], _, text, h => by
    obtain ⟨blanks, rest, rfl, hb, hs⟩ := h.of_cons
    have hl := literals_blanks hs.isBlank_of_nil []
    rw [List.append_nil] at hl
    rw [literals_blanks hb, List.singleton_append, literals_delimiter (by decide), hl]
    rfl
  | [item], hi, text, h => by
    obtain ⟨rest, hs, hl⟩ := literals_item (hi item List.mem_cons_self) (d := ']') rfl h
    have hr := literals_blanks hs.isBlank_of_nil []
    rw [List.append_nil] at hr
    rw [hl, hr]
    exact List.append_nil _
  | item :: item' :: items, hi, text, h => by
    obtain ⟨rest, hs, hl⟩ := literals_item (hi item List.mem_cons_self) (d := ',') rfl h
    rw [hl, literals_spaced (fun i hm => hi i (List.mem_cons_of_mem item hm)) hs,
      ← List.filter_append]
    rfl

theorem literals_bracketPieces {items : List Text}
    (hi : ∀ item ∈ items, ∀ c ∈ item, isDelimiter c = false) {text : Text}
    (h : Text.Spaced (bracketPieces items) text) :
    literals text = items.filter fun p => !p.isEmpty := by
  obtain ⟨blanks, rest, rfl, hb, hs⟩ := h.of_cons
  rw [literals_blanks hb, List.singleton_append, literals_delimiter (by decide)]
  exact literals_spaced hi hs

/-- The literals of a bracket group are its items, without the empty ones. -/
theorem literals_group {group : Text} (h : ∀ c ∈ group, c ≠ ',' → isDelimiter c = false) :
    literals ('[' :: (group ++ [']'])) = (Literal.items group).filter fun p => !p.isEmpty := by
  have hi : ∀ item ∈ Literal.items group, ∀ c ∈ item, isDelimiter c = false := by
    intro item hm c hc
    have hg : c ∈ group := by
      rw [← Text.join_splitWhen ',' group]; exact Text.subset_join hm hc
    have hcomma : (c == ',') = false :=
      @Text.of_mem_splitWhen (· == ',') group item hm c hc
    exact h c hg (by simpa using hcomma)
  have hp : (bracketPieces (Literal.items group)).flatten = '[' :: (group ++ [']']) := by
    rw [flatten_bracketPieces, Literal.items, Text.join_splitWhen]
  rw [← hp]
  exact literals_bracketPieces hi (.refl _)

/-- Blanks that stand beside delimiters only can be removed. -/
theorem ofText_stripped {items : List Text}
    (hi : ∀ item ∈ items, ∀ c ∈ item, isDelimiter c = false) {text : Text}
    (h : Text.Spaced (bracketPieces items) text) : ofText (Text.stripped text) = ofText text := by
  have hp : ∀ p ∈ bracketPieces items, Text.stripped p = p := by
    intro p hp
    refine Text.stripped_eq_self fun c hc => ?_
    rcases List.mem_cons.mp hp with rfl | hp
    · rw [List.mem_singleton.mp hc]; decide
    rcases List.mem_append.mp hp with hp | hp
    · rcases Text.of_mem_intersperse hp with hp | rfl
      · have hd := hi p hp c hc
        simp only [isDelimiter, Bool.or_eq_false_iff] at hd
        exact hd.2
      · rw [List.mem_singleton.mp hc]; decide
    · rw [List.mem_singleton.mp hp, List.mem_singleton] at hc
      rw [hc]; decide
  have hs : Text.Spaced (bracketPieces items) (Text.stripped text) := by
    rw [h.stripped_eq, List.flatMap_congr hp, List.flatMap_id']
    exact .refl _
  rw [ofText, ofText, literals_bracketPieces hi h, literals_bracketPieces hi hs]

end Vec

/-! ## The form of what can be read -/

theorem Literal.isHex_of_ofHex {text : Text} {s : Scalar} (hm : text.head? = some '#')
    (h : Scalar.ofHex text = .ok s) : isHex text = true := by
  cases text with
  | nil => cases hm
  | cons c digits =>
    cases hm
    exact (Scalar.ofHex_eq_ok.mp h).1.1

/-- A literal that can be read has the form of an item. -/
theorem Literal.isItem_of_expand {text : Text} {ws : List Scalar}
    (h : WideLiteral.expand text = .ok ws) : isItem text = true := by
  unfold WideLiteral.expand at h
  split at h
  · cases hs : Scalar.ofLiteral text with
    | error e => rw [hs] at h; cases h
    | ok s =>
      unfold Scalar.ofLiteral at hs
      split at hs
      · rename_i hm; simp [isItem, isHex_of_ofHex hm hs]
      · obtain ⟨d, hd, -⟩ := bind_eq_ok.mp hs
        by_contra hi
        have hn (n : Decimal.Numeral) : n.text ≠ text := fun hn =>
          hi (by rw [← hn]; exact isItem_numeral n)
        obtain ⟨defect, he⟩ := Decimal.ofText_malformed hn
        rw [he] at hd; cases hd
  · obtain ⟨n, hn, -⟩ := bind_eq_ok.mp h
    unfold WideLiteral.readInteger at hn
    split at hn
    · rename_i digits hm
      split at hn
      · rename_i hx; simp [isItem, isHex, hm, hx]
      · cases hn
    · dsimp only at hn
      split at hn
      · rename_i hd; simp [isItem, isDecimal_of_isDigits hd]
      · cases hn

/-- Brackets that hold a vector have the form of a vector literal. -/
theorem isGroup_of_ofText {group : Text} (hb : ∀ c ∈ group, c ≠ '[' ∧ c ≠ ']')
    (hs : ∀ c ∈ group, Text.isBlank c = false) {v : Vec}
    (hv : Vec.ofText ('[' :: (group ++ [']'])) = .ok v) : IsGroup group := by
  have hl : Vec.literals ('[' :: (group ++ [']'])) = _ := Vec.literals_group fun c hc hcomma => by
    simp [Vec.isDelimiter, hcomma, hb c hc, hs c hc]
  rw [Vec.ofText, hl] at hv
  obtain ⟨ws, hw, hv⟩ := bind_eq_ok.mp hv
  refine ⟨fun hn => ?_, fun item hm => ?_⟩
  · rw [hn] at hw; cases hw; cases hv
  · by_cases hn : item = []
    · rw [hn]; rfl
    · obtain ⟨ws, hw⟩ := exists_of_mapM_eq_ok hw (List.mem_filter.mpr ⟨hm, by simpa using hn⟩)
      exact Literal.isItem_of_expand hw

/-! ## Brackets in an expression -/

/-- If no token leaves a bracket open, brackets keep all that is between them. -/
theorem cut_inside_of_sound {rest : Text} : ∀ {inner : Text}, (∀ c ∈ inner, c ≠ '[' ∧ c ≠ ']') →
    ∀ {run : Text}, run.reverse.foldl depthAfter 0 = 1 →
    (∀ t ∈ cut 1 run [] (inner ++ ']' :: rest), Sound t.text) →
      cut 1 run [] (inner ++ ']' :: rest) = cut 0 (']' :: (inner.reverse ++ run)) [] rest
  | [], _, _, _, _ => Token.cut_cons_run rfl _
  | c :: inner, hb, run, hr, h => by
    have hc : depthAfter 1 c = 1 := Token.depthAfter_of_ne (hb c List.mem_cons_self) 1
    cases ha : Token.standsAlone 1 c (inner ++ ']' :: rest).head? with
    | none =>
      rw [List.cons_append, Token.cut_cons_run ha, hc] at h ⊢
      have hr' : (c :: run).reverse.foldl depthAfter 0 = 1 := by
        rw [List.reverse_cons, List.foldl_append, hr]; exact hc
      rw [cut_inside_of_sound (fun d hd => hb d (List.mem_cons_of_mem c hd)) hr' h]
      simp
    | some kind =>
      -- the run before it would be a token, with its bracket open
      rw [List.cons_append, Token.cut_cons_alone ha] at h
      have hne : run.isEmpty = false := by
        cases run with
        | nil => cases hr
        | cons => rfl
      have hs := h ⟨.run, run.reverse⟩ (by simp [Token.closeRun, hne])
      rw [hs.1 0] at hr; cases hr

theorem cut_brackets_of_sound {run inner rest : Text} (hb : ∀ c ∈ inner, c ≠ '[' ∧ c ≠ ']')
    (hr : run.reverse.foldl depthAfter 0 = 0)
    (h : ∀ t ∈ cut 0 run [] ('[' :: (inner ++ ']' :: rest)), Sound t.text) :
    cut 0 run [] ('[' :: (inner ++ ']' :: rest)) =
      cut 0 (('[' :: (inner ++ [']'])).reverse ++ run) [] rest := by
  rw [Token.cut_cons_run rfl] at h ⊢
  have ho : ('[' :: run).reverse.foldl depthAfter 0 = 1 := by
    rw [List.reverse_cons, List.foldl_append, hr]; rfl
  refine (cut_inside_of_sound hb ho h).trans ?_
  simp

theorem Literal.isGroup_of_isVector {group : Text} (hb : ']' ∉ group)
    (h : isVector ('[' :: (group ++ [']'])) = true) : IsGroup group := by
  obtain ⟨interior, hi⟩ := exists_interior h
  have he : interior = group := by
    have ht := eq_of_interior? hi
    rw [List.cons.injEq] at ht
    exact (List.append_cancel_right ht.2).symm
  subst he
  rw [isVector, hi, Option.any_some, groups, groups_go_of_not_mem hb] at h
  refine ⟨?_, by simpa using h⟩
  rintro rfl
  revert hi; decide

variable {text group : Text}

/-- Brackets that have a value as an expression stay in one run. -/
theorem isGroup_of_evaluate (hb : ∀ c ∈ group, c ≠ '[' ∧ c ≠ ']')
    (ht : Text.stripped text = '[' :: (group ++ [']'])) {q : Quantity}
    (h : evaluate text = .ok q) : IsGroup group := by
  have hc : Token.ofText text = [⟨.run, '[' :: (group ++ [']'])⟩] := by
    have hs := sound_of_evaluate h
    rw [Token.ofText_eq, ht] at hs ⊢
    rw [cut_brackets_of_sound hb rfl hs, Token.cut, Token.reverse_closeRun]
    simp [Token.closeRun]
  have hs := shaped_of_evaluate h
  rw [hc] at hs
  rcases hs _ List.mem_cons_self with hp | hv
  · exact absurd (hp '[' List.mem_cons_self) (by unfold IsPlain; decide)
  · exact Literal.isGroup_of_isVector (fun hm => (hb _ hm).2 rfl) hv

/-- What one reader makes of a bracketed text without blanks, the other makes of it too. -/
theorem evaluate_stripped (hb : ∀ c ∈ group, c ≠ '[' ∧ c ≠ ']')
    (ht : Text.stripped text = '[' :: (group ++ [']'])) (q : Quantity) :
    evaluate text = .ok q ↔ ∃ v, Vec.ofText (Text.stripped text) = .ok v ∧ q = .vector v := by
  constructor
  · intro h
    have hg := isGroup_of_evaluate hb ht h
    rw [ht]
    cases hv : Vec.ofText ('[' :: (group ++ [']'])) with
    | ok v =>
      rw [evaluate_brackets hg ht hv] at h
      cases h; exact ⟨v, rfl, rfl⟩
    | error e =>
      rw [evaluate, prepare_brackets hg ht, Prepared.group_of_error hv] at h
      exact absurd h (evaluatePrepared_group_ne hg q)
  · rintro ⟨v, hv, rfl⟩
    have hs : ∀ c ∈ group, Text.isBlank c = false := by
      intro c hc
      have hm : c ∈ Text.stripped text := by rw [ht]; simp [hc]
      simpa using (List.mem_filter.mp hm).2
    rw [ht] at hv
    exact evaluate_brackets (isGroup_of_ofText hb hs hv) ht hv

/-- **Two readers.** As an expression, a bracketed text has the vector that is read once its
blanks are removed, and no other value; and where blanks stand beside commas and brackets only,
that is the vector that is read with them. -/
theorem evaluate_bracketed (body : Text) (hb : '[' ∉ body ∧ ']' ∉ body) :
    (∀ q : Quantity, evaluate ('[' :: (body ++ [']'])) = .ok q ↔
      ∃ v, Vec.ofText (Text.stripped ('[' :: (body ++ [']']))) = .ok v ∧ q = .vector v) ∧
    ∀ items : List Text, (∀ item ∈ items, ∀ c ∈ item, Vec.isDelimiter c = false) →
      Text.Spaced (Vec.bracketPieces items) ('[' :: (body ++ [']'])) →
      ∀ v : Vec, evaluate ('[' :: (body ++ [']'])) = .ok (.vector v) ↔
        Vec.ofText ('[' :: (body ++ [']'])) = .ok v := by
  have hs : Text.stripped ('[' :: (body ++ [']'])) = '[' :: (Text.stripped body ++ [']']) := by
    rw [← List.singleton_append, Text.stripped_append, Text.stripped_append]; rfl
  have hg : ∀ c ∈ Text.stripped body, c ≠ '[' ∧ c ≠ ']' := by
    intro c hc
    have hm : c ∈ body := (List.mem_filter.mp hc).1
    exact ⟨fun e => hb.1 (e ▸ hm), fun e => hb.2 (e ▸ hm)⟩
  have agree := evaluate_stripped hg hs
  refine ⟨agree, fun items hi ht v => ?_⟩
  rw [agree, Vec.ofText_stripped hi ht]
  exact ⟨fun ⟨_, hv, e⟩ => by cases e; exact hv, fun hv => ⟨v, hv, rfl⟩⟩

/-- Blanks beside the brackets and the comma. -/
theorem evaluate_bracketed_outer_blanks :
    let text : Text := ['[', ' ', '1', ' ', ',', '2', ' ', ']']
    Vec.ofText text = .ok ⟨.ofWhole 1, [.ofWhole 2]⟩ ∧
      evaluate text = .ok (.vector ⟨.ofWhole 1, [.ofWhole 2]⟩) := by
  intro text
  have hi : ∀ item ∈ [['1'], ['2']], ∀ c ∈ item, Vec.isDelimiter c = false := by
    simp only [List.mem_cons, List.not_mem_nil, or_false, forall_eq_or_imp, forall_eq]
    exact ⟨rfl, rfl⟩
  have hs : Text.Spaced (Vec.bracketPieces [['1'], ['2']]) text :=
    .piece ['['] (.blank rfl (.piece ['1'] (.blank rfl (.piece [','] (.piece ['2'] (.blank rfl
      (.piece [']'] .nil)))))))
  have hv : Vec.ofText text = .ok ⟨.ofWhole 1, [.ofWhole 2]⟩ := by decide +kernel
  exact ⟨hv, ((evaluate_bracketed [' ', '1', ' ', ',', '2', ' '] (by decide)).2 _ hi hs _).mpr hv⟩

/-- A blank between two digits separates literals for one reader and nothing for the other. -/
theorem evaluate_bracketed_inner_blank :
    let text : Text := ['[', '1', ' ', '2', ']']
    Vec.ofText text = .ok ⟨.ofWhole 1, [.ofWhole 2]⟩ ∧
      evaluate text = .ok (.vector ⟨.ofWhole 12, []⟩) ∧
      ¬∀ v : Vec, evaluate text = .ok (.vector v) ↔ Vec.ofText text = .ok v := by
  intro text
  have hv : Vec.ofText text = .ok ⟨.ofWhole 1, [.ofWhole 2]⟩ := by decide +kernel
  have he : evaluate text = .ok (.vector ⟨.ofWhole 12, []⟩) := by decide +kernel
  refine ⟨hv, he, fun h => ?_⟩
  have hw := (h _).mp he
  rw [hv] at hw
  revert hw; decide

end BinaryPoint
