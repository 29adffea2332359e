import Mathlib.Data.List.Chain
import BinaryPoint.Proofs.Expression.Segments

/-!
# The segmentation of an expression

`Segmentation text tokens` says, without a reader, which tokens a text without blanks has. Some
characters separate (`Separates`): operators and parentheses everywhere, a minus outside square
brackets, and a point that is no decimal point. These are tokens by themselves, and what lies
between two of them is one run.

* `Stands.eq_of_text`: tokens that are not empty do not overlap.
* `separates_of_stands_cut`: what is cut off by itself separates.
* `Segmentation.unique`: a text has one segmentation at most.
* `segmentation_iff`: the tokens of an expression are its segmentation.
-/
namespace BinaryPoint.Token

/-! ## Where tokens stand -/

/-- The square brackets that are open behind a text. Surplus closing brackets close nothing. -/
def openBrackets (text : Text) : Nat :=
  text.foldl (fun depth c => if c = '[' then depth + 1 else if c = ']' then depth - 1 else depth) 0

/-- The character is a token by itself between the text before it and the text behind it. -/
def Separates (before : Text) (c : Char) (after : Text) : Prop :=
  c ∈ ['+', '*', 'x', '/', '(', ')'] ∨ c = '-' ∧ openBrackets before = 0 ∨
    c = '.' ∧ ∀ next ∈ after.head?, Text.isDigit next = false ∧ next ≠ '#'

/-- The token of a character that separates. -/
def single (c : Char) : Token := ⟨if c = '.' then .dot else .operator, [c]⟩

/-- One of the tokens is `token`, those before it hold the text `before` and those behind it the
text `after`. -/
def Stands (tokens : List Token) (before : Text) (token : Token) (after : Text) : Prop :=
  ∃ front back, tokens = front ++ token :: back ∧ front.flatMap Token.text = before ∧
    back.flatMap Token.text = after

/-- The tokens that a text without blanks consists of. -/
structure Segmentation (text : Text) (tokens : List Token) : Prop where
  /-- Nothing is lost, added or moved. -/
  flatMap_text : tokens.flatMap Token.text = text
  ne_nil : ∀ t ∈ tokens, t.text ≠ []
  /-- No run is next to another. -/
  runs_apart : tokens.IsChain fun t t' => t.kind = .run → t'.kind ≠ .run
  /-- Operators and dots are single characters, and only a point is a dot. -/
  run_or_single : ∀ t ∈ tokens, t.kind = .run ∨ ∃ c, t = single c
  /-- A character is a token by itself exactly if it separates where it stands. -/
  single_iff : ∀ before c after, text = before ++ c :: after →
    (Stands tokens before (single c) after ↔ Separates before c after)
  /-- Any other character lies in a run. -/
  in_run : ∀ before c after, text = before ++ c :: after → ¬Separates before c after →
    ∃ front l r back, before = front ++ l ∧ after = r ++ back ∧
      Stands tokens front ⟨.run, l ++ c :: r⟩ back
  /-- A run holds no character that separates, and only such characters are next to it. -/
  run_maximal : ∀ front run back, Stands tokens front ⟨.run, run⟩ back →
    (∀ l c r, run = l ++ c :: r → ¬Separates (front ++ l) c (r ++ back)) ∧
    (∀ before c, front = before ++ [c] → Separates before c (run ++ back)) ∧
    ∀ c after, back = c :: after → Separates (front ++ run) c after

theorem kind_single_ne (c : Char) : (single c).kind ≠ .run := by
  unfold single; split <;> nofun

/-! ## Tokens that hold a text -/

variable {tokens : List Token} {t u : Token} {before after : Text}

theorem stands_cons : Stands (u :: tokens) before t after ↔
    (t = u ∧ before = [] ∧ after = tokens.flatMap Token.text) ∨
      ∃ more, before = u.text ++ more ∧ Stands tokens more t after := by
  constructor
  · rintro ⟨_ | ⟨v, front⟩, back, ht, rfl, rfl⟩
    · cases ht
      exact .inl ⟨rfl, rfl, rfl⟩
    · cases ht
      exact .inr ⟨_, rfl, front, back, rfl, rfl, rfl⟩
  · rintro (⟨rfl, rfl, rfl⟩ | ⟨_, rfl, front, back, rfl, rfl, rfl⟩)
    · exact ⟨[], tokens, rfl, rfl, rfl⟩
    · exact ⟨u :: front, back, rfl, rfl, rfl⟩

/-- A token that begins inside another is that token. -/
theorem Stands.eq_of_text {l r after' : Text} {c : Char} (hne : ∀ t ∈ tokens, t.text ≠ [])
    (h : Stands tokens before t after) (ht : t.text = l ++ c :: r)
    (h' : Stands tokens (before ++ l) u after') : u = t := by
  induction tokens generalizing before with
  | nil => obtain ⟨front, back, hnil, -⟩ := h; simp at hnil
  | cons v rest ih =>
    have hv : v.text ≠ [] := hne v List.mem_cons_self
    rcases stands_cons.mp h with ⟨rfl, rfl, -⟩ | ⟨more, rfl, hs⟩
    · rcases stands_cons.mp h' with ⟨rfl, -, -⟩ | ⟨more, hl, -⟩
      · rfl
      -- the other token begins behind `t`, but `l` is only a part of `t`
      · rw [List.nil_append] at hl
        have hlen := congrArg List.length ht
        simp [hl] at hlen
    · rcases stands_cons.mp h' with ⟨-, hnil, -⟩ | ⟨more', hm, hs'⟩
      · simp [hv] at hnil
      · rw [List.append_assoc, List.append_cancel_left_eq] at hm
        rw [← hm] at hs'
        exact ih (fun t ht => hne t (List.mem_cons_of_mem v ht)) hs hs'

/-- Each character lies in a token. -/
theorem exists_stands {c : Char} : ∀ {tokens : List Token} {before : Text},
    tokens.flatMap Token.text = before ++ c :: after → ∃ t front l r back,
      before = front ++ l ∧ after = r ++ back ∧ t.text = l ++ c :: r ∧ Stands tokens front t back
  | [], before, h => by simp at h
  | u :: tokens, before, h => by
    rw [List.flatMap_cons] at h
    have later (more : Text) (hb : before = u.text ++ more)
        (hm : tokens.flatMap Token.text = more ++ c :: after) : ∃ t front l r back,
        before = front ++ l ∧ after = r ++ back ∧ t.text = l ++ c :: r ∧
          Stands (u :: tokens) front t back := by
      obtain ⟨t, front, l, r, back, rfl, ha, ht, hs⟩ := exists_stands hm
      exact ⟨t, u.text ++ front, l, r, back, by rw [hb, List.append_assoc], ha, ht,
        stands_cons.mpr (.inr ⟨front, rfl, hs⟩)⟩
    rcases List.append_eq_append_iff.mp h with ⟨more, hb, hm⟩ | ⟨rest, hu, hr⟩
    · exact later more hb hm
    · cases rest with
      | nil => exact later [] (by simpa using hu.symm) (by simpa using hr.symm)
      | cons d r =>
        rw [List.cons_append, List.cons.injEq] at hr
        obtain ⟨rfl, ha⟩ := hr
        exact ⟨u, [], before, r, _, rfl, ha, hu, stands_cons.mpr (.inl ⟨rfl, rfl, rfl⟩)⟩

/-! ## What is cut off by itself -/

theorem standsAlone_of_separates {c : Char} (h : Separates before c after) :
    standsAlone (before.foldl depthAfter 0) c after.head? = some (single c).kind := by
  rcases h with h | ⟨rfl, h⟩ | ⟨rfl, h⟩
  · have hp : c ≠ '.' := by rintro rfl; revert h; decide
    rw [standsAlone_operator h, single, if_neg hp]
  · have hd : before.foldl depthAfter 0 = 0 := h
    rw [hd]; rfl
  · have hn : (after.head?.any fun n => Text.isDigit n || n = '#') = false := by
      cases after with
      | nil => rfl
      | cons n after => simpa using h n rfl
    simp [standsAlone, operators, single, hn]

theorem separates_of_standsAlone {c : Char} {kind : Kind}
    (h : standsAlone (before.foldl depthAfter 0) c after.head? = some kind) :
    Separates before c after ∧ kind = (single c).kind := by
  have hs : Separates before c after := by
    unfold standsAlone at h
    split at h
    · rename_i ho
      exact .inl (List.contains_iff_mem.mp ho)
    · split at h
      · rename_i hm
        split at h
        · rename_i hd
          exact .inr (.inl ⟨hm, hd⟩)
        · cases h
      · split at h
        · rename_i hp
          split at h
          · cases h
          · rename_i hn
            refine .inr (.inr ⟨hp, fun next hnext => ?_⟩)
            rw [Option.mem_def.mp hnext] at hn
            simpa using hn
        · cases h
  rw [standsAlone_of_separates hs] at h
  exact ⟨hs, (Option.some.inj h).symm⟩

/-- The run collected so far is in front of any other token. -/
theorem stands_closeRun {run : Text} (hk : t.kind ≠ .run)
    (h : Stands (closeRun run [] ++ tokens) before t after) :
    ∃ more, before = run.reverse ++ more ∧ Stands tokens more t after := by
  unfold closeRun at h
  split at h
  · rename_i hr
    rw [List.isEmpty_iff.mp hr]
    exact ⟨before, rfl, h⟩
  · rcases stands_cons.mp h with ⟨rfl, -⟩ | h
    · exact absurd rfl hk
    · exact h

/-- By induction on the text: a token that is no run is a character that stands alone behind what
has been read until then. -/
theorem separates_of_stands_cut (hk : t.kind ≠ .run) : ∀ {rest : Text} {depth : Nat} {run : Text}
    {before : Text}, Stands (cut depth run [] rest) before t after →
    ∃ seen c, before = run.reverse ++ seen ∧ rest = seen ++ c :: after ∧
      standsAlone (seen.foldl depthAfter depth) c after.head? = some t.kind
  | [], depth, run, before, h => by
    have hc : cut depth run [] [] = closeRun run [] ++ [] := by
      rw [cut, reverse_closeRun, List.append_nil]
    rw [hc] at h
    obtain ⟨_, -, front, back, hnil, -⟩ := stands_closeRun hk h
    simp at hnil
  | d :: rest, depth, run, before, h => by
    cases ha : standsAlone depth d rest.head? with
    | none =>
      rw [cut_cons_run ha] at h
      obtain ⟨seen, c, rfl, rfl, hs⟩ := separates_of_stands_cut hk h
      exact ⟨d :: seen, c, by simp, rfl, hs⟩
    | some kind =>
      rw [cut_cons_alone ha] at h
      obtain ⟨more, rfl, hd⟩ := stands_closeRun hk h
      rcases stands_cons.mp hd with ⟨rfl, rfl, rfl⟩ | ⟨more, rfl, hr⟩
      · rw [flatMap_text_cut]
        exact ⟨[], d, rfl, rfl, ha⟩
      · obtain ⟨seen, c, hm, rfl, hs⟩ := separates_of_stands_cut hk hr
        refine ⟨d :: seen, c, by simp [hm], rfl, ?_⟩
        rwa [List.foldl_cons, depthAfter_of_ne (ne_bracket_of_standsAlone ha)]

theorem stands_single_ofText {text : Text} {c : Char}
    (h : Text.stripped text = before ++ c :: after) :
    Stands (ofText text) before (single c) after ↔ Separates before c after := by
  rw [ofText_eq, h]
  constructor
  · intro hs
    obtain ⟨seen, d, rfl, hd, ha⟩ := separates_of_stands_cut (kind_single_ne c) hs
    cases List.append_cancel_left hd
    exact (separates_of_standsAlone ha).1
  · intro hs
    refine ⟨_, _, cut_append before (standsAlone_of_separates hs) [], ?_, ?_⟩
    · rw [flatMap_text_cut]; rfl
    · rw [flatMap_text_cut]; rfl

/-! ## The tokens of an expression -/

theorem Segmented.runs_apart (h : Segmented tokens) :
    tokens.IsChain fun t t' => t.kind = .run → t'.kind ≠ .run := by
  induction h with
  | nil => exact .nil
  | operator _ _ ih => exact List.isChain_cons.mpr ⟨nofun, ih⟩
  | dot _ ih => exact List.isChain_cons.mpr ⟨nofun, ih⟩
  | run _ _ hr _ ih => exact List.isChain_cons.mpr ⟨fun t ht _ => hr t ht, ih⟩

theorem Segmented.run_or_single (h : Segmented tokens) :
    ∀ t ∈ tokens, t.kind = .run ∨ ∃ c, t = single c := by
  induction h with
  | nil => exact List.forall_mem_nil _
  | @operator c _ ho _ ih =>
    have hp : c ≠ '.' := by rintro rfl; revert ho; unfold IsOperator; decide
    exact List.forall_mem_cons.mpr ⟨.inr ⟨c, by rw [single, if_neg hp]⟩, ih⟩
  | dot _ ih => exact List.forall_mem_cons.mpr ⟨.inr ⟨'.', rfl⟩, ih⟩
  | run _ _ _ _ ih => exact List.forall_mem_cons.mpr ⟨.inl rfl, ih⟩

theorem Stands.mem (h : Stands tokens before t after) : t ∈ tokens := by
  obtain ⟨front, back, rfl, -⟩ := h
  exact List.mem_append_right front List.mem_cons_self

theorem Stands.flatMap_text (h : Stands tokens before t after) :
    tokens.flatMap Token.text = before ++ (t.text ++ after) := by
  obtain ⟨front, back, rfl, rfl, rfl⟩ := h
  rw [List.flatMap_append, List.flatMap_cons]

/-- The characters next to a run are tokens by themselves. -/
theorem Stands.next_to_run {run : Text} (h : Stands tokens before ⟨.run, run⟩ after)
    (ha : tokens.IsChain fun t t' => t.kind = .run → t'.kind ≠ .run)
    (hk : ∀ t ∈ tokens, t.kind = .run ∨ ∃ c, t = single c) :
    (∀ more c, before = more ++ [c] → Stands tokens more (single c) (run ++ after)) ∧
    ∀ c more, after = c :: more → Stands tokens (before ++ run) (single c) more := by
  obtain ⟨front, back, rfl, rfl, rfl⟩ := h
  constructor
  · intro more c hm
    rcases List.eq_nil_or_concat front with rfl | ⟨front, u, rfl⟩
    · simp at hm
    · rw [List.concat_eq_append, List.append_assoc, List.singleton_append] at ha hk ⊢
      have hu : u.kind ≠ .run := fun hr => (List.isChain_append_cons_cons.mp ha).2.1 hr rfl
      obtain ⟨d, rfl⟩ := (hk u (by simp)).resolve_left hu
      obtain ⟨rfl, rfl⟩ : front.flatMap Token.text = more ∧ d = c := by
        simpa [List.flatMap_append, single] using hm
      exact ⟨front, ⟨.run, run⟩ :: back, rfl, rfl, rfl⟩
  · intro c more hm
    cases back with
    | nil => cases hm
    | cons u back =>
      have hu : u.kind ≠ .run := (List.isChain_append_cons_cons.mp ha).2.1 rfl
      obtain ⟨d, rfl⟩ := (hk u (by simp)).resolve_left hu
      obtain ⟨rfl, rfl⟩ : d = c ∧ back.flatMap Token.text = more := by
        simpa [single] using hm
      exact ⟨front ++ [⟨.run, run⟩], back, by simp, by simp, rfl⟩

/-- A character that is no token by itself lies in a run. -/
theorem exists_run {c : Char} (ht : tokens.flatMap Token.text = before ++ c :: after)
    (hk : ∀ t ∈ tokens, t.kind = .run ∨ ∃ c, t = single c)
    (hs : ¬Stands tokens before (single c) after) : ∃ front l r back, before = front ++ l ∧
      after = r ++ back ∧ Stands tokens front ⟨.run, l ++ c :: r⟩ back := by
  obtain ⟨⟨kind, text⟩, front, l, r, back, rfl, rfl, rfl, hst⟩ := exists_stands ht
  rcases hk _ hst.mem with rfl | ⟨d, hd⟩
  · exact ⟨front, l, r, back, rfl, rfl, hst⟩
  -- a single character has nothing on either side of it
  · obtain ⟨rfl, rfl, rfl⟩ : l = [] ∧ c = d ∧ r = [] := by
      have := congrArg Token.text hd
      simpa [single, List.append_eq_singleton_iff] using this
    rw [hd] at hst
    exact absurd (by simpa using hst) hs

theorem segmentation_ofText (text : Text) : Segmentation (Text.stripped text) (ofText text) where
  flatMap_text := flatMap_text_ofText text
  ne_nil := (segmented_ofText text).ne_nil
  runs_apart := (segmented_ofText text).runs_apart
  run_or_single := (segmented_ofText text).run_or_single
  single_iff _ _ _ h := stands_single_ofText h
  in_run before c after h hs :=
    exists_run ((flatMap_text_ofText text).trans h) (segmented_ofText text).run_or_single
      fun hst => hs ((stands_single_ofText h).mp hst)
  run_maximal front run back h := by
    have ht : Text.stripped text = front ++ (run ++ back) :=
      (flatMap_text_ofText text).symm.trans h.flatMap_text
    obtain ⟨hbefore, hafter⟩ := h.next_to_run (segmented_ofText text).runs_apart
      (segmented_ofText text).run_or_single
    refine ⟨fun l c r hr hs => ?_, fun before c hf => ?_, fun c after hb => ?_⟩
    · have hst : Stands (ofText text) (front ++ l) (single c) (r ++ back) :=
        (stands_single_ofText (by simp [ht, hr])).mpr hs
      have he := h.eq_of_text (segmented_ofText text).ne_nil hr hst
      exact kind_single_ne c (congrArg Token.kind he)
    · exact (stands_single_ofText (by simp [ht, hf])).mp (hbefore before c hf)
    · exact (stands_single_ofText (by simp [ht, hb])).mp (hafter c after hb)

/-! ## There is no other segmentation -/

namespace Segmentation

variable {text : Text} {front rest : List Token}

theorem text_eq (h : Segmentation text (front ++ t :: rest)) :
    text = front.flatMap Token.text ++ (t.text ++ rest.flatMap Token.text) := by
  rw [← h.flatMap_text, List.flatMap_append, List.flatMap_cons]

/-- What separates at the front of a token is that token, and a run begins with something else. -/
theorem eq_single_or_run (h : Segmentation text (front ++ t :: rest)) {c : Char} {after : Text}
    (hc : t.text ++ rest.flatMap Token.text = c :: after) :
    (Separates (front.flatMap Token.text) c after ∧ t = single c) ∨
      (¬Separates (front.flatMap Token.text) c after ∧ t.kind = .run) := by
  have ht := h.text_eq
  have hst : Stands (front ++ t :: rest) (front.flatMap Token.text) t (rest.flatMap Token.text) :=
    ⟨front, rest, rfl, rfl, rfl⟩
  rcases h.run_or_single t hst.mem with hr | ⟨d, rfl⟩
  · obtain ⟨kind, run⟩ := t
    cases hr
    obtain ⟨d, more, rfl⟩ := List.exists_cons_of_ne_nil (h.ne_nil _ hst.mem)
    cases hc
    have hn := (h.run_maximal _ _ _ hst).1 [] c more rfl
    rw [List.append_nil] at hn
    exact .inr ⟨hn, rfl⟩
  · cases hc
    exact .inl ⟨(h.single_iff _ _ _ ht).mp hst, rfl⟩

/-- Of two runs at one place none goes on behind the other. -/
theorem run_eq_of_append {run more : Text} {rest' : List Token}
    (h : Segmentation text (front ++ ⟨.run, run⟩ :: rest))
    (h' : Segmentation text (front ++ ⟨.run, run ++ more⟩ :: rest')) : more = [] := by
  cases more with
  | nil => rfl
  | cons c more =>
    have hrest : rest.flatMap Token.text = c :: (more ++ rest'.flatMap Token.text) := by
      have := h.text_eq.symm.trans h'.text_eq
      simpa using this
    have hs := (h.run_maximal _ _ _ ⟨front, rest, rfl, rfl, rfl⟩).2.2 c _ hrest
    have hn := (h'.run_maximal _ _ _ ⟨front, rest', rfl, rfl, rfl⟩).1 run c more rfl
    exact absurd hs hn

theorem head_eq {t' : Token} {rest' : List Token} (h : Segmentation text (front ++ t :: rest))
    (h' : Segmentation text (front ++ t' :: rest')) : t = t' := by
  have he : t.text ++ rest.flatMap Token.text = t'.text ++ rest'.flatMap Token.text :=
    List.append_cancel_left (h.text_eq.symm.trans h'.text_eq)
  obtain ⟨c, more, ht⟩ := List.exists_cons_of_ne_nil (h.ne_nil t (by simp))
  have hc : t.text ++ rest.flatMap Token.text = c :: (more ++ rest.flatMap Token.text) := by
    rw [ht, List.cons_append]
  rcases h.eq_single_or_run hc with ⟨hs, hsingle⟩ | ⟨hn, hr⟩ <;>
    rcases h'.eq_single_or_run (he.symm.trans hc) with ⟨hs', hsingle'⟩ | ⟨hn', hr'⟩
  · rw [hsingle, hsingle']
  · exact absurd hs hn'
  · exact absurd hs' hn
  · obtain ⟨kind, run⟩ := t
    obtain ⟨kind', run'⟩ := t'
    cases hr
    cases hr'
    rcases List.append_eq_append_iff.mp he with ⟨more, rfl, -⟩ | ⟨more, rfl, -⟩
    · rw [h.run_eq_of_append h', List.append_nil]
    · rw [h'.run_eq_of_append h, List.append_nil]

theorem eq_nil (h : Segmentation text (front ++ tokens)) (ht : text = front.flatMap Token.text) :
    tokens = [] := by
  cases tokens with
  | nil => rfl
  | cons t tokens =>
    have := h.ne_nil t (by simp)
    simp [h.text_eq, this] at ht

/-- By induction on the tokens, behind those that are known to be the same. -/
theorem eq_of_append : ∀ {tokens tokens' front : List Token}, Segmentation text (front ++ tokens) →
    Segmentation text (front ++ tokens') → tokens = tokens'
  | [], tokens', front, h, h' => by
    rw [List.append_nil] at h
    exact (h'.eq_nil h.flatMap_text.symm).symm
  | t :: tokens, [], front, h, h' => by
    rw [List.append_nil] at h'
    exact h.eq_nil h'.flatMap_text.symm
  | t :: tokens, t' :: tokens', front, h, h' => by
    obtain rfl := h.head_eq h'
    rw [List.append_cons] at h h'
    rw [eq_of_append h h']

theorem unique {tokens' : List Token} (h : Segmentation text tokens)
    (h' : Segmentation text tokens') : tokens = tokens' :=
  @eq_of_append text tokens tokens' [] h h'

end Segmentation

/-- **Segmentation of an expression.** The tokens of an expression are the segmentation of its
text without blanks: they hold this text in order, none is empty and no two runs are neighbours;
a character is a token by itself exactly if it separates where it stands; and the other characters
lie in runs from one that separates to the next. There are no other tokens with these properties. -/
theorem segmentation_iff (text : Text) (tokens : List Token) :
    Segmentation (Text.stripped text) tokens ↔ ofText text = tokens :=
  ⟨(segmentation_ofText text).unique, fun h => h ▸ segmentation_ofText text⟩

/-- A surplus bracket closes nothing, so that the minus behind it is an operator. -/
example : ofText "]-[-1.5].x".toList = [⟨.run, [']']⟩, ⟨.operator, ['-']⟩,
    ⟨.run, "[-1.5]".toList⟩, ⟨.dot, ['.']⟩, ⟨.operator, ['x']⟩] := by decide

end BinaryPoint.Token
