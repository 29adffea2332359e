import BinaryPoint.Proofs.Expression.Splices

/-!
# Commas between arguments

A comma is no operator: it belongs to the run on each side of it, if there is one. What stands
on its two sides is prepared as it is by itself only if the comma keeps it apart: behind a
closing parenthesis, where no literal follows, the comma begins a run that is read as it stands,
and between bracket groups it makes one vector literal of both. Anywhere else it spoils the
literal beside it.

An empty group is dropped with one of the commas beside it, and so is a run of them.

* `exists_last`, `cut_ahead`: the runs in front of a comma and behind it.
* `Seam`: what a comma keeps apart.
* `KeepsComma`: the comma itself is in the prepared text.
* `prepare_closed`, `prepare_spliced`: prepared text around both kinds of seams.
-/
namespace BinaryPoint

open Token (cut closeRun depthAfter standsAlone)

/-! ## Runs beside a comma -/

namespace Token

/-- The whole text goes on with a run, alone or in front of a comma. -/
structure OneRun (depth : ℕ) (text : Text) : Prop where
  alone : ∀ run : Text, cut depth run [] text = closeRun (text.reverse ++ run) []
  comma : ∀ run rest : Text, cut depth run [] (text ++ ',' :: rest) =
    cut (text.foldl depthAfter depth) (',' :: (text.reverse ++ run)) [] rest

theorem OneRun.nil (depth : ℕ) : OneRun depth [] :=
  ⟨fun run => reverse_closeRun run, fun _ _ => cut_cons_run rfl _⟩

theorem standsAlone_comma (depth : ℕ) (c : Char) (text rest : Text) :
    standsAlone depth c (text ++ ',' :: rest).head? = standsAlone depth c text.head? :=
  standsAlone_head (by decide) depth c text rest

theorem OneRun.cons {depth : ℕ} {c : Char} {text : Text} (h : standsAlone depth c text.head? = none)
    (ht : OneRun (depthAfter depth c) text) : OneRun depth (c :: text) where
  alone run := by rw [cut_cons_run h, ht.alone]; simp
  comma run rest := by
    rw [List.cons_append, cut_cons_run ((standsAlone_comma depth c text rest).trans h), ht.comma]
    simp

/-- A text is one run, or it has a last character that stands alone, and one run behind that. -/
theorem exists_last : ∀ (text : Text) (depth : ℕ), OneRun depth text ∨
    ∃ before c kind last, text = before ++ c :: last ∧
      standsAlone (before.foldl depthAfter depth) c last.head? = some kind ∧
        OneRun (before.foldl depthAfter depth) last
  | [], depth => .inl (.nil depth)
  | c :: text, depth => by
    rcases exists_last text (depthAfter depth c) with h | ⟨before, d, kind, last, rfl, hd, hl⟩
    · cases hc : standsAlone depth c text.head? with
      | none => exact .inl (.cons hc h)
      | some kind =>
        rw [depthAfter_of_ne (ne_bracket_of_standsAlone hc)] at h
        exact .inr ⟨[], c, kind, text, rfl, hc, h⟩
    · exact .inr ⟨c :: before, d, kind, last, rfl, hd, hl⟩

theorem closeRun_of_ne_nil {run : Text} (h : run ≠ []) : closeRun run [] = [⟨.run, run.reverse⟩] := by
  simp [closeRun, h]

/-- The run that a text begins with, and the tokens behind it. No run is there exactly if the
first character stands alone. -/
theorem cut_ahead : ∀ (text : Text) (depth : ℕ), ∃ (run after : Text) (rest : List Token),
    text = run ++ after ∧
      (run = [] → ∀ c ∈ text.head?, standsAlone depth c text.tail.head? ≠ none) ∧
      ∀ before : Text, cut depth before [] text = closeRun (run.reverse ++ before) [] ++ rest
  | [], _ => ⟨[], [], [], rfl, by rintro - _ ⟨⟩, fun before => by
      rw [cut, reverse_closeRun, List.append_nil]; rfl⟩
  | c :: text, depth => by
    cases hc : standsAlone depth c text.head? with
    | some kind =>
      refine ⟨[], c :: text, _, rfl, ?_, fun before => cut_cons_alone hc before⟩
      rintro - _ ⟨⟩ h
      rw [List.tail_cons, hc] at h; cases h
    | none =>
      obtain ⟨run, after, rest, rfl, -, hr⟩ := cut_ahead text (depthAfter depth c)
      exact ⟨c :: run, after, rest, rfl, fun h => absurd h (List.cons_ne_nil c run),
        fun before => by rw [cut_cons_run hc, hr]; simp⟩

/-- A character that stands alone begins no literal. -/
theorem not_literal_of_standsAlone {depth : ℕ} {c : Char} {next : Option Char}
    (h : standsAlone depth c next ≠ none) : c ≠ '[' ∧ c ≠ '#' ∧ Text.isDigit c = false := by
  obtain ⟨kind, hk⟩ := Option.ne_none_iff_exists'.mp h
  rcases standsAlone_eq_some hk with ⟨-, hc | rfl⟩ | ⟨-, rfl⟩
  · simp only [operators, List.mem_cons, List.not_mem_nil, or_false] at hc
    rcases hc with rfl | rfl | rfl | rfl | rfl | rfl <;> decide
  · decide
  · decide

/-- The tokens from a comma on, behind what is left of a run. -/
theorem cut_comma (text : Text) (depth : ℕ) : ∃ (run after : Text) (rest : List Token),
    text = run ++ after ∧
      (run = [] → ∀ c ∈ text.head?, standsAlone depth c text.tail.head? ≠ none) ∧
      cut depth [] [] text = closeRun run.reverse [] ++ rest ∧
      ∀ before : Text, cut depth (',' :: before) [] text =
        ⟨.run, before.reverse ++ ',' :: run⟩ :: rest := by
  obtain ⟨run, after, rest, ht, hn, hr⟩ := cut_ahead text depth
  refine ⟨run, after, rest, ht, hn, by rw [hr, List.append_nil], fun before => ?_⟩
  rw [hr, closeRun_of_ne_nil (by simp)]
  simp

/-- A text that leaves no bracket open is one run, or a token stands between its last run and what
is before it. -/
theorem exists_last_run {text : Text} (hd : text.foldl depthAfter 0 = 0) : OneRun 0 text ∨
    ∃ (before : Text) (token : Token) (last : Text), text = before ++ (token.text ++ last) ∧
      token.kind ≠ .run ∧ (last = [] → text.getLast? ≠ some ']') ∧
      (∀ run : Text, cut 0 run [] text = cut 0 run [] before ++ token :: closeRun last.reverse []) ∧
      ∀ run rest : Text, cut 0 run [] (text ++ ',' :: rest) =
        cut 0 run [] before ++ token :: cut 0 (',' :: last.reverse) [] rest := by
  rcases exists_last text 0 with h | ⟨before, c, kind, last, rfl, hc, hl⟩
  · exact .inl h
  · have hb := ne_bracket_of_standsAlone hc
    have hc' (rest : Text) := (standsAlone_comma _ c last rest).trans hc
    rw [List.foldl_append, List.foldl_cons, depthAfter_of_ne hb] at hd
    refine .inr ⟨before, ⟨kind, [c]⟩, last, rfl, ?_, ?_, fun run => ?_, fun run rest => ?_⟩
    · rcases standsAlone_eq_some hc with ⟨rfl, -⟩ | ⟨rfl, -⟩ <;> nofun
    · rintro rfl h
      rw [List.getLast?_append_cons] at h
      exact hb.2 (Option.some.inj h)
    · rw [cut_append before hc, hl.alone, List.append_nil]
    · rw [List.append_assoc, List.cons_append, cut_append before (hc' rest), hl.comma, hd,
        List.append_nil]

/-- The tokens of a text that leaves no bracket open, with its last run apart. -/
theorem cut_last_run {text : Text} (hd : text.foldl depthAfter 0 = 0) :
    ∃ (tokens : List Token) (last : Text), cut 0 [] [] text = tokens ++ closeRun last.reverse [] ∧
      (∀ rest : Text, cut 0 [] [] (text ++ ',' :: rest) =
        tokens ++ cut 0 (',' :: last.reverse) [] rest) ∧
      (last = [] → text.getLast? ≠ some ']') := by
  rcases exists_last_run hd with h | ⟨before, token, last, -, -, hn, hcut, hcomma⟩
  · refine ⟨[], text, by rw [h.alone, List.append_nil]; rfl, fun rest => ?_,
      fun hn => by rw [hn]; nofun⟩
    rw [h.comma, hd, List.append_nil]; rfl
  · exact ⟨cut 0 [] [] before ++ [token], last, by rw [hcut, List.append_assoc]; rfl,
      fun rest => by rw [hcomma, List.append_assoc]; rfl, hn⟩

end Token

/-! ## Splices side by side -/

theorem splice_append {groups groups' : List Text} (h : groups ≠ []) (h' : groups' ≠ []) :
    splice (groups ++ groups') = splice groups ++ ',' :: splice groups' := by
  rw [splice, List.map_append, Text.join_append _ (by simpa using h) (by simpa using h')]
  rfl

theorem closeBracket_not_mem_of_items {groups : List Text}
    (hi : ∀ g ∈ groups, ∀ item ∈ Literal.items g, Literal.isItem item = true) :
    ∀ g ∈ groups, ']' ∉ g := fun g hg hm =>
  (Literal.isItemChar_of_items (hi g hg) _ hm).not_mem (by decide)

/-- The groups of a vector literal. -/
theorem exists_splice_of_isVector {run : Text} (h : Literal.isVector run = true) :
    ∃ groups : List Text, groups ≠ [] ∧ run = splice groups ∧
      ∀ g ∈ groups, ∀ item ∈ Literal.items g, Literal.isItem item = true := by
  obtain ⟨interior, hi⟩ := Literal.exists_interior h
  have hg : Literal.groups interior ≠ [] := fun hn => by
    have hj := Literal.join_groups interior
    rw [hn] at hj
    rw [Literal.eq_of_interior? hi, ← hj] at hi
    cases hi
  refine ⟨Literal.groups interior, hg, ?_, by simpa [Literal.isVector, hi] using h⟩
  rw [splice_eq hg, Literal.join_groups, ← Literal.eq_of_interior? hi]

/-- A splice begins with its first group. -/
theorem splice_begins (g : Text) (groups : List Text) :
    '[' :: (g ++ [']']) <+: splice (g :: groups) := by
  cases groups with
  | nil => rw [splice_singleton]
  | cons g' groups =>
    rw [splice_cons g (List.cons_ne_nil g' groups)]
    exact ⟨',' :: splice (g' :: groups), by simp⟩

/-- A splice ends with its last group. -/
theorem splice_ends (g : Text) (groups : List Text) :
    '[' :: (g ++ [']']) <:+ splice (groups ++ [g]) := by
  cases groups with
  | nil => rw [List.nil_append, splice_singleton]
  | cons g' groups =>
    rw [splice_append (List.cons_ne_nil g' groups) (List.cons_ne_nil g []), splice_singleton]
    exact ⟨splice (g' :: groups) ++ [','], by simp⟩

/-- The comma between two prepared texts, which is left out together with an empty one. -/
def commaBetween (before after : Text) : Text := if before = [] ∨ after = [] then [] else [',']

namespace Prepared

theorem group_ne_nil {inner : Text} (h : inner ≠ []) : group inner ≠ [] := by
  cases hv : Vec.ofText ('[' :: (inner ++ [']'])) with
  | error e => rwa [group_of_error hv]
  | ok v =>
    rw [group_of_ok hv]
    exact List.cons_ne_nil _ _

theorem nil_not_mem_groups (groups : List Text) :
    [] ∉ (groups.filter fun g => !g.isEmpty).map group := fun hm => by
  obtain ⟨g, hg, he⟩ := List.mem_map.mp hm
  exact group_ne_nil (by simpa using (List.mem_filter.mp hg).2) he

theorem join_append_commaBetween {texts texts' : List Text} (h : [] ∉ texts) (h' : [] ∉ texts') :
    Text.join [','] (texts ++ texts') = Text.join [','] texts ++
      (commaBetween (Text.join [','] texts) (Text.join [','] texts') ++ Text.join [','] texts') := by
  rcases texts with _ | ⟨t, texts⟩
  · simp [commaBetween, Text.join]
  rcases texts' with _ | ⟨t', texts'⟩
  · simp [commaBetween, Text.join]
  have hj : Text.join [','] (t :: texts) ≠ [] :=
    Text.join_ne_nil List.mem_cons_self fun e => h (e ▸ List.mem_cons_self)
  have hj' : Text.join [','] (t' :: texts') ≠ [] :=
    Text.join_ne_nil List.mem_cons_self fun e => h' (e ▸ List.mem_cons_self)
  rw [commaBetween, if_neg (not_or.mpr ⟨hj, hj'⟩),
    Text.join_append _ (List.cons_ne_nil t texts) (List.cons_ne_nil t' texts')]

/-- Bracket groups on the two sides of a comma are one literal, whose arguments are those of
both. -/
theorem vector_append {run run' : Text} (h : Literal.isVector run = true)
    (h' : Literal.isVector run' = true) : Literal.isVector (run ++ ',' :: run') = true ∧
      vector (run ++ ',' :: run') =
        vector run ++ (commaBetween (vector run) (vector run') ++ vector run') := by
  obtain ⟨groups, hne, rfl, hi⟩ := exists_splice_of_isVector h
  obtain ⟨groups', hne', rfl, hi'⟩ := exists_splice_of_isVector h'
  have hall : ∀ g ∈ groups ++ groups', ∀ item ∈ Literal.items g, Literal.isItem item = true :=
    fun f hf => (List.mem_append.mp hf).elim (hi f) (hi' f)
  have hn : groups ++ groups' ≠ [] := List.append_ne_nil_of_left_ne_nil hne groups'
  have hb := closeBracket_not_mem_of_items hall
  have hv : Literal.isVector (splice (groups ++ groups')) = true :=
    (isVector_splice hn hb).mpr ⟨by rw [Text.join_append _ hne hne']; simp, hall⟩
  rw [← splice_append hne hne']
  refine ⟨hv, ?_⟩
  rw [vector_splice hn hb hv, vector_splice hne (closeBracket_not_mem_of_items hi) h,
    vector_splice hne' (closeBracket_not_mem_of_items hi') h', List.filter_append, List.map_append,
    join_append_commaBetween (nil_not_mem_groups groups) (nil_not_mem_groups groups')]

/-- A literal of which nothing is left begins and ends with an empty group. -/
theorem empty_of_vector_eq_nil {run : Text} (h : Literal.isVector run = true)
    (hn : vector run = []) : ['[', ']'] <+: run ∧ ['[', ']'] <:+ run := by
  obtain ⟨groups, hne, rfl, hi⟩ := exists_splice_of_isVector h
  have hall : ∀ g ∈ groups, g = [] := fun g hg => by
    by_contra hg'
    rw [vector_splice hne (closeBracket_not_mem_of_items hi) h] at hn
    have hm : g ∈ groups.filter fun g => !g.isEmpty := List.mem_filter.mpr ⟨hg, by simpa using hg'⟩
    exact Text.join_ne_nil (List.mem_map_of_mem hm) (group_ne_nil hg') hn
  constructor
  · obtain ⟨g, groups, rfl⟩ := List.exists_cons_of_ne_nil hne
    rw [hall g List.mem_cons_self]
    exact splice_begins [] groups
  · obtain ⟨groups, g, rfl⟩ := (List.eq_nil_or_concat' groups).resolve_left hne
    rw [hall g (by simp)]
    exact splice_ends [] groups

end Prepared

/-- Between the groups of a splice a comma is in front of a bracket. -/
theorem head_of_splice : ∀ {groups : List Text}, (∀ g ∈ groups, ']' ∉ g) →
    ∀ {u v : Text}, splice groups = u ++ ']' :: ',' :: v → v.head? = some '['
  | [], _, u, _, h => by cases u <;> cases h
  | g :: groups, hb, [], v, h => by
    rw [splice_eq (List.cons_ne_nil g groups)] at h
    cases h
  | [g], hb, c :: u, v, h => by
    rw [splice_singleton] at h
    rcases Text.of_append_mark_eq (hb g List.mem_cons_self) (List.cons.inj h).2 with h | ⟨more, h⟩
    · cases h
    · cases more <;> cases h
  | g :: g' :: groups, hb, c :: u, v, h => by
    rw [splice_cons g (List.cons_ne_nil g' groups)] at h
    rcases Text.of_append_mark_eq (hb g List.mem_cons_self) (List.cons.inj h).2 with h | ⟨more, h⟩
    · cases h
      rw [splice_eq (List.cons_ne_nil g' groups)]; rfl
    · cases more with
      | nil => cases h
      | cons d more =>
        exact head_of_splice (fun f hf => hb f (List.mem_cons_of_mem g hf)) (List.cons.inj h).2

theorem head_of_isVector {u v : Text} (h : Literal.isVector (u ++ ']' :: ',' :: v) = true) :
    v.head? = some '[' := by
  obtain ⟨groups, -, hs, hi⟩ := exists_splice_of_isVector h
  exact head_of_splice (closeBracket_not_mem_of_items hi) hs.symm

/-! ## Seams -/

/-- What a comma between two texts without blanks keeps apart: behind a closing parenthesis all
but a literal, and bracket groups on both sides. -/
inductive Seam (before after : Text) : Prop where
  | closed (hb : before.getLast? = some ')') (ha : Literal.BeginsNone after)
  | spliced (hb : before.getLast? = some ']') (ha : after.head? = some '[')

/-- Of what is behind the comma only the first character matters. -/
theorem Seam.of_head {before after after' : Text} (h : Seam before after)
    (he : after.head? = after'.head?) : Seam before after' := by
  cases h with
  | closed hb ha => exact .closed hb fun c hc => ha c (he ▸ hc)
  | spliced hb ha => exact .spliced hb (he ▸ ha)

/-- A seam whose sides are prepared as by themselves. No empty group is beside the comma, which
could be dropped together with it, and behind the comma no sign, which would be folded into its
decimal at the start of a text only. -/
structure CleanSeam (before after : Text) : Prop where
  seam : Seam before after
  last : ¬['[', ']'] <:+ before
  first : ¬['[', ']'] <+: after
  unsigned : ∀ d rest, after = '-' :: d :: rest → Text.isDigit d = false

/-- The prepared text of the first token. -/
def firstPiece (text : Text) : Text := ((cut 0 [] [] text).head?.map Prepared.piece).getD []

/-- The prepared text of the last token. -/
def lastPiece (text : Text) : Text := ((cut 0 [] [] text).getLast?.map Prepared.piece).getD []

/-- The comma between two texts is in the prepared text: something is left of the bracket groups
on each side of it. -/
def KeepsComma (before after : Text) : Prop := lastPiece before ≠ [] ∧ firstPiece after ≠ []

instance (before after : Text) : Decidable (KeepsComma before after) :=
  inferInstanceAs (Decidable (_ ∧ _))

/-- The token of a comma by itself. -/
def Token.comma : Token := ⟨.run, [',']⟩

/-- Behind a run nothing is a sign, whatever the run is. -/
theorem Prepared.collect_run (run run' : Text) (tokens : List Token) :
    collect (some ⟨.run, run⟩) [] tokens = collect (some ⟨.run, run'⟩) [] tokens :=
  collect_of_isSign (isSign_run run) (isSign_run run') tokens

theorem Prepared.piece_of_isVector {run : Text} (h : Literal.isVector run = true) :
    piece ⟨.run, run⟩ = vector run := by simp [piece, Literal.classify_of_isVector h]

/-- The first token, if it begins with a bracket, is bracket groups. -/
def Leads (tokens : List Token) : Prop :=
  ∀ t ∈ tokens.head?, t.text.head? = some '[' → Literal.isVector t.text = true

/-! ## Pieces beside a comma -/

/-- Of a token nothing is left only if it is bracket groups that are all empty. -/
theorem Prepared.isVector_of_piece_eq_nil {t : Token} (ht : t.text ≠ []) (h : piece t = []) :
    Literal.isVector t.text = true ∧ vector t.text = [] := by
  unfold piece at h
  split at h
  · split at h
    · cases h
    · exact absurd h ht
  · exact absurd h ht
  · split at h
    · cases h
    · cases h
    · rename_i hc
      exact ⟨Literal.isVector_of_classify hc, h⟩
    · exact absurd h ht

section
variable {text : Text} (hne : text ≠ [])

include hne

theorem cut_ne_nil : cut 0 [] [] text ≠ [] := fun h => by
  have ht := Token.flatMap_text_cut text 0 []
  rw [h] at ht
  exact hne ht.symm

theorem exists_firstPiece : ∃ t : Token, firstPiece text = Prepared.piece t ∧ t.text ≠ [] ∧
    t.text <+: text := by
  obtain ⟨t, rest, hc⟩ := List.exists_cons_of_ne_nil (cut_ne_nil hne)
  have ht := Token.flatMap_text_cut text 0 []
  rw [hc, List.flatMap_cons] at ht
  have hs : Token.Segmented (cut 0 [] [] text) := Token.segmented_cut text 0 fun _ hm => nomatch hm
  exact ⟨t, by rw [firstPiece, hc]; rfl, hs.ne_nil t (by rw [hc]; exact List.mem_cons_self), _, ht⟩

theorem exists_lastPiece : ∃ t : Token, lastPiece text = Prepared.piece t ∧ t.text ≠ [] ∧
    t.text <:+ text := by
  obtain ⟨front, t, hc⟩ := (List.eq_nil_or_concat' (cut 0 [] [] text)).resolve_left (cut_ne_nil hne)
  have ht := Token.flatMap_text_cut text 0 []
  rw [hc, List.flatMap_append, List.flatMap_singleton] at ht
  have hs : Token.Segmented (cut 0 [] [] text) := Token.segmented_cut text 0 fun _ hm => nomatch hm
  exact ⟨t, by rw [lastPiece, hc, List.getLast?_concat]; rfl, hs.ne_nil t (by rw [hc]; simp), _, ht⟩

/-- A text that begins with no literal begins with something that is left. -/
theorem firstPiece_ne_nil (h : Literal.BeginsNone text) : firstPiece text ≠ [] := fun hp => by
  obtain ⟨t, hf, ht, rest, hr⟩ := exists_firstPiece hne
  obtain ⟨hv, -⟩ := Prepared.isVector_of_piece_eq_nil ht (hf.symm.trans hp)
  obtain ⟨interior, hi⟩ := Literal.exists_interior hv
  rw [Literal.eq_of_interior? hi] at hr
  exact (h '[' (by rw [← hr]; rfl)).1 rfl

end

theorem CleanSeam.keepsComma {before after : Text} (h : CleanSeam before after)
    (hb : before ≠ []) (ha : after ≠ []) : KeepsComma before after := by
  constructor
  · intro hp
    obtain ⟨t, hl, ht, hs⟩ := exists_lastPiece hb
    obtain ⟨hv, hn⟩ := Prepared.isVector_of_piece_eq_nil ht (hl.symm.trans hp)
    exact h.last ((Prepared.empty_of_vector_eq_nil hv hn).2.trans hs)
  · intro hp
    obtain ⟨t, hf, ht, hs⟩ := exists_firstPiece ha
    obtain ⟨hv, hn⟩ := Prepared.isVector_of_piece_eq_nil ht (hf.symm.trans hp)
    exact h.first ((Prepared.empty_of_vector_eq_nil hv hn).1.trans hs)

theorem commaBetween_congr (before : Text) {after after' : Text} (h : after = [] ↔ after' = []) :
    commaBetween before after = commaBetween before after' := by
  simp only [commaBetween, h]

theorem commaBetween_of_keeps {before after : Text} (h : KeepsComma before after) :
    commaBetween (lastPiece before) (firstPiece after) = [','] :=
  if_neg (not_or.mpr h)

theorem commaBetween_of_not_keeps {before after : Text} (h : ¬KeepsComma before after) :
    commaBetween (lastPiece before) (firstPiece after) = [] :=
  if_pos (not_and_or.mp h |>.imp not_not.mp not_not.mp)

/-! ## Prepared text around a seam -/

open Prepared (collect)

/-- A run that is no literal, or none at all, stays in front of what is behind it. -/
theorem flatten_collect_closeRun {run : Text} (h : Literal.classify run = .other) (run' : Text)
    (rest : List Token) :
    (collect (some Token.comma) [] (Token.closeRun run.reverse [] ++ rest)).flatten =
      run ++ (collect (some ⟨.run, run'⟩) [] rest).flatten := by
  by_cases hn : run = []
  · rw [hn]; exact congrArg List.flatten (Prepared.collect_run [','] run' rest)
  · have hp : Prepared.piece ⟨.run, run⟩ = run := by simp [Prepared.piece, h]
    have hs : Prepared.isSign (some Token.comma) ⟨.run, run⟩ = false := rfl
    rw [Token.closeRun_of_ne_nil (by simpa using hn), List.reverse_reverse, List.singleton_append,
      Prepared.collect_cons (Prepared.not_folds_of_isSign hs rest), List.flatten_cons, hp,
      Prepared.collect_run run run' rest]

section
variable {a text : Text} (hd : a.foldl depthAfter 0 = 0)

include hd in
theorem cut_closed (ha : a.getLast? = some ')') (rest : Text) : ∃ tokens : List Token,
    cut 0 [] [] (a ++ rest) = tokens ++ Token.closeParen :: cut 0 [] [] rest ∧
      cut 0 [] [] a = tokens ++ [Token.closeParen] := by
  obtain ⟨front, rfl⟩ := List.getLast?_eq_some_iff.mp ha
  have hc (next : Option Char) : Token.standsAlone (front.foldl depthAfter 0) ')' next =
      some .operator := Token.standsAlone_operator (by decide) _ _
  have hf : front.foldl depthAfter 0 = 0 := by rwa [List.foldl_append] at hd
  refine ⟨cut 0 [] [] front, ?_, ?_⟩
  · rw [List.append_assoc, List.singleton_append, Token.cut_append front (hc _), hf]; rfl
  · rw [Token.cut_append front (hc _)]; rfl

include hd in
theorem prepare_closed (ha : a.getLast? = some ')')
    (ht : Literal.BeginsNone text) (before : Option Token) :
    preparedBehind before (a ++ ',' :: text) =
      preparedBehind before a ++ ',' :: preparedBehind (some Token.comma) text := by
  obtain ⟨tokens, hc, hca⟩ := cut_closed hd ha (',' :: text)
  obtain ⟨run, after, rest, rfl, -, hr, hcomma⟩ := Token.cut_comma text 0
  have hrun : Literal.classify run = .other := Literal.classify_of_head fun c hm =>
    ht c (by rw [List.head?_append, Option.mem_def.mp hm]; rfl)
  have hpiece : Prepared.piece ⟨.run, ',' :: run⟩ = ',' :: run := by
    have hcl : Literal.classify (',' :: run) = .other := Literal.classify_of_head (by
      rintro c ⟨⟩; decide)
    simp [Prepared.piece, hcl]
  have hnone : ∀ before, Prepared.isSign before Token.closeParen = false := fun _ => rfl
  -- behind the parenthesis the comma begins its run
  have hb : cut 0 [] [] (',' :: (run ++ after)) = ⟨.run, ',' :: run⟩ :: rest :=
    (Token.cut_cons_run rfl []).trans (hcomma [])
  rw [preparedBehind, hc, hb, Prepared.collect_append hnone rfl, Prepared.collect_closeParen, hpiece,
    preparedBehind, hca, Prepared.collect_append hnone rfl, preparedBehind, hr,
    flatten_collect_closeRun hrun (',' :: run)]
  simp [collect]

/-- Between bracket groups the comma goes on with the run before it. -/
theorem cut_spliced {l : Text} {tokens : List Token}
    (hc : ∀ rest, cut 0 [] [] (a ++ ',' :: rest) = tokens ++ cut 0 (',' :: l.reverse) [] rest)
    (ht : text.head? = some '[') (hl : Leads (cut 0 [] [] text)) :
    ∃ (r : Text) (rest : List Token), cut 0 [] [] text = ⟨.run, r⟩ :: rest ∧ Literal.isVector r = true ∧
      cut 0 [] [] (a ++ ',' :: text) = tokens ++ ⟨.run, l ++ ',' :: r⟩ :: rest := by
  obtain ⟨r, after, rest, rfl, hr, hcut, hcomma⟩ := Token.cut_comma text 0
  have hrn : r ≠ [] := fun h => hr h '[' ht rfl
  rw [Token.closeRun_of_ne_nil (by simpa using hrn), List.reverse_reverse] at hcut
  refine ⟨r, rest, hcut, ?_, ?_⟩
  · rw [hcut] at hl
    refine hl _ rfl ?_
    rwa [List.head?_append_of_ne_nil _ hrn] at ht
  · rw [hc, hcomma, List.reverse_reverse]

/-- Bracket groups on the two sides of a comma are arguments on its two sides, but for those that
are empty. -/
theorem prepare_spliced {l r : Text} {tokens rest : List Token} (hl : Literal.isVector l = true)
    (hr : Literal.isVector r = true)
    (ha : cut 0 [] [] a = tokens ++ [⟨.run, l⟩]) (ht : cut 0 [] [] text = ⟨.run, r⟩ :: rest)
    (hc : cut 0 [] [] (a ++ ',' :: text) = tokens ++ ⟨.run, l ++ ',' :: r⟩ :: rest)
    (before : Option Token) : preparedBehind before (a ++ ',' :: text) =
      preparedBehind before a ++ (commaBetween (lastPiece a) (firstPiece text) ++
        preparedBehind (some Token.comma) text) := by
  have hnone (run : Text) (before : Option Token) : Prepared.isSign before ⟨.run, run⟩ = false := rfl
  have hdec {run : Text} (h : Literal.isVector run = true) :
      Prepared.isDecimal ⟨.run, run⟩ = false := by
    simpa [Prepared.isDecimal] using Literal.isDecimal_of_isVector h
  obtain ⟨hlr, hvector⟩ := Prepared.vector_append hl hr
  have hlast : lastPiece a = Prepared.vector l := by
    rw [lastPiece, ha, List.getLast?_concat, ← Prepared.piece_of_isVector hl]; rfl
  have hfirst : firstPiece text = Prepared.vector r := by
    rw [firstPiece, ht, ← Prepared.piece_of_isVector hr]; rfl
  rw [hlast, hfirst, preparedBehind, hc, Prepared.collect_append (hnone _) (hdec hlr),
    Prepared.piece_of_isVector hlr, hvector, preparedBehind, ha,
    Prepared.collect_append (hnone _) (hdec hl), Prepared.piece_of_isVector hl, preparedBehind, ht,
    Prepared.collect_cons (Prepared.not_folds_of_isSign (hnone r _) rest),
    Prepared.piece_of_isVector hr, Prepared.collect_run (l ++ ',' :: r) r]
  simp [collect]

end

end BinaryPoint
