import BinaryPoint.Proofs.Expression.AreaCalls
import BinaryPoint.Proofs.Expression.BracketedText

/-!
# Vectors spliced into one run

A comma between two bracket groups belongs to their run, so literal arguments of a call are one
vector literal. Each group that can be read becomes an argument, one that cannot be read leaves
its items bare, where nothing may stand, and an empty group leaves nothing at all: it is dropped
from the arguments, and the others move up.

* `groups_join`: the groups of a splice.
* `prepare_splice`: the prepared text of a call on a splice.
* `evaluate_splice`: the call has a value exactly if the groups that are not empty are three that
  can be read, and so it is right where no group is empty.
-/
namespace BinaryPoint

open BinaryPoint.Derivation
open Lexeme (Spells)
open Literal (IsGroup IsItemChar)
open Token (cut depthAfter)

/-! ## Groups -/

namespace Literal

theorem groups_go_append {group : Text} (h : ']' ∉ group) (rest : Text) :
    ∀ (before : Text) (done : List Text),
      groups.go before done (group ++ ']' :: ',' :: '[' :: rest) =
        groups.go [] ((before.reverse ++ group) :: done) rest := by
  induction group with
  | nil => intro before done; simp [groups.go]
  | cons c group ih =>
    intro before done
    have hc : c ≠ ']' := fun e => h (by rw [e]; exact List.mem_cons_self)
    rw [List.cons_append, groups.go.eq_3 _ _ _ _ (fun _ e => absurd e hc),
      ih fun hm => h (List.mem_cons_of_mem c hm)]
    simp

theorem groups_go_join : ∀ {gs : List Text}, gs ≠ [] → (∀ g ∈ gs, ']' ∉ g) →
    ∀ done : List Text, groups.go [] done (Text.join [']', ',', '['] gs) = done.reverse ++ gs
  | [], h, _, _ => absurd rfl h
  | [g], _, h, done => by
    rw [Text.join_singleton, groups_go_of_not_mem (h g List.mem_cons_self)]; rfl
  | g :: g' :: gs, _, h, done => by
    have ih := groups_go_join (List.cons_ne_nil g' gs) fun f hf => h f (List.mem_cons_of_mem g hf)
    rw [Text.join_cons _ _ (List.cons_ne_nil g' gs)]
    refine (groups_go_append (h g List.mem_cons_self) _ [] done).trans ((ih _).trans ?_)
    simp

theorem groups_join {gs : List Text} (hne : gs ≠ []) (h : ∀ g ∈ gs, ']' ∉ g) :
    groups (Text.join [']', ',', '['] gs) = gs :=
  groups_go_join hne h []

end Literal

/-- Bracket groups with commas between them. -/
def splice (groups : List Text) : Text :=
  Text.join [','] (groups.map fun group => '[' :: (group ++ [']']))

theorem splice_singleton (group : Text) : splice [group] = '[' :: (group ++ [']']) :=
  Text.join_singleton _ _

theorem splice_cons (group : Text) {groups : List Text} (h : groups ≠ []) :
    splice (group :: groups) = '[' :: (group ++ ']' :: ',' :: splice groups) := by
  rw [splice, List.map_cons, Text.join_cons _ _ (by simpa using h), List.cons_append,
    List.append_assoc]
  rfl

/-- The outermost brackets of a splice. -/
theorem splice_eq : ∀ {groups : List Text}, groups ≠ [] →
    splice groups = '[' :: (Text.join [']', ',', '['] groups ++ [']'])
  | [], h => absurd rfl h
  | [g], _ => by rw [splice_singleton, Text.join_singleton]
  | g :: g' :: groups, _ => by
    rw [splice_cons g (List.cons_ne_nil g' groups), splice_eq (List.cons_ne_nil g' groups),
      Text.join_cons _ _ (List.cons_ne_nil g' groups), List.append_assoc, List.append_assoc]
    rfl

/-! ## The run of a splice -/

section
variable {groups : List Text} (hne : groups ≠ [])

include hne in
theorem isVector_splice (hb : ∀ g ∈ groups, ']' ∉ g) :
    Literal.isVector (splice groups) = true ↔ Text.join [']', ',', '['] groups ≠ [] ∧
      ∀ g ∈ groups, ∀ item ∈ Literal.items g, Literal.isItem item = true := by
  rw [splice_eq hne, Literal.isVector]
  by_cases hj : Text.join [']', ',', '['] groups = []
  · simp [hj, Literal.interior?]
  · rw [Literal.interior?_brackets hj, Option.any_some, Literal.groups_join hne hb]
    simp [hj]

include hne in
theorem vector_splice (hb : ∀ g ∈ groups, ']' ∉ g)
    (hv : Literal.isVector (splice groups) = true) : Prepared.vector (splice groups) =
      Text.join [','] ((groups.filter fun g => !g.isEmpty).map Prepared.group) := by
  obtain ⟨hj, -⟩ := (isVector_splice hne hb).mp hv
  rw [Prepared.vector, splice_eq hne, Literal.interior?_brackets hj, Option.getD_some,
    Literal.groups_join hne hb]

end

/-- A run in front of the closing parenthesis. -/
theorem cut_closeParen {run : Text} (h : run ≠ []) :
    cut 0 run [] [')'] = [⟨.run, run.reverse⟩, Token.closeParen] := by
  rw [Token.cut_cons_alone (Token.standsAlone_operator (by decide) _ _)]
  simp [Token.closeRun, h, cut, Token.closeParen]

/-- If no token leaves a bracket open, a splice is one run. -/
theorem cut_splice_of_sound {rest : Text} : ∀ {groups : List Text}, groups ≠ [] →
    (∀ g ∈ groups, ∀ c ∈ g, c ≠ '[' ∧ c ≠ ']') → ∀ {run : Text},
    run.reverse.foldl depthAfter 0 = 0 →
    (∀ t ∈ cut 0 run [] (splice groups ++ rest), Sound t.text) →
      cut 0 run [] (splice groups ++ rest) = cut 0 ((splice groups).reverse ++ run) [] rest
  | [], h, _, _, _, _ => absurd rfl h
  | [g], _, hb, run, hr, h => by
    rw [splice_singleton, List.cons_append, List.append_assoc] at h ⊢
    exact cut_brackets_of_sound (hb g List.mem_cons_self) hr h
  | g :: g' :: groups, _, hb, run, hr, h => by
    have hg := hb g List.mem_cons_self
    -- the comma goes on with the run, which has no bracket open
    have hf : (',' :: (('[' :: (g ++ [']'])).reverse ++ run)).reverse.foldl depthAfter 0 = 0 := by
      rw [List.reverse_cons, List.reverse_append, List.reverse_reverse, List.foldl_append,
        List.foldl_append, hr, Token.foldl_depthAfter_brackets hg]
      rfl
    rw [splice_cons g (List.cons_ne_nil g' groups), List.cons_append, List.append_assoc,
      List.cons_append, List.cons_append] at h ⊢
    have hc : cut 0 run [] ('[' :: (g ++ ']' :: ',' :: (splice (g' :: groups) ++ rest))) =
        cut 0 (',' :: (('[' :: (g ++ [']'])).reverse ++ run)) [] (splice (g' :: groups) ++ rest) :=
      (cut_brackets_of_sound hg hr h).trans (Token.cut_cons_run rfl _)
    rw [hc] at h ⊢
    rw [cut_splice_of_sound (List.cons_ne_nil g' groups)
      (fun f hm => hb f (List.mem_cons_of_mem g hm)) hf h]
    simp

/-- Items stay in the run of a splice. -/
theorem coheres_splice : ∀ {groups : List Text}, (∀ g ∈ groups, ∀ item ∈ Literal.items g,
    Literal.isItem item = true) →
    Token.Coheres 0 (splice groups) ∧ (splice groups).foldl depthAfter 0 = 0
  | [], _ => ⟨trivial, rfl⟩
  | g :: groups, h => by
    have hi := h g List.mem_cons_self
    have hg : ∀ c ∈ g, c ≠ '[' ∧ c ≠ ']' := fun c hc =>
      ne_bracket_of_isPlain (isPlain_of_isItemChar (Literal.isItemChar_of_items hi c hc))
    have hs := Token.coheres_brackets (coheres_of_items hi) hg
    have hf := Token.foldl_depthAfter_brackets hg 0
    cases groups with
    | nil => rw [splice_singleton]; exact ⟨hs, hf⟩
    | cons g' groups =>
      obtain ⟨hc, hd⟩ := coheres_splice fun f hm => h f (List.mem_cons_of_mem g hm)
      have ht : splice (g :: g' :: groups) =
          ('[' :: (g ++ [']'])) ++ ',' :: splice (g' :: groups) := by
        rw [splice_cons g (List.cons_ne_nil g' groups)]; simp
      have hcomma : Token.Coheres 0 (',' :: splice (g' :: groups)) := ⟨fun _ => rfl, hc⟩
      rw [ht, List.foldl_append, hf]
      exact ⟨hs.append (by rw [hf]; exact hcomma), hd⟩

/-! ## The prepared text of a call -/

section
variable {name : AreaName} {text : Text} {groups : List Text} (hne : groups ≠ [])
  (hb : ∀ g ∈ groups, ∀ c ∈ g, c ≠ '[' ∧ c ≠ ']')
  (ht : Text.stripped text = name.text ++ '(' :: (splice groups ++ [')']))

theorem splice_ne_nil (hne : groups ≠ []) : splice groups ≠ [] := by
  rw [splice_eq hne]; exact List.cons_ne_nil _ _

include hne hb ht in
theorem prepare_splice (hv : Literal.isVector (splice groups) = true)
    (hc : cut 0 [] [] (splice groups ++ [')']) = [⟨.run, splice groups⟩, Token.closeParen]) :
    prepare text = name.text ++ '(' ::
      (Text.join [','] ((groups.filter fun g => !g.isEmpty).map Prepared.group) ++ [')']) := by
  have hp : Prepared.collect none [] [⟨.run, splice groups⟩, Token.closeParen] =
      [Prepared.vector (splice groups), [')']] := by
    rw [Prepared.collect_cons (Prepared.not_folds_of_isSign rfl _)]
    simp [Prepared.piece, Literal.classify_of_isVector hv, Prepared.collect, Token.closeParen]
  rw [name.prepare_call ht, preparedBehind, hc, hp,
    vector_splice hne (fun g hg hm => (hb g hg _ hm).2 rfl) hv]
  simp

include hne hb ht in
/-- The splice of a call that has a value is one vector literal. -/
theorem prepare_splice_of_evaluate {q : Quantity} (h : evaluate text = .ok q) :
    Literal.isVector (splice groups) = true ∧ prepare text = name.text ++ '(' ::
      (Text.join [','] ((groups.filter fun g => !g.isEmpty).map Prepared.group) ++ [')']) := by
  have htokens : Token.ofText text =
      name.tokens ++ Token.openParen :: cut 0 [] [] (splice groups ++ [')']) := by
    rw [Token.ofText_eq, ht, name.cut_text]
  have hs := sound_of_evaluate h
  have hshape := shaped_of_evaluate h
  rw [htokens] at hs hshape
  have hc : cut 0 [] [] (splice groups ++ [')']) = [⟨.run, splice groups⟩, Token.closeParen] := by
    rw [cut_splice_of_sound hne hb rfl fun t hm =>
        hs t (List.mem_append_right _ (List.mem_cons_of_mem _ hm)), List.append_nil,
      cut_closeParen (by simpa using splice_ne_nil hne), List.reverse_reverse]
  have hv : Literal.isVector (splice groups) = true := by
    rcases hshape ⟨.run, splice groups⟩ (by simp [hc]) with hp | hv
    · refine absurd (hp '[' ?_) (by unfold IsPlain; decide)
      rw [splice_eq hne]; exact List.mem_cons_self
    · exact hv
  exact ⟨hv, prepare_splice hne hb ht hv hc⟩

include hne hb ht in
theorem prepare_splice_of_items
    (hi : ∀ g ∈ groups, ∀ item ∈ Literal.items g, Literal.isItem item = true)
    (hj : Text.join [']', ',', '['] groups ≠ []) : prepare text = name.text ++ '(' ::
      (Text.join [','] ((groups.filter fun g => !g.isEmpty).map Prepared.group) ++ [')']) := by
  obtain ⟨hcoheres, hf⟩ := coheres_splice hi
  refine prepare_splice hne hb ht
    ((isVector_splice hne fun g hg hm => (hb g hg _ hm).2 rfl).mpr ⟨hj, hi⟩) ?_
  rw [Token.cut_coherent hcoheres, hf, List.append_nil,
    cut_closeParen (by simpa using splice_ne_nil hne), List.reverse_reverse]

end

/-! ## Its arguments -/

/-- The group in its brackets is read as the vector. -/
def ReadsAs (group : Text) (v : Vec) : Prop := Vec.ofText ('[' :: (group ++ [']'])) = .ok v

instance (group : Text) (v : Vec) : Decidable (ReadsAs group v) :=
  inferInstanceAs (Decidable (Vec.ofText ('[' :: (group ++ [']'])) = .ok v))

/-- A group as an argument. -/
def PreparedArgument.ofGroup {group : Text} (hg : IsGroup group) : PreparedArgument where
  text := Prepared.construct Prepared.vectorConstructor ('[' :: (group ++ [']']))
  expression := .mk (.mk (.plain (.mk (.function Prepared.vectorConstructor
    (.cons (.text ('[' :: (group ++ [']']))) .nil)) .nil)) .nil) .nil
  spelled := by
    have hs := spells_construct (.inr rfl) (quote_not_mem_brackets hg) .nil
    rw [List.append_nil] at hs
    exact hs
  nested := by
    simp [Expression.nesting, Term.nesting, Factor.nesting, Operand.nesting, Primary.nesting,
      Arguments.nesting, Argument.nesting, Methods.nesting, Factors.nesting, Terms.nesting, depthLimit]

theorem PreparedArgument.value_ofGroup {group : Text} (hg : IsGroup group) {v : Vec}
    (h : ReadsAs group v) : (ofGroup hg).value = .ok (.vector v) := by
  have hp : (Primary.function Prepared.vectorConstructor
      (.cons (.text ('[' :: (group ++ [']']))) .nil)).denote = .ok (.vector v) := by
    change Call.function Prepared.vectorConstructor [.text _] = _
    rw [Call.function_vectorConstructor, h]; rfl
  simp only [value, ofGroup, Expression.denote, Term.denote, Factor.denote, Operand.denote, hp]
  rfl

theorem exists_arguments_of_readsAs : ∀ {groups : List Text}, (∀ g ∈ groups, IsGroup g) →
    (∀ g ∈ groups, ∃ v, ReadsAs g v) → ∃ (as : List PreparedArgument) (vs : List Vec),
      as.map PreparedArgument.text = groups.map Prepared.group ∧
        as.map PreparedArgument.value = (vs.map Quantity.vector).map .ok ∧
          List.Forall₂ ReadsAs groups vs
  | [], _, _ => ⟨[], [], rfl, rfl, .nil⟩
  | g :: groups, hg, hr => by
    obtain ⟨v, hv⟩ := hr g List.mem_cons_self
    obtain ⟨as, vs, ht, ha, hvs⟩ := exists_arguments_of_readsAs
      (fun f hm => hg f (List.mem_cons_of_mem g hm)) fun f hm => hr f (List.mem_cons_of_mem g hm)
    have hgroup := hg g List.mem_cons_self
    refine ⟨.ofGroup hgroup :: as, v :: vs, ?_, ?_, .cons hv hvs⟩
    · rw [List.map_cons, List.map_cons, ht, Prepared.group_of_ok hv]
      rfl
    · rw [List.map_cons, List.map_cons, List.map_cons, ha, PreparedArgument.value_ofGroup hgroup hv]

/-- There are three groups, each can be read as a vector, and the quantity is the area. -/
def AreaOf (groups : List Text) (q : Quantity) : Prop :=
  ∃ a b c va vb vc, groups = [a, b, c] ∧ ReadsAs a va ∧ ReadsAs b vb ∧ ReadsAs c vc ∧
    Quantity.ofScalar? (Vec.area va vb vc) = .ok q

theorem area_eq_ok_iff {groups : List Text} {vs : List Vec} (h : List.Forall₂ ReadsAs groups vs)
    (q : Quantity) : Call.area AreaName.area ((vs.map Quantity.vector).map .quantity) = .ok q ↔
      AreaOf groups q := by
  constructor
  · intro hq
    rcases h with _ | ⟨ha, h⟩
    · cases hq
    rcases h with _ | ⟨hb, h⟩
    · cases hq
    rcases h with _ | ⟨hc, h⟩
    · cases hq
    rcases h with _ | ⟨-, -⟩
    · exact ⟨_, _, _, _, _, _, rfl, ha, hb, hc, hq⟩
    · cases hq
  · rintro ⟨a, b, c, va, vb, vc, rfl, ha, hb, hc, hq⟩
    rcases h with _ | ⟨ha', _ | ⟨hb', _ | ⟨hc', _ | _⟩⟩⟩
    cases ha.symm.trans ha'
    cases hb.symm.trans hb'
    cases hc.symm.trans hc'
    exact hq

/-! ## Bare items among arguments -/

/-- The prepared text of a group begins with a comma, or it is the call on a vector. -/
theorem spells_group_cases {group rest : Text} (hg : IsGroup group) {lexemes : List Lexeme}
    (h : Spells lexemes (Prepared.group group ++ rest)) :
    (∃ tail, lexemes = .mark .comma :: tail) ∨ ∃ v tail, ReadsAs group v ∧
      lexemes = .name Prepared.vectorConstructor :: .mark .openParen ::
        .quoted ('[' :: (group ++ [']'])) :: .mark .closeParen :: tail ∧ Spells tail rest := by
  cases hv : Vec.ofText ('[' :: (group ++ [']'])) with
  | error e =>
    rw [Prepared.group_of_error hv] at h
    exact .inl (comma_of_spells_group hg h)
  | ok v =>
    rw [Prepared.group_of_ok hv] at h
    obtain ⟨tail, hl, ht⟩ := of_spells_construct (.inr rfl) (quote_not_mem_brackets hg) h
    exact .inr ⟨v, tail, hv, hl, ht⟩

/-- A group that stands for an argument can be read, and the argument ends where it does. -/
theorem readsAs_of_argument {group rest : Text} (hg : IsGroup group) (a : Derivation.Argument)
    {lexemes : List Lexeme} (hl : NotBefore expressionMarks lexemes) {m : Mark}
    (hm : m ∉ expressionMarks)
    (h : Spells (a.leaves ++ lexemes) (Prepared.group group ++ m.char :: rest)) :
    (∃ v, ReadsAs group v) ∧ Spells lexemes (m.char :: rest) := by
  rcases spells_group_cases hg h with ⟨tail, hc⟩ | ⟨v, tail, hv, hc, ht⟩
  · exact absurd (by rw [hc]; rfl) (a.head_ne_comma lexemes)
  · obtain ⟨tail', rfl, -⟩ := ht.of_mark
    let call : Derivation.Argument := .value (.mk (.mk (.plain (.mk
      (.function Prepared.vectorConstructor (.cons (.text ('[' :: (group ++ [']']))) .nil)) .nil))
      .nil) .nil)
    obtain ⟨-, rfl⟩ := a.prefix_inj call hc hl (notBefore_mark hm)
    exact ⟨⟨v, hv⟩, ht⟩

theorem readsAs_of_more : ∀ {groups : List Text}, (∀ g ∈ groups, IsGroup g) →
    ∀ (as : Arguments) {tail : List Lexeme} {rest : Text},
    Spells (as.moreLeaves ++ .mark .closeParen :: tail)
      (groups.flatMap (fun g => ',' :: Prepared.group g) ++ ')' :: rest) →
    ∀ g ∈ groups, ∃ v, ReadsAs g v
  | [], _, _, _, _, _ => nofun
  | g :: groups, _, .nil, _, _, h => by
    obtain ⟨_, he, -⟩ := Spells.of_mark (m := .comma) h
    cases he
  | g :: groups, hg, .cons a as, tail, rest, h => by
    simp only [Arguments.moreLeaves, List.flatMap_cons, List.cons_append, List.append_assoc] at h
    obtain ⟨_, ⟨⟩, hs⟩ := Spells.of_mark (m := .comma) h
    obtain ⟨m, after, hm, ha⟩ : ∃ (m : Mark) (after : Text), m ∉ expressionMarks ∧
        groups.flatMap (fun g => ',' :: Prepared.group g) ++ ')' :: rest = m.char :: after := by
      cases groups with
      | nil => exact ⟨.closeParen, rest, by decide, rfl⟩
      | cons => exact ⟨.comma, _, by decide, rfl⟩
    rw [ha] at hs
    obtain ⟨hr, hs⟩ := readsAs_of_argument (hg g List.mem_cons_self) a (as.notBefore tail) hm hs
    rw [← ha] at hs
    have ih := readsAs_of_more (fun f hf => hg f (List.mem_cons_of_mem g hf)) as hs
    intro f hf
    rcases List.mem_cons.mp hf with rfl | hf
    · exact hr
    · exact ih f hf

/-- Groups that arguments are read from can be read. The first has no comma before it, and is
followed as the others are; so a parenthesis in the place of its comma is put aside. -/
theorem readsAs_of_arguments {groups : List Text} (hg : ∀ g ∈ groups, IsGroup g) (as : Arguments)
    {tail : List Lexeme} (h : Spells (as.leaves ++ tail)
      ('(' :: (Text.join [','] (groups.map Prepared.group) ++ [')']))) :
    ∀ g ∈ groups, ∃ v, ReadsAs g v := by
  cases groups with
  | nil => nofun
  | cons g groups =>
    rw [List.map_cons, Text.join_cons_flatMap, List.flatMap_map, List.append_assoc] at h
    cases as with
    | nil =>
      obtain ⟨_, ⟨⟩, hs⟩ := Spells.of_mark (m := .openParen) h
      rcases spells_group_cases (hg g List.mem_cons_self) hs with ⟨_, he⟩ | ⟨_, _, _, he, _⟩ <;>
        cases he
    | cons a as =>
      -- the arguments behind a comma are those behind the parenthesis
      rw [Arguments.leaves, List.cons_append, List.append_assoc, List.append_assoc] at h
      obtain ⟨_, ⟨⟩, hs⟩ := Spells.of_mark (m := .openParen) h
      refine @readsAs_of_more (g :: groups) hg (.cons a as) tail [] ?_
      simp only [Arguments.moreLeaves, List.flatMap_cons, List.cons_append, List.append_assoc]
      exact .mark .comma hs

/-! ## The value of a call -/

theorem of_mem_splice {c : Char} : ∀ {groups : List Text}, c ∈ splice groups →
    c ∈ ['[', ']', ','] ∨ ∃ g ∈ groups, c ∈ g
  | [], h => nomatch h
  | [g], h => by
    rw [splice_singleton, List.mem_cons, List.mem_append, List.mem_singleton] at h
    rcases h with rfl | h | rfl
    · exact .inl (by decide)
    · exact .inr ⟨g, List.mem_cons_self, h⟩
    · exact .inl (by decide)
  | g :: g' :: groups, h => by
    rw [splice_cons g (List.cons_ne_nil g' groups), List.mem_cons, List.mem_append, List.mem_cons,
      List.mem_cons] at h
    rcases h with rfl | h | rfl | rfl | h
    · exact .inl (by decide)
    · exact .inr ⟨g, List.mem_cons_self, h⟩
    · exact .inl (by decide)
    · exact .inl (by decide)
    · exact (of_mem_splice h).imp_right fun ⟨f, hf, hc⟩ => ⟨f, List.mem_cons_of_mem g hf, hc⟩

/-- The call of the area function on bracket groups. -/
def spliceCall (name : AreaName) (groups : List Text) : Text :=
  name.text ++ '(' :: (splice groups ++ [')'])

section
variable (name : AreaName) {groups : List Text}

theorem stripped_spliceCall (hi : ∀ g ∈ groups, ∀ c ∈ g, IsItemChar c) :
    Text.stripped (spliceCall name groups) = name.text ++ '(' :: (splice groups ++ [')']) := by
  have hs : Text.stripped (splice groups) = splice groups := Text.stripped_eq_self fun c hc => by
    rcases of_mem_splice hc with hc | ⟨g, hg, hc⟩
    · simp only [List.mem_cons, List.not_mem_nil, or_false] at hc
      rcases hc with rfl | rfl | rfl <;> decide
    · exact Literal.isBlank_of_isItemChar (hi g hg c hc)
  have ht : spliceCall name groups = name.text ++ (['('] ++ (splice groups ++ [')'])) := rfl
  rw [ht, Text.stripped_append, Text.stripped_append, Text.stripped_append, hs, name.stripped_text]
  rfl

theorem ne_bracket_of_isItemChar (hi : ∀ g ∈ groups, ∀ c ∈ g, IsItemChar c) :
    ∀ g ∈ groups, ∀ c ∈ g, c ≠ '[' ∧ c ≠ ']' := fun g hg c hc =>
  ne_bracket_of_isPlain (isPlain_of_isItemChar (hi g hg c hc))

/-- With groups that can be read for its arguments, the call has the area as its value. -/
theorem evaluate_of_readsAs {text : Text} (hg : ∀ g ∈ groups, IsGroup g)
    (hr : ∀ g ∈ groups, ∃ v, ReadsAs g v) (hp : prepare text =
      name.text ++ '(' :: (Text.join [','] (groups.map Prepared.group) ++ [')'])) (q : Quantity) :
    evaluate text = .ok q ↔ AreaOf groups q := by
  obtain ⟨as, vs, ht, ha, hvs⟩ := exists_arguments_of_readsAs hg hr
  rw [evaluate, hp, ← ht, name.evaluatePrepared_call_of_ok ha]
  exact area_eq_ok_iff hvs q

theorem areaOf_of_evaluate (hne : groups ≠ []) (hi : ∀ g ∈ groups, ∀ c ∈ g, IsItemChar c)
    {q : Quantity} (h : evaluate (spliceCall name groups) = .ok q) :
    AreaOf (groups.filter fun g => !g.isEmpty) q := by
  have hb := ne_bracket_of_isItemChar hi
  obtain ⟨hv, hp⟩ := prepare_splice_of_evaluate hne hb (stripped_spliceCall name hi) h
  obtain ⟨-, hitems⟩ := (isVector_splice hne fun g hg hm => (hb g hg _ hm).2 rfl).mp hv
  have hgroup : ∀ g ∈ groups.filter (fun g => !g.isEmpty), IsGroup g := fun g hg =>
    ⟨by simpa using (List.mem_filter.mp hg).2, hitems g (List.mem_filter.mp hg).1⟩
  -- a group that could not be read would be no argument, and so there would be no derivation
  have hread := h
  rw [evaluate, hp] at hread
  obtain ⟨e, -, hs, hd⟩ := spells_of_evaluatePrepared hread
  obtain ⟨tail, hl, hs⟩ := name.of_spells_text hs
  obtain ⟨as, after, has, -⟩ := name.exists_arguments e hl hd
  have hr := readsAs_of_arguments hgroup as (by rw [← has]; exact .mark .openParen hs)
  exact (evaluate_of_readsAs name hgroup hr hp q).mp h

theorem evaluate_of_areaOf (hi : ∀ g ∈ groups, ∀ c ∈ g, IsItemChar c) {q : Quantity}
    (h : AreaOf (groups.filter fun g => !g.isEmpty) q) :
    evaluate (spliceCall name groups) = .ok q := by
  obtain ⟨a, b, c, va, vb, vc, hf, ha, hb, hc, -⟩ := id h
  have hr : ∀ g ∈ groups.filter (fun g => !g.isEmpty), ∃ v, ReadsAs g v := by
    rw [hf]; simpa using ⟨⟨va, ha⟩, ⟨vb, hb⟩, ⟨vc, hc⟩⟩
  have hgroup : ∀ g ∈ groups.filter (fun g => !g.isEmpty), IsGroup g := fun g hg => by
    obtain ⟨v, hv⟩ := hr g hg
    have hm := (List.mem_filter.mp hg).1
    exact isGroup_of_ofText (ne_bracket_of_isItemChar hi g hm)
      (fun c hc => Literal.isBlank_of_isItemChar (hi g hm c hc)) hv
  have hitems : ∀ g ∈ groups, ∀ item ∈ Literal.items g, Literal.isItem item = true := by
    intro g hg
    by_cases hn : g = []
    · rw [hn]; decide
    · exact (hgroup g (List.mem_filter.mpr ⟨hg, by simpa using hn⟩)).items
  have hm : a ∈ groups.filter fun g => !g.isEmpty := by rw [hf]; exact List.mem_cons_self
  have hj : Text.join [']', ',', '['] groups ≠ [] :=
    Text.join_ne_nil (List.mem_filter.mp hm).1 (hgroup a hm).ne_nil
  have hp := prepare_splice_of_items (List.ne_nil_of_mem (List.mem_filter.mp hm).1)
    (ne_bracket_of_isItemChar hi) (stripped_spliceCall name hi) hitems hj
  exact (evaluate_of_readsAs name hgroup hr hp q).mpr h

/-- **Splices.** The call on bracket groups has a value exactly if those that are not empty are
three that can be read and their vectors have an area, and the area is the value. So if no group
is empty, no argument of a call that has a value is lost. -/
theorem evaluate_splice (hne : groups ≠ []) (hi : ∀ g ∈ groups, ∀ c ∈ g, IsItemChar c) :
    (∀ q : Quantity, evaluate (spliceCall name groups) = .ok q ↔
      AreaOf (groups.filter fun g => !g.isEmpty) q) ∧
    ([] ∉ groups → ∀ q : Quantity, evaluate (spliceCall name groups) = .ok q ↔
      AreaOf groups q) := by
  have value (q : Quantity) := Iff.intro (areaOf_of_evaluate name hne hi (q := q))
    (evaluate_of_areaOf name hi)
  refine ⟨value, fun hempty q => ?_⟩
  have hf : groups.filter (fun g => !g.isEmpty) = groups := List.filter_eq_self.mpr fun g hg => by
    simpa using fun hn : g = [] => hempty (hn ▸ hg)
  rw [value q, hf]

end

/-- Three groups, none of them empty. -/
theorem evaluate_splice_triangle :
    let groups : List Text := [['1', ',', '2'], ['3', ',', '4'], ['5', ',', '7']]
    evaluate (spliceCall .plain groups) = .ok (.scalar (.ofWhole (-2))) := by
  intro groups
  have hi : ∀ g ∈ groups, ∀ c ∈ g, IsItemChar c := by
    simp [groups, IsItemChar, Text.isHexDigit, Text.isDigit]
  exact ((evaluate_splice .plain (List.cons_ne_nil _ _) hi).2 (by simp) _).mpr
    ⟨_, _, _, ⟨.ofWhole 1, [.ofWhole 2]⟩, ⟨.ofWhole 3, [.ofWhole 4]⟩, ⟨.ofWhole 5, [.ofWhole 7]⟩,
      rfl, by decide +kernel, by decide +kernel, by decide +kernel, by decide +kernel⟩

/-- An empty group is no vector, and yet the call of four groups with it has a value. -/
theorem evaluate_splice_empty_group :
    let groups : List Text := [['1', ',', '2'], [], ['3', ',', '4'], ['5', ',', '7']]
    spliceCall .plain groups = "Area([1,2],[],[3,4],[5,7])".toList ∧
      evaluate (spliceCall .plain groups) = .ok (.scalar (.ofWhole (-2))) ∧
      (∀ v, ¬ReadsAs [] v) ∧
      ¬∀ q, evaluate (spliceCall .plain groups) = .ok q → AreaOf groups q := by
  intro groups
  have he : evaluate (spliceCall .plain groups) = .ok (.scalar (.ofWhole (-2))) := by
    decide +kernel
  have hv : ∀ v, ¬ReadsAs [] v := fun v h => nomatch h
  refine ⟨rfl, he, hv, fun h => ?_⟩
  obtain ⟨a, b, c, _, _, _, hl, -⟩ := h _ he
  simp [groups] at hl

end BinaryPoint
