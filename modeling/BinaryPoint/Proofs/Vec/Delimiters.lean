import BinaryPoint.Proofs.Expression.LiteralForms

/-!
# Delimiters of vectors

Brackets, commas and blanks all do the same in the text of a vector: they end a literal. So a text
is its literals with delimiters between and around them, and what is read depends on the literals
alone. A delimiter between two texts puts the literals of the one in front of those of the other,
so the vectors are joined; and of two literals that are refused the first one decides.

* `Delimited`, `delimited_iff`: the literals of a text, said without cutting it.
* `literals_append_delimiter`: the literals of two texts with a delimiter between them.
* `ofText_eq_ok_iff`, `ofText_eq_error_iff`: the outcome, from the literals.
* `ofText_delimiters`: joined vectors, the first refusal, rearranged delimiters and no literals.
-/
namespace BinaryPoint.Vec

open WideLiteral (expand)

/-! ## Literals among delimiters -/

/-- The text is the given literals, in order, with any delimiters between and around them. -/
inductive Delimited : List Text → Text → Prop
  | nil : Delimited [] []
  | delimiter {c : Char} {pieces : List Text} {text : Text} (hc : isDelimiter c = true)
      (h : Delimited pieces text) : Delimited pieces (c :: text)
  | piece {p : Text} {pieces : List Text} {text : Text} (hp : IsPiece p)
      (ends : ∀ c ∈ text.head?, isDelimiter c = true) (h : Delimited pieces text) :
      Delimited (p :: pieces) (p ++ text)

theorem literals_append_delimiter {c : Char} (hc : isDelimiter c = true) (s t : Text) :
    literals (s ++ c :: t) = literals s ++ literals t := by
  rw [literals, Text.splitWhen_append_delimiter hc, List.filter_append]
  rfl

theorem literals_of_isPiece {p : Text} (hp : IsPiece p) : literals p = [p] := by
  rw [literals, Text.splitWhen_singleton hp.2, List.filter_cons_of_pos (by simpa using hp.1)]
  rfl

theorem Delimited.literals_eq {pieces : List Text} {text : Text} (h : Delimited pieces text) :
    literals text = pieces := by
  induction h with
  | nil => rfl
  | delimiter hc _ ih => rw [literals_delimiter hc, ih]
  | @piece p pieces text hp ends _ ih =>
    cases text with
    | nil => rw [← ih, List.append_nil, literals_of_isPiece hp]; rfl
    | cons c text =>
      have hc := ends c rfl
      rw [literals_append_delimiter hc, literals_of_isPiece hp, ← ih, literals_delimiter hc]
      rfl

/-- A character goes by itself or in front of the literal that the rest begins with. -/
theorem exists_delimited : ∀ text : Text, ∃ pieces, Delimited pieces text
  | [] => ⟨[], .nil⟩
  | c :: text => by
    obtain ⟨pieces, h⟩ := exists_delimited text
    cases hc : isDelimiter c with
    | true => exact ⟨pieces, .delimiter hc h⟩
    | false =>
      have single : IsPiece [c] :=
        ⟨List.cons_ne_nil c [], fun d hd => by rw [List.mem_singleton.mp hd]; exact hc⟩
      cases h with
      | nil => exact ⟨[[c]], .piece single nofun .nil⟩
      | delimiter hd h =>
        exact ⟨[c] :: pieces, .piece single (by rintro _ ⟨⟩; exact hd) (.delimiter hd h)⟩
      | @piece p pieces text hp ends h =>
        have longer : IsPiece (c :: p) :=
          ⟨List.cons_ne_nil c p, List.forall_mem_cons.mpr ⟨hc, hp.2⟩⟩
        exact ⟨(c :: p) :: pieces, .piece longer ends h⟩

/-- Each text has its literals, and no others. -/
theorem delimited_iff {pieces : List Text} {text : Text} :
    Delimited pieces text ↔ literals text = pieces := by
  refine ⟨Delimited.literals_eq, ?_⟩
  rintro rfl
  obtain ⟨pieces, h⟩ := exists_delimited text
  rwa [h.literals_eq]

theorem Delimited.append {ps qs : List Text} {s t : Text} (hs : Delimited ps s)
    (ht : Delimited qs t) {c : Char} (hc : isDelimiter c = true) :
    Delimited (ps ++ qs) (s ++ c :: t) := by
  rw [delimited_iff, literals_append_delimiter hc, hs.literals_eq, ht.literals_eq]

theorem delimited_nil_iff {text : Text} :
    Delimited [] text ↔ ∀ c ∈ text, isDelimiter c = true := by
  constructor
  · intro h
    generalize hp : ([] : List Text) = pieces at h
    induction h with
    | nil => exact List.forall_mem_nil _
    | delimiter hc _ ih => exact List.forall_mem_cons.mpr ⟨hc, ih hp⟩
    | piece => cases hp
  · intro h
    rw [delimited_iff, ← List.append_nil text, literals_delimiters h]
    rfl

/-! ## One literal -/

/-- A literal is one scalar, or the words of an integer, or refused by either reader. -/
theorem expand_cases (p : Text) :
    (∃ s, Scalar.ofLiteral p = .ok s ∧ expand p = .ok [s]) ∨
    (∃ n, expand p = .ok (WideLiteral.words n)) ∨
    ∃ e, expand p = .error e ∧
      (Scalar.ofLiteral p = .error e ∨ WideLiteral.readInteger p = .error e) := by
  have scalar : (Scalar.ofLiteral p).map ([·]) = expand p →
      (∃ s, Scalar.ofLiteral p = .ok s ∧ expand p = .ok [s]) ∨
      ∃ e, expand p = .error e ∧ Scalar.ofLiteral p = .error e := by
    intro h
    rw [← h]
    cases Scalar.ofLiteral p with
    | ok s => exact .inl ⟨s, rfl, rfl⟩
    | error e => exact .inr ⟨e, rfl, rfl⟩
  by_cases hp : p.contains '.' = true
  · rcases scalar (by rw [expand, if_pos hp]) with h | ⟨e, he, hs⟩
    · exact .inl h
    · exact .inr (.inr ⟨e, he, .inl hs⟩)
  · cases hr : WideLiteral.readInteger p with
    | error e => exact .inr (.inr ⟨e, by rw [expand, if_neg hp, hr]; rfl, .inr rfl⟩)
    | ok n =>
      rw [WideLiteral.expand_of_readInteger (by simpa using hp) hr] at scalar ⊢
      split at scalar <;> rename_i hw
      · exact .inr (.inl ⟨n, if_pos hw⟩)
      · rw [if_neg hw]
        rcases scalar rfl with h | ⟨e, he, hs⟩
        · exact .inl h
        · exact .inr (.inr ⟨e, he, .inl hs⟩)

theorem ne_nil_of_expand {p : Text} {ws : List Scalar} (h : expand p = .ok ws) : ws ≠ [] := by
  rintro rfl
  rcases expand_cases p with ⟨s, -, hs⟩ | ⟨n, hn⟩ | ⟨e, he, -⟩
  · rw [hs] at h; cases h
  · rw [hn] at h
    have := WideLiteral.length_words_pos n
    rw [Except.ok.inj h] at this
    exact absurd this (by decide)
  · rw [he] at h; cases h

theorem readInteger_ne_noComponents (p : Text) :
    WideLiteral.readInteger p ≠ .error .noComponents := by
  unfold WideLiteral.readInteger
  split
  · split <;> nofun
  · dsimp only
    split <;> nofun

theorem ofLiteral_ne_noComponents (p : Text) : Scalar.ofLiteral p ≠ .error .noComponents := by
  unfold Scalar.ofLiteral
  split
  · unfold Scalar.ofHex
    dsimp only
    split
    · nofun
    · split <;> nofun
  · by_cases hn : ∃ n : Decimal.Numeral, n.text = p
    · obtain ⟨n, rfl⟩ := hn
      exact fun he => Scalar.formed_ofDecimalText n _ he
    · obtain ⟨_, _, he⟩ := Scalar.malformed_ofDecimalText.mpr hn
      rw [he]
      nofun

theorem expand_ne_noComponents (p : Text) : expand p ≠ .error .noComponents := by
  intro h
  rcases expand_cases p with ⟨s, -, hs⟩ | ⟨n, hn⟩ | ⟨e, he, hr⟩
  · rw [hs] at h; cases h
  · rw [hn] at h; cases h
  · rw [he] at h
    cases h
    exact hr.elim (ofLiteral_ne_noComponents p) (readInteger_ne_noComponents p)

/-! ## The vector of the literals -/

section Outcome

variable {pieces : List Text} {text : Text} (h : Delimited pieces text)

include h

theorem ofText_eq_ok_iff {v : Vec} : ofText text = .ok v ↔
    ∃ groups, pieces.mapM expand = .ok groups ∧ groups.flatten = v.components := by
  rw [ofText, h.literals_eq, bind_eq_ok]
  refine exists_congr fun groups => and_congr_right fun _ => ?_
  cases groups.flatten with
  | nil =>
    constructor
    · rintro ⟨⟩
    · intro hv
      exact absurd hv.symm (components_ne_nil v)
  | cons s rest =>
    rw [ofComponents, Except.ok.injEq, components, List.cons.injEq, Vec.ext_iff]

/-- A vector is refused for its first literal that is refused, or for having no literals. -/
theorem ofText_eq_error_iff {e : NumberError} : ofText text = .error e ↔
    pieces.mapM expand = .error e ∨ pieces = [] ∧ e = .noComponents := by
  rw [ofText, h.literals_eq]
  cases pieces with
  | nil => exact ⟨fun he => .inr ⟨rfl, by cases he; rfl⟩, by rintro (he | ⟨-, rfl⟩) <;> trivial⟩
  | cons p pieces =>
    rw [or_iff_left (by simp)]
    cases hm : (p :: pieces).mapM expand with
    | error e' => exact ⟨by rintro ⟨⟩; rfl, by rintro ⟨⟩; rfl⟩
    | ok groups =>
      cases mapM_eq_ok.mp hm with
      | @cons _ ws _ groups hw _ =>
        obtain ⟨s, rest, rfl⟩ := List.exists_cons_of_ne_nil (ne_nil_of_expand hw)
        constructor <;> rintro ⟨⟩

end Outcome

theorem ofText_append {s t : Text} {c : Char} (hc : isDelimiter c = true) {v w : Vec}
    (hv : ofText s = .ok v) (hw : ofText t = .ok w) :
    ∃ u, ofText (s ++ c :: t) = .ok u ∧ u.components = v.components ++ w.components := by
  obtain ⟨ps, hs⟩ := exists_delimited s
  obtain ⟨qs, ht⟩ := exists_delimited t
  obtain ⟨vs, hvs, hv⟩ := (ofText_eq_ok_iff hs).mp hv
  obtain ⟨ws, hws, hw⟩ := (ofText_eq_ok_iff ht).mp hw
  refine ⟨⟨v.head, v.tail ++ w.components⟩, (ofText_eq_ok_iff (hs.append ht hc)).mpr
    ⟨vs ++ ws, ?_, ?_⟩, rfl⟩
  · rw [List.mapM_append, hvs, hws]
    rfl
  · rw [List.flatten_append, hv, hw]
    rfl

/-- The first literal that is refused is the first one of the second text. -/
theorem ofText_append_error {s t : Text} {c : Char} (hc : isDelimiter c = true) {ps qs : List Text}
    (hs : Delimited ps s) (ht : Delimited qs t) (hps : ∀ p ∈ ps, ∃ ws, expand p = .ok ws)
    (hqs : ∃ q ∈ qs, ∀ ws, expand q ≠ .ok ws) :
    ∃ before q after e, qs = before ++ q :: after ∧ (∀ p ∈ before, ∃ ws, expand p = .ok ws) ∧
      expand q = .error e ∧ ofText (s ++ c :: t) = .error e := by
  cases hm : qs.mapM expand with
  | ok groups =>
    obtain ⟨q, hq, hno⟩ := hqs
    obtain ⟨ws, hw⟩ := exists_of_mapM_eq_ok hm hq
    exact absurd hw (hno ws)
  | error e =>
    obtain ⟨before, q, after, rfl, hb, he⟩ := mapM_eq_error_iff.mp hm
    refine ⟨before, q, after, e, rfl, hb, he, (ofText_eq_error_iff (hs.append ht hc)).mpr (.inl ?_)⟩
    exact mapM_eq_error_iff.mpr ⟨ps ++ before, q, after, (List.append_assoc ..).symm,
      List.forall_mem_append.mpr ⟨hps, hb⟩, he⟩

theorem ofText_eq_noComponents_iff {text : Text} :
    ofText text = .error .noComponents ↔ ∀ c ∈ text, isDelimiter c = true := by
  obtain ⟨pieces, h⟩ := exists_delimited text
  rw [ofText_eq_error_iff h, ← delimited_nil_iff]
  constructor
  · rintro (he | ⟨rfl, -⟩)
    · obtain ⟨p, -, hp⟩ := mapM_eq_error he
      exact absurd hp (expand_ne_noComponents p)
    · exact h
  · intro hnil
    exact .inr ⟨h.literals_eq.symm.trans hnil.literals_eq, rfl⟩

/-- **Delimiters.** Each text has its literals and no others. A delimiter between two texts joins
their vectors, and if the literals of the first can be read and one of the second cannot, the first
such one decides. What is read depends on the literals and not on the delimiters around them, and
there are no components exactly if there are only delimiters. -/
theorem ofText_delimiters :
    (∀ text : Text, ∃! pieces, Delimited pieces text) ∧
    (∀ (s t : Text) (c : Char) (v w : Vec), isDelimiter c = true →
      ofText s = .ok v → ofText t = .ok w →
        ∃ u, ofText (s ++ c :: t) = .ok u ∧ u.components = v.components ++ w.components) ∧
    (∀ (s t : Text) (c : Char) (ps qs : List Text), isDelimiter c = true →
      Delimited ps s → Delimited qs t → (∀ p ∈ ps, ∃ ws, expand p = .ok ws) →
      (∃ q ∈ qs, ∀ ws, expand q ≠ .ok ws) →
        ∃ before q after e, qs = before ++ q :: after ∧
          (∀ p ∈ before, ∃ ws, expand p = .ok ws) ∧ expand q = .error e ∧
          ofText (s ++ c :: t) = .error e) ∧
    (∀ (pieces : List Text) (s t : Text), Delimited pieces s → Delimited pieces t →
      ofText s = ofText t) ∧
    ∀ text : Text, ofText text = .error .noComponents ↔ ∀ c ∈ text, isDelimiter c = true := by
  refine ⟨fun text => ?_, fun _ _ _ _ _ hc hv hw => ofText_append hc hv hw,
    fun _ _ _ _ _ hc hs ht hps hqs => ofText_append_error hc hs ht hps hqs,
    fun pieces s t hs ht => ?_, fun _ => ofText_eq_noComponents_iff⟩
  · obtain ⟨pieces, h⟩ := exists_delimited text
    exact ⟨pieces, h, fun _ h' => h'.literals_eq.symm.trans h.literals_eq⟩
  · rw [ofText, ofText, hs.literals_eq, ht.literals_eq]

/-- A tab between two texts, a text whose second literal is the first that is refused, and one
literal among different delimiters. -/
theorem ofText_delimiters_one :
    let one : Text := "[1,".toList
    let two : Text := "2]".toList
    let refused : Text := "] 2 #g x".toList
    let pieces : List Text := [['2'], ['#', 'g'], ['x']]
    (isDelimiter '\t' = true ∧ ofText one = .ok ⟨.ofWhole 1, []⟩ ∧
      ofText two = .ok ⟨.ofWhole 2, []⟩ ∧
      ∃ u, ofText (one ++ '\t' :: two) = .ok u ∧ u.components = [.ofWhole 1, .ofWhole 2]) ∧
    (Delimited [['1']] one ∧ Delimited pieces refused ∧
      (∀ p ∈ [['1']], ∃ ws, expand p = .ok ws) ∧ (∃ q ∈ pieces, ∀ ws, expand q ≠ .ok ws) ∧
      ∃ before q after e, pieces = before ++ q :: after ∧
        (∀ p ∈ before, ∃ ws, expand p = .ok ws) ∧ expand q = .error e ∧
        ofText (one ++ '\t' :: refused) = .error e) ∧
    (Delimited [['1']] [' ', '1'] ∧ ofText one = ofText [' ', '1']) := by
  intro one two refused pieces
  obtain ⟨-, joined, first, same, -⟩ := ofText_delimiters
  have htab : isDelimiter '\t' = true := by decide
  have hone : Delimited [['1']] one := delimited_iff.mpr (by decide)
  have hblank : Delimited [['1']] [' ', '1'] := delimited_iff.mpr (by decide)
  have hrefused : Delimited pieces refused := delimited_iff.mpr (by decide)
  have hv : ofText one = .ok ⟨.ofWhole 1, []⟩ := by decide +kernel
  have hw : ofText two = .ok ⟨.ofWhole 2, []⟩ := by decide +kernel
  have hread : ∀ p ∈ [['1']], ∃ ws, expand p = .ok ws := by
    intro p hp
    rw [List.mem_singleton.mp hp]
    exact ⟨[.ofWhole 1], by decide +kernel⟩
  have hno : ∃ q ∈ pieces, ∀ ws, expand q ≠ .ok ws := by
    have he : expand ['x'] = .error (.malformed ['x'] .integerDigits) := by decide
    exact ⟨['x'], by decide, fun ws => by rw [he]; nofun⟩
  exact ⟨⟨htab, hv, hw, joined _ _ _ _ _ htab hv hw⟩,
    ⟨hone, hrefused, hread, hno, first _ _ _ _ _ htab hone hrefused hread hno⟩,
    hblank, same _ _ _ hone hblank⟩

end BinaryPoint.Vec
