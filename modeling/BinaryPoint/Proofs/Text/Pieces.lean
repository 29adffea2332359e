import Mathlib.Data.List.TakeWhile
import BinaryPoint.Text.Basic

/-!
# Cutting a text at a mark, and joining pieces

`Text.cutAt` finds the first occurrence of its mark, so the piece before it holds none. Pieces
that hold no delimiter come back from their join by `Text.splitWhen`.
-/
namespace BinaryPoint.Text

theorem mem_takeWhile_ne {mark : Char} {text : Text} : mark ∉ text.takeWhile (· != mark) := by
  induction text with
  | nil => simp
  | cons c rest ih =>
    rw [List.takeWhile_cons]; split
    · rename_i h
      simp only [List.mem_cons, not_or]
      exact ⟨fun e => by simp [e] at h, ih⟩
    · simp

theorem dropWhile_ne_append {mark : Char} {before : Text} (h : mark ∉ before) (after : Text) :
    (before ++ mark :: after).dropWhile (· != mark) = mark :: after := by
  rw [List.dropWhile_append_of_pos fun c hc => by simpa using fun e : c = mark => h (e ▸ hc)]
  simp

theorem takeWhile_ne_append {mark : Char} {before : Text} (h : mark ∉ before) (after : Text) :
    (before ++ mark :: after).takeWhile (· != mark) = before := by
  rw [List.takeWhile_append_of_pos fun c hc => by simpa using fun e : c = mark => h (e ▸ hc)]
  simp

theorem cutAt_eq_none {mark : Char} {text : Text} : cutAt mark text = none ↔ mark ∉ text := by
  constructor
  · intro h hm
    obtain ⟨before, after, rfl⟩ := List.append_of_mem hm
    unfold cutAt at h
    split at h
    · rename_i hd
      have := List.dropWhile_eq_nil_iff.mp hd mark hm
      simp at this
    · cases h
  · intro h
    have hd : text.dropWhile (· != mark) = [] := by
      rw [List.dropWhile_eq_nil_iff]
      intro c hc
      simpa using fun e : c = mark => h (e ▸ hc)
    simp [cutAt, hd]

/-- The cut is at the first mark. -/
theorem cutAt_eq_some {mark : Char} {text before after : Text} :
    cutAt mark text = some (before, after) ↔ text = before ++ mark :: after ∧ mark ∉ before := by
  constructor
  · intro h
    unfold cutAt at h
    split at h
    · cases h
    · rename_i c rest hd
      obtain ⟨rfl, rfl⟩ := Prod.mk.inj (Option.some.inj h)
      have hc : c = mark := by
        have := List.head?_dropWhile_not (· != mark) text
        simpa [hd] using this
      subst hc
      exact ⟨by rw [← hd, List.takeWhile_append_dropWhile], mem_takeWhile_ne⟩
  · rintro ⟨rfl, h⟩
    simp [cutAt, dropWhile_ne_append h, takeWhile_ne_append h]

/-- A mark that is not in the text before it is the first, and any other is behind it. -/
theorem of_append_mark_eq {mark : Char} {after rest : Text} : ∀ {before front : Text},
    mark ∉ before → before ++ mark :: after = front ++ mark :: rest →
      after = rest ∨ ∃ more, after = more ++ mark :: rest
  | [], [], _, h => .inl (List.cons.inj h).2
  | [], _ :: front, _, h => .inr ⟨front, (List.cons.inj h).2⟩
  | _ :: _, [], hm, h => absurd (List.cons.inj h).1 fun e => hm (e ▸ List.mem_cons_self)
  | c :: _, _ :: _, hm, h =>
    of_append_mark_eq (fun hb => hm (List.mem_cons_of_mem c hb)) (List.cons.inj h).2

theorem eq_of_dropMark_true {mark : Char} {text rest : Text}
    (h : dropMark mark text = (true, rest)) : text = mark :: rest := by
  cases text with
  | nil => cases h
  | cons c tail =>
    rw [dropMark] at h
    split at h
    · rename_i hc; cases h; rw [hc]
    · cases h

theorem eq_of_dropMark_false {mark : Char} {text rest : Text}
    (h : dropMark mark text = (false, rest)) : text = rest := by
  cases text with
  | nil => cases h; rfl
  | cons c tail =>
    rw [dropMark] at h
    split at h
    · cases h
    · cases h; rfl

theorem dropMark_of_not_mem {mark : Char} {text : Text} (h : mark ∉ text) :
    dropMark mark text = (false, text) := by
  cases text with
  | nil => rfl
  | cons c tail => rw [dropMark, if_neg]; rintro rfl; exact h List.mem_cons_self

theorem mem_of_mem_dropMark (mark : Char) {c : Char} {text : Text} (h : c ∈ text) :
    c = mark ∨ c ∈ (dropMark mark text).2 := by
  cases text with
  | nil => cases h
  | cons d tail =>
    rw [dropMark]
    split
    · rename_i hd
      exact (List.mem_cons.mp h).imp_left fun hc => Eq.trans hc hd
    · exact .inr h

theorem join_singleton (separator text : Text) : join separator [text] = text := by simp [join]

theorem join_cons (separator text : Text) {texts : List Text} (h : texts ≠ []) :
    join separator (text :: texts) = text ++ (separator ++ join separator texts) := by
  cases texts with
  | nil => exact absurd rfl h
  | cons => simp [join]

theorem join_map_cons {α : Type} (separator : Text) (f : α → Text) (a b : α) (rest : List α) :
    join separator ((a :: b :: rest).map f) =
      f a ++ (separator ++ join separator ((b :: rest).map f)) :=
  join_cons separator (f a) (List.cons_ne_nil (f b) (rest.map f))

/-- Behind the first text each has the separator before it. -/
theorem join_cons_flatMap (separator text : Text) (texts : List Text) :
    join separator (text :: texts) = text ++ texts.flatMap (separator ++ ·) := by
  induction texts generalizing text with
  | nil => simp [join]
  | cons t texts ih => rw [join_cons _ _ (List.cons_ne_nil t texts), ih, List.flatMap_cons,
      List.append_assoc]

/-- Two neighbours at the end with the separator between them. -/
theorem join_append_pair (separator a b : Text) (texts : List Text) :
    join separator (texts ++ [a, b]) = join separator (texts ++ [a ++ (separator ++ b)]) := by
  induction texts with
  | nil => simp [join]
  | cons text texts ih =>
    rw [List.cons_append, List.cons_append, join_cons _ _ (by simp), join_cons _ _ (by simp), ih]

theorem join_splitWhen_go (mark : Char) (text : Text) : ∀ (piece : Text) (done : List Text),
    join [mark] (splitWhen.go (· == mark) piece done text) =
      join [mark] (done.reverse ++ [piece.reverse ++ text]) := by
  induction text with
  | nil => intro piece done; simp [splitWhen.go]
  | cons c rest ih =>
    intro piece done
    rw [splitWhen.go]
    split
    · rename_i hc
      rw [ih, eq_of_beq hc, List.reverse_cons, List.append_assoc, List.singleton_append,
        join_append_pair]
      rfl
    · rw [ih, List.reverse_cons, List.append_assoc]; rfl

/-- The text from its pieces. -/
theorem join_splitWhen (mark : Char) (text : Text) :
    join [mark] (splitWhen (· == mark) text) = text := by
  rw [splitWhen, join_splitWhen_go]; simp [join]

theorem mem_splitWhen_go (delimiter : Char → Bool) {c : Char} (text : Text) :
    ∀ (piece : Text) (done : List Text), (c ∈ piece ∨ c ∈ text ∨ ∃ p ∈ done, c ∈ p) →
      delimiter c = true ∨ ∃ p ∈ splitWhen.go delimiter piece done text, c ∈ p := by
  induction text with
  | nil =>
    intro piece done h
    refine .inr ?_
    simp only [splitWhen.go, List.mem_reverse, List.mem_cons]
    rcases h with h | h | ⟨p, hp, h⟩
    · exact ⟨_, .inl rfl, List.mem_reverse.mpr h⟩
    · cases h
    · exact ⟨p, .inr hp, h⟩
  | cons d rest ih =>
    intro piece done h
    rw [splitWhen.go]
    split
    · rename_i hd
      rcases h with h | h | ⟨p, hp, h⟩
      · exact ih _ _ (.inr (.inr ⟨_, List.mem_cons_self, List.mem_reverse.mpr h⟩))
      · rcases List.mem_cons.mp h with rfl | h
        · exact .inl hd
        · exact ih _ _ (.inr (.inl h))
      · exact ih _ _ (.inr (.inr ⟨p, List.mem_cons_of_mem _ hp, h⟩))
    · rcases h with h | h | h
      · exact ih _ _ (.inl (List.mem_cons_of_mem _ h))
      · rcases List.mem_cons.mp h with rfl | h
        · exact ih _ _ (.inl List.mem_cons_self)
        · exact ih _ _ (.inr (.inl h))
      · exact ih _ _ (.inr (.inr h))

theorem splitWhen_go_append (delimiter : Char → Bool) {before : Text}
    (h : ∀ c ∈ before, delimiter c = false) (rest : Text) : ∀ (piece : Text) (done : List Text),
    splitWhen.go delimiter piece done (before ++ rest) =
      splitWhen.go delimiter (before.reverse ++ piece) done rest := by
  induction before with
  | nil => intro piece done; rfl
  | cons c before ih =>
    intro piece done
    have hc : ¬delimiter c = true := by rw [h c List.mem_cons_self]; decide
    rw [List.cons_append, splitWhen.go, if_neg hc, ih fun d hd => h d (List.mem_cons_of_mem _ hd)]
    simp

theorem splitWhen_go_done (delimiter : Char → Bool) (text : Text) : ∀ (piece : Text)
    (done : List Text), splitWhen.go delimiter piece done text =
      done.reverse ++ splitWhen.go delimiter piece [] text := by
  induction text with
  | nil => intro piece done; simp [splitWhen.go]
  | cons c rest ih =>
    intro piece done
    rw [splitWhen.go, splitWhen.go]
    split
    · rw [ih [] (piece.reverse :: done), ih [] [piece.reverse]]; simp
    · exact ih (c :: piece) done

theorem splitWhen_singleton {delimiter : Char → Bool} {a : Text}
    (ha : ∀ d ∈ a, delimiter d = false) : splitWhen delimiter a = [a] := by
  have h := splitWhen_go_append delimiter ha [] [] []
  rw [List.append_nil] at h
  rw [splitWhen, h]
  simp [splitWhen.go]

theorem splitWhen_go_delimiter {delimiter : Char → Bool} {c : Char} (hc : delimiter c = true)
    (rest : Text) (text : Text) : ∀ (piece : Text) (done : List Text),
    splitWhen.go delimiter piece done (text ++ c :: rest) =
      splitWhen.go delimiter piece done text ++ splitWhen delimiter rest := by
  induction text with
  | nil =>
    intro piece done
    rw [List.nil_append, splitWhen.go, splitWhen.go, if_pos hc, splitWhen_go_done]
    rfl
  | cons d text ih =>
    intro piece done
    rw [List.cons_append, splitWhen.go, splitWhen.go]
    split
    · exact ih [] (piece.reverse :: done)
    · exact ih (d :: piece) done

/-- The pieces before and behind a delimiter. -/
theorem splitWhen_append_delimiter {delimiter : Char → Bool} {c : Char} (hc : delimiter c = true)
    (text rest : Text) : splitWhen delimiter (text ++ c :: rest) =
      splitWhen delimiter text ++ splitWhen delimiter rest :=
  splitWhen_go_delimiter hc rest text [] []

/-- The first delimiter ends the first piece. -/
theorem splitWhen_append {delimiter : Char → Bool} {a : Text}
    (ha : ∀ d ∈ a, delimiter d = false) {c : Char} (hc : delimiter c = true) (rest : Text) :
    splitWhen delimiter (a ++ c :: rest) = a :: splitWhen delimiter rest := by
  rw [splitWhen_append_delimiter hc, splitWhen_singleton ha, List.singleton_append]

/-- Two pieces with one delimiter between them. -/
theorem splitWhen_pair {delimiter : Char → Bool} {a b : Text} {c : Char}
    (ha : ∀ d ∈ a, delimiter d = false) (hc : delimiter c = true)
    (hb : ∀ d ∈ b, delimiter d = false) : splitWhen delimiter (a ++ c :: b) = [a, b] := by
  rw [splitWhen_append ha hc, splitWhen_singleton hb]

theorem splitWhen_join {delimiter : Char → Bool} {c : Char} (hc : delimiter c = true) :
    ∀ {texts : List Text}, texts ≠ [] → (∀ t ∈ texts, ∀ d ∈ t, delimiter d = false) →
      splitWhen delimiter (join [c] texts) = texts
  | [], h, _ => absurd rfl h
  | [t], _, h => by rw [join_singleton, splitWhen_singleton (h t List.mem_cons_self)]
  | t :: t' :: texts, _, h => by
    rw [join_cons _ _ (List.cons_ne_nil t' texts), List.singleton_append,
      splitWhen_append (h t List.mem_cons_self) hc,
      splitWhen_join hc (List.cons_ne_nil t' texts) fun s hs => h s (List.mem_cons_of_mem t hs)]

/-- A character is a delimiter or in a piece. -/
theorem mem_splitWhen (delimiter : Char → Bool) {c : Char} {text : Text} (h : c ∈ text) :
    delimiter c = true ∨ ∃ p ∈ splitWhen delimiter text, c ∈ p :=
  mem_splitWhen_go delimiter text [] [] (.inr (.inl h))

theorem of_mem_splitWhen_go (delimiter : Char → Bool) {c : Char} {p : Text} (hc : c ∈ p)
    (text : Text) : ∀ (piece : Text) (done : List Text),
    (∀ d ∈ piece, delimiter d = false) → (∀ q ∈ done, ∀ d ∈ q, delimiter d = false) →
      p ∈ splitWhen.go delimiter piece done text → delimiter c = false := by
  induction text with
  | nil =>
    intro piece done hpiece hdone hp
    simp only [splitWhen.go, List.mem_reverse, List.mem_cons] at hp
    rcases hp with rfl | hp
    · exact hpiece c (List.mem_reverse.mp hc)
    · exact hdone p hp c hc
  | cons d rest ih =>
    intro piece done hpiece hdone hp
    rw [splitWhen.go] at hp
    split at hp
    · refine ih [] (piece.reverse :: done) (List.forall_mem_nil _) (fun q hq => ?_) hp
      rcases List.mem_cons.mp hq with rfl | hq
      · exact fun e he => hpiece e (List.mem_reverse.mp he)
      · exact hdone q hq
    · rename_i hd
      refine ih (d :: piece) done (fun e he => ?_) hdone hp
      rcases List.mem_cons.mp he with rfl | he
      · simpa using hd
      · exact hpiece e he

/-- No piece holds a delimiter. -/
theorem of_mem_splitWhen {delimiter : Char → Bool} {text p : Text}
    (hp : p ∈ splitWhen delimiter text) {c : Char} (hc : c ∈ p) : delimiter c = false :=
  of_mem_splitWhen_go delimiter hc text [] [] (List.forall_mem_nil _) (List.forall_mem_nil _) hp

theorem of_mem_intersperse {separator p : Text} : ∀ {texts : List Text},
    p ∈ texts.intersperse separator → p ∈ texts ∨ p = separator
  | [], h => .inl h
  | [_], h => .inl h
  | t :: t' :: texts, h => by
    rcases List.mem_cons.mp h with rfl | h
    · exact .inl List.mem_cons_self
    · rcases List.mem_cons.mp h with rfl | h
      · exact .inr rfl
      · exact (of_mem_intersperse h).imp_left (List.mem_cons_of_mem t)

/-- A character of a join is in the separator or in a text. -/
theorem of_mem_join {separator : Text} {texts : List Text} {c : Char}
    (h : c ∈ join separator texts) : c ∈ separator ∨ ∃ text ∈ texts, c ∈ text := by
  obtain ⟨p, hp, hc⟩ := List.mem_flatten.mp h
  rcases of_mem_intersperse hp with hp | rfl
  · exact .inr ⟨p, hp, hc⟩
  · exact .inl hc

theorem join_append (separator : Text) {texts texts' : List Text} (h : texts ≠ [])
    (h' : texts' ≠ []) : join separator (texts ++ texts') =
      join separator texts ++ (separator ++ join separator texts') := by
  obtain ⟨t, texts, rfl⟩ := List.exists_cons_of_ne_nil h
  obtain ⟨t', texts', rfl⟩ := List.exists_cons_of_ne_nil h'
  rw [List.cons_append, join_cons_flatMap, join_cons_flatMap, join_cons_flatMap,
    List.flatMap_append, List.flatMap_cons]
  simp

theorem subset_join {separator p : Text} {texts : List Text} (h : p ∈ texts) :
    p ⊆ join separator texts := by
  induction texts with
  | nil => cases h
  | cons t texts ih =>
    cases texts with
    | nil => rw [List.mem_singleton.mp h, join_singleton]; exact List.Subset.refl t
    | cons t' texts =>
      rw [join_cons _ _ (List.cons_ne_nil t' texts)]
      rcases List.mem_cons.mp h with rfl | h
      · exact List.subset_append_left _ _
      · exact List.subset_append_of_subset_right _ (List.subset_append_of_subset_right _ (ih h))

theorem join_ne_nil {separator p : Text} {texts : List Text} (h : p ∈ texts) (hp : p ≠ []) :
    join separator texts ≠ [] := fun hj => by
  have hs : p ⊆ join separator texts := subset_join h
  rw [hj] at hs
  exact hp (List.subset_nil.mp hs)

end BinaryPoint.Text
