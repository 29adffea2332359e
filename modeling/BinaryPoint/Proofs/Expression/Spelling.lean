import BinaryPoint.Expression.Lexeme
import BinaryPoint.Proofs.Text.Pieces

/-!
# How lexemes are spelled

`Spells lexemes text` says, without a reader, when a text is a spelling of lexemes: the
lexemes in order, each as it is written, with any blanks before, between and after them. A
quoted lexeme holds no quote, and a name is not followed by a character that would make it
longer (`EndsName`).

* `ofText_eq_ok`: a text has the lexemes `lexemes` exactly if it spells them.
* `Spells.append`: spellings can be put one after the other where no name runs on.
* `Spells.of_mark`, `Spells.of_quote`, `Spells.of_name`: what a spelling begins with is read
  off its first character.
-/
namespace BinaryPoint.Lexeme

/-- A name before the text ends there. -/
def EndsName (text : Text) : Prop := ∀ c ∈ text.head?, isNameRest c = false

inductive Spells : List Lexeme → Text → Prop where
  | nil : Spells [] []
  | blank {c : Char} {lexemes : List Lexeme} {text : Text} (h : Text.isBlank c = true)
    (rest : Spells lexemes text) : Spells lexemes (c :: text)
  | mark (m : Mark) {lexemes : List Lexeme} {text : Text} (rest : Spells lexemes text) :
    Spells (.mark m :: lexemes) (m.char :: text)
  | quoted {inner : Text} {lexemes : List Lexeme} {text : Text} (h : '"' ∉ inner)
    (rest : Spells lexemes text) : Spells (.quoted inner :: lexemes) ('"' :: (inner ++ '"' :: text))
  | name {c : Char} {more : Text} {lexemes : List Lexeme} {text : Text}
    (hc : isNameStart c = true) (hm : ∀ d ∈ more, isNameRest d = true) (he : EndsName text)
    (rest : Spells lexemes text) : Spells (.name (c :: more) :: lexemes) (c :: (more ++ text))

/-! ## Classes of characters -/

theorem isNameRest_of_isNameStart {c : Char} (h : isNameStart c = true) : isNameRest c = true := by
  simp only [isNameStart, isNameRest, Char.isAlphanum, Bool.or_eq_true] at h ⊢
  rcases h with h | h
  · exact .inl (.inl h)
  · exact .inr h

theorem ofChar?_char (m : Mark) : Mark.ofChar? m.char = some m := by cases m <;> decide

theorem char_of_ofChar? {c : Char} {m : Mark} (h : Mark.ofChar? c = some m) : m.char = c := by
  simpa using List.find?_some h

theorem char_inj {m m' : Mark} (h : m.char = m'.char) : m = m' := by
  have := ofChar?_char m
  rw [h, ofChar?_char] at this
  exact (Option.some.inj this).symm

theorem ofChar?_eq_none {c : Char} (h : ∀ m : Mark, m.char ≠ c) : Mark.ofChar? c = none := by
  simp only [Mark.ofChar?, List.find?_eq_none]
  intro m _; simpa using h m

theorem isNameRest_char (m : Mark) : isNameRest m.char = false := by cases m <;> decide

theorem isBlank_char (m : Mark) : Text.isBlank m.char = false := by cases m <;> decide

theorem ofChar?_quote : Mark.ofChar? '"' = none := by decide

theorem ofChar?_of_isNameRest {c : Char} (h : isNameRest c = true) : Mark.ofChar? c = none :=
  ofChar?_eq_none fun m e => by rw [← e, isNameRest_char] at h; cases h

theorem isBlank_of_isNameRest {c : Char} (h : isNameRest c = true) : Text.isBlank c = false := by
  have hc : c.toNat < 128 ∧ c.toNat ≠ 32 ∧ 14 ≤ c.toNat := by
    change (((decide ('A'.val ≤ c.val ∧ c.val ≤ 'Z'.val) || 'a'.val ≤ c.val && c.val ≤ 'z'.val) ||
      '0'.val ≤ c.val && c.val ≤ '9'.val) || c = '_') = true at h
    simp only [Bool.or_eq_true, Bool.and_eq_true, decide_eq_true_eq, UInt32.le_iff_toNat_le] at h
    rcases h with ((h | h) | h) | h
    · obtain ⟨h1, h2⟩ := h; simp at h1 h2; omega
    · obtain ⟨h1, h2⟩ := h; simp at h1 h2; omega
    · obtain ⟨h1, h2⟩ := h; simp at h1 h2; omega
    · subst h; decide
  obtain ⟨h1, h2, h3⟩ := hc
  simp only [Text.isBlank, Text.blankRanges, List.any_cons, List.any_nil, Bool.or_false,
    Bool.or_eq_false_iff, Bool.and_eq_false_iff, decide_eq_false_iff_not]
  omega

theorem ne_quote_of_isNameRest {c : Char} (h : isNameRest c = true) : c ≠ '"' := by
  rintro rfl; revert h; decide

/-! ## Reading a spelling -/

theorem scan_blank {c : Char} (h : Text.isBlank c = true) (offset : Nat) (done : List Lexeme)
    (text : Text) : scan offset done (c :: text) = scan (offset + c.utf8Size) done text := by
  rw [scan, if_pos h]

theorem scan_mark (m : Mark) (offset : Nat) (done : List Lexeme) (text : Text) :
    scan offset done (m.char :: text) = scan (offset + m.char.utf8Size) (.mark m :: done) text := by
  rw [scan, if_neg (by simp [isBlank_char]), ofChar?_char]

theorem scan_quoted {inner : Text} (h : '"' ∉ inner) (offset : Nat) (done : List Lexeme)
    (text : Text) : scan offset done ('"' :: (inner ++ '"' :: text)) =
      scan (offset + Text.byteLength inner + 2) (.quoted inner :: done) text := by
  rw [scan, if_neg (by decide), ofChar?_quote]
  simp only [if_true]
  split
  · rename_i hn
    exact absurd (List.mem_append_right inner List.mem_cons_self) (Text.cutAt_eq_none.mp hn)
  · rename_i hs
    rw [Text.cutAt_eq_some.mpr ⟨rfl, h⟩] at hs
    cases hs; rfl

theorem takeWhile_isNameRest {more text : Text} (hm : ∀ d ∈ more, isNameRest d = true)
    (he : EndsName text) : (more ++ text).takeWhile isNameRest = more := by
  rw [List.takeWhile_append_of_pos hm]
  cases text with
  | nil => simp
  | cons c rest => simp [he c rfl]

theorem dropWhile_isNameRest {more text : Text} (hm : ∀ d ∈ more, isNameRest d = true)
    (he : EndsName text) : (more ++ text).dropWhile isNameRest = text := by
  rw [List.dropWhile_append_of_pos hm]
  cases text with
  | nil => rfl
  | cons c rest => simp [he c rfl]

theorem scan_name {c : Char} (hc : isNameStart c = true) (offset : Nat) (done : List Lexeme)
    (text : Text) : scan offset done (c :: text) =
      scan (offset + Text.byteLength (c :: text.takeWhile isNameRest))
        (.name (c :: text.takeWhile isNameRest) :: done) (text.dropWhile isNameRest) := by
  have hr := isNameRest_of_isNameStart hc
  rw [scan, if_neg (by simp [isBlank_of_isNameRest hr]), ofChar?_of_isNameRest hr]
  simp only [if_neg (ne_quote_of_isNameRest hr), if_pos hc]

theorem scan_of_spells {lexemes : List Lexeme} {text : Text} (h : Spells lexemes text) :
    ∀ (offset : Nat) (done : List Lexeme),
      scan offset done text = .ok (done.reverse ++ lexemes) := by
  induction h with
  | nil => intro offset done; rw [scan, List.append_nil]
  | blank hb _ ih => intro offset done; rw [scan_blank hb, ih]
  | mark m _ ih => intro offset done; rw [scan_mark, ih]; simp
  | quoted hq _ ih => intro offset done; rw [scan_quoted hq, ih]; simp
  | name hc hm he _ ih =>
    intro offset done
    rw [scan_name hc, takeWhile_isNameRest hm he, dropWhile_isNameRest hm he, ih]; simp

theorem endsName_dropWhile (text : Text) : EndsName (text.dropWhile isNameRest) := by
  intro c hc
  have := List.head?_dropWhile_not isNameRest text
  rw [Option.mem_def.mp hc] at this
  simpa using this

theorem spells_of_scan (offset : Nat) (done : List Lexeme) (text : Text) {all : List Lexeme}
    (h : scan offset done text = .ok all) :
    ∃ lexemes, all = done.reverse ++ lexemes ∧ Spells lexemes text := by
  fun_induction scan offset done text with
  | case1 => cases h; exact ⟨[], by simp, .nil⟩
  | case2 offset done c rest hb ih =>
    obtain ⟨lexemes, e, hs⟩ := ih h
    exact ⟨lexemes, e, .blank hb hs⟩
  | case3 offset done c rest hb m hm ih =>
    obtain ⟨lexemes, e, hs⟩ := ih h
    refine ⟨.mark m :: lexemes, by simpa using e, ?_⟩
    rw [← char_of_ofChar? hm]
    exact .mark m hs
  | case4 => cases h
  | case5 offset done rest inner after hcut _ _ ih =>
    obtain ⟨lexemes, e, hs⟩ := ih h
    obtain ⟨rfl, hq⟩ := Text.cutAt_eq_some.mp hcut
    exact ⟨.quoted inner :: lexemes, by simpa using e, .quoted hq hs⟩
  | case6 offset done c rest _ _ _ hc more ih =>
    obtain ⟨lexemes, e, hs⟩ := ih h
    refine ⟨.name (c :: more) :: lexemes, by simpa using e, ?_⟩
    have hm : ∀ d ∈ more, isNameRest d = true := fun d hd => List.mem_takeWhile_imp hd
    have := Spells.name hc hm (endsName_dropWhile rest) hs
    rwa [List.takeWhile_append_dropWhile] at this
  | case7 => cases h

/-- The lexemes of a text are those that it spells. -/
theorem ofText_eq_ok {text : Text} {lexemes : List Lexeme} :
    ofText text = .ok lexemes ↔ Spells lexemes text := by
  constructor
  · intro h
    obtain ⟨lexemes', rfl, hs⟩ := spells_of_scan 0 [] text h
    exact hs
  · intro h
    exact scan_of_spells h 0 []

theorem Spells.unique {text : Text} {lexemes lexemes' : List Lexeme} (h : Spells lexemes text)
    (h' : Spells lexemes' text) : lexemes = lexemes' := by
  have := (ofText_eq_ok.mpr h).symm.trans (ofText_eq_ok.mpr h')
  exact Except.ok.inj this

/-! ## Taking spellings apart and putting them together -/

theorem endsName_nil : EndsName [] := fun _ h => nomatch h

theorem endsName_mark (m : Mark) (text : Text) : EndsName (m.char :: text) := by
  rintro c ⟨⟩; exact isNameRest_char m

theorem EndsName.append {text after : Text} (h : EndsName text) (ha : EndsName after) :
    EndsName (text ++ after) := by
  cases text with
  | nil => exact ha
  | cons c rest => rintro d ⟨⟩; exact h c rfl

/-- A name at the end of the first text must not run on into the second. -/
theorem Spells.append {lexemes lexemes' : List Lexeme} {text text' : Text}
    (h : Spells lexemes text) (h' : Spells lexemes' text') (he : EndsName text') :
    Spells (lexemes ++ lexemes') (text ++ text') := by
  induction h with
  | nil => exact h'
  | blank hb _ ih => exact .blank hb ih
  | mark m _ ih => exact .mark m ih
  | quoted hq _ ih =>
    rw [List.cons_append, List.cons_append, List.append_assoc]
    exact .quoted hq ih
  | name hc hm he' _ ih =>
    rw [List.cons_append, List.cons_append, List.append_assoc]
    exact .name hc hm (he'.append he) ih

theorem Spells.of_mark {m : Mark} {lexemes : List Lexeme} {text : Text}
    (h : Spells lexemes (m.char :: text)) : ∃ rest, lexemes = .mark m :: rest ∧ Spells rest text := by
  have hm : isNameRest m.char = false := isNameRest_char m
  generalize hc : m.char = c at h hm
  cases h with
  | blank hb hs => rw [← hc, isBlank_char] at hb; cases hb
  | mark m' hs => exact ⟨_, by rw [char_inj hc], hs⟩
  | quoted => cases m <;> cases hc
  | name hn => rw [isNameRest_of_isNameStart hn] at hm; cases hm

theorem Spells.of_quote {lexemes : List Lexeme} {text : Text} (h : Spells lexemes ('"' :: text)) :
    ∃ inner after rest, text = inner ++ '"' :: after ∧ '"' ∉ inner ∧
      lexemes = .quoted inner :: rest ∧ Spells rest after := by
  generalize hc : '"' = c at h
  cases h with
  | blank hb => rw [← hc] at hb; exact absurd hb (by decide)
  | mark m => cases m <;> cases hc
  | quoted hq hs => exact ⟨_, _, _, rfl, hq, rfl, hs⟩
  | name hn => rw [← hc] at hn; exact absurd hn (by decide)

theorem Spells.of_name {c : Char} {more text : Text} (hc : isNameStart c = true)
    (hm : ∀ d ∈ more, isNameRest d = true) (he : EndsName text) {lexemes : List Lexeme}
    (h : Spells lexemes (c :: (more ++ text))) :
    ∃ rest, lexemes = .name (c :: more) :: rest ∧ Spells rest text := by
  have hs := ofText_eq_ok.mpr h
  rw [ofText, scan_name hc, takeWhile_isNameRest hm he, dropWhile_isNameRest hm he] at hs
  obtain ⟨rest, hr, hs⟩ := spells_of_scan _ _ _ hs
  exact ⟨rest, by simpa using hr, hs⟩

end BinaryPoint.Lexeme
