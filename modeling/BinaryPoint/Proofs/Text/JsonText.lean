import BinaryPoint.Proofs.Text.Numbers
import BinaryPoint.Text.Json

/-!
# Reading JSON text

A reader of JSON text, to say that what is written can be read. Text is cut into strings and
marks first; the value is then put together along these, with the arrays and objects that are
still open on a stack. Numbers and constants are not read, as no value has them.

* `Json.ofText`: the value of a text, by `cut` and `readValue`.
* `cuts_render`: what is written is cut into the pieces of the value.
* `readValue_pieces`: these pieces are read as the value.
* `ofText_render`: the compact text of a value reads back.
-/
namespace BinaryPoint.Json

/-! ## Pieces -/

/-- A string without its quotes and escapes, or a mark of the punctuation. -/
inductive Piece where
  | string (text : Text)
  | openArray | closeArray | openObject | closeObject | comma | colon
  deriving DecidableEq, Repr

def mark? : Char → Option Piece
  | '[' => some .openArray
  | ']' => some .closeArray
  | '{' => some .openObject
  | '}' => some .closeObject
  | ',' => some .comma
  | ':' => some .colon
  | _ => none

/-- The white space of JSON. -/
def isBlank (c : Char) : Bool := c = ' ' || c = '\t' || c = '\n' || c = '\r'

/-- What the character stands for behind a backslash. -/
def unescaped? : Char → Option Char
  | '"' => some '"'
  | '\\' => some '\\'
  | '/' => some '/'
  | 'b' => some '\x08'
  | 'f' => some '\x0c'
  | 'n' => some '\n'
  | 'r' => some '\r'
  | 't' => some '\t'
  | _ => none

/-- Where a reader of characters stands: between pieces, in a string after the characters
`read`, in reverse, or in one behind the first of two escapes that make one character. -/
inductive Place where
  | outside
  | inside (read : Text)
  | halfway (read : Text) (high : ℕ)

/-- The place behind an escape of the code unit `unit`. -/
def afterUnit (unit : ℕ) : Place → Option Place
  | .outside => none
  | .inside read =>
    if unit < 0xD800 || 0xDFFF < unit then some (.inside (Char.ofNat unit :: read))
    else if unit < 0xDC00 then some (.halfway read unit)
    else none
  | .halfway read high =>
    if 0xDC00 ≤ unit && unit ≤ 0xDFFF then
      some (.inside (Char.ofNat (0x10000 + (high - 0xD800) * 0x400 + (unit - 0xDC00)) :: read))
    else none

/-- The pieces of a text that is read from `place` on. -/
def cut : Place → Text → Option (List Piece)
  | .outside, [] => some []
  | .outside, c :: rest =>
    if isBlank c then cut .outside rest
    else if c = '"' then cut (.inside []) rest
    else
      match mark? c with
      | some piece => (cut .outside rest).map (piece :: ·)
      | none => none
  | .inside read, '"' :: rest => (cut .outside rest).map (.string read.reverse :: ·)
  | place, '\\' :: 'u' :: a :: b :: c :: d :: rest =>
    if [a, b, c, d].all Text.isHexDigit then
      match afterUnit (Text.hexValue [a, b, c, d]) place with
      | some next => cut next rest
      | none => none
    else none
  | .inside read, '\\' :: c :: rest =>
    match unescaped? c with
    | some e => cut (.inside (e :: read)) rest
    | none => none
  | .inside read, c :: rest => if c.toNat < 0x20 then none else cut (.inside (c :: read)) rest
  | _, _ => none

/-! ## Values -/

/-- An array or an object that is still open, with what it holds so far, in reverse. -/
inductive Frame where
  | array (items : List Json)
  | object (fields : List (Text × Json)) (name : Text)

mutual

/-- The value of pieces that begin with a value, inside of what is open. -/
def readValue (stack : List Frame) : List Piece → Option Json
  | .string text :: rest => readAfter stack (.string text) rest
  | .openArray :: .closeArray :: rest => readAfter stack (.array []) rest
  | .openArray :: rest => readValue (.array [] :: stack) rest
  | .openObject :: .closeObject :: rest => readAfter stack (.object []) rest
  | .openObject :: .string name :: .colon :: rest => readValue (.object [] name :: stack) rest
  | _ => none

/-- The value of pieces behind `value`, inside of what is open. -/
def readAfter (stack : List Frame) (value : Json) : List Piece → Option Json
  | [] => if stack.isEmpty then some value else none
  | .comma :: rest =>
    match stack with
    | .array items :: stack => readValue (.array (value :: items) :: stack) rest
    | .object fields name :: stack =>
      match rest with
      | .string next :: .colon :: rest =>
        readValue (.object ((name, value) :: fields) next :: stack) rest
      | _ => none
    | [] => none
  | .closeArray :: rest =>
    match stack with
    | .array items :: stack => readAfter stack (.array (value :: items).reverse) rest
    | _ => none
  | .closeObject :: rest =>
    match stack with
    | .object fields name :: stack =>
      readAfter stack (.object ((name, value) :: fields).reverse) rest
    | _ => none
  | _ => none

end

/-- The value of a text. -/
def ofText (text : Text) : Option Json := cut .outside text >>= readValue []

/-! ## The pieces of a value -/

mutual

/-- The pieces that a value is written as. -/
def pieces : Json → List Piece
  | .string text => [.string text]
  | .array [] => [.openArray, .closeArray]
  | .array (item :: items) => .openArray :: (pieces item ++ moreItems items)
  | .object [] => [.openObject, .closeObject]
  | .object ((name, value) :: fields) =>
    .openObject :: .string name :: .colon :: (pieces value ++ moreFields fields)

/-- The pieces behind an item, up to the end of the array. -/
def moreItems : List Json → List Piece
  | [] => [.closeArray]
  | item :: items => .comma :: (pieces item ++ moreItems items)

/-- The pieces behind a field, up to the end of the object. -/
def moreFields : List (Text × Json) → List Piece
  | [] => [.closeObject]
  | (name, value) :: fields =>
    .comma :: .string name :: .colon :: (pieces value ++ moreFields fields)

end

/-! ## Cutting what is written -/

theorem cut_quote (read rest : Text) : cut (.inside read) ('"' :: rest) =
    (cut .outside rest).map (.string read.reverse :: ·) := by rw [cut]

theorem cut_escape {c e : Char} (h : unescaped? c = some e) (read rest : Text) :
    cut (.inside read) ('\\' :: c :: rest) = cut (.inside (e :: read)) rest := by
  rw [cut]
  · rw [h]
  · intro _ _ _ _ _ hc
    rw [hc] at h; cases h

theorem cut_char {c : Char} (hq : c ≠ '"') (hb : c ≠ '\\') (hc : 0x20 ≤ c.toNat)
    (read rest : Text) : cut (.inside read) (c :: rest) = cut (.inside (c :: read)) rest := by
  rw [cut, if_neg (by omega)]
  · exact hq
  · intro _ _ _ _ _ he; exact absurd he hb
  · intro _ _ he; exact absurd he hb

theorem hexValue_control : ∀ n < 0x20,
    let digits := ['0', '0', Nat.digitChar (n / 16), Nat.digitChar (n % 16)]
    digits.all Text.isHexDigit = true ∧ Text.hexValue digits = n := by decide

theorem cut_control {n : ℕ} (h : n < 0x20) (read rest : Text) :
    cut (.inside read)
        (['\\', 'u', '0', '0', Nat.digitChar (n / 16), Nat.digitChar (n % 16)] ++ rest) =
      cut (.inside (Char.ofNat n :: read)) rest := by
  obtain ⟨hd, hv⟩ := hexValue_control n h
  have hu : afterUnit n (.inside read) = some (.inside (Char.ofNat n :: read)) := by
    rw [afterUnit, if_pos]
    simp; omega
  simp only [List.cons_append, List.nil_append]
  rw [cut, if_pos hd, hv, hu]
  nofun

theorem cut_escaped (c : Char) (read rest : Text) :
    cut (.inside read) (escaped c ++ rest) = cut (.inside (c :: read)) rest := by
  by_cases hq : c = '"'
  · subst hq; exact cut_escape rfl read rest
  by_cases hb : c = '\\'
  · subst hb; exact cut_escape rfl read rest
  rw [escaped, if_neg (by simp [hq, hb])]
  split
  · rename_i h; subst h; exact cut_escape rfl read rest
  split
  · rename_i h; subst h; exact cut_escape rfl read rest
  split
  · rename_i h; subst h; exact cut_escape rfl read rest
  split
  · rename_i h; subst h; exact cut_escape rfl read rest
  split
  · rename_i h; subst h; exact cut_escape rfl read rest
  split
  · rename_i h
    have hc := cut_control h read rest
    rwa [Char.ofNat_toNat] at hc
  · exact cut_char hq hb (by omega) read rest

/-- The text is cut into the pieces, whatever follows it. -/
def Cuts (text : Text) (ps : List Piece) : Prop :=
  ∀ rest, cut .outside (text ++ rest) = (cut .outside rest).map (ps ++ ·)

theorem Cuts.append {s t : Text} {ps qs : List Piece} (hs : Cuts s ps) (ht : Cuts t qs) :
    Cuts (s ++ t) (ps ++ qs) := fun rest => by
  rw [List.append_assoc, hs, ht, Option.map_map]
  congr 1
  funext tail
  exact (List.append_assoc ps qs tail).symm

theorem cuts_quoted (text : Text) : Cuts (quoted text) [.string text] := fun rest => by
  have inside : ∀ read : Text, cut (.inside read) (text.flatMap escaped ++ '"' :: rest) =
      (cut .outside rest).map (.string (read.reverse ++ text) :: ·) := by
    induction text with
    | nil => intro read; rw [List.append_nil]; exact cut_quote read rest
    | cons c text ih =>
      intro read
      rw [List.flatMap_cons, List.append_assoc, cut_escaped, ih, List.reverse_cons,
        List.append_assoc]
      rfl
  have hopen : quoted text ++ rest = '"' :: (text.flatMap escaped ++ '"' :: rest) := by
    simp [quoted]
  rw [hopen, cut, if_neg (by decide), if_pos rfl]
  exact inside []

theorem cuts_mark {c : Char} {piece : Piece} (h : mark? c = some piece) :
    Cuts [c] [piece] := fun rest => by
  have hb : isBlank c = false := by
    unfold mark? at h
    split at h
    all_goals first | rfl | cases h
  have hq : c ≠ '"' := by rintro rfl; cases h
  rw [List.singleton_append, cut, hb, if_neg Bool.false_ne_true, if_neg hq, h]
  rfl

theorem cuts_field (name : Text) {text : Text} {ps : List Piece} (h : Cuts text ps) :
    Cuts (quoted name ++ [':'] ++ text) (.string name :: .colon :: ps) :=
  ((cuts_quoted name).append (cuts_mark (c := ':') rfl)).append h

theorem Cuts.comma {s t : Text} {ps qs : List Piece} (hs : Cuts s ps) (ht : Cuts t qs) :
    Cuts (s ++ [','] ++ t) (ps ++ .comma :: qs) := by
  have h := (hs.append (cuts_mark (c := ',') rfl)).append ht
  rwa [List.append_assoc ps] at h

mutual

theorem cuts_render : ∀ j : Json, Cuts (render j) (pieces j)
  | .string text => cuts_quoted text
  | .array [] => (cuts_mark (c := '[') rfl).append (cuts_mark rfl)
  | .array (item :: items) => by
    rw [render, pieces, List.append_assoc]
    exact (cuts_mark (c := '[') rfl).append (cuts_items item items)
  | .object [] => (cuts_mark (c := '{') rfl).append (cuts_mark rfl)
  | .object ((name, value) :: fields) => by
    rw [render, pieces, List.append_assoc]
    exact (cuts_mark (c := '{') rfl).append (cuts_fields name value fields)
termination_by j => sizeOf j

theorem cuts_items : ∀ (item : Json) (items : List Json),
    Cuts (renderItems (item :: items) ++ [']']) (pieces item ++ moreItems items)
  | item, [] => (cuts_render item).append (cuts_mark rfl)
  | item, next :: items => by
    rw [renderItems, List.append_assoc]
    · exact (cuts_render item).comma (cuts_items next items)
    · nofun
termination_by item items => sizeOf (item :: items)

theorem cuts_fields : ∀ (name : Text) (value : Json) (fields : List (Text × Json)),
    Cuts (renderFields ((name, value) :: fields) ++ ['}'])
      (.string name :: .colon :: (pieces value ++ moreFields fields))
  | name, value, [] => (cuts_field name (cuts_render value)).append (cuts_mark rfl)
  | name, value, (next, value') :: fields => by
    rw [renderFields, List.append_assoc]
    · exact (cuts_field name (cuts_render value)).comma (cuts_fields next value' fields)
    · nofun
termination_by name value fields => sizeOf ((name, value) :: fields)

end

/-! ## Reading the pieces of a value -/

theorem head?_pieces (j : Json) (rest : List Piece) :
    (pieces j ++ rest).head? ≠ some .closeArray := by
  cases j with
  | string text => simp [pieces]
  | array items => cases items <;> simp [pieces]
  | object fields => cases fields <;> simp [pieces]

theorem readValue_openArray {ps : List Piece} (h : ps.head? ≠ some .closeArray)
    (stack : List Frame) :
    readValue stack (.openArray :: ps) = readValue (.array [] :: stack) ps := by
  rw [readValue]
  rintro rest rfl
  exact h rfl

mutual

theorem readValue_pieces : ∀ (j : Json) (stack : List Frame) (rest : List Piece),
    readValue stack (pieces j ++ rest) = readAfter stack j rest
  | .string text, stack, rest => by rw [pieces, List.singleton_append, readValue]
  | .array [], stack, rest => by
    rw [pieces, List.cons_append, List.singleton_append, readValue]
  | .array (item :: items), stack, rest => by
    rw [pieces, List.cons_append, List.append_assoc, readValue_openArray (head?_pieces _ _),
      readValue_pieces item, readAfter_moreItems items]
    rfl
  | .object [], stack, rest => by
    rw [pieces, List.cons_append, List.singleton_append, readValue]
  | .object ((name, value) :: fields), stack, rest => by
    rw [pieces, List.cons_append, List.cons_append, List.cons_append, List.append_assoc, readValue,
      readValue_pieces value, readAfter_moreFields fields]
    rfl

theorem readAfter_moreItems : ∀ (items before : List Json) (item : Json) (stack : List Frame)
    (rest : List Piece), readAfter (.array before :: stack) item (moreItems items ++ rest) =
      readAfter stack (.array (before.reverse ++ item :: items)) rest
  | [], before, item, stack, rest => by
    rw [moreItems, List.singleton_append, readAfter]; simp
  | next :: items, before, item, stack, rest => by
    rw [moreItems, List.cons_append, List.append_assoc, readAfter, readValue_pieces next,
      readAfter_moreItems items]
    simp

theorem readAfter_moreFields : ∀ (fields before : List (Text × Json)) (name : Text) (value : Json)
    (stack : List Frame) (rest : List Piece),
    readAfter (.object before name :: stack) value (moreFields fields ++ rest) =
      readAfter stack (.object (before.reverse ++ (name, value) :: fields)) rest
  | [], before, name, value, stack, rest => by
    rw [moreFields, List.singleton_append, readAfter]; simp
  | (next, value') :: fields, before, name, value, stack, rest => by
    rw [moreFields, List.cons_append, List.cons_append, List.cons_append, List.append_assoc,
      readAfter, readValue_pieces value', readAfter_moreFields fields]
    simp

end

/-- The compact text of a value reads back. -/
theorem ofText_render (j : Json) : ofText j.render = some j := by
  have hc := cuts_render j []
  have hr := readValue_pieces j [] []
  rw [List.append_nil] at hc hr
  have hnil : cut .outside [] = some [] := by rw [cut]
  rw [ofText, hc, hnil]
  simp only [Option.map_some, List.append_nil, Option.bind_eq_bind, Option.bind_some, hr]
  simp [readAfter]

/-- Blanks between pieces, and two escapes that make one character. -/
example : ofText "[ \"\\ud83d\\ude00\", [] ]".toList =
    some (.array [.string [Char.ofNat 0x1F600], .array []]) := by rfl

end BinaryPoint.Json
