import Mathlib.Data.List.Induction
import Mathlib.Tactic.IntervalCases
import Mathlib.Tactic.Ring
import BinaryPoint.Text.Basic

/-!
# Numbers as runs of digits

What a run of digits is worth, from its parts, and the run that a number is written as.

* `valueIn_append`, `valueIn_lt`: the value of a run from its parts, and its bound.
* `valueIn_padded`: a padded number reads back as its low digits.
* `decimalValue_append_zeros`, `length_dropWhile_le_iff`: zeros at the end, and digits without
  leading zeros.
* `padded_valueIn`: digits written again are the same digits as capitals.
-/
namespace BinaryPoint.Text

/-! ## Single digits -/

theorem mem_of_isDigit {c : Char} (h : isDigit c = true) : c ∈ "0123456789".toList := by
  simp only [isDigit, Bool.and_eq_true, decide_eq_true_eq, Char.le_def, UInt32.le_iff_toNat_le] at h
  have hc : c = Char.ofNat c.toNat := (Char.ofNat_toNat c).symm
  have h1 : 48 ≤ c.toNat := h.1
  have h2 : c.toNat ≤ 57 := h.2
  rw [hc]; interval_cases c.toNat <;> decide

theorem mem_of_isHexDigit {c : Char} (h : isHexDigit c = true) :
    c ∈ "0123456789abcdefABCDEF".toList := by
  simp only [isHexDigit, Bool.or_eq_true, Bool.and_eq_true, decide_eq_true_eq, Char.le_def,
    UInt32.le_iff_toNat_le] at h
  have hc : c = Char.ofNat c.toNat := (Char.ofNat_toNat c).symm
  rcases h with (h | h) | h
  · exact List.mem_append_left "abcdefABCDEF".toList (mem_of_isDigit h)
  · have h1 : 97 ≤ c.toNat := h.1
    have h2 : c.toNat ≤ 102 := h.2
    rw [hc]; interval_cases c.toNat <;> decide
  · have h1 : 65 ≤ c.toNat := h.1
    have h2 : c.toNat ≤ 70 := h.2
    rw [hc]; interval_cases c.toNat <;> decide

/-- What each of the ten digits satisfies. -/
@[elab_as_elim] theorem of_isDigit {motive : Char → Prop} [DecidablePred motive] {c : Char}
    (h : isDigit c = true) (digits : "0123456789".toList.all (motive ·) = true) : motive c :=
  of_decide_eq_true (List.all_eq_true.mp digits c (mem_of_isDigit h))

/-- What each of the hex digits of both cases satisfies. -/
@[elab_as_elim] theorem of_isHexDigit {motive : Char → Prop} [DecidablePred motive] {c : Char}
    (h : isHexDigit c = true) (digits : "0123456789abcdefABCDEF".toList.all (motive ·) = true) :
    motive c :=
  of_decide_eq_true (List.all_eq_true.mp digits c (mem_of_isHexDigit h))

theorem digitValue_zero : digitValue '0' = 0 := rfl

theorem digitValue_of_isDigit {c : Char} (h : isDigit c = true) : digitValue c < 10 :=
  of_isDigit h (by decide)

theorem isHexDigit_of_isDigit {c : Char} (h : isDigit c = true) : isHexDigit c = true :=
  of_isDigit h (by decide)

theorem toUpper_of_isDigit {c : Char} (h : isDigit c = true) : c.toUpper = c :=
  of_isDigit h (by decide)

theorem digitValue_of_isHexDigit {c : Char} (h : isHexDigit c = true) : digitValue c < 16 :=
  of_isHexDigit h (by decide)

theorem digit_digitValue {c : Char} (h : isHexDigit c = true) : digit (digitValue c) = c.toUpper :=
  of_isHexDigit h (by decide)

theorem utf8Size_of_isHexDigit {c : Char} (h : isHexDigit c = true) : c.utf8Size = 1 :=
  of_isHexDigit h (by decide)

theorem digitValue_digit {d : Nat} (h : d < 16) : digitValue (digit d) = d := by
  interval_cases d <;> decide

theorem isDigit_digit {d : Nat} (h : d < 10) : isDigit (digit d) = true := by
  interval_cases d <;> decide

theorem isHexDigit_digit {d : Nat} (h : d < 16) : isHexDigit (digit d) = true := by
  interval_cases d <;> decide

/-! ## Runs -/

theorem isDigits_iff {digits : Text} :
    isDigits digits = true ↔ digits ≠ [] ∧ ∀ c ∈ digits, isDigit c = true := by
  simp [isDigits, List.all_eq_true]

theorem isHexDigits_iff {digits : Text} :
    isHexDigits digits = true ↔ digits ≠ [] ∧ ∀ c ∈ digits, isHexDigit c = true := by
  simp [isHexDigits, List.all_eq_true]

theorem byteLength_of_isHexDigit {digits : Text} (h : ∀ c ∈ digits, isHexDigit c = true) :
    byteLength digits = digits.length := by
  induction digits with
  | nil => rfl
  | cons c rest ih =>
    have hr := ih fun d hd => h d (List.mem_cons_of_mem _ hd)
    rw [byteLength] at hr ⊢
    rw [List.foldr_cons, utf8Size_of_isHexDigit (h c List.mem_cons_self), hr, List.length_cons,
      Nat.add_comm]

theorem foldl_valueIn (base : Nat) (digits : Text) : ∀ n : Nat,
    digits.foldl (fun n c => n * base + digitValue c) n =
      n * base ^ digits.length + valueIn base digits := by
  induction digits with
  | nil => intro n; simp [valueIn]
  | cons c rest ih =>
    intro n
    rw [valueIn, List.foldl_cons, List.foldl_cons, ih, ih (0 * base + digitValue c),
      List.length_cons]
    ring

theorem valueIn_append (base : Nat) (a b : Text) :
    valueIn base (a ++ b) = valueIn base a * base ^ b.length + valueIn base b := by
  rw [valueIn, List.foldl_append]; exact foldl_valueIn base b _

theorem valueIn_cons (base : Nat) (c : Char) (rest : Text) :
    valueIn base (c :: rest) = digitValue c * base ^ rest.length + valueIn base rest := by
  rw [← List.singleton_append, valueIn_append]; simp [valueIn]

theorem valueIn_concat (base : Nat) (digits : Text) (c : Char) :
    valueIn base (digits ++ [c]) = valueIn base digits * base + digitValue c := by
  simp [valueIn]

theorem valueIn_lt {base : Nat} {digits : Text} (h : ∀ c ∈ digits, digitValue c < base) :
    valueIn base digits < base ^ digits.length := by
  induction digits with
  | nil => simp [valueIn]
  | cons c rest ih =>
    rw [valueIn_cons, List.length_cons, Nat.pow_succ]
    have hc := h c List.mem_cons_self
    have hr := ih fun d hd => h d (List.mem_cons_of_mem _ hd)
    calc digitValue c * base ^ rest.length + valueIn base rest
        < digitValue c * base ^ rest.length + base ^ rest.length := by omega
      _ = (digitValue c + 1) * base ^ rest.length := by ring
      _ ≤ base * base ^ rest.length := Nat.mul_le_mul_right _ hc
      _ = base ^ rest.length * base := Nat.mul_comm ..

theorem decimalValue_lt {digits : Text} (h : ∀ c ∈ digits, isDigit c = true) :
    decimalValue digits < 10 ^ digits.length :=
  valueIn_lt fun c hc => digitValue_of_isDigit (h c hc)

theorem decimalValue_cons (c : Char) (rest : Text) :
    decimalValue (c :: rest) = digitValue c * 10 ^ rest.length + decimalValue rest :=
  valueIn_cons 10 c rest

/-! ## Zeros at either end -/

theorem decimalValue_replicate_zero (n : Nat) : decimalValue (List.replicate n '0') = 0 := by
  induction n with
  | zero => rfl
  | succ n ih => rw [List.replicate_succ, decimalValue_cons, ih, digitValue_zero, Nat.zero_mul]

theorem decimalValue_append_zeros (digits : Text) (n : Nat) :
    decimalValue (digits ++ List.replicate n '0') = decimalValue digits * 10 ^ n := by
  have h := valueIn_append 10 digits (List.replicate n '0')
  have hz := decimalValue_replicate_zero n
  rw [decimalValue] at hz
  rwa [hz, List.length_replicate] at h

theorem decimalValue_dropWhile (digits : Text) :
    decimalValue (digits.dropWhile (· = '0')) = decimalValue digits := by
  induction digits with
  | nil => rfl
  | cons c rest ih =>
    rw [List.dropWhile_cons]
    split
    · rename_i hc
      rw [ih, decimalValue_cons, of_decide_eq_true hc, digitValue_zero, Nat.zero_mul, Nat.zero_add]
    · rfl

/-- Without leading zeros, the number of digits says how great the number is. -/
theorem pow_le_decimalValue {c : Char} (hc : isDigit c = true) (hz : c ≠ '0') (rest : Text) :
    10 ^ rest.length ≤ decimalValue (c :: rest) := by
  have hd : c ≠ '0' → 1 ≤ digitValue c := of_isDigit hc (by decide)
  calc 10 ^ rest.length = 1 * 10 ^ rest.length := (Nat.one_mul _).symm
    _ ≤ digitValue c * 10 ^ rest.length := Nat.mul_le_mul_right _ (hd hz)
    _ ≤ decimalValue (c :: rest) := by rw [decimalValue_cons]; exact Nat.le_add_right _ _

theorem length_dropWhile_le_iff {digits : Text} (h : ∀ c ∈ digits, isDigit c = true) (n : Nat) :
    (digits.dropWhile (· = '0')).length ≤ n ↔ decimalValue digits < 10 ^ n := by
  have hs : ∀ c ∈ digits.dropWhile (· = '0'), isDigit c = true := fun c hc =>
    h c ((List.dropWhile_sublist _).mem hc)
  rw [← decimalValue_dropWhile digits]
  constructor
  · exact fun hl => (decimalValue_lt hs).trans_le (Nat.pow_le_pow_right (by decide) hl)
  · intro hv
    cases hd : digits.dropWhile (· = '0') with
    | nil => exact Nat.zero_le n
    | cons c rest =>
      have hz : c ≠ '0' := by
        have := List.head?_dropWhile_not (fun c : Char => decide (c = '0')) digits
        rw [hd] at this
        simpa using this
      rw [hd] at hs hv
      have hle := pow_le_decimalValue (hs c List.mem_cons_self) hz rest
      exact (Nat.pow_lt_pow_iff_right (by decide)).mp (hle.trans_lt hv)

/-! ## Padded numbers -/

theorem length_padded (base : Nat) : ∀ width n : Nat, (padded base width n).length = width
  | 0, _ => rfl
  | width + 1, n => by rw [padded, List.length_append, length_padded]; rfl

theorem isDigit_of_mem_padded : ∀ (width n : Nat), ∀ c ∈ padded 10 width n, isDigit c = true
  | 0, _ => nofun
  | width + 1, n => by
    intro c hc
    rcases List.mem_append.mp hc with hc | hc
    · exact isDigit_of_mem_padded width _ c hc
    · rw [List.mem_singleton.mp hc]; exact isDigit_digit (Nat.mod_lt _ (by decide))

theorem isHexDigit_of_mem_padded : ∀ (width n : Nat), ∀ c ∈ padded 16 width n, isHexDigit c = true
  | 0, _ => nofun
  | width + 1, n => by
    intro c hc
    rcases List.mem_append.mp hc with hc | hc
    · exact isHexDigit_of_mem_padded width _ c hc
    · rw [List.mem_singleton.mp hc]; exact isHexDigit_digit (Nat.mod_lt _ (by decide))

theorem valueIn_padded {base : Nat} (hb : 0 < base) (h : base ≤ 16) : ∀ width n : Nat,
    valueIn base (padded base width n) = n % base ^ width
  | 0, n => by simp [padded, valueIn, Nat.mod_one]
  | width + 1, n => by
    have hd : n % base < 16 := Nat.lt_of_lt_of_le (Nat.mod_lt _ hb) h
    rw [padded, valueIn_concat, valueIn_padded hb h width, digitValue_digit hd, Nat.pow_succ,
      Nat.mul_comm (base ^ width), Nat.mod_mul]
    ring

/-- Digits written again, in a width that holds them. -/
theorem padded_valueIn {base : Nat} (digits : Text) : ∀ {width : Nat}, digits.length ≤ width →
    (∀ c ∈ digits, isHexDigit c = true ∧ digitValue c < base) →
    padded base width (valueIn base digits) = (digits.map Char.toUpper).leftpad width '0' := by
  induction digits using List.reverseRecOn with
  | nil =>
    intro width _ _
    induction width with
    | zero => rfl
    | succ width ih =>
      have hz : valueIn base [] = 0 := rfl
      rw [hz] at ih ⊢
      rw [padded, Nat.zero_div, Nat.zero_mod, ih (Nat.zero_le _)]
      simp only [List.map_nil, List.leftpad, List.length_nil, Nat.sub_zero, List.append_nil,
        List.replicate_succ']
      rfl
  | append_singleton digits c ih =>
    intro width hw hd
    rw [List.length_append, List.length_singleton] at hw
    obtain ⟨width, rfl⟩ : ∃ w, width = w + 1 := ⟨width - 1, by omega⟩
    obtain ⟨hc, hlt⟩ : isHexDigit c = true ∧ digitValue c < base := hd c (by simp)
    have hdiv : valueIn base (digits ++ [c]) / base = valueIn base digits := by
      rw [valueIn_concat, Nat.mul_comm, Nat.mul_add_div (by omega), Nat.div_eq_of_lt hlt,
        Nat.add_zero]
    have hmod : valueIn base (digits ++ [c]) % base = digitValue c := by
      rw [valueIn_concat, Nat.mul_comm, Nat.mul_add_mod, Nat.mod_eq_of_lt hlt]
    rw [padded, hdiv, hmod, digit_digitValue hc,
      ih (by omega) fun d hm => hd d (List.mem_append_left _ hm)]
    simp [List.leftpad]

theorem padded_hexValue {digits : Text} {width : Nat} (hw : digits.length ≤ width)
    (hd : ∀ c ∈ digits, isHexDigit c = true) :
    padded 16 width (hexValue digits) = (digits.map Char.toUpper).leftpad width '0' :=
  padded_valueIn digits hw fun c hc => ⟨hd c hc, digitValue_of_isHexDigit (hd c hc)⟩

theorem padded_decimalValue {digits : Text} {width : Nat} (hw : digits.length ≤ width)
    (hd : ∀ c ∈ digits, isDigit c = true) :
    padded 10 width (decimalValue digits) = digits.leftpad width '0' := by
  have hu : digits.map Char.toUpper = digits := by
    exact (List.map_congr_left fun c hc => toUpper_of_isDigit (hd c hc)).trans (List.map_id digits)
  rw [decimalValue, padded_valueIn digits hw fun c hc => ⟨isHexDigit_of_isDigit (hd c hc),
    digitValue_of_isDigit (hd c hc)⟩, hu]

theorem padded_decimalValue_self {digits : Text} (hd : ∀ c ∈ digits, isDigit c = true) :
    padded 10 digits.length (decimalValue digits) = digits := by
  rw [padded_decimalValue le_rfl hd, List.leftpad, Nat.sub_self]
  rfl

end BinaryPoint.Text
