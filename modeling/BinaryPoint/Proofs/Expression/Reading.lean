import BinaryPoint.Proofs.Expression.Derivation

/-!
# Reading the leaves of a derivation

`Reads p ls d rest` says that the phrase `p`, in front of `ls ++ rest`, consumes exactly `ls`
and has the outcome `d`: its value, or its error. The combinators of phrases keep this
(`reads_andThen`, `reads_check`, `reads_chain`), so each rule of the grammar reads the leaves
of each of its derivations, with the value of the derivation as outcome, as long as the
lexemes behind them do not continue the rule (`NotBefore`).

* `Expression.reads`: within the nesting that is allowed, the phrase for expressions reads the
  leaves of a derivation and gives its value or its error.
-/
namespace BinaryPoint.Derivation

open Phrase

variable {α β : Type}

/-! ## Phrases with a known outcome -/

/-- In front of `ls ++ rest` the phrase consumes `ls` and has the outcome `d`. -/
def Reads (p : Phrase α) (ls : List Lexeme) (d : Except EvalError α) (rest : List Lexeme) : Prop :=
  p.read (ls ++ rest) = d.map fun a => (a, rest)

/-- Going on from `a` in front of `ls ++ rest` consumes `ls` and has the outcome `d`. -/
def Continues (next : α → Lexeme → Option (Phrase α)) (a : α) (ls : List Lexeme)
    (d : Except EvalError α) (rest : List Lexeme) : Prop :=
  continueFrom next a (ls ++ rest) = d.map fun b => (b, rest)

theorem reads_mark (m : Mark) (expected : Expected) (rest : List Lexeme) :
    Reads (Phrase.mark m expected) [.mark m] (.ok ()) rest := by
  simp [Reads, Phrase.mark, one, Except.map]

theorem reads_name (name : Text) (expected : Expected) (rest : List Lexeme) :
    Reads (Phrase.name expected) [.name name] (.ok name) rest := by
  simp [Reads, Phrase.name, one, Except.map]

theorem reads_andThen {p : Phrase α} {q : α → Phrase β} {ls ls' rest : List Lexeme}
    {d : Except EvalError α} {d' : α → Except EvalError β} (hp : Reads p ls d (ls' ++ rest))
    (hq : ∀ a, d = .ok a → Reads (q a) ls' (d' a) rest) :
    Reads (p.andThen q) (ls ++ ls') (d >>= d') rest := by
  simp only [Reads, andThen, List.append_assoc] at hp hq ⊢
  rw [hp]
  cases d with
  | error e => rfl
  | ok a => exact hq a rfl

theorem reads_check {p : Phrase α} {f : α → Except EvalError β} {ls rest : List Lexeme}
    {d : Except EvalError α} (hp : Reads p ls d rest) : Reads (p.check f) ls (d >>= f) rest := by
  simp only [Reads, check] at hp ⊢
  rw [hp]
  cases d with
  | error e => rfl
  | ok a =>
    simp only [Except.map, bind, Except.bind]
    cases f a <;> rfl

theorem reads_byHead {expected : Expected} {next : Lexeme → Option (Phrase α)} {l : Lexeme}
    {p : Phrase α} (hn : next l = some p) {ls rest : List Lexeme} {d : Except EvalError α}
    (hp : Reads p ls d rest) : Reads (byHead expected next) (l :: ls) d rest := by
  simpa only [Reads, byHead, List.cons_append, hn] using hp

theorem ne_of_head? {m m' : Mark} {s rest : List Lexeme} (hm : s.head? ≠ some (.mark m))
    (h : s = .mark m' :: rest) : m' ≠ m := by
  rintro rfl; exact hm (by rw [h]; rfl)

theorem reads_ifMark_yes {m : Mark} {yes no : Phrase α} {ls rest : List Lexeme}
    {d : Except EvalError α} (hp : Reads yes ls d rest) :
    Reads (ifMark m yes no) (.mark m :: ls) d rest := by
  simpa only [Reads, ifMark, List.cons_append, if_true] using hp

theorem reads_ifMark_no {m : Mark} {yes no : Phrase α} {ls rest : List Lexeme}
    {d : Except EvalError α} (hm : (ls ++ rest).head? ≠ some (.mark m))
    (hp : Reads no ls d rest) : Reads (ifMark m yes no) ls d rest := by
  simp only [Reads, ifMark] at hp ⊢
  split
  · rename_i h; rw [if_neg (ne_of_head? hm h)]; exact hp
  · exact hp

theorem reads_orMark_mark {m : Mark} {a : α} {no : Phrase α} {rest : List Lexeme} :
    Reads (orMark m a no) [.mark m] (.ok a) rest := by
  simp [Reads, orMark, Except.map]

theorem reads_orMark_no {m : Mark} {a : α} {no : Phrase α} {ls rest : List Lexeme}
    {d : Except EvalError α} (hm : (ls ++ rest).head? ≠ some (.mark m))
    (hp : Reads no ls d rest) : Reads (orMark m a no) ls d rest := by
  simp only [Reads, orMark] at hp ⊢
  split
  · rename_i h; rw [if_neg (ne_of_head? hm h)]; exact hp
  · exact hp

theorem continueFrom_cons {next : α → Lexeme → Option (Phrase α)} {a : α} {l : Lexeme}
    {p : Phrase α} (hn : next a l = some p) (s : List Lexeme) :
    continueFrom next a (l :: s) =
      match p.read s with
      | .ok (b, rest) => continueFrom next b rest
      | .error e => .error e := by
  rw [continueFrom]
  split
  · rename_i h; rw [hn] at h; cases h
  · rename_i q h
    rw [hn] at h; cases h
    split <;> rename_i h <;> rw [h]

theorem continues_nil {next : α → Lexeme → Option (Phrase α)} {a : α} {rest : List Lexeme}
    (h : ∀ l ∈ rest.head?, next a l = none) : Continues next a [] (.ok a) rest := by
  cases rest with
  | nil => simp [Continues, continueFrom, Except.map]
  | cons l s =>
    rw [Continues, List.nil_append, continueFrom]
    split
    · rfl
    · rename_i hn; rw [h l rfl] at hn; cases hn

theorem continues_cons {next : α → Lexeme → Option (Phrase α)} {a : α} {l : Lexeme} {p : Phrase α}
    (hn : next a l = some p) {ls ls' rest : List Lexeme} {d : Except EvalError α}
    {d' : α → Except EvalError α} (hp : Reads p ls d (ls' ++ rest))
    (hr : ∀ b, d = .ok b → Continues next b ls' (d' b) rest) :
    Continues next a (l :: (ls ++ ls')) (d >>= d') rest := by
  simp only [Reads, Continues, List.cons_append, List.append_assoc] at hp hr ⊢
  rw [continueFrom_cons hn, hp]
  cases d with
  | error e => rfl
  | ok b => exact hr b rfl

theorem reads_chain {first : Phrase α} {next : α → Lexeme → Option (Phrase α)}
    {ls ls' rest : List Lexeme} {d : Except EvalError α} {d' : α → Except EvalError α}
    (hf : Reads first ls d (ls' ++ rest))
    (hr : ∀ a, d = .ok a → Continues next a ls' (d' a) rest) :
    Reads (chain first next) (ls ++ ls') (d >>= d') rest := by
  simp only [Reads, Continues, chain, List.append_assoc] at hf hr ⊢
  rw [hf]
  cases d with
  | error e => rfl
  | ok a => exact hr a rfl

/-! ## The rules of the grammar -/

/-- The phrase for an expression one level further in, when `levels` levels are left. -/
def inner (limit : Nat) : (levels : Nat) → Phrase Quantity
  | 0 => .fail (.tooDeep limit)
  | levels + 1 => Grammar.expression limit levels

theorem expression_eq (limit levels : Nat) :
    Grammar.expression limit levels = Grammar.sum (inner limit levels) := by
  cases levels <;> rfl

theorem nextOperand_additive (right : Phrase Quantity) (left : Quantity) (op : Additive) :
    Grammar.nextOperand Grammar.additive right left (.mark op.mark) =
      some (right.check (Quantity.apply op.operation left)) := by
  cases op <;> rfl

theorem nextOperand_multiplicative (right : Phrase Quantity) (left : Quantity)
    (op : Multiplicative) :
    Grammar.nextOperand Grammar.multiplicative right left (.mark op.mark) =
      some (right.check (Quantity.apply op.operation left)) := by
  cases op <;> rfl

theorem additive_eq_none {l : Lexeme} (hp : l ≠ .mark .plus) (hm : l ≠ .mark .minus) :
    Grammar.additive l = none := by
  unfold Grammar.additive
  split
  · exact absurd rfl hp
  · exact absurd rfl hm
  · rfl

theorem multiplicative_eq_none {l : Lexeme} (hs : l ≠ .mark .star) (hd : l ≠ .mark .slash) :
    Grammar.multiplicative l = none := by
  unfold Grammar.multiplicative
  split
  · exact absurd rfl hs
  · exact absurd rfl hd
  · rfl

theorem nextMethod_eq_none {p : Phrase Quantity} {receiver : Quantity} {l : Lexeme}
    (hd : l ≠ .mark .dot) : Grammar.nextMethod p receiver l = none := by
  unfold Grammar.nextMethod
  split
  · exact absurd rfl hd
  · rfl

theorem nextArgument_eq_none {p : Phrase Quantity} {arguments : List BinaryPoint.Argument}
    {l : Lexeme} (hc : l ≠ .mark .comma) : Grammar.nextArgument p arguments l = none := by
  unfold Grammar.nextArgument
  split
  · exact absurd rfl hc
  · rfl

theorem negateTimes_succ (n : Nat) (q : Quantity) :
    Quantity.negateTimes (n + 1) q = (do (← Quantity.negateTimes n q).negate) := by
  induction n generalizing q with
  | zero =>
    simp only [Quantity.negateTimes, bind, Except.bind]
    cases q.negate <;> rfl
  | succ n ih =>
    rw [Quantity.negateTimes, Quantity.negateTimes]
    cases q.negate with
    | error e => rfl
    | ok r => exact ih r

/-- The signs before a factor are counted first and applied once its operand is known. -/
theorem reads_factor {p : Phrase Quantity} {ls rest : List Lexeme} {d : Except EvalError Quantity}
    (n : Nat) (ho : ∀ l ∈ ls.head?, l ≠ .mark .minus) (hne : ls ≠ [])
    (hp : Reads (Grammar.operand p) ls d rest) :
    Reads (Grammar.factor p) (List.replicate n (.mark .minus) ++ ls)
      (d >>= Quantity.negateTimes n) rest := by
  obtain ⟨l, tail, rfl⟩ := List.exists_cons_of_ne_nil hne
  have hl : l ≠ .mark .minus := ho l rfl
  simp only [Reads, Grammar.factor, afterMarks, List.append_assoc, List.cons_append]
  have ht : (List.replicate n (Lexeme.mark .minus) ++ l :: (tail ++ rest)).takeWhile
      (· = .mark .minus) = List.replicate n (.mark .minus) := by
    rw [List.takeWhile_append_of_pos (by simp)]; simp [hl]
  have hd : (List.replicate n (Lexeme.mark .minus) ++ l :: (tail ++ rest)).dropWhile
      (· = .mark .minus) = l :: (tail ++ rest) := by
    rw [List.dropWhile_append_of_pos (by simp)]; simp [hl]
  rw [ht, hd, List.length_replicate]
  exact reads_check hp

theorem reads_group {p : Phrase Quantity} {ls rest : List Lexeme} {d : Except EvalError Quantity}
    (hp : Reads p ls d (.mark .closeParen :: rest)) :
    Reads (Grammar.primary p) (.mark .openParen :: (ls ++ [.mark .closeParen])) d rest := by
  have hq : Reads (p.andThen fun q => (Phrase.mark .closeParen .closeParen).map fun _ => q)
      (ls ++ [.mark .closeParen]) (d >>= fun q => .ok () >>= fun _ => .ok q) rest :=
    reads_andThen hp fun q _ => reads_check (reads_mark _ _ rest)
  have hd : (d >>= fun q => Except.ok () >>= fun _ => .ok q) = d := by cases d <;> rfl
  rw [hd] at hq
  exact reads_byHead rfl hq

theorem reads_function {p : Phrase Quantity} {ls rest : List Lexeme} {name : Text}
    {d : Except EvalError (List BinaryPoint.Argument)} (hp : Reads (Grammar.arguments p) ls d rest)
    (hh : ls.head? = some (.mark .openParen)) :
    Reads (Grammar.primary p) (.name name :: ls) (d >>= Call.function name) rest := by
  refine reads_byHead rfl (reads_ifMark_no ?_ (reads_check hp))
  cases ls with
  | nil => cases hh
  | cons l tail => cases hh; nofun

theorem reads_member {p : Phrase Quantity} {ls rest : List Lexeme} {holder name : Text}
    {d : Except EvalError (List BinaryPoint.Argument)} (hp : Reads (Grammar.arguments p) ls d rest) :
    Reads (Grammar.primary p) (.name holder :: .mark .dot :: .name name :: ls)
      (d >>= Call.member holder name) rest := by
  have hn : Reads (Phrase.name .functionName) [.name name] (.ok name) (ls ++ rest) :=
    reads_name name _ _
  have hm : Reads ((Phrase.name .functionName).andThen fun n =>
      (Grammar.arguments p).check (Call.member holder n)) ([.name name] ++ ls)
      (.ok name >>= fun n => d >>= Call.member holder n) rest :=
    reads_andThen hn fun _ _ => reads_check hp
  exact reads_byHead rfl (reads_ifMark_yes hm)

theorem Arguments.head_leaves (a : Arguments) : a.leaves.head? = some (.mark .openParen) := by
  cases a <;> rfl

theorem reads_value {p : Phrase Quantity} {e : Expression} {rest : List Lexeme}
    {d : Except EvalError Quantity} (hp : Reads p e.leaves d rest) :
    Reads (Grammar.argument p) (Argument.value e).leaves
      (d >>= fun q => .ok (BinaryPoint.Argument.quantity q)) rest := by
  obtain ⟨l, tail, he, ho⟩ := e.leaves_eq
  have hm : Reads (p.map BinaryPoint.Argument.quantity) e.leaves
      (d >>= fun q => .ok (BinaryPoint.Argument.quantity q)) rest := reads_check hp
  simp only [Reads, Argument.leaves, he, List.cons_append] at hm ⊢
  rw [← hm]
  cases l with
  | quoted t => rcases ho with h | h <;> cases h
  | name t => rfl
  | mark m => rfl

/-- Arguments are collected in reverse, one behind each comma. -/
theorem reads_arguments {p : Phrase Quantity} {a : Argument} {more : Arguments} {rest : List Lexeme}
    {d : Except EvalError BinaryPoint.Argument}
    {d' : Except EvalError (List BinaryPoint.Argument)}
    (ha : Reads (Grammar.argument p) a.leaves d (more.moreLeaves ++ (.mark .closeParen :: rest)))
    (hm : ∀ v, d = .ok v → Continues (Grammar.nextArgument p) [v] more.moreLeaves
      (d'.map fun values => values.reverse ++ [v]) (.mark .closeParen :: rest)) :
    Reads (Grammar.arguments p) (Arguments.cons a more).leaves
      (d >>= fun v => d' >>= fun values => .ok (v :: values)) rest := by
  have hf : Reads ((Grammar.argument p).map ([·])) a.leaves (d >>= fun v => .ok [v])
      (more.moreLeaves ++ (.mark .closeParen :: rest)) := reads_check ha
  have hc : Reads (chain ((Grammar.argument p).map ([·])) (Grammar.nextArgument p))
      (a.leaves ++ more.moreLeaves) (d >>= (fun v => .ok [v]) >>= fun collected =>
        d'.map fun values => values.reverse ++ collected) (.mark .closeParen :: rest) := by
    refine reads_chain hf fun collected hv => ?_
    cases d with
    | error e => cases hv
    | ok v => cases hv; exact hm v rfl
  have hr : Reads ((chain ((Grammar.argument p).map ([·])) (Grammar.nextArgument p)).andThen
      fun reversed => (Phrase.mark .closeParen .argumentEnd).map fun _ => reversed.reverse)
      (a.leaves ++ more.moreLeaves ++ [.mark .closeParen]) (d >>= (fun v => .ok [v]) >>=
        (fun collected => d'.map fun values => values.reverse ++ collected) >>=
        fun reversed => .ok () >>= fun _ => .ok reversed.reverse) rest :=
    reads_andThen hc fun reversed _ => reads_check (reads_mark _ _ rest)
  have hd : (d >>= (fun v => .ok [v]) >>=
      (fun collected => d'.map fun values => values.reverse ++ collected) >>=
      fun reversed => .ok () >>= fun _ => .ok reversed.reverse) =
        d >>= fun v => d' >>= fun values => .ok (v :: values) := by
    cases d with
    | error e => rfl
    | ok v => cases d' <;> simp [bind, Except.bind, Except.map]
  rw [hd, List.append_assoc] at hr
  have ho := reads_orMark_no (a := []) (m := .closeParen)
    (by rw [List.append_assoc]; exact a.head_ne_closeParen _) hr
  exact reads_andThen (reads_mark .openParen .openParen _) fun _ _ => ho

/-! ## Derivations -/

mutual

/-- **Reading a derivation.** Within the levels that are left, the phrase for expressions
consumes the leaves of a derivation and has its value, or its error, as outcome. -/
theorem Expression.reads (limit : Nat) : ∀ (e : Expression) (levels : Nat) (rest : List Lexeme),
    e.nesting ≤ levels → NotBefore expressionMarks rest →
    Reads (Grammar.expression limit levels) e.leaves e.denote rest
  | .mk first terms, levels, rest, hn, hr => by
    rw [Expression.nesting, Nat.max_le] at hn
    rw [expression_eq]
    exact reads_chain (first.reads limit levels _ hn.1 (terms.notBefore hr)) fun left _ =>
      terms.continues limit levels rest hn.2 hr left

theorem Terms.continues (limit : Nat) : ∀ (ts : Terms) (levels : Nat) (rest : List Lexeme),
    ts.nesting ≤ levels → NotBefore expressionMarks rest → ∀ left : Quantity,
    Continues (Grammar.nextOperand Grammar.additive (Grammar.term (inner limit levels))) left
      ts.leaves (ts.denote left) rest
  | .nil, levels, rest, _, hr, left => by
    refine continues_nil fun l hl => ?_
    have hp := hr .plus (by decide)
    have hm := hr .minus (by decide)
    rw [Option.mem_def.mp hl] at hp hm
    simp only [Grammar.nextOperand, Option.map_eq_none_iff]
    exact additive_eq_none (fun e => hp (congrArg some e)) (fun e => hm (congrArg some e))
  | .cons op term terms, levels, rest, hn, hr, left => by
    rw [Terms.nesting, Nat.max_le] at hn
    have ht := term.reads limit levels _ hn.1 (terms.notBefore hr)
    have hc := continues_cons (nextOperand_additive _ left op) (reads_check ht) fun b _ =>
      terms.continues limit levels rest hn.2 hr b
    have hd : (term.denote >>= Quantity.apply op.operation left) >>= terms.denote =
        (Terms.cons op term terms).denote left := by
      rw [Terms.denote]; cases term.denote <;> rfl
    rwa [hd] at hc

theorem Term.reads (limit : Nat) : ∀ (t : Term) (levels : Nat) (rest : List Lexeme),
    t.nesting ≤ levels → NotBefore termMarks rest →
    Reads (Grammar.term (inner limit levels)) t.leaves t.denote rest
  | .mk first factors, levels, rest, hn, hr => by
    rw [Term.nesting, Nat.max_le] at hn
    exact reads_chain (first.reads limit levels _ hn.1 (factors.notBefore hr)) fun left _ =>
      factors.continues limit levels rest hn.2 hr left

theorem Factors.continues (limit : Nat) : ∀ (fs : Factors) (levels : Nat) (rest : List Lexeme),
    fs.nesting ≤ levels → NotBefore termMarks rest → ∀ left : Quantity,
    Continues (Grammar.nextOperand Grammar.multiplicative (Grammar.factor (inner limit levels)))
      left fs.leaves (fs.denote left) rest
  | .nil, levels, rest, _, hr, left => by
    refine continues_nil fun l hl => ?_
    have hs := hr .star (by decide)
    have hd := hr .slash (by decide)
    rw [Option.mem_def.mp hl] at hs hd
    simp only [Grammar.nextOperand, Option.map_eq_none_iff]
    exact multiplicative_eq_none (fun e => hs (congrArg some e)) (fun e => hd (congrArg some e))
  | .cons op factor factors, levels, rest, hn, hr, left => by
    rw [Factors.nesting, Nat.max_le] at hn
    have hf := factor.reads limit levels _ hn.1 (factors.notBefore hr)
    have hc := continues_cons (nextOperand_multiplicative _ left op) (reads_check hf) fun b _ =>
      factors.continues limit levels rest hn.2 hr b
    have hd : (factor.denote >>= Quantity.apply op.operation left) >>= factors.denote =
        (Factors.cons op factor factors).denote left := by
      rw [Factors.denote]; cases factor.denote <;> rfl
    rwa [hd] at hc

theorem Factor.reads (limit : Nat) (f : Factor) (levels : Nat) (rest : List Lexeme)
    (hn : f.nesting ≤ levels) (hr : NotBefore operandMarks rest) :
    Reads (Grammar.factor (inner limit levels)) f.leaves f.denote rest := by
  obtain ⟨n, ls, d, hl, hne, ho, hd, hp⟩ := f.readsOperand limit levels rest hn hr
  rw [hl, hd]
  exact reads_factor n ho hne hp

/-- A factor is a run of minuses and an operand. -/
theorem Factor.readsOperand (limit : Nat) : ∀ (f : Factor) (levels : Nat) (rest : List Lexeme),
    f.nesting ≤ levels → NotBefore operandMarks rest →
    ∃ n ls d, f.leaves = List.replicate n (.mark .minus) ++ ls ∧ ls ≠ [] ∧
      (∀ l ∈ ls.head?, l ≠ .mark .minus) ∧ f.denote = d >>= Quantity.negateTimes n ∧
      Reads (Grammar.operand (inner limit levels)) ls d rest
  | .negated f, levels, rest, hn, hr => by
    obtain ⟨n, ls, d, hl, hne, ho, hd, hp⟩ := f.readsOperand limit levels rest hn hr
    refine ⟨n + 1, ls, d, by rw [Factor.leaves, hl]; rfl, hne, ho, ?_, hp⟩
    rw [Factor.denote, hd]
    cases d with
    | error e => rfl
    | ok q => exact (negateTimes_succ n q).symm
  | .plain o, levels, rest, hn, hr => by
    obtain ⟨l, tail, he, ho⟩ := o.leaves_eq
    refine ⟨0, o.leaves, o.denote, rfl, by rw [he]; nofun, ?_, ?_, o.reads limit levels rest hn hr⟩
    · rw [he]; rintro _ ⟨⟩ rfl; exact ho
    · rw [Factor.denote]; cases o.denote <;> rfl

theorem Operand.reads (limit : Nat) : ∀ (o : Operand) (levels : Nat) (rest : List Lexeme),
    o.nesting ≤ levels → NotBefore operandMarks rest →
    Reads (Grammar.operand (inner limit levels)) o.leaves o.denote rest
  | .mk primary methods, levels, rest, hn, hr => by
    rw [Operand.nesting, Nat.max_le] at hn
    exact reads_chain (primary.reads limit levels _ hn.1) fun receiver _ =>
      methods.continues limit levels rest hn.2 hr receiver

theorem Methods.continues (limit : Nat) : ∀ (ms : Methods) (levels : Nat) (rest : List Lexeme),
    ms.nesting ≤ levels → NotBefore operandMarks rest → ∀ receiver : Quantity,
    Continues (Grammar.nextMethod (inner limit levels)) receiver ms.leaves (ms.denote receiver) rest
  | .nil, levels, rest, _, hr, receiver => by
    refine continues_nil fun l hl => ?_
    have hd := hr .dot (by decide)
    rw [Option.mem_def.mp hl] at hd
    exact nextMethod_eq_none fun e => hd (congrArg some e)
  | .cons name arguments ms, levels, rest, hn, hr, receiver => by
    rw [Methods.nesting, Nat.max_le] at hn
    have ha := arguments.reads limit levels (ms.leaves ++ rest) hn.1
    have hp : Reads ((Phrase.name .methodName).andThen fun name =>
        (Grammar.arguments (inner limit levels)).check (Call.method receiver name))
        ([.name name] ++ arguments.leaves)
        (.ok name >>= fun name => arguments.denote >>= Call.method receiver name)
        (ms.leaves ++ rest) :=
      reads_andThen (reads_name name _ _) fun _ _ => reads_check ha
    have hc := continues_cons (l := .mark .dot) (a := receiver) rfl hp fun b _ =>
      ms.continues limit levels rest hn.2 hr b
    have hd : (.ok name >>= fun name => arguments.denote >>= Call.method receiver name) >>=
        ms.denote = (Methods.cons name arguments ms).denote receiver := by
      rw [Methods.denote]; cases arguments.denote <;> rfl
    rwa [hd] at hc

theorem Primary.reads (limit : Nat) : ∀ (p : Primary) (levels : Nat) (rest : List Lexeme),
    p.nesting ≤ levels → Reads (Grammar.primary (inner limit levels)) p.leaves p.denote rest
  | .group e, levels + 1, rest, hn =>
    reads_group (e.reads limit levels _ (Nat.le_of_succ_le_succ hn) (notBefore_mark (by decide)))
  | .function name arguments, levels, rest, hn =>
    reads_function (arguments.reads limit levels rest hn) arguments.head_leaves
  | .member holder name arguments, levels, rest, hn =>
    reads_member (arguments.reads limit levels rest hn)

theorem Arguments.reads (limit : Nat) : ∀ (as : Arguments) (levels : Nat) (rest : List Lexeme),
    as.nesting ≤ levels → Reads (Grammar.arguments (inner limit levels)) as.leaves as.denote rest
  | .nil, levels, rest, _ =>
    reads_andThen (reads_mark .openParen .openParen _) fun _ _ => reads_orMark_mark
  | .cons argument as, levels, rest, hn => by
    rw [Arguments.nesting, Nat.max_le] at hn
    exact reads_arguments (argument.reads limit levels _ hn.1 (as.notBefore rest)) fun v _ =>
      as.continues limit levels rest hn.2 [v]

theorem Arguments.continues (limit : Nat) : ∀ (as : Arguments) (levels : Nat) (rest : List Lexeme),
    as.nesting ≤ levels → ∀ collected : List BinaryPoint.Argument,
    Continues (Grammar.nextArgument (inner limit levels)) collected as.moreLeaves
      (as.denote.map fun values => values.reverse ++ collected) (.mark .closeParen :: rest)
  | .nil, levels, rest, _, collected =>
    continues_nil fun l hl => nextArgument_eq_none (by cases hl; nofun)
  | .cons argument as, levels, rest, hn, collected => by
    rw [Arguments.nesting, Nat.max_le] at hn
    have ha := argument.reads limit levels _ hn.1 (as.notBefore rest)
    have hc := continues_cons (l := .mark .comma) (a := collected) rfl (reads_check ha) fun b _ =>
      as.continues limit levels rest hn.2 b
    have hd : ((argument.denote >>= fun v => .ok (v :: collected)) >>= fun b =>
        as.denote.map fun values => values.reverse ++ b) =
        (Arguments.cons argument as).denote.map fun values => values.reverse ++ collected := by
      rw [Arguments.denote]
      cases argument.denote with
      | error e => rfl
      | ok v => cases as.denote <;> simp [bind, Except.bind, Except.map, pure, Except.pure]
    rwa [hd] at hc

theorem Argument.reads (limit : Nat) : ∀ (a : Argument) (levels : Nat) (rest : List Lexeme),
    a.nesting ≤ levels → NotBefore expressionMarks rest →
    Reads (Grammar.argument (inner limit levels)) a.leaves a.denote rest
  | .text t, levels, rest, _, _ => rfl
  | .value e, levels + 1, rest, hn, hr =>
    reads_value (e.reads limit levels rest (Nat.le_of_succ_le_succ hn) hr)

end

end BinaryPoint.Derivation
