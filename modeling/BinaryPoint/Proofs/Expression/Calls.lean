import Mathlib.Data.List.Forall2
import BinaryPoint.Expression.Call

/-!
# What calls accept

Only the constructors take text, and they take nothing else: each call that has a value is
either a constructor on one text, or it has quantities as arguments and another name.

* `bind_eq_ok`, `mapM_eq_ok`, `mapM_eq_error_iff`: steps one after the other, and along a list.
* `Call.function_eq_ok`, `Call.member_eq_ok`, `Call.method_eq_ok`: the three kinds of calls.
-/
namespace BinaryPoint

theorem bind_eq_ok {ε α β : Type} {x : Except ε α} {f : α → Except ε β} {b : β} :
    (x >>= f) = .ok b ↔ ∃ a, x = .ok a ∧ f a = .ok b := by
  cases x with
  | error e => exact ⟨nofun, fun ⟨_, h, _⟩ => nomatch h⟩
  | ok a => exact ⟨fun h => ⟨a, rfl, h⟩, by rintro ⟨_, ⟨⟩, h⟩; exact h⟩

section Traversal

variable {ε α β : Type} {f : α → Except ε β}

theorem mapM_eq_ok {l : List α} {r : List β} :
    l.mapM f = .ok r ↔ List.Forall₂ (fun a b => f a = .ok b) l r := by
  induction l generalizing r with
  | nil => exact ⟨by rintro ⟨⟩; exact .nil, by rintro ⟨⟩; rfl⟩
  | cons a l ih =>
    rw [List.mapM_cons, bind_eq_ok]
    constructor
    · rintro ⟨b, hb, h⟩
      obtain ⟨bs, hbs, ⟨⟩⟩ := bind_eq_ok.mp h
      exact .cons hb (ih.mp hbs)
    · rintro (_ | ⟨hb, hbs⟩)
      exact ⟨_, hb, bind_eq_ok.mpr ⟨_, ih.mpr hbs, rfl⟩⟩

theorem exists_of_mapM_eq_ok {l : List α} {r : List β} (h : l.mapM f = .ok r) {a : α} (ha : a ∈ l) :
    ∃ b, f a = .ok b := by
  obtain ⟨hl, hf⟩ := List.forall₂_iff_get.mp (mapM_eq_ok.mp h)
  obtain ⟨i, hi, rfl⟩ := List.getElem_of_mem ha
  exact ⟨_, hf i hi (hl ▸ hi)⟩

/-- The error is that of the first item that has one. -/
theorem mapM_eq_error_iff {l : List α} {e : ε} :
    l.mapM f = .error e ↔ ∃ before a after, l = before ++ a :: after ∧
      (∀ b ∈ before, ∃ r, f b = .ok r) ∧ f a = .error e := by
  induction l with
  | nil => exact ⟨nofun, fun ⟨before, a, after, h, _⟩ => by simp at h⟩
  | cons a l ih =>
    rw [List.mapM_cons]
    cases ha : f a with
    | error e' =>
      constructor
      · rintro ⟨⟩
        exact ⟨[], a, l, rfl, List.forall_mem_nil _, ha⟩
      · rintro ⟨_ | ⟨b, before⟩, a', after, hl, hb, he⟩
        · obtain ⟨rfl, rfl⟩ := List.cons.inj hl
          rw [ha] at he; cases he; rfl
        · obtain ⟨rfl, rfl⟩ := List.cons.inj hl
          obtain ⟨r, hr⟩ := hb a List.mem_cons_self
          rw [hr] at ha; cases ha
    | ok b =>
      have hstep : (do let b ← Except.ok b; let bs ← l.mapM f; pure (b :: bs)) = .error e ↔
          l.mapM f = .error e := by
        cases l.mapM f with
        | error e' => exact Iff.rfl
        | ok bs => exact ⟨nofun, nofun⟩
      refine hstep.trans (ih.trans ⟨?_, ?_⟩)
      · rintro ⟨before, a', after, rfl, hb, he⟩
        exact ⟨a :: before, a', after, rfl, List.forall_mem_cons.mpr ⟨⟨b, ha⟩, hb⟩, he⟩
      · rintro ⟨_ | ⟨c, before⟩, a', after, hl, hb, he⟩
        · obtain ⟨rfl, rfl⟩ := List.cons.inj hl
          rw [ha] at he; cases he
        · obtain ⟨rfl, rfl⟩ := List.cons.inj hl
          exact ⟨before, a', after, rfl, (List.forall_mem_cons.mp hb).2, he⟩

theorem mapM_eq_error {l : List α} {e : ε} (h : l.mapM f = .error e) : ∃ a ∈ l, f a = .error e := by
  obtain ⟨before, a, after, rfl, -, he⟩ := mapM_eq_error_iff.mp h
  exact ⟨a, by simp, he⟩

end Traversal

/-- The name of a constructor. -/
def IsConstructor (name : Text) : Prop :=
  name = Prepared.scalarConstructor ∨ name = Prepared.vectorConstructor

/-- No argument is a text. -/
def AllQuantities (arguments : List Argument) : Prop :=
  ∀ a ∈ arguments, ∃ q, a = Argument.quantity q

namespace Call

theorem oneArgument_eq_ok {call : Text} {arguments : List Argument} {a : Argument}
    (h : oneArgument call arguments = .ok a) : arguments = [a] := by
  unfold oneArgument at h
  split at h
  · cases h; rfl
  · cases h

theorem noArguments_eq_ok {call : Text} {arguments : List Argument}
    (h : noArguments call arguments = .ok ()) : arguments = [] := by
  unfold noArguments at h
  split at h
  · rfl
  · cases h

theorem toText_eq_ok {call : Text} {a : Argument} {t : Text} (h : a.toText call = .ok t) :
    a = .text t := by
  cases a <;> cases h; rfl

theorem toQuantity_eq_ok {call : Text} {a : Argument} {q : Quantity}
    (h : a.toQuantity call = .ok q) : a = .quantity q := by
  cases a <;> cases h; rfl

theorem toVec_eq_ok {call : Text} {a : Argument} {v : Vec} (h : a.toVec call = .ok v) :
    ∃ q, a = .quantity q := by
  cases a with
  | text => cases h
  | quantity q => exact ⟨q, rfl⟩

theorem allQuantities_nil : AllQuantities [] := fun _ h => nomatch h

theorem allQuantities_cons {a : Argument} {arguments : List Argument}
    (ha : ∃ q, a = Argument.quantity q) (h : AllQuantities arguments) :
    AllQuantities (a :: arguments) := by
  intro b hb
  rcases List.mem_cons.mp hb with rfl | hb
  · exact ha
  · exact h b hb

theorem area_eq_ok {call : Text} {arguments : List Argument} {q : Quantity}
    (h : area call arguments = .ok q) : AllQuantities arguments := by
  unfold area at h
  split at h
  · obtain ⟨_, ha, h⟩ := bind_eq_ok.mp h
    obtain ⟨_, hb, h⟩ := bind_eq_ok.mp h
    obtain ⟨_, hc, _⟩ := bind_eq_ok.mp h
    exact allQuantities_cons (toVec_eq_ok ha) (allQuantities_cons (toVec_eq_ok hb)
      (allQuantities_cons (toVec_eq_ok hc) allQuantities_nil))
  · cases h

theorem area_length {call : Text} {arguments : List Argument} {q : Quantity}
    (h : area call arguments = .ok q) : arguments.length = 3 := by
  unfold area at h
  split at h
  · rfl
  · cases h

/-- The single argument of a constructor. -/
theorem text_eq_ok {α : Type} {call : Text} {arguments : List Argument} {f : Text → Except EvalError α}
    {a : α} (h : (do f (← (← oneArgument call arguments).toText call)) = .ok a) :
    ∃ t, arguments = [.text t] := by
  obtain ⟨b, hb, h⟩ := bind_eq_ok.mp h
  obtain ⟨t, ht, _⟩ := bind_eq_ok.mp h
  exact ⟨t, by rw [oneArgument_eq_ok hb, toText_eq_ok ht]⟩

theorem function_eq_ok {name : Text} {arguments : List Argument} {q : Quantity}
    (h : function name arguments = .ok q) :
    IsConstructor name ∧ (∃ t, arguments = [.text t]) ∨
      ¬IsConstructor name ∧ AllQuantities arguments := by
  unfold function at h
  split at h
  · rename_i hs; exact .inl ⟨.inl hs, text_eq_ok h⟩
  · rename_i hs
    split at h
    · rename_i hv; exact .inl ⟨.inr hv, text_eq_ok h⟩
    · rename_i hv
      split at h
      · exact .inr ⟨not_or.mpr ⟨hs, hv⟩, area_eq_ok h⟩
      · cases h

theorem not_isConstructor_of_lower {name word : Text} (h : Text.lower name = word)
    (hs : Text.lower Prepared.scalarConstructor ≠ word)
    (hv : Text.lower Prepared.vectorConstructor ≠ word) : ¬IsConstructor name := by
  rintro (rfl | rfl)
  · exact hs h
  · exact hv h

theorem member_eq_ok {holder name : Text} {arguments : List Argument} {q : Quantity}
    (h : member holder name arguments = .ok q) :
    ¬IsConstructor holder ∧ ¬IsConstructor name ∧ AllQuantities arguments := by
  unfold member at h
  split at h
  · rename_i hn
    refine ⟨?_, not_isConstructor_of_lower hn.2 (by decide) (by decide), area_eq_ok h⟩
    rw [hn.1]; rintro (hc | hc) <;> revert hc <;> decide
  · cases h

theorem not_isConstructor_of_lookup {name : Text} {m : Method}
    (h : methods.lookup (Text.lower name) = some m) : ¬IsConstructor name := by
  rintro (rfl | rfl)
  · rw [show methods.lookup (Text.lower Prepared.scalarConstructor) = none by decide] at h
    cases h
  · rw [show methods.lookup (Text.lower Prepared.vectorConstructor) = none by decide] at h
    cases h

theorem vec_eq_ok {α : Type} {call : Text} {arguments : List Argument} {f : Vec → Except EvalError α}
    {a : α} (h : (do f (← (← oneArgument call arguments).toVec call)) = .ok a) :
    AllQuantities arguments := by
  obtain ⟨b, hb, h⟩ := bind_eq_ok.mp h
  obtain ⟨v, hv, _⟩ := bind_eq_ok.mp h
  rw [oneArgument_eq_ok hb]
  exact allQuantities_cons (toVec_eq_ok hv) allQuantities_nil

theorem none_eq_ok {α : Type} {call : Text} {arguments : List Argument} {x : Except EvalError α}
    {a : α} (h : (do noArguments call arguments; x) = .ok a) : AllQuantities arguments := by
  obtain ⟨_, hn, _⟩ := bind_eq_ok.mp h
  rw [noArguments_eq_ok hn]; exact allQuantities_nil

theorem method_eq_ok {receiver : Quantity} {name : Text} {arguments : List Argument} {q : Quantity}
    (h : method receiver name arguments = .ok q) :
    ¬IsConstructor name ∧ AllQuantities arguments := by
  unfold method at h
  split at h
  · cases h
  · rename_i hl
    refine ⟨not_isConstructor_of_lookup hl, ?_⟩
    obtain ⟨b, hb, h⟩ := bind_eq_ok.mp h
    obtain ⟨other, ho, _⟩ := bind_eq_ok.mp h
    rw [oneArgument_eq_ok hb]
    exact allQuantities_cons ⟨other, toQuantity_eq_ok ho⟩ allQuantities_nil
  · rename_i hl; exact ⟨not_isConstructor_of_lookup hl, none_eq_ok h⟩
  · rename_i hl; exact ⟨not_isConstructor_of_lookup hl, vec_eq_ok h⟩
  · rename_i hl; exact ⟨not_isConstructor_of_lookup hl, vec_eq_ok h⟩
  · rename_i hl; exact ⟨not_isConstructor_of_lookup hl, none_eq_ok h⟩
  · rename_i hl; exact ⟨not_isConstructor_of_lookup hl, none_eq_ok h⟩
  · cases h

end Call

end BinaryPoint
