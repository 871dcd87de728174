import BoundSql.Proofs.Bindings.Order
import BoundSql.Proofs.Bindings.Restyle

/-!
# What a walk does, by recursion over the tree

A binder keeps the terms that are still to come in a list. What it does can be said without such a list: the literals
of a tree are enumerated by recursion (`Condition.leaves`), lists are flattened and missing values are left out
(`Condition.bindable`); the values in front of the first one without a canonical text count (`Value.keyed`), and of
these the ones whose text is new, each text once (`newTo`), are appended to the bindings (`Bindings.extended`).

Both say the same (`Binder.bindCondition_recursive`). So two conditions are bound one after the other as their
conjunction is, and a condition that is bound again changes nothing.
-/

namespace BoundSql

open Placeholder (Style)

/-! ## Enumerating a tree -/

mutual

/-- Literals of a term, depth first and from left to right. -/
def Term.leaves : Term → List Value
  | .literal v => [v]
  | .field _ => []
  | .condition c => c.leaves

/-- Literals of a condition, depth first and from left to right. -/
def Condition.leaves : Condition → List Value
  | ⟨_, terms, _⟩ => Term.allLeaves terms

/-- Literals of several terms, depth first and from left to right. -/
def Term.allLeaves : List Term → List Value
  | [] => []
  | t :: ts => t.leaves ++ Term.allLeaves ts

end

/-- Items of a list; any other value is its only item. -/
def Value.flattened : Value → List Value
  | .list items => items
  | v => [v]

/-- Values of a condition that are to be bound: lists are flattened once, and missing values are left out. -/
def Condition.bindable (c : Condition) : List Value := (c.leaves.flatMap Value.flattened).filter fun v => !v.isNull

theorem Binder.scalarsOf_eq (v : Value) : scalarsOf v = v.flattened.filter fun v => !v.isNull := by
  cases v <;> rfl

mutual

theorem Term.scalars_eq_leaves (t : Term) :
    t.scalars = (t.leaves.flatMap Value.flattened).filter fun v => !v.isNull := by
  cases t with
  | literal v => rw [Term.scalars, Term.leaves, List.flatMap_singleton, Binder.scalarsOf_eq]
  | field f => rfl
  | condition c => exact Condition.scalars_eq_bindable c

theorem Condition.scalars_eq_bindable (c : Condition) : c.scalars = c.bindable := by
  obtain ⟨_, terms, _⟩ := c
  exact Term.allScalars_eq_leaves terms

theorem Term.allScalars_eq_leaves (ts : List Term) :
    Term.allScalars ts = ((Term.allLeaves ts).flatMap Value.flattened).filter fun v => !v.isNull := by
  cases ts with
  | nil => rfl
  | cons t ts =>
    rw [Term.allScalars, Term.allLeaves, List.flatMap_append, List.filter_append, Term.scalars_eq_leaves,
      Term.allScalars_eq_leaves]

end

/-! ## Texts that are new -/

/-- Why a value has no canonical text, if it has none. -/
def Value.lack? (v : Value) : Option Failure :=
  match v.canonical with
  | .ok _ => none
  | .error f => some f

/-- Of the values that a condition has to bind, only numbers that are not finite and lists within lists have no text. -/
theorem Condition.lack?_bindable {c : Condition} {v : Value} (h : v ∈ c.bindable) :
    v.lack?.isSome ↔ (∃ x : Binary64, v = .float x ∧ !x.isFinite) ∨ ∃ items, v = .list items := by
  have hpresent : v.isNull = false := by
    obtain ⟨_, hv⟩ := List.mem_filter.1 h
    simpa using hv
  cases v with
  | null => cases hpresent
  | float x => cases hx : x.isFinite <;> simp [Value.lack?, Value.canonical, hx]
  | _ => simp [Value.lack?, Value.canonical]

/-- Values in front of the first one without a canonical text, each under its text. -/
def Value.keyed (vs : List Value) : List (String × Value) :=
  (vs.takeWhile fun v => v.text?.isSome).filterMap fun v => v.text?.map (·, v)

/-- Values whose texts are none of those given, the first one of each text. -/
def newTo (texts : List String) (keyed : List (String × Value)) : List (String × Value) :=
  (keyed.filter fun e => !texts.contains e.1).eraseDupsBy fun e e' => e.1 == e'.1

theorem Value.keyed_cons {v : Value} {text : String} (h : v.canonical = .ok text) (vs : List Value) :
    Value.keyed (v :: vs) = (text, v) :: Value.keyed vs := by
  simp [Value.keyed, Value.text?_eq_some.2 h]

theorem newTo_seen {texts : List String} {text : String} (h : text ∈ texts) (v : Value)
    (keyed : List (String × Value)) : newTo texts ((text, v) :: keyed) = newTo texts keyed := by
  simp [newTo, h]

/-- A text that was new is so no longer. -/
theorem newTo_unseen {texts : List String} {text : String} (h : text ∉ texts) (v : Value)
    (keyed : List (String × Value)) :
    newTo texts ((text, v) :: keyed) = (text, v) :: newTo (texts ++ [text]) keyed := by
  have hrest : ((keyed.filter fun e => !texts.contains e.1).filter fun e => (e.1 == text) = false) =
      keyed.filter fun e => !(texts ++ [text]).contains e.1 := by
    rw [List.filter_filter]
    refine List.filter_congr ?_
    intro e _
    by_cases htext : e.1 = text <;> simp [htext]
  rw [newTo, List.filter_cons_of_pos (by simpa using h), List.eraseDupsBy_cons, hrest]
  rfl

/-- The texts of the first values of each text are the first occurrences of the texts. -/
theorem map_fst_eraseDupsBy (keyed : List (String × Value)) :
    (keyed.eraseDupsBy fun e e' => e.1 == e'.1).map Prod.fst = (keyed.map Prod.fst).eraseDups := by
  match keyed with
  | [] => rfl
  | e :: keyed =>
    have hrest : (keyed.map Prod.fst).filter (fun text => !text == e.1) =
        (keyed.filter fun e' => (e'.1 == e.1) = false).map Prod.fst := by
      rw [List.filter_map]
      refine congrArg (List.map Prod.fst) (List.filter_congr ?_)
      intro e' _
      cases h : e'.1 == e.1 <;> simp [h]
    rw [List.eraseDupsBy_cons, List.map_cons, List.map_cons, List.eraseDups_cons, hrest, map_fst_eraseDupsBy]
termination_by keyed.length
decreasing_by exact Nat.lt_succ_of_le (List.length_filter_le ..)

theorem mem_texts_newTo {texts : List String} {keyed : List (String × Value)} {text : String} :
    text ∈ (newTo texts keyed).map Prod.fst ↔ text ∈ keyed.map Prod.fst ∧ text ∉ texts := by
  rw [newTo, map_fst_eraseDupsBy, List.mem_eraseDups]
  simp only [List.mem_map, List.mem_filter]
  constructor
  · rintro ⟨e, ⟨he, hnew⟩, rfl⟩
    exact ⟨⟨e, he, rfl⟩, by simpa using hnew⟩
  · rintro ⟨⟨e, he, rfl⟩, hnew⟩
    exact ⟨e, ⟨he, by simpa using hnew⟩, rfl⟩

/-- Nothing is new if every text was there. -/
theorem newTo_eq_nil {texts : List String} {keyed : List (String × Value)} (h : ∀ e ∈ keyed, e.1 ∈ texts) :
    newTo texts keyed = [] := by
  have hnone : (keyed.filter fun e => !texts.contains e.1) = [] := by
    rw [List.filter_eq_nil_iff]
    intro e he
    simpa using h e he
  rw [newTo, hnone]
  rfl

/-! ## Appending them -/

namespace Bindings

/-- The entry that a style makes for a value under its text at a position. -/
def entryAt (style : Style) (position : Nat) (e : String × Value) : String × Binding :=
  (e.1, ⟨position, style.text e.2 e.1 position, e.2⟩)

/-- Bindings with further values behind them, at the positions that follow. -/
def extended (style : Style) (m : Bindings) (new : List (String × Value)) : Bindings :=
  ⟨m.entries ++ (new.mapIdx fun i e => entryAt style (m.size + i + 1) e).toArray⟩

variable {style : Style} {m : Bindings}

theorem extended_nil : m.extended style [] = m := by
  simp [extended]

/-- One value after the other. -/
theorem extended_cons (text : String) (v : Value) (new : List (String × Value)) :
    m.extended style ((text, v) :: new) =
      (m.push text (style.text v text m.nextPosition) v).extended style new := by
  have hsize : ∀ i, m.size + (i + 1) + 1 = (m.push text (style.text v text m.nextPosition) v).size + i + 1 := by
    intro i
    simp only [size, push, Array.size_push]
    omega
  simp only [extended, List.mapIdx_cons, hsize]
  simp [push, entryAt, nextPosition]

theorem keys_extended (new : List (String × Value)) :
    (m.extended style new).keys = m.keys ++ new.map Prod.fst := by
  have hmap : (new.mapIdx fun i e => entryAt style (m.size + i + 1) e).map Prod.fst = new.map Prod.fst := by
    refine List.ext_getElem (by simp) ?_
    intro i _ _
    simp [entryAt]
  simp [keys, toList, extended, ← hmap]

end Bindings

/-! ## The walk -/

namespace Binder

open Bindings (extended extended_nil extended_cons keys_extended)

variable (style : Style) (ignored : List String)

theorem bindScalar_of_seen {text : String} {m : Bindings} {v : Value} (hv : v.canonical = .ok text)
    (h : text ∈ ignored ++ m.keys) : (⟨style.scheme, ignored⟩ : Binder).bindScalar m v = .ok m := by
  have hseen : ignored.contains text || m.contains text := by
    simpa [Bindings.contains_iff] using h
  rw [bindScalar, hv]
  exact if_pos hseen

theorem bindScalar_of_unseen {text : String} {m : Bindings} {v : Value} (hv : v.canonical = .ok text)
    (h : text ∉ ignored ++ m.keys) : (⟨style.scheme, ignored⟩ : Binder).bindScalar m v =
      .ok (m.push text (style.text v text m.nextPosition) v) := by
  have hunseen : ¬(ignored.contains text || m.contains text) := by
    simpa [Bindings.contains_iff] using h
  rw [bindScalar, hv]
  refine (if_neg hunseen).trans ?_
  rw [style.token_eq_text hv]
  rfl

/-- **A walk appends what is new among the values in front of the first one without a text.** -/
theorem bindScalars_recursive (m : Bindings) (vs : List Value) :
    (⟨style.scheme, ignored⟩ : Binder).bindScalars m vs =
      ⟨m.extended style (newTo (ignored ++ m.keys) (Value.keyed vs)), vs.findSome? Value.lack?⟩ := by
  induction vs generalizing m with
  | nil => exact congrArg (Bound.mk · none) extended_nil.symm
  | cons v vs ih =>
    cases hv : v.canonical with
    | error f =>
      have hkeyed : Value.keyed (v :: vs) = [] := by simp [Value.keyed, Value.text?, hv]
      have hlack : (v :: vs).findSome? Value.lack? = some f := by simp [Value.lack?, hv]
      have hstop : (⟨style.scheme, ignored⟩ : Binder).bindScalar m v = .error f := by rw [bindScalar, hv]; rfl
      rw [bindScalars, hstop, hkeyed, hlack]
      exact congrArg (Bound.mk · (some f)) extended_nil.symm
    | ok text =>
      have hlack : (v :: vs).findSome? Value.lack? = vs.findSome? Value.lack? := by simp [Value.lack?, hv]
      rw [bindScalars, Value.keyed_cons hv, hlack]
      by_cases hseen : text ∈ ignored ++ m.keys
      · rw [bindScalar_of_seen style ignored hv hseen, newTo_seen hseen]
        exact ih m
      · rw [bindScalar_of_unseen style ignored hv hseen, newTo_unseen hseen, extended_cons]
        refine (ih _).trans ?_
        rw [Bindings.keys_push, List.append_assoc]

/-- Every value in front of the first one without a text is dealt with. -/
theorem bindScalars_deals {m : Bindings} {vs : List Value} {e : String × Value} (h : e ∈ Value.keyed vs) :
    e.1 ∈ ignored ++ ((⟨style.scheme, ignored⟩ : Binder).bindScalars m vs).bindings.keys := by
  rw [bindScalars_recursive, keys_extended, ← List.append_assoc, List.mem_append, mem_texts_newTo]
  by_cases hseen : e.1 ∈ ignored ++ m.keys
  · exact Or.inl hseen
  · exact Or.inr ⟨List.mem_map_of_mem h, hseen⟩

theorem bindScalars_again (m : Bindings) (vs : List Value) :
    (⟨style.scheme, ignored⟩ : Binder).bindScalars ((⟨style.scheme, ignored⟩ : Binder).bindScalars m vs).bindings vs =
      (⟨style.scheme, ignored⟩ : Binder).bindScalars m vs := by
  rw [bindScalars_recursive, newTo_eq_nil fun e he => bindScalars_deals style ignored he, extended_nil,
    bindScalars_recursive]

/-- What is left when a second condition is bound after a first one, unless that one was stopped. -/
def bindBoth (b : Binder) (m : Bindings) (c d : Condition) : Bound :=
  match b.bindCondition m c with
  | ⟨m, none⟩ => b.bindCondition m d
  | ⟨m, some f⟩ => ⟨m, some f⟩

theorem bindCondition_conj (b : Binder) (m : Bindings) (c d : Condition) :
    b.bindCondition m (Condition.conj [c, d]) = b.bindBoth m c d := by
  have hscalars : (Condition.conj [c, d]).scalars = c.scalars ++ d.scalars := by
    simp [Condition.conj, Condition.ofTerms, Condition.scalars, Term.allScalars, Term.scalars]
  rw [bindBoth, bindCondition_eq, hscalars, bindScalars_append, ← bindCondition_eq]
  rcases b.bindCondition m c with ⟨m₁, _ | f⟩
  · exact (bindCondition_eq b m₁ d).symm
  · rfl

/-- **A walk is a recursion over the tree.** Whatever is bound already and whatever is ignored, a walk over a condition
leaves what was there, and behind it, at the positions that follow, the first value of each text that is neither
ignored nor bound, among the values that the tree enumerates in front of the first one without a text, a number that is
not finite or a list within a list; that one's failure is the result. A second condition bound after the first leaves
what their conjunction leaves, and the same condition bound again changes nothing. -/
theorem bindCondition_recursive (style : Style) (ignored : List String) (m : Bindings) (c : Condition) :
    (⟨style.scheme, ignored⟩ : Binder).bindCondition m c =
        ⟨m.extended style (newTo (ignored ++ m.keys) (Value.keyed c.bindable)), c.bindable.findSome? Value.lack?⟩ ∧
      (∀ v ∈ c.bindable,
        v.lack?.isSome ↔ (∃ x : Binary64, v = .float x ∧ !x.isFinite) ∨ ∃ items, v = .list items) ∧
      (∀ d, (⟨style.scheme, ignored⟩ : Binder).bindCondition m (Condition.conj [c, d]) =
        (⟨style.scheme, ignored⟩ : Binder).bindBoth m c d) ∧
      (⟨style.scheme, ignored⟩ : Binder).bindCondition
          ((⟨style.scheme, ignored⟩ : Binder).bindCondition m c).bindings c =
        (⟨style.scheme, ignored⟩ : Binder).bindCondition m c := by
  refine ⟨?_, fun v hv => Condition.lack?_bindable hv, fun d => bindCondition_conj _ m c d, ?_⟩
  · rw [bindCondition_eq, Condition.scalars_eq_bindable]
    exact bindScalars_recursive style ignored m c.bindable
  · rw [bindCondition_eq, bindCondition_eq]
    exact bindScalars_again style ignored m c.scalars

end Binder

end BoundSql
