import BoundSql.Failure
import Mathlib.Data.List.Forall2

/-!
# When a computation succeeds

A computation that may fail succeeds iff its parts do: a sequence (`bind_eq_ok`), an image (`map_eq_ok`) and a
traversal (`mapM_eq_ok`), whose results correspond to the items one by one. It fails as the first of its parts that does
(`bind_eq_error`, `map_eq_error`, `mapM_eq_error_iff`).

What holds of the parts of a computation holds of the whole: its success (`Succeeds`), a property of its result
(`Yields`), and a correspondence with another computation (`Related`).
-/

namespace BoundSql

variable {α β : Type}

theorem bind_eq_ok {x : Except Failure α} {f : α → Except Failure β} {b : β} :
    (x >>= f) = .ok b ↔ ∃ a, x = .ok a ∧ f a = .ok b := by
  cases x with
  | error e => exact ⟨nofun, nofun⟩
  | ok a =>
    constructor
    · intro h
      exact ⟨a, rfl, h⟩
    · rintro ⟨_, h, h'⟩
      cases h
      exact h'

theorem map_eq_ok {x : Except Failure α} {f : α → β} {b : β} : f <$> x = .ok b ↔ ∃ a, x = .ok a ∧ f a = b := by
  cases x with
  | error e => exact ⟨nofun, nofun⟩
  | ok a =>
    constructor
    · intro h
      exact ⟨a, rfl, Except.ok.inj h⟩
    · rintro ⟨_, h, h'⟩
      cases h
      exact congrArg Except.ok h'

theorem pure_eq_ok {a b : α} : (pure a : Except Failure α) = .ok b ↔ a = b := Except.ok.injEq a b ▸ Iff.rfl

theorem bind_eq_error {x : Except Failure α} {g : α → Except Failure β} {f : Failure} :
    (x >>= g) = .error f ↔ x = .error f ∨ ∃ a, x = .ok a ∧ g a = .error f := by
  cases x with
  | error e =>
    constructor
    · intro h
      exact Or.inl (congrArg Except.error (Except.error.inj h))
    · rintro (h | ⟨_, h, _⟩)
      · exact congrArg Except.error (Except.error.inj h)
      · cases h
  | ok a =>
    constructor
    · intro h
      exact Or.inr ⟨a, rfl, h⟩
    · rintro (h | ⟨_, h, h'⟩)
      · cases h
      · cases h
        exact h'

theorem map_eq_error {x : Except Failure α} {g : α → β} {f : Failure} : g <$> x = .error f ↔ x = .error f := by
  cases x with
  | error e =>
    constructor
    · intro h
      exact congrArg Except.error (Except.error.inj h)
    · intro h
      exact congrArg Except.error (Except.error.inj h)
  | ok a => exact ⟨nofun, nofun⟩

/-- Success that can be decided. -/
theorem eq_ok_of_toOption {x : Except Failure α} {a : α} (h : x.toOption = some a) : x = .ok a := by
  cases x with
  | error f => cases h
  | ok b => exact congrArg Except.ok (Option.some.inj h)

/-- Failure whose kind can be decided. -/
theorem exists_eq_error {x : Except Failure α} {kind : Failure.Kind}
    (h : (match x with | .error f => some f.kind | .ok _ => none) = some kind) : ∃ f, x = .error f ∧ f.kind = kind := by
  cases x with
  | error f => exact ⟨f, rfl, Option.some.inj h⟩
  | ok a => cases h

theorem mapM_eq_ok {f : α → Except Failure β} {xs : List α} {ys : List β} :
    xs.mapM f = .ok ys ↔ List.Forall₂ (fun x y => f x = .ok y) xs ys := by
  induction xs generalizing ys with
  | nil =>
    rw [List.mapM_nil, pure_eq_ok, List.forall₂_nil_left_iff]
    exact eq_comm
  | cons x xs ih =>
    rw [List.mapM_cons, bind_eq_ok]
    constructor
    · rintro ⟨y, hy, h⟩
      obtain ⟨ys', hys, h⟩ := bind_eq_ok.1 h
      cases pure_eq_ok.1 h
      exact .cons hy (ih.1 hys)
    · rintro (_ | ⟨hy, hys⟩)
      exact ⟨_, hy, bind_eq_ok.2 ⟨_, ih.2 hys, rfl⟩⟩

theorem mapM_eq_error {g : α → Except Failure β} {f : Failure} {xs : List α} (h : xs.mapM g = .error f) :
    ∃ x ∈ xs, g x = .error f := by
  induction xs with
  | nil => cases h
  | cons x xs ih =>
    rw [List.mapM_cons] at h
    rcases bind_eq_error.1 h with h | ⟨y, _, h⟩
    · exact ⟨x, List.mem_cons_self, h⟩
    · rcases bind_eq_error.1 h with h | ⟨ys, _, h⟩
      · obtain ⟨x', hx', h⟩ := ih h
        exact ⟨x', List.mem_cons_of_mem _ hx', h⟩
      · cases h

/-- Failure of a computation, if it fails. -/
def failure? : Except Failure α → Option Failure
  | .error f => some f
  | .ok _ => none

/-- A traversal fails as the first of its steps that fails. -/
theorem mapM_eq_error_iff {g : α → Except Failure β} {f : Failure} {xs : List α} :
    xs.mapM g = .error f ↔ xs.findSome? (fun x => failure? (g x)) = some f := by
  induction xs with
  | nil => exact ⟨nofun, nofun⟩
  | cons x xs ih =>
    rw [List.mapM_cons, List.findSome?_cons]
    cases hx : g x with
    | error e =>
      show Except.error e = .error f ↔ some e = some f
      rw [Except.error.injEq, Option.some.injEq]
    | ok y =>
      show (xs.mapM g >>= fun ys => pure (y :: ys)) = .error f ↔ xs.findSome? (fun x => failure? (g x)) = some f
      rw [bind_eq_error, ← ih]
      exact ⟨fun h => h.elim id fun ⟨_, _, h⟩ => (nomatch h), Or.inl⟩

theorem exists_of_forall₂_right {R : α → β → Prop} {xs : List α} {ys : List β} (h : List.Forall₂ R xs ys) {y : β}
    (hy : y ∈ ys) : ∃ x ∈ xs, R x y := by
  induction h with
  | nil => cases hy
  | cons hxy _ ih =>
    rcases List.mem_cons.1 hy with rfl | hy
    · exact ⟨_, List.mem_cons_self, hxy⟩
    · obtain ⟨x, hx, hR⟩ := ih hy
      exact ⟨x, List.mem_cons_of_mem _ hx, hR⟩

theorem getElem?_related {R : α → β → Prop} {xs : List α} {ys : List β} (h : List.Forall₂ R xs ys) {i : Nat} {x : α}
    {y : β} (hx : xs[i]? = some x) (hy : ys[i]? = some y) : R x y := by
  induction h generalizing i with
  | nil => cases hx
  | cons hxy _ ih =>
    cases i with
    | zero => exact Option.some.inj hx ▸ Option.some.inj hy ▸ hxy
    | succ i => exact ih hx hy

/-- Partners that are found for the results one by one are partners of the items, too. -/
theorem exists_forall₂ {γ : Type} {P : α → β → Prop} {Q : β → γ → Prop} {R : α → γ → Prop} {xs : List α} {ys : List β}
    (h : List.Forall₂ P xs ys) (hstep : ∀ x y, P x y → ∃ z, Q y z ∧ R x z) :
    ∃ zs, List.Forall₂ Q ys zs ∧ List.Forall₂ R xs zs := by
  induction h with
  | nil => exact ⟨[], .nil, .nil⟩
  | cons hxy _ ih =>
    obtain ⟨z, hQ, hR⟩ := hstep _ _ hxy
    obtain ⟨zs, hQs, hRs⟩ := ih
    exact ⟨z :: zs, .cons hQ hQs, .cons hR hRs⟩

/-! ## Computations that succeed -/

/-- There is a result. -/
def Succeeds (x : Except Failure α) : Prop := ∃ a, x = .ok a

namespace Succeeds

theorem ok (a : α) : Succeeds (.ok a) := ⟨a, rfl⟩

theorem bind {x : Except Failure α} {f : α → Except Failure β} (h : Succeeds x) (hf : ∀ a, Succeeds (f a)) :
    Succeeds (x >>= f) := by
  obtain ⟨a, rfl⟩ := h
  exact hf a

theorem map {x : Except Failure α} (h : Succeeds x) (f : α → β) : Succeeds (f <$> x) := by
  obtain ⟨a, rfl⟩ := h
  exact ok (f a)

theorem mapM {f : α → Except Failure β} {xs : List α} (h : ∀ x ∈ xs, Succeeds (f x)) : Succeeds (xs.mapM f) := by
  induction xs with
  | nil => exact ok []
  | cons x xs ih =>
    rw [List.mapM_cons]
    exact (h x List.mem_cons_self).bind fun y => (ih fun x hx => h x (List.mem_cons_of_mem _ hx)).bind fun ys => ok _

theorem of_mapM {f : α → Except Failure β} {xs : List α} (h : Succeeds (xs.mapM f)) {x : α} (hx : x ∈ xs) :
    Succeeds (f x) := by
  obtain ⟨ys, hys⟩ := h
  obtain ⟨y, _, hy⟩ := exists_of_forall₂_right (mapM_eq_ok.1 hys).flip hx
  exact ⟨y, hy⟩

end Succeeds

/-! ## What a result is like -/

/-- The result has a property, if there is one. -/
def Yields (P : α → Prop) (x : Except Failure α) : Prop := ∀ a, x = .ok a → P a

namespace Yields

variable {P : α → Prop} {Q : β → Prop}

theorem ok {a : α} (h : P a) : Yields P (.ok a) := fun _ h' => Except.ok.inj h' ▸ h

theorem error (f : Failure) : Yields P (.error f) := nofun

theorem bind {x : Except Failure α} {f : α → Except Failure β} (h : Yields P x) (hf : ∀ a, P a → Yields Q (f a)) :
    Yields Q (x >>= f) := by
  intro b hb
  obtain ⟨a, ha, hb⟩ := bind_eq_ok.1 hb
  exact hf a (h a ha) b hb

theorem map {x : Except Failure α} {f : α → β} (h : Yields P x) (hf : ∀ a, P a → Q (f a)) : Yields Q (f <$> x) := by
  intro b hb
  obtain ⟨a, ha, rfl⟩ := map_eq_ok.1 hb
  exact hf a (h a ha)

theorem mapM {f : α → Except Failure β} {xs : List α} (h : ∀ x ∈ xs, Yields Q (f x)) :
    Yields (∀ y ∈ ·, Q y) (xs.mapM f) := by
  intro ys hys y hy
  obtain ⟨x, hx, hxy⟩ := exists_of_forall₂_right (mapM_eq_ok.1 hys) hy
  exact h x hx y hxy

end Yields

/-! ## Two computations -/

/-- Both computations fail, or both succeed; what they come to corresponds either way. -/
inductive Related (E : Failure → Failure → Prop) (S : α → β → Prop) : Except Failure α → Except Failure β → Prop
  | ok {a : α} {b : β} : S a b → Related E S (.ok a) (.ok b)
  | error {f g : Failure} : E f g → Related E S (.error f) (.error g)

namespace Related

variable {α' β' : Type} {E : Failure → Failure → Prop} {S : α → β → Prop} {T : α' → β' → Prop}

theorem imp {E' : Failure → Failure → Prop} {S' : α → β → Prop} {x : Except Failure α} {y : Except Failure β}
    (h : Related E S x y) (hE : ∀ f g, E f g → E' f g) (hS : ∀ a b, S a b → S' a b) : Related E' S' x y := by
  cases h with
  | ok h => exact .ok (hS _ _ h)
  | error h => exact .error (hE _ _ h)

theorem bind {x : Except Failure α} {y : Except Failure β} {f : α → Except Failure α'} {g : β → Except Failure β'}
    (h : Related E S x y) (hfg : ∀ a b, S a b → Related E T (f a) (g b)) : Related E T (x >>= f) (y >>= g) := by
  cases h with
  | ok h => exact hfg _ _ h
  | error h => exact .error h

theorem map {x : Except Failure α} {y : Except Failure β} {f : α → α'} {g : β → β'} (h : Related E S x y)
    (hfg : ∀ a b, S a b → T (f a) (g b)) : Related E T (f <$> x) (g <$> y) := by
  cases h with
  | ok h => exact .ok (hfg _ _ h)
  | error h => exact .error h

theorem mapM {f : α → Except Failure α'} {g : β → Except Failure β'} {as : List α} {bs : List β}
    (h : List.Forall₂ (fun a b => Related E T (f a) (g b)) as bs) :
    Related E (List.Forall₂ T) (as.mapM f) (bs.mapM g) := by
  induction h with
  | nil => exact .ok .nil
  | cons hab _ ih =>
    rw [List.mapM_cons, List.mapM_cons]
    exact hab.bind fun _ _ h => ih.bind fun _ _ h' => .ok (.cons h h')

end Related

end BoundSql
