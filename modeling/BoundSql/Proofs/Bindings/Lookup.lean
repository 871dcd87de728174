import BoundSql.Proofs.Bindings.Growth
import BoundSql.Proofs.Placeholder.Position

/-!
# Bindings that one scheme has made

Binders of one scheme, whatever they ignore, leave bindings whose texts are distinct and whose tokens that scheme has
made for their positions (`Bindings.OfScheme`). In such bindings the token of a value leads back to the value: it
carries the position of an argument that has the value's canonical text (`Bindings.OfScheme.standsFor`), and of no
other (`Bindings.OfScheme.carried?_iff`). That argument is the first of the scalars with the text that a walk from the
empty bindings has met (`Binder.bindScalars_first`).
-/

namespace BoundSql

namespace Bindings

variable {s : Placeholder.Scheme} {m m' : Bindings}

/-- Distinct texts, and the entries that a scheme makes for their positions. -/
structure OfScheme (s : Placeholder.Scheme) (m : Bindings) : Prop where
  nodup : m.keys.Nodup
  made : ∀ i e, m.toList[i]? = some e → Binding.MadeBy s (i + 1) e

theorem OfScheme.empty (s : Placeholder.Scheme) : OfScheme s empty := ⟨List.nodup_nil, nofun⟩

theorem OfScheme.grows {b : Binder} (h : OfScheme b.scheme m) (hm : b.Grows m m') : OfScheme b.scheme m' := by
  obtain ⟨added, happ, hadded⟩ := hm.appended
  refine ⟨hm.nodup h.nodup, fun i e he => ?_⟩
  rw [happ] at he
  by_cases hi : i < m.size
  · rw [List.getElem?_append_left (by rwa [length_toList])] at he
    exact h.made i e he
  · have hi := Nat.le_of_not_lt hi
    rw [List.getElem?_append_right (by rwa [length_toList]), length_toList] at he
    have hmade := hadded _ e he
    rwa [Nat.add_sub_cancel' hi] at hmade

/-! ## Look-ups -/

theorem getElem?_of_get? {canonical : String} {binding : Binding} (h : m.get? canonical = some binding) :
    ∃ i : Nat, m.toList[i]? = some (canonical, binding) := by
  rw [get?_eq, Option.map_eq_some_iff] at h
  obtain ⟨⟨key, binding⟩, he, rfl⟩ := h
  have hkey : key = canonical := by simpa using List.find?_some he
  subst hkey
  exact List.mem_iff_getElem?.1 (List.mem_of_find?_eq_some he)

theorem placeholderFor?_eq_some {v : Value} {token : String} : m.placeholderFor? v = some token ↔
    ∃ canonical binding, v.canonical = .ok canonical ∧ m.get? canonical = some binding ∧
      binding.placeholder = token := by
  unfold placeholderFor? bindingFor?
  cases v.canonical with
  | error f => exact ⟨nofun, nofun⟩
  | ok canonical => simp [Option.map_eq_some_iff]

theorem mem_keys_of_get? {canonical : String} {binding : Binding} (h : m.get? canonical = some binding) :
    canonical ∈ m.keys := by
  obtain ⟨i, hi⟩ := getElem?_of_get? h
  exact List.mem_map.2 ⟨_, List.mem_of_getElem? hi, rfl⟩

theorem get?_eq_none_iff {canonical : String} : m.get? canonical = none ↔ canonical ∉ m.keys := by
  rw [get?_eq, Option.map_eq_none_iff, List.find?_eq_none, keys, List.mem_map, not_exists]
  simp only [decide_eq_true_eq, not_and]

theorem get?_push (m : Bindings) (canonical token : String) (v : Value) (other : String) :
    (m.push canonical token v).get? other =
      (m.get? other).or (if canonical = other then some ⟨m.nextPosition, token, v⟩ else none) := by
  rw [get?_eq, get?_eq, toList_push, List.find?_append, List.find?_singleton]
  cases m.toList.find? (·.1 = other) with
  | some e => rfl
  | none => by_cases h : canonical = other <;> simp [h]

end Bindings

/-! ## The first value of a text -/

/-- Whether a value has a canonical text. -/
def Value.hasText (canonical : String) (v : Value) : Bool :=
  match v.canonical with
  | .ok other => canonical = other
  | .error _ => false

/-- Whether two values have the same canonical text. -/
def Value.sharesText (v u : Value) : Bool :=
  match v.canonical with
  | .ok canonical => u.hasText canonical
  | .error _ => false

theorem Value.sharesText_iff {v u : Value} : v.sharesText u = true ↔
    ∃ canonical, v.canonical = .ok canonical ∧ u.canonical = .ok canonical := by
  unfold sharesText hasText
  cases v.canonical with
  | error f => exact ⟨nofun, nofun⟩
  | ok canonical =>
    cases u.canonical with
    | error f => exact ⟨nofun, nofun⟩
    | ok other => simp [eq_comm]

/-- The first of some values that has the canonical text of a value. -/
def Value.firstOf (values : List Value) (v : Value) : Value := (values.find? v.sharesText).getD v

namespace Binder

variable {b : Binder} {m m' : Bindings} {canonical : String} {binding : Binding}

theorem Grows.get? (h : b.Grows m m') (hget : m.get? canonical = some binding) :
    m'.get? canonical = some binding := by
  induction h with
  | refl => exact hget
  | push _ _ _ _ _ ih =>
    rw [Bindings.get?_push, ih]
    rfl

theorem Grows.not_ignored (h : b.Grows m m') (hkey : canonical ∈ m'.keys) :
    canonical ∈ m.keys ∨ canonical ∉ b.ignored := by
  induction h with
  | refl => exact Or.inl hkey
  | push _ _ hi _ _ ih =>
    rw [Bindings.keys_push] at hkey
    rcases List.mem_append.1 hkey with hkey | hkey
    · exact ih hkey
    · exact Or.inr (List.mem_singleton.1 hkey ▸ hi)

/-- **What is bound under a text is the first scalar that has it.** -/
theorem bindScalars_first {vs : List Value} (h : b.bindScalars m vs = ⟨m', none⟩) (hm : m.get? canonical = none)
    (hget : m'.get? canonical = some binding) : vs.find? (Value.hasText canonical) = some binding.value := by
  induction vs generalizing m with
  | nil =>
    cases h
    rw [hm] at hget
    cases hget
  | cons v vs ih =>
    unfold bindScalars at h
    cases hv : b.bindScalar m v with
    | error f => rw [hv] at h; cases h
    | ok m₁ =>
      rw [hv] at h
      replace h : b.bindScalars m₁ vs = ⟨m', none⟩ := h
      have hgrows := bindScalars_grows b m₁ vs
      rw [h] at hgrows
      obtain ⟨text, htext, ⟨hseen, rfl⟩ | ⟨hi, hk, token, ht, rfl⟩⟩ := bindScalar_eq_ok hv
      · have hother : canonical ≠ text := by
          rintro rfl
          have hnew := Bindings.get?_eq_none_iff.1 hm
          rcases hseen with hi | hk
          · rcases hgrows.not_ignored (Bindings.mem_keys_of_get? hget) with hk | hi'
            · exact hnew hk
            · exact hi' hi
          · exact hnew hk
        rw [List.find?_cons_of_neg (by simp [Value.hasText, htext, hother])]
        exact ih h hm
      · by_cases hother : canonical = text
        · subst hother
          have hfirst : (m.push canonical token v).get? canonical = some ⟨m.nextPosition, token, v⟩ := by
            rw [Bindings.get?_push, hm]
            simp
          rw [hgrows.get? hfirst] at hget
          cases hget
          rw [List.find?_cons_of_pos (by simp [Value.hasText, htext])]
        · rw [List.find?_cons_of_neg (by simp [Value.hasText, htext, hother])]
          refine ih h ?_
          rw [Bindings.get?_push, hm, if_neg (Ne.symm hother)]
          rfl

end Binder

/-! ## What a token stands for -/

/-- A token that carries the position of an argument with the canonical text of a value. -/
def Placeholder.StandsFor (args : List Value) (v : Value) (token : String) : Prop :=
  ∃ position a canonical, carried? token = some position ∧ 1 ≤ position ∧ position ≤ args.length ∧
    args[position - 1]? = some a ∧ a.canonical = .ok canonical ∧ v.canonical = .ok canonical

open Placeholder

/-- Where a binding is among the arguments. -/
theorem Bindings.OfScheme.argument {s : Scheme} {m : Bindings} (h : m.OfScheme s) {canonical : String}
    {binding : Binding} (hget : m.get? canonical = some binding) :
    ∃ i, m.args[i]? = some binding.value ∧ Binding.MadeBy s (i + 1) (canonical, binding) := by
  obtain ⟨i, hi⟩ := getElem?_of_get? hget
  refine ⟨i, ?_, h.made i _ hi⟩
  rw [args, List.getElem?_map, hi]
  rfl

/-- **The token of a value leads back to the value.** -/
theorem Bindings.OfScheme.standsFor {style : Style} {m : Bindings} (h : m.OfScheme style.scheme) {v : Value}
    {token : String} (htoken : m.placeholderFor? v = some token) : StandsFor m.args v token := by
  obtain ⟨canonical, binding, hv, hget, rfl⟩ := placeholderFor?_eq_some.1 htoken
  obtain ⟨i, hargs, _, hcanonical, hmade⟩ := h.argument hget
  exact ⟨i + 1, binding.value, canonical, Style.carried?_token hmade, Nat.le_add_left 1 i,
    (List.getElem?_eq_some_iff.1 hargs).1, hargs, hcanonical, hv⟩

/-- **A token carries the position of the one argument that has the canonical text of its value.** -/
theorem Bindings.OfScheme.carried?_iff {style : Style} {m : Bindings} (h : m.OfScheme style.scheme) {v a : Value}
    {token : String} {i : Nat} (htoken : m.placeholderFor? v = some token) (ha : m.args[i]? = some a) :
    carried? token = some (i + 1) ↔ v.sharesText a = true := by
  rw [Value.sharesText_iff]
  constructor
  · intro hcarried
    obtain ⟨position, u, canonical, hposition, _, _, hu, hcanonical, hv⟩ := h.standsFor htoken
    obtain rfl : position = i + 1 := Option.some.inj (hposition.symm.trans hcarried)
    rw [Nat.add_sub_cancel, ha] at hu
    cases hu
    exact ⟨canonical, hv, hcanonical⟩
  · rintro ⟨canonical, hv, hcanonical⟩
    obtain ⟨canonical', binding, hv', hget, rfl⟩ := placeholderFor?_eq_some.1 htoken
    cases Except.ok.inj (hv'.symm.trans hv)
    obtain ⟨j, hj⟩ := getElem?_of_get? hget
    rw [args, List.getElem?_map, Option.map_eq_some_iff] at ha
    obtain ⟨⟨key, _⟩, hi, rfl⟩ := ha
    cases Except.ok.inj ((h.made i _ hi).2.1.symm.trans hcanonical)
    -- no text comes twice, so the two entries are one
    have hkeys : m.keys[j]? = m.keys[i]? := by rw [keys, List.getElem?_map, List.getElem?_map, hi, hj]; rfl
    have hlength : j < m.keys.length := by
      rw [keys, List.length_map]
      exact (List.getElem?_eq_some_iff.1 hj).1
    obtain rfl : j = i := (List.getElem?_inj hlength h.nodup).1 hkeys
    exact Style.carried?_token (h.made j _ hj).2.2

/-- Arguments have canonical texts, which are bound. -/
theorem Bindings.OfScheme.key_of_args {s : Scheme} {m : Bindings} (h : m.OfScheme s) {a : Value} {i : Nat}
    (ha : m.args[i]? = some a) : ∃ canonical ∈ m.keys, a.canonical = .ok canonical := by
  rw [args, List.getElem?_map, Option.map_eq_some_iff] at ha
  obtain ⟨⟨canonical, _⟩, hi, rfl⟩ := ha
  exact ⟨canonical, List.mem_map.2 ⟨_, List.mem_of_getElem? hi, rfl⟩, (h.made i _ hi).2.1⟩

/-- A value with the canonical text of an argument has a token. -/
theorem Bindings.OfScheme.exists_placeholder {s : Scheme} {m : Bindings} (h : m.OfScheme s) {v a : Value} {i : Nat}
    (ha : m.args[i]? = some a) (hv : v.sharesText a = true) : ∃ token, m.placeholderFor? v = some token := by
  obtain ⟨canonical, hv, hcanonical⟩ := Value.sharesText_iff.1 hv
  obtain ⟨key, hkey, ha⟩ := h.key_of_args ha
  cases Except.ok.inj (hcanonical.symm.trans ha)
  cases hget : m.get? canonical with
  | none => exact absurd hkey (get?_eq_none_iff.1 hget)
  | some binding => exact ⟨binding.placeholder, placeholderFor?_eq_some.2 ⟨canonical, binding, hv, hget, rfl⟩⟩

end BoundSql
