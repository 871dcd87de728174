import BoundSql.Proofs.Bindings.Lookup
import BoundSql.Proofs.FirstOccurrences

/-!
# The order of bindings

A walk binds the texts of its scalars in the order of their first occurrences, behind what was bound before
(`Binder.bindScalars_keys`), and each of them with a scalar of the walk (`Binder.bindScalars_args`). The placeholder of
a value carries the place of its text in this order (`Bindings.OfScheme.carried?_eq`), so some placeholders come in the
order of the arguments iff their texts do (`placed_in_order_iff`).
-/

namespace BoundSql

open Placeholder (Style carried?)

/-- Canonical text of a value, if it has one. -/
def Value.text? (v : Value) : Option String :=
  match v.canonical with
  | .ok canonical => some canonical
  | .error _ => none

theorem Value.text?_eq_some {v : Value} {canonical : String} :
    v.text? = some canonical ↔ v.canonical = .ok canonical := by
  unfold Value.text?
  cases v.canonical with
  | error f => exact ⟨nofun, nofun⟩
  | ok other => exact ⟨fun h => congrArg Except.ok (Option.some.inj h), fun h => congrArg some (Except.ok.inj h)⟩

/-! ## What a walk leaves -/

namespace Bindings

theorem args_push (m : Bindings) (canonical token : String) (v : Value) :
    (m.push canonical token v).args = m.args ++ [v] := by
  simp [args]

theorem length_args (m : Bindings) : m.args.length = m.keys.length := by
  rw [args, keys, List.length_map, List.length_map]

end Bindings

namespace Binder

variable {b : Binder} {m m' : Bindings} {vs : List Value}

/-- Texts of some scalars that are not ignored, in order. -/
def texts (b : Binder) (vs : List Value) : List String :=
  (vs.filterMap Value.text?).filter fun text => !b.ignored.contains text

/-- **A walk binds texts in the order of their first occurrences**, behind those that were bound before. -/
theorem bindScalars_keys (h : b.bindScalars m vs = ⟨m', none⟩) (hm : m.keys.Nodup) :
    m'.keys = (m.keys ++ b.texts vs).eraseDups := by
  induction vs generalizing m with
  | nil =>
    cases h
    simp [texts, eraseDups_of_nodup hm]
  | cons v vs ih =>
    unfold bindScalars at h
    cases hv : b.bindScalar m v with
    | error f => rw [hv] at h; cases h
    | ok m₁ =>
      rw [hv] at h
      have hnodup := (bindScalar_grows hv).nodup hm
      have hrest := ih h hnodup
      obtain ⟨text, htext, hcases⟩ := bindScalar_eq_ok hv
      have hfirst : (v :: vs).filterMap Value.text? = text :: vs.filterMap Value.text? := by
        rw [List.filterMap_cons, Value.text?_eq_some.2 htext]
      rcases hcases with ⟨hseen, rfl⟩ | ⟨hi, hk, token, _, rfl⟩
      · rcases hseen with hi | hk
        · have hpassed : b.texts (v :: vs) = b.texts vs := by simp [texts, hfirst, hi]
          rw [hrest, hpassed]
        · by_cases hi : text ∈ b.ignored
          · have hpassed : b.texts (v :: vs) = b.texts vs := by simp [texts, hfirst, hi]
            rw [hrest, hpassed]
          · have hadded : b.texts (v :: vs) = text :: b.texts vs := by simp [texts, hfirst, hi]
            rw [hrest, hadded, eraseDups_append_cons hk]
      · have hadded : b.texts (v :: vs) = text :: b.texts vs := by simp [texts, hfirst, hi]
        rw [hrest, hadded, Bindings.keys_push, List.append_assoc, List.singleton_append]

/-- A walk binds nothing but the scalars that it meets. -/
theorem bindScalars_args (h : b.bindScalars m vs = ⟨m', none⟩) {a : Value} (ha : a ∈ m'.args) :
    a ∈ m.args ∨ a ∈ vs := by
  induction vs generalizing m with
  | nil =>
    cases h
    exact Or.inl ha
  | cons v vs ih =>
    unfold bindScalars at h
    cases hv : b.bindScalar m v with
    | error f => rw [hv] at h; cases h
    | ok m₁ =>
      rw [hv] at h
      rcases ih h with ha | ha
      · obtain ⟨text, _, ⟨_, rfl⟩ | ⟨_, _, token, _, rfl⟩⟩ := bindScalar_eq_ok hv
        · exact Or.inl ha
        · rw [Bindings.args_push] at ha
          rcases List.mem_append.1 ha with ha | ha
          · exact Or.inl ha
          · exact Or.inr (List.mem_singleton.1 ha ▸ List.mem_cons_self)
      · exact Or.inr (List.mem_cons_of_mem v ha)

end Binder

/-! ## The place of a text -/

namespace Bindings.OfScheme

variable {style : Style} {m : Bindings} (h : m.OfScheme style.scheme)

include h

/-- The texts of the arguments are those that are bound, in their order. -/
theorem map_text?_args : m.args.map Value.text? = m.keys.map some := by
  rw [keys, args, List.map_map, List.map_map]
  refine List.map_congr_left ?_
  intro e he
  obtain ⟨i, hi⟩ := List.mem_iff_getElem?.1 he
  exact Value.text?_eq_some.2 (h.made i e hi).2.1

/-- **The placeholder of a value carries the place of its text.** -/
theorem carried?_eq {v : Value} {token : String} (htoken : m.placeholderFor? v = some token) :
    ∃ text ∈ m.keys, v.text? = some text ∧ carried? token = some (m.keys.idxOf text + 1) := by
  obtain ⟨text, binding, hv, hget, rfl⟩ := placeholderFor?_eq_some.1 htoken
  obtain ⟨i, hi⟩ := getElem?_of_get? hget
  have hkey : m.keys[i]? = some text := by rw [keys, List.getElem?_map, hi]; rfl
  obtain ⟨hlt, hkey⟩ := List.getElem?_eq_some_iff.1 hkey
  have hplace : m.keys.idxOf text = i := by rw [← hkey, h.nodup.idxOf_getElem i hlt]
  refine ⟨text, mem_keys_of_get? hget, Value.text?_eq_some.2 hv, ?_⟩
  rw [hplace]
  exact Style.carried?_token (h.made i _ hi).2.2

end Bindings.OfScheme

/-! ## Placeholders in the order of the arguments -/

/-- Position of a text among others, if it is there. -/
def positionOf (texts : List String) (text : String) : Option Nat := some (texts.idxOf text + 1)

theorem positionOf_injective {texts : List String} {text text' : String} (hmem : text ∈ texts)
    (h : positionOf texts text = positionOf texts text') : text = text' := by
  have hplace : texts.idxOf text = texts.idxOf text' := by
    simpa [positionOf] using h
  exact (List.idxOf_inj hmem).1 hplace

/-- Texts stand at the positions from the first to the last one. -/
theorem map_positionOf {texts : List String} (h : texts.Nodup) :
    texts.map (positionOf texts) = (List.range texts.length).map fun i => some (i + 1) := by
  refine List.ext_getElem (by simp) ?_
  intro i hi _
  rw [List.length_map] at hi
  simp [positionOf, h.idxOf_getElem i hi]

/-- **Positions of some texts come in order iff the texts first occur in this order.** -/
theorem placed_in_order_iff {texts placed : List String} (hnodup : texts.Nodup) (hmem : ∀ text ∈ placed, text ∈ texts) :
    (placed.map (positionOf texts)).eraseDups = (List.range texts.length).map (fun i => some (i + 1)) ↔
      placed.eraseDups = texts := by
  have hinjective : ∀ text ∈ placed, ∀ text' ∈ placed, positionOf texts text = positionOf texts text' → text = text' :=
    fun text h _ _ => positionOf_injective (hmem text h)
  rw [eraseDups_map hinjective, ← map_positionOf hnodup]
  constructor
  · refine eq_of_map_eq ?_
    intro text htext text' _ hposition
    exact positionOf_injective (hmem text (List.mem_eraseDups.1 htext)) hposition
  · intro h
    rw [h]

end BoundSql
