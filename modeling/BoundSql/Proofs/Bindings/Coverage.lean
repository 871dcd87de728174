import BoundSql.Proofs.Bindings.Growth

/-!
# What a walk covers

A walk that is not stopped has dealt with every scalar that it met: its text is ignored, or bound by now
(`bindScalars_covers`). Nothing else is bound: a text that a walk has added is that of a scalar that it met, and is not
ignored (`bindScalars_adds`).
-/

namespace BoundSql

namespace Binder

variable {b : Binder} {m m' : Bindings} {canonical : String}

theorem Grows.mem_keys (h : b.Grows m m') (hkey : canonical ∈ m.keys) : canonical ∈ m'.keys := by
  induction h with
  | refl => exact hkey
  | push _ _ _ _ _ ih =>
    rw [Bindings.keys_push]
    exact List.mem_append_left _ ih

/-- A scalar that was bound or passed over is ignored or bound. -/
theorem bindScalar_covers {v : Value} (h : b.bindScalar m v = .ok m') :
    ∃ canonical, v.canonical = .ok canonical ∧ (canonical ∈ b.ignored ∨ canonical ∈ m'.keys) := by
  obtain ⟨canonical, hv, ⟨hseen, rfl⟩ | ⟨_, _, token, _, rfl⟩⟩ := bindScalar_eq_ok h
  · exact ⟨canonical, hv, hseen⟩
  · refine ⟨canonical, hv, Or.inr ?_⟩
    rw [Bindings.keys_push]
    exact List.mem_append_right _ List.mem_cons_self

/-- **A walk that is not stopped deals with every scalar.** -/
theorem bindScalars_covers {vs : List Value} (h : b.bindScalars m vs = ⟨m', none⟩) :
    ∀ v ∈ vs, ∃ canonical, v.canonical = .ok canonical ∧ (canonical ∈ b.ignored ∨ canonical ∈ m'.keys) := by
  induction vs generalizing m with
  | nil => nofun
  | cons v vs ih =>
    unfold bindScalars at h
    cases hv : b.bindScalar m v with
    | error f => rw [hv] at h; cases h
    | ok m₁ =>
      rw [hv] at h
      replace h : b.bindScalars m₁ vs = ⟨m', none⟩ := h
      have hgrows := bindScalars_grows b m₁ vs
      rw [h] at hgrows
      obtain ⟨canonical, hcanonical, hcovered⟩ := bindScalar_covers hv
      exact List.forall_mem_cons.2 ⟨⟨canonical, hcanonical, hcovered.imp_right hgrows.mem_keys⟩, ih h⟩

/-- **A walk adds nothing but texts of the scalars that it meets.** -/
theorem bindScalars_adds {vs : List Value} (h : b.bindScalars m vs = ⟨m', none⟩) (hkey : canonical ∈ m'.keys) :
    canonical ∈ m.keys ∨ canonical ∉ b.ignored ∧ ∃ v ∈ vs, v.canonical = .ok canonical := by
  induction vs generalizing m with
  | nil =>
    cases h
    exact Or.inl hkey
  | cons v vs ih =>
    unfold bindScalars at h
    cases hv : b.bindScalar m v with
    | error f => rw [hv] at h; cases h
    | ok m₁ =>
      rw [hv] at h
      rcases ih h with hfirst | ⟨hi, u, hu, hcanonical⟩
      · obtain ⟨text, htext, ⟨_, rfl⟩ | ⟨hi, _, token, _, rfl⟩⟩ := bindScalar_eq_ok hv
        · exact Or.inl hfirst
        · rw [Bindings.keys_push] at hfirst
          rcases List.mem_append.1 hfirst with hfirst | hfirst
          · exact Or.inl hfirst
          · obtain rfl := List.mem_singleton.1 hfirst
            exact Or.inr ⟨hi, v, List.mem_cons_self, htext⟩
      · exact Or.inr ⟨hi, u, List.mem_cons_of_mem v hu, hcanonical⟩

end Binder

end BoundSql
