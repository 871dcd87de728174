import BoundSql.Proofs.Bindings.Scalars

/-!
# How bindings grow

Whatever a binder is asked to bind, and whether or not it is stopped half way, it only appends: `b.Grows m m'` says
that `m'` is `m` with further entries, each made by `b` for a text that was neither ignored nor bound. The walk
over a condition and the one over a value grow the bindings they start from (`Binder.bindCondition_grows`,
`Binder.bindValue_grows`), so what holds of one new entry holds of all of them:

* the entries that were there stay as they are, and the new ones carry the positions that follow (`Grows.appended`);
* no text is bound twice (`Grows.nodup`).
-/

namespace BoundSql

/-- The entry that a scheme makes for its value at a position. -/
def Binding.MadeBy (s : Placeholder.Scheme) (position : Nat) (e : String × Binding) : Prop :=
  e.2.position = position ∧ e.2.value.canonical = .ok e.1 ∧ s.token e.2.value e.1 position = .ok e.2.placeholder

theorem Bindings.keys_push (m : Bindings) (canonical token : String) (v : Value) :
    (m.push canonical token v).keys = m.keys ++ [canonical] := by
  simp [Bindings.keys]

namespace Binder

/-- Bindings that `b` has appended entries to. -/
inductive Grows (b : Binder) : Bindings → Bindings → Prop
  | refl (m : Bindings) : Grows b m m
  | push {m m' : Bindings} {v : Value} {canonical token : String} :
      Grows b m m' → v.canonical = .ok canonical → canonical ∉ b.ignored → canonical ∉ m'.keys →
      b.scheme.token v canonical m'.nextPosition = .ok token → Grows b m (m'.push canonical token v)

variable {b : Binder} {m m' m'' : Bindings}

theorem Grows.trans (h : b.Grows m m') (h' : b.Grows m' m'') : b.Grows m m'' := by
  induction h' with
  | refl => exact h
  | push _ hv hi hk ht ih => exact .push ih hv hi hk ht

/-! ## Walks grow the bindings -/

/-- **What binding one scalar can do**: it needs a canonical text, and either the text is passed over or the scalar
becomes the next entry. -/
theorem bindScalar_eq_ok {v : Value} (h : b.bindScalar m v = .ok m') : ∃ canonical, v.canonical = .ok canonical ∧
    ((canonical ∈ b.ignored ∨ canonical ∈ m.keys) ∧ m' = m ∨
      canonical ∉ b.ignored ∧ canonical ∉ m.keys ∧
        ∃ token, b.scheme.token v canonical m.nextPosition = .ok token ∧ m' = m.push canonical token v) := by
  unfold bindScalar at h
  cases hv : v.canonical with
  | error f => rw [hv] at h; cases h
  | ok canonical =>
    refine ⟨canonical, rfl, ?_⟩
    rw [hv] at h
    simp only [bind, Except.bind, pure, Except.pure, Bool.or_eq_true, List.contains_iff_mem,
      Bindings.contains_iff] at h
    split at h
    · next hseen => exact Or.inl ⟨hseen, (Except.ok.inj h).symm⟩
    · next hnew =>
      cases ht : b.scheme.token v canonical m.nextPosition with
      | error f => rw [ht] at h; cases h
      | ok token =>
        rw [ht] at h
        exact Or.inr ⟨fun hi => hnew (Or.inl hi), fun hk => hnew (Or.inr hk), token, rfl, (Except.ok.inj h).symm⟩

theorem bindScalar_grows {v : Value} (h : b.bindScalar m v = .ok m') : b.Grows m m' := by
  obtain ⟨canonical, hv, ⟨_, rfl⟩ | ⟨hi, hk, token, ht, rfl⟩⟩ := bindScalar_eq_ok h
  · exact .refl m'
  · exact .push (.refl m) hv hi hk ht

theorem bindScalars_grows (b : Binder) (m : Bindings) (vs : List Value) : b.Grows m (b.bindScalars m vs).bindings := by
  induction vs generalizing m with
  | nil => exact .refl m
  | cons v vs ih =>
    unfold bindScalars
    cases h : b.bindScalar m v with
    | error f => exact .refl m
    | ok m' => exact (bindScalar_grows h).trans (ih m')

theorem bindValue_grows (b : Binder) (m : Bindings) (v : Value) : b.Grows m (b.bindValue m v).bindings :=
  bindScalars_grows b m _

theorem bindCondition_grows (b : Binder) (m : Bindings) (c : Condition) :
    b.Grows m (b.bindCondition m c).bindings := by
  rw [bindCondition_eq]
  exact bindScalars_grows b m _

/-! ## What growing keeps -/

/-- Entries stay where they are, and the n-th new one is made for the n-th position behind them. -/
theorem Grows.appended (h : b.Grows m m') : ∃ added, m'.toList = m.toList ++ added ∧
    ∀ i e, added[i]? = some e → Binding.MadeBy b.scheme (m.size + i + 1) e := by
  induction h with
  | refl => exact ⟨[], (List.append_nil _).symm, fun i e he => by cases he⟩
  | @push m' v canonical token _ hv _ _ ht ih =>
    obtain ⟨added, hm', hadded⟩ := ih
    have hsize : m'.nextPosition = m.size + added.length + 1 := by
      rw [Bindings.nextPosition, ← m'.length_toList, hm', List.length_append, m.length_toList]
    refine ⟨added ++ [(canonical, ⟨m'.nextPosition, token, v⟩)], ?_, fun i e he => ?_⟩
    · rw [Bindings.toList_push, hm', List.append_assoc]
    · rcases Nat.lt_trichotomy i added.length with hi | hi | hi
      · exact hadded i e (by rwa [List.getElem?_append_left hi] at he)
      · rw [hi, List.getElem?_append_right (Nat.le_refl _), Nat.sub_self] at he
        cases Option.some.inj he
        rw [hi, ← hsize]
        exact ⟨rfl, hv, ht⟩
      · rw [List.getElem?_eq_none (by simp; omega)] at he
        cases he

theorem Grows.nodup (h : b.Grows m m') (hm : m.keys.Nodup) : m'.keys.Nodup := by
  induction h with
  | refl => exact hm
  | push _ _ _ hk _ ih =>
    rw [Bindings.keys_push]
    exact List.nodup_append.2 ⟨ih, by simp, fun x hx y hy hxy => hk (List.mem_singleton.1 hy ▸ hxy ▸ hx)⟩

end Binder

end BoundSql
