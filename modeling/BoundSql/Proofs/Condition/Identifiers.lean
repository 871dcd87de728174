import BoundSql.Condition.Identifiers
import BoundSql.Proofs.FirstOccurrences
import BoundSql.Proofs.Success
import Mathlib.Data.List.Nodup

/-!
# The identifiers of a condition

A range lists the integers from its first bound to its second one by one (`map_toInt_inclusiveRange`). So neither a range
nor a disjunction lists an integer twice; only an equality or a membership does, if it names it twice itself
(`Condition.nodup_identifiers`).
-/

namespace BoundSql

/-- The k-th integer of a walk, upwards or downwards. -/
def walked (first last : Int64) (k : Nat) : Int :=
  if first ≤ last then first.toInt + k else first.toInt - k

/-- **A range is walked one by one**, and no integer on the way is out of bounds. -/
theorem map_toInt_inclusiveRange {first last : Int64} {ids : List Int64} (h : inclusiveRange first last = .ok ids) :
    ids.map Int64.toInt = (List.range ((last.toInt - first.toInt).natAbs + 1)).map (walked first last) := by
  have hfirst : -2 ^ 63 ≤ first.toInt ∧ first.toInt < 2 ^ 63 := ⟨Int64.le_toInt first, Int64.toInt_lt first⟩
  have hlast : -2 ^ 63 ≤ last.toInt ∧ last.toInt < 2 ^ 63 := ⟨Int64.le_toInt last, Int64.toInt_lt last⟩
  unfold inclusiveRange at h
  dsimp only at h
  split at h
  · cases h
  · split at h
    · next hle =>
      have hle' : first.toInt ≤ last.toInt := Int64.le_iff_toInt_le.1 hle
      cases h
      rw [List.map_map]
      refine List.map_congr_left fun k hk => ?_
      rw [List.mem_range] at hk
      rw [walked, if_pos hle]
      exact Int64.toInt_ofInt_of_le (by omega) (by omega)
    · next hle =>
      have hle' : last.toInt < first.toInt := Int.not_le.1 fun hle' => hle (Int64.le_iff_toInt_le.2 hle')
      cases h
      rw [List.map_map]
      refine List.map_congr_left fun k hk => ?_
      rw [List.mem_range] at hk
      rw [walked, if_neg hle]
      exact Int64.toInt_ofInt_of_le (by omega) (by omega)

theorem nodup_inclusiveRange {first last : Int64} {ids : List Int64} (h : inclusiveRange first last = .ok ids) :
    ids.Nodup := by
  refine List.Nodup.of_map Int64.toInt ?_
  rw [map_toInt_inclusiveRange h]
  refine List.nodup_range.map fun k k' hkk' => ?_
  unfold walked at hkk'
  split at hkk'
  · omega
  · omega

namespace Condition

/-- Identifiers of a disjunction are those of its branches without repetitions. -/
theorem identifiers_or {identifier : FieldRef} {terms : List Term} {ids : List Int64}
    (h : (⟨.or, terms, false⟩ : Condition).identifiers identifier = .ok ids) :
    ∃ all, branchIdentifiers identifier terms = .ok all ∧ ids = firstOccurrences all := by
  obtain ⟨all, hall, rfl⟩ := map_eq_ok.1 h
  exact ⟨all, hall, rfl⟩

/-- Identifiers of a range are those of one between two integers. -/
theorem identifiers_between {identifier : FieldRef} {terms : List Term} {ids : List Int64}
    (h : (⟨.between, terms, false⟩ : Condition).identifiers identifier = .ok ids) :
    ∃ first last, anchoredIntegers identifier terms = .ok (some [first, last]) ∧
      inclusiveRange first last = .ok ids := by
  obtain ⟨bounds, hbounds, h⟩ := bind_eq_ok.1 (show rangeIdentifiers identifier terms = .ok ids from h)
  split at h
  · exact ⟨_, _, hbounds, h⟩
  · cases h

/-- **No identifier comes twice**, unless an equality or a membership names it twice. -/
theorem nodup_identifiers {c : Condition} {identifier : FieldRef} {ids : List Int64}
    (h : c.identifiers identifier = .ok ids) : ids.Nodup ∨ c.operator = .equalTo ∨ c.operator = .in := by
  obtain ⟨operator, terms, negated⟩ := c
  cases negated with
  | true => cases h
  | false =>
    cases operator with
    | or =>
      obtain ⟨all, _, rfl⟩ := identifiers_or h
      exact Or.inl (nodup_firstOccurrences all)
    | between =>
      obtain ⟨first, last, _, hrange⟩ := identifiers_between h
      exact Or.inl (nodup_inclusiveRange hrange)
    | equalTo => exact Or.inr (Or.inl rfl)
    | «in» => exact Or.inr (Or.inr rfl)
    | _ => cases h

end Condition

end BoundSql
