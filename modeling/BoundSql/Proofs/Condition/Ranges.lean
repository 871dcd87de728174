import BoundSql.Proofs.Condition.Identifiers

/-!
# Identifiers between two bounds

A range test names identifiers if it refers to the identifying field and has two literals that stand for integers, in
whatever order its terms are (`Condition.Bounds`). It names the integers from the first bound to the second, upwards or
downwards, unless there are more than a million of them; any other range test is refused as an invalid argument
(`Condition.identifiers_of_bounds`). Distances are taken between integers without a bound, so no pair of 64-bit bounds is too
far apart for them.
-/

namespace BoundSql

/-! ## One range -/

theorem inclusiveRange_succeeds {first last : Int64} :
    Succeeds (inclusiveRange first last) ↔ (last.toInt - first.toInt).natAbs + 1 ≤ 1000000 := by
  rw [inclusiveRange, rangeLimit]
  split
  next hlarge =>
    constructor
    · rintro ⟨ids, hids⟩
      cases hids
    · intro h
      omega
  next hsmall =>
    constructor
    · intro _
      omega
    · intro _
      split
      · exact .ok _
      · exact .ok _

/-- The integers of a range, counted and one by one. -/
theorem getElem_inclusiveRange {first last : Int64} {ids : List Int64} (h : inclusiveRange first last = .ok ids) :
    ids.length = (last.toInt - first.toInt).natAbs + 1 ∧
      ∀ k, (hk : k < ids.length) →
        ids[k].toInt = if first.toInt ≤ last.toInt then first.toInt + k else first.toInt - k := by
  have hmap := map_toInt_inclusiveRange h
  have hlength := congrArg List.length hmap
  rw [List.length_map, List.length_map, List.length_range] at hlength
  refine ⟨hlength, fun k hk => ?_⟩
  have hwalked : (ids.map Int64.toInt)[k]? = some (walked first last k) := by
    rw [hmap, List.getElem?_map, List.getElem?_range (by omega)]
    rfl
  rw [List.getElem?_map, List.getElem?_eq_getElem hk] at hwalked
  simpa [walked, Int64.le_iff_toInt_le] using hwalked

theorem kind_inclusiveRange {first last : Int64} {f : Failure} (h : inclusiveRange first last = .error f) :
    f.kind = .invalidArgument := by
  rw [inclusiveRange] at h
  split at h
  · cases h
    rfl
  · split at h
    · cases h
    · cases h

/-! ## Bounds among the terms -/

/-- A value that is no integer is an invalid argument. -/
theorem Value.kind_integer {v : Value} {f : Failure} (h : v.integer = .error f) : f.kind = .invalidArgument := by
  cases v with
  | int n => cases h
  | float x =>
    rw [integer] at h
    cases hx : x.toInt64? with
    | some n =>
      rw [hx] at h
      cases h
    | none =>
      rw [hx] at h
      cases h
      rfl
  | text s =>
    rw [integer] at h
    cases hs : integerOfText? s with
    | some n =>
      rw [hs] at h
      cases h
    | none =>
      rw [hs] at h
      cases h
      rfl
  | _ =>
    cases h
    rfl

namespace Condition

/-- Terms that refer to a field and have two literals, which stand for two integers. -/
structure Bounds (identifier : FieldRef) (terms : List Term) (first last : Int64) : Prop where
  refers : .field identifier ∈ terms
  literals : List.Forall₂ (fun v n => v.integer = .ok n) (terms.filterMap Term.literal?) [first, last]

variable {identifier : FieldRef} {terms : List Term}

theorem any_references : terms.any (·.references identifier) = true ↔ .field identifier ∈ terms := by
  rw [List.any_eq_true]
  constructor
  · rintro ⟨t, ht, href⟩
    cases t with
    | field ref => exact of_decide_eq_true href ▸ ht
    | _ => cases href
  · intro h
    exact ⟨_, h, decide_eq_true rfl⟩

theorem anchoredIntegers_eq_ok {ns : List Int64} : anchoredIntegers identifier terms = .ok (some ns) ↔
    .field identifier ∈ terms ∧
      List.Forall₂ (fun v n => v.integer = .ok n) (terms.filterMap Term.literal?) ns := by
  rw [anchoredIntegers, ← any_references, ← mapM_eq_ok]
  split
  next h =>
    rw [map_eq_ok]
    constructor
    · rintro ⟨ns', hns, heq⟩
      cases heq
      exact ⟨h, hns⟩
    · rintro ⟨_, hns⟩
      exact ⟨ns, hns, rfl⟩
  next h =>
    constructor
    · intro hnone
      cases hnone
    · rintro ⟨hany, _⟩
      exact absurd hany h

/-- A range test with two bounds names the integers of their range. -/
theorem Bounds.identifiers_eq {first last : Int64} (h : Bounds identifier terms first last) :
    (⟨.between, terms, false⟩ : Condition).identifiers identifier = inclusiveRange first last := by
  have hbounds := anchoredIntegers_eq_ok.2 ⟨h.refers, h.literals⟩
  rw [identifiers, if_neg Bool.false_ne_true]
  show rangeIdentifiers identifier terms = _
  rw [rangeIdentifiers, hbounds]
  rfl

/-- A range test without two bounds is an invalid argument. -/
theorem kind_rangeIdentifiers (h : ¬∃ first last, Bounds identifier terms first last) :
    ∃ f, rangeIdentifiers identifier terms = .error f ∧ f.kind = .invalidArgument := by
  rw [rangeIdentifiers]
  cases hbounds : anchoredIntegers identifier terms with
  | error f =>
    refine ⟨f, rfl, ?_⟩
    rw [anchoredIntegers] at hbounds
    split at hbounds
    · obtain ⟨v, _, hv⟩ := mapM_eq_error (map_eq_error.1 hbounds)
      exact Value.kind_integer hv
    · cases hbounds
  | ok found =>
    rcases found with _ | _ | ⟨first, _ | ⟨last, _ | ⟨more, rest⟩⟩⟩
    case some.cons.cons.nil =>
      obtain ⟨hrefers, hliterals⟩ := anchoredIntegers_eq_ok.1 hbounds
      exact absurd ⟨first, last, hrefers, hliterals⟩ h
    all_goals exact ⟨_, rfl, rfl⟩

/-- **A range names each integer between its bounds.** A range test with two bounds names identifiers if and only if
there are at most a million; these are the integers from the first bound to the last, one by one. Any other range test is
an invalid argument. -/
theorem identifiers_of_bounds (identifier : FieldRef) (terms : List Term) :
    (∀ first last : Int64, Bounds identifier terms first last →
      (Succeeds ((⟨.between, terms, false⟩ : Condition).identifiers identifier) ↔
        (last.toInt - first.toInt).natAbs + 1 ≤ 1000000) ∧
      ∀ ids, (⟨.between, terms, false⟩ : Condition).identifiers identifier = .ok ids →
        ids.length = (last.toInt - first.toInt).natAbs + 1 ∧
          ∀ k, (hk : k < ids.length) →
            ids[k].toInt = if first.toInt ≤ last.toInt then first.toInt + k else first.toInt - k) ∧
    ((¬∃ first last : Int64, Bounds identifier terms first last ∧
        (last.toInt - first.toInt).natAbs + 1 ≤ 1000000) →
      ∃ f, (⟨.between, terms, false⟩ : Condition).identifiers identifier = .error f ∧ f.kind = .invalidArgument) := by
  constructor
  · intro first last h
    rw [h.identifiers_eq]
    exact ⟨inclusiveRange_succeeds, fun ids hids => getElem_inclusiveRange hids⟩
  · intro hnone
    by_cases hbounds : ∃ first last, Bounds identifier terms first last
    · obtain ⟨first, last, h⟩ := hbounds
      rw [h.identifiers_eq]
      cases hrange : inclusiveRange first last with
      | error f => exact ⟨f, rfl, kind_inclusiveRange hrange⟩
      | ok ids => exact absurd ⟨first, last, h, inclusiveRange_succeeds.1 ⟨ids, hrange⟩⟩ hnone
    · exact kind_rangeIdentifiers hbounds

/-! ### Bounds in any place -/

/-- Two bounds around the field, with a condition and another field beside them. -/
def scattered : List Term :=
  [.literal (.text " 9.0 "), .condition (.conj []), .field (.bare "id"), .field (.bare "name"), .literal (.int 6)]

/-- Bounds as far apart as they can be. -/
def farthest : List Term :=
  [.field (.bare "id"), .literal (.int Int64.minValue), .literal (.int Int64.maxValue)]

/-- Four integers downwards, too many, and a bound that is missing. -/
theorem scattered_range :
    (∃ ids, (⟨.between, scattered, false⟩ : Condition).identifiers (.bare "id") = .ok ids ∧ ids.length = 4 ∧
      ∀ k, (hk : k < ids.length) → ids[k].toInt = 9 - k) ∧
    ¬Succeeds ((⟨.between, farthest, false⟩ : Condition).identifiers (.bare "id")) ∧
    ∃ f, (⟨.between, scattered.take 3, false⟩ : Condition).identifiers (.bare "id") = .error f ∧
      f.kind = .invalidArgument := by
  have hscattered : Bounds (.bare "id") scattered 9 6 := by
    refine ⟨by simp [scattered], .cons (eq_ok_of_toOption ?_) (.cons rfl .nil)⟩
    decide +kernel
  have hfarthest : Bounds (.bare "id") farthest Int64.minValue Int64.maxValue :=
    ⟨by simp [farthest], .cons rfl (.cons rfl .nil)⟩
  obtain ⟨hsucceeds, hids⟩ := (identifiers_of_bounds (.bare "id") scattered).1 9 6 hscattered
  obtain ⟨ids, h⟩ := hsucceeds.2 (by decide)
  obtain ⟨hlength, helements⟩ := hids ids h
  refine ⟨⟨ids, h, hlength, helements⟩, fun hmany => ?_, ?_⟩
  · have hspan := ((identifiers_of_bounds (.bare "id") farthest).1 _ _ hfarthest).1.1 hmany
    revert hspan
    decide
  · refine (identifiers_of_bounds (.bare "id") (scattered.take 3)).2 ?_
    rintro ⟨first, last, ⟨_, hliterals⟩, _⟩
    cases hliterals with
    | cons _ hrest => cases hrest

end Condition

end BoundSql
