import BoundSql.Proofs.Condition.Identifiers

/-!
# Disjunctions read flat

The identifiers of a disjunction are looked up branch by branch, and repetitions are dropped at every level. One pass
over what is met on the way (`Condition.visits`), in the order in which it is written, comes to the same
(`Condition.identifiers_flat`): the identifiers are those of the leaves without later repetitions, however the
disjunctions are nested, and the failure is that of the first place that fails.

* `Condition.Reaches` : a condition reaches itself, and a disjunction what its branches reach.
* `Condition.leafConditions` : the conditions reached that are no disjunctions, from left to right.
* `Condition.Resolves` : what is asked of each condition that is reached.
-/

namespace BoundSql

/-- What is met on the way through disjunctions: a condition, or a term of a disjunction that is none. -/
inductive Visit where
  | condition (c : Condition)
  | stray (t : Term)

namespace Condition

/-! ## What is met -/

/-- A condition reaches itself and, if it is a disjunction, what its branches reach. -/
inductive Reaches : Condition → Condition → Prop
  | self (c : Condition) : Reaches c c
  | branch {c b d : Condition} : c.operator = .or → .condition b ∈ c.terms → Reaches b d → Reaches c d

mutual

/-- What is met from a condition on, each disjunction in front of its branches. -/
def visits : Condition → List Visit
  | ⟨operator, terms, negated⟩ =>
    .condition ⟨operator, terms, negated⟩ :: (if operator = .or then branchVisits terms else [])

/-- What is met in the terms of a disjunction. -/
def branchVisits : List Term → List Visit
  | [] => []
  | .condition c :: rest => c.visits ++ branchVisits rest
  | t :: rest => .stray t :: branchVisits rest

end

end Condition

namespace Visit

/-- What is met at a condition: itself, or a term that it has as a disjunction and that is no condition. -/
inductive At (c : Condition) : Visit → Prop
  | condition : At c (.condition c)
  | stray {t : Term} : c.operator = .or → t ∈ c.terms → t.isCondition = false → At c (.stray t)

/-- A condition that is no disjunction. -/
def leaf? : Visit → Option Condition
  | .condition c => if c.operator = .or then none else some c
  | .stray _ => none

/-- Identifiers that are found at one place. A disjunction has none but those of its branches. -/
def identifiers (identifier : FieldRef) : Visit → Except Failure (List Int64)
  | .condition c => if c.operator = .or ∧ c.negated = false then .ok [] else c.identifiers identifier
  | .stray _ => .error .branchNotCondition

end Visit

namespace Condition

/-- Conditions that are reached and are no disjunctions, from left to right. -/
def leafConditions (c : Condition) : List Condition := c.visits.filterMap Visit.leaf?

/-- A condition that is not negated and is a disjunction of conditions, or a leaf that names identifiers. -/
structure Resolves (identifier : FieldRef) (c : Condition) : Prop where
  positive : c.negated = false
  named : c.operator ∈ [.or, .equalTo, .between, .in]
  branches : c.operator = .or → ∀ t ∈ c.terms, t.isCondition
  leaf : c.operator ≠ .or → Succeeds (c.identifiers identifier)

/-! ## Where it is met -/

mutual

theorem mem_visits (c : Condition) (v : Visit) : v ∈ c.visits ↔ ∃ d, c.Reaches d ∧ Visit.At d v := by
  obtain ⟨operator, terms, negated⟩ := c
  have hbranches := mem_branchVisits terms v
  rw [visits, List.mem_cons]
  constructor
  · rintro (rfl | hv)
    · exact ⟨_, .self _, .condition⟩
    · split at hv
      next hor =>
        rcases hbranches.1 hv with ⟨t, ht, hstray, rfl⟩ | ⟨b, hb, d, hreach, hat⟩
        · exact ⟨_, .self _, .stray hor ht hstray⟩
        · exact ⟨d, .branch hor hb hreach, hat⟩
      next => cases hv
  · rintro ⟨d, hreach, hat⟩
    cases hreach with
    | self =>
      cases hat with
      | condition => exact Or.inl rfl
      | stray hor ht hstray =>
        rw [if_pos hor]
        exact Or.inr (hbranches.2 (Or.inl ⟨_, ht, hstray, rfl⟩))
    | branch hor hb hreach =>
      rw [if_pos hor]
      exact Or.inr (hbranches.2 (Or.inr ⟨_, hb, d, hreach, hat⟩))

theorem mem_branchVisits (terms : List Term) (v : Visit) : v ∈ branchVisits terms ↔
    (∃ t ∈ terms, t.isCondition = false ∧ v = .stray t) ∨
      ∃ b, .condition b ∈ terms ∧ ∃ d, b.Reaches d ∧ Visit.At d v := by
  cases terms with
  | nil => simp [branchVisits]
  | cons t rest =>
    have hrest := mem_branchVisits rest v
    cases t with
    | condition b =>
      have hb := mem_visits b v
      rw [branchVisits, List.mem_append, hb, hrest]
      simp [Term.isCondition, or_and_right, exists_or, or_left_comm]
    | literal value =>
      rw [branchVisits, List.mem_cons, hrest]
      · simp [Term.isCondition, or_assoc]
      · nofun
    | field ref =>
      rw [branchVisits, List.mem_cons, hrest]
      · simp [Term.isCondition, or_assoc]
      · nofun

end

/-! ## One pass -/

/-- Lists of identifiers put together as a condition does. -/
def join (c : Condition) (lists : List (List Int64)) : List Int64 :=
  if c.operator = .or then lists.flatten.eraseDups else lists.flatten

theorem eraseDups_join (c : Condition) (lists : List (List Int64)) :
    (c.join lists).eraseDups = lists.flatten.eraseDups := by
  rw [join]
  split
  · exact eraseDups_of_nodup (nodup_eraseDups _)
  · rfl

theorem identifiers_or_eq (identifier : FieldRef) (terms : List Term) :
    (⟨.or, terms, false⟩ : Condition).identifiers identifier =
      List.eraseDups <$> branchIdentifiers identifier terms := by
  have hfirst : (firstOccurrences : List Int64 → List Int64) = List.eraseDups := funext firstOccurrences_eq
  rw [identifiers, if_neg Bool.false_ne_true, hfirst]

mutual

/-- A condition comes to what one pass over its places comes to. -/
theorem identifiers_visits (identifier : FieldRef) (c : Condition) :
    Related (· = ·) (fun ids lists => ids = c.join lists) (c.identifiers identifier)
      (c.visits.mapM (Visit.identifiers identifier)) := by
  obtain ⟨operator, terms, negated⟩ := c
  rw [visits, List.mapM_cons, Visit.identifiers]
  by_cases hor : operator = .or
  · subst hor
    cases negated with
    | true => exact .error rfl
    | false =>
      have hterms := branchIdentifiers_visits identifier terms
      rw [identifiers_or_eq, map_eq_pure_bind]
      exact hterms.bind fun ids lists h => .ok h
  · rw [if_neg fun h => hor h.1, if_neg hor]
    cases Condition.identifiers identifier ⟨operator, terms, negated⟩ with
    | error f => exact .error rfl
    | ok ids => exact .ok (by simp [join, hor])

/-- The branches of a disjunction come to what one pass over their places comes to, but for repetitions. -/
theorem branchIdentifiers_visits (identifier : FieldRef) (terms : List Term) :
    Related (· = ·) (fun ids lists => ids.eraseDups = lists.flatten.eraseDups) (branchIdentifiers identifier terms)
      ((branchVisits terms).mapM (Visit.identifiers identifier)) := by
  cases terms with
  | nil => exact .ok rfl
  | cons t rest =>
    cases t with
    | condition b =>
      have hb := identifiers_visits identifier b
      have hrest := branchIdentifiers_visits identifier rest
      rw [branchIdentifiers, branchVisits, List.mapM_append]
      refine hb.bind fun ids lists h => hrest.bind fun more others h' => .ok ?_
      have hids : ids.eraseDups = lists.flatten.eraseDups := by rw [h, eraseDups_join]
      rw [List.flatten_append]
      exact eraseDups_append_congr hids h'
    | literal v => exact .error rfl
    | field ref => exact .error rfl

end

/-- A disjunction has no identifiers of its own. -/
theorem identifiers_visit_or {identifier : FieldRef} {c : Condition} {ids : List Int64} (hor : c.operator = .or)
    (h : (Visit.condition c).identifiers identifier = .ok ids) : ids = [] := by
  obtain ⟨operator, terms, negated⟩ := c
  subst hor
  cases negated with
  | true => cases h
  | false =>
    cases h
    rfl

/-- The leaves among some places have the identifiers of these places. -/
theorem mapM_leafConditions {identifier : FieldRef} {vs : List Visit} {lists : List (List Int64)}
    (h : vs.mapM (Visit.identifiers identifier) = .ok lists) :
    ∃ own, (vs.filterMap Visit.leaf?).mapM (Condition.identifiers identifier) = .ok own ∧ own.flatten = lists.flatten := by
  induction vs generalizing lists with
  | nil =>
    cases h
    exact ⟨[], rfl, rfl⟩
  | cons v vs ih =>
    rw [List.mapM_cons] at h
    obtain ⟨ids, hids, h⟩ := bind_eq_ok.1 h
    obtain ⟨lists, hlists, h⟩ := bind_eq_ok.1 h
    cases h
    obtain ⟨own, hown, hflat⟩ := ih hlists
    cases v with
    | stray t => cases hids
    | condition c =>
      rw [List.filterMap_cons, Visit.leaf?]
      by_cases hor : c.operator = .or
      · rw [if_pos hor]
        exact ⟨own, hown, by rw [hflat, identifiers_visit_or hor hids]; rfl⟩
      · rw [Visit.identifiers, if_neg fun h => hor h.1] at hids
        rw [if_neg hor]
        refine ⟨ids :: own, ?_, by rw [List.flatten_cons, List.flatten_cons, hflat]⟩
        exact mapM_eq_ok.2 (.cons hids (mapM_eq_ok.1 hown))

/-- What is asked of a condition is that every place of it has identifiers. -/
theorem resolves_iff {identifier : FieldRef} {c : Condition} :
    c.Resolves identifier ↔ ∀ v, Visit.At c v → Succeeds (v.identifiers identifier) := by
  constructor
  · intro h v hv
    cases hv with
    | condition =>
      rw [Visit.identifiers]
      split
      next => exact .ok []
      next hnot => exact h.leaf fun hor => hnot ⟨hor, h.positive⟩
    | stray hor ht hstray =>
      rw [h.branches hor _ ht] at hstray
      cases hstray
  · intro h
    have hself := h _ .condition
    have hbranches : c.operator = .or → ∀ t ∈ c.terms, t.isCondition := by
      intro hor t ht
      by_contra hstray
      obtain ⟨ids, hids⟩ := h _ (.stray hor ht (by simpa using hstray))
      cases hids
    have hleaf : c.operator ≠ .or → Succeeds (c.identifiers identifier) := by
      intro hor
      rwa [Visit.identifiers, if_neg fun h => hor h.1] at hself
    obtain ⟨operator, terms, negated⟩ := c
    cases negated with
    | true =>
      obtain ⟨ids, hids⟩ := hself
      rw [Visit.identifiers, if_neg fun h => nomatch h.2] at hids
      cases hids
    | false =>
      refine ⟨rfl, ?_, hbranches, hleaf⟩
      cases operator with
      | or | equalTo | between | «in» => simp
      | _ =>
        obtain ⟨ids, hids⟩ := hleaf nofun
        cases hids

/-- Every place has identifiers if and only if each condition that is reached is as asked. -/
theorem mapM_visits_succeeds {identifier : FieldRef} {c : Condition} :
    Succeeds (c.visits.mapM (Visit.identifiers identifier)) ↔ ∀ d, c.Reaches d → d.Resolves identifier := by
  constructor
  · intro h d hreach
    exact resolves_iff.2 fun v hat => h.of_mapM ((mem_visits c v).2 ⟨d, hreach, hat⟩)
  · intro h
    refine .mapM fun v hv => ?_
    obtain ⟨d, hreach, hat⟩ := (mem_visits c v).1 hv
    exact resolves_iff.1 (h d hreach) v hat

/-- **Disjunctions are read flat.** A condition names identifiers if and only if all that it reaches through disjunctions
is as asked; they are then those of its leaves from left to right, without repetitions if it is a disjunction. If it does
not, it fails as the first place on the way that fails. -/
theorem identifiers_flat (identifier : FieldRef) (c : Condition) :
    (∀ ids, c.identifiers identifier = .ok ids ↔
      (∀ d, c.Reaches d → d.Resolves identifier) ∧
      ∃ lists, List.Forall₂ (fun leaf own => leaf.identifiers identifier = .ok own) c.leafConditions lists ∧
        ids = if c.operator = .or then lists.flatten.eraseDups else lists.flatten) ∧
    ∀ f, c.identifiers identifier = .error f ↔
      c.visits.findSome? (fun v => failure? (v.identifiers identifier)) = some f := by
  have hvisits := identifiers_visits identifier c
  have hreaches := @mapM_visits_succeeds identifier c
  simp only [← mapM_eq_error_iff]
  generalize c.identifiers identifier = found at hvisits ⊢
  cases hpass : c.visits.mapM (Visit.identifiers identifier) with
  | error f =>
    rw [hpass] at hvisits hreaches
    cases hvisits with
    | error h =>
      subst h
      refine ⟨fun ids => ⟨nofun, ?_⟩, fun f => by rw [Except.error.injEq, Except.error.injEq]⟩
      rintro ⟨hall, _⟩
      obtain ⟨lists, hlists⟩ := hreaches.2 hall
      cases hlists
  | ok lists =>
    rw [hpass] at hvisits hreaches
    cases hvisits with
    | ok h =>
      subst h
      obtain ⟨own, hown, hflat⟩ := mapM_leafConditions hpass
      refine ⟨fun ids => ⟨?_, ?_⟩, fun f => ⟨nofun, nofun⟩⟩
      · rintro ⟨⟩
        exact ⟨hreaches.1 (.ok lists), own, mapM_eq_ok.1 hown, by rw [join, hflat]⟩
      · rintro ⟨_, own', hown', rfl⟩
        obtain rfl : own = own' := Except.ok.inj (hown.symm.trans (mapM_eq_ok.2 hown'))
        rw [join, hflat]

/-! ### Overlapping branches -/

/-- Users by number, some of whom two branches name, and a test of another field. -/
def overlapping : Condition :=
  .disj [.equalTo (.bare "id") (.int 3),
    .disj [.between (.bare "id") (.int 4) (.int 2), .inList (.bare "id") [.int 4, .text " 10 "]],
    .equalTo (.bare "title") (.text "Hello")]

/-- A disjunction with a conjunction in a branch, in front of a term that is no condition. -/
def untamed : Condition :=
  .ofTerms .or [.condition overlapping, .condition (.disj [.conj [overlapping]]), .literal (.int 5)]

/-- Each user is listed once, and the conjunction is what the second condition fails at. -/
theorem overlapping_flat : overlapping.identifiers (.bare "id") = .ok [3, 4, 2, 10] ∧
    (∀ d, overlapping.Reaches d → d.Resolves (.bare "id")) ∧
    (∃ lists, List.Forall₂ (fun leaf own => leaf.identifiers (.bare "id") = .ok own) overlapping.leafConditions lists ∧
      [3, 4, 2, 10] = lists.flatten.eraseDups) ∧
    untamed.identifiers (.bare "id") = .error (.operatorWithoutIdentifiers .and) := by
  have hids : overlapping.identifiers (.bare "id") = .ok [3, 4, 2, 10] := by
    simp only [overlapping, disj, ofTerms, List.map_cons, List.map_nil, identifiers_or_eq, branchIdentifiers]
    apply eq_ok_of_toOption
    decide +kernel
  obtain ⟨hall, hlists⟩ := ((identifiers_flat (.bare "id") overlapping).1 [3, 4, 2, 10]).1 hids
  exact ⟨hids, hall, hlists, ((identifiers_flat (.bare "id") untamed).2 _).2 (by rfl)⟩

end Condition

end BoundSql
