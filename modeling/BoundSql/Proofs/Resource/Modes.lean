import BoundSql.Proofs.Resource.ByIdentifier
import BoundSql.Proofs.Resource.Direct
import BoundSql.Proofs.Sql.Selection

/-!
# Both ways to find rows

By identifiers, the rows of an update or a removal are those whose identifiers its condition comes to. Directly, they
are those for which the condition in its text is true. For a condition that selects identifiers these are the same rows
(`Resource.modes_agree`): both are the rows with an integer that the selection has.

What stands for a value in the text is the argument that was bound for its text (`Bindings.bound`). The arguments of a
removal are the integers of its condition. Those of an update are its new values too, and one of them may have the text
of an integer of the condition; so the database must take it for this integer (`Sql.Database.TakesArguments`).
-/

namespace BoundSql

open Sql (Token Truth Database changed?)

/-! ## Values seen through arguments -/

/-- The argument that was bound for the text of a value, or the value if there is none. -/
def Bindings.bound (m : Bindings) (v : Value) : Value := ((m.bindingFor? v).map Binding.value).getD v

theorem Bindings.shows_bound (m : Bindings) : m.Shows m.bound := by
  intro v canonical binding hv hget
  rw [bound, bindingFor?, hv]
  dsimp only
  rw [hget]
  rfl

/-- An argument that is bound for a value has its text. -/
theorem Bindings.OfScheme.bound_eq_or {s : Placeholder.Scheme} {m : Bindings} (h : m.OfScheme s) (v : Value) :
    m.bound v = v ∨ m.bound v ∈ m.args ∧ ∃ text, v.canonical = .ok text ∧ (m.bound v).canonical = .ok text := by
  cases hbinding : m.bindingFor? v with
  | none => exact Or.inl (by rw [bound, hbinding]; rfl)
  | some binding =>
    have hbound : m.bound v = binding.value := by rw [bound, hbinding]; rfl
    unfold bindingFor? at hbinding
    split at hbinding
    · next text htext =>
      obtain ⟨i, hargs, _, hvalue, _⟩ := h.argument hbinding
      exact Or.inr (hbound ▸ ⟨List.mem_of_getElem? hargs, text, htext, hvalue⟩)
    · cases hbinding

/-! ## Databases that take arguments for integers -/

namespace Sql.Database

variable {V : Type} {db : Database V}

/-- A database that takes bound integers for integers. -/
def TakesIntegers (db : Database V) : Prop := ∀ n : Int64, db.Takes (db.argument (.int n)) n.toInt

/-- A database that takes the arguments that have the texts of integers for these integers. -/
def TakesArguments (db : Database V) (args : List Value) : Prop :=
  ∀ a ∈ args, ∀ n : Int64, a.canonical = .ok (Value.integerText n) → db.Takes (db.argument a) n.toInt

theorem TakesIntegers.takesArguments (h : db.TakesIntegers) {args : List Value}
    (hargs : ∀ a ∈ args, ∃ n, a = .int n) : db.TakesArguments args := by
  intro a ha n htext
  obtain ⟨n', rfl⟩ := hargs a ha
  obtain rfl := Value.integerText_injective (Except.ok.inj htext)
  exact h n'

/-- What stands for an integer is taken for it. -/
theorem TakesIntegers.takes_bound (h : db.TakesIntegers) {s : Placeholder.Scheme} {m : Bindings} (hm : m.OfScheme s)
    (hargs : db.TakesArguments m.args) (n : Int64) : db.Takes (db.argument (m.bound (.int n))) n.toInt := by
  rcases hm.bound_eq_or (.int n) with hbound | ⟨hmem, text, htext, hbound⟩
  · rw [hbound]
    exact h n
  · cases htext
    exact hargs _ hmem n hbound

end Sql.Database

/-! ## The truth of a call -/

section

variable {V : Type} (db : Database V) (row : List String → V)

/-- Truth on a row of the condition of a call that changes a table; its placeholders are read from the arguments. -/
def Call.truth? (call : Call) : Option Truth := do
  let (_, scope) ← changed? call.sql
  let e ← Sql.parseTokens scope.condition
  return e.truth db row call.args

/-- **The condition of a call has the truth of the condition of its target.** -/
theorem Call.ChangesTarget.truth?_eq {c : Config} {target : Target} {m : Bindings} {us : List Token} {call : Call}
    (h : call.ChangesTarget c target m us) (f : Formula) (hf : target.condition = f.condition) :
    call.truth? db row = some (f.truthSeen db c.fields row m.bound) := by
  obtain ⟨hscheme, hargs, hus, criteria, hchanged⟩ := h
  rw [hf] at hus
  have hmeans : Sql.Means db row m.args us (f.truthSeen db c.fields row m.bound) :=
    condition_faithful db row (fun _ hbody => f.body_faithful db row hscheme m.shows_bound hbody) hus
  obtain ⟨e, he, htruth⟩ := hmeans
  unfold Call.truth?
  rw [hchanged, hargs, ← htruth]
  show (Sql.parseTokens us).bind _ = _
  rw [he.parseTokens_eq]
  rfl

end

/-! ## Selections -/

namespace Selection

mutual

/-- The scalars of a selection are integers. -/
theorem scalars_integers (identifier : FieldRef) (s : Selection) :
    ∀ v ∈ (s.formula identifier).condition.scalars, ∃ n, v = .int n := by
  cases s with
  | id n => exact fun v hv => ⟨n, List.mem_singleton.1 hv⟩
  | range low high _ =>
    intro v hv
    replace hv : v ∈ [Value.int low, .int high] := hv
    rcases List.mem_pair.1 hv with rfl | rfl
    · exact ⟨low, rfl⟩
    · exact ⟨high, rfl⟩
  | among ids =>
    intro v hv
    have hitems : (ids.map Scalar.int).map Scalar.value = ids.map .int := List.map_map
    replace hv : v ∈ (Condition.inList identifier ((ids.map Scalar.int).map Scalar.value)).scalars := hv
    rw [hitems, Condition.inList_scalars] at hv
    obtain ⟨n, _, rfl⟩ := List.mem_map.1 hv
    exact ⟨n, rfl⟩
  | any parts => exact branchScalars_integers identifier parts

/-- The scalars of several selections are integers. -/
theorem branchScalars_integers (identifier : FieldRef) (parts : List Selection) :
    ∀ v ∈ Term.allScalars ((Formula.conditions (formulas identifier parts)).map .condition), ∃ n, v = .int n := by
  cases parts with
  | nil => nofun
  | cons s parts =>
    intro v hv
    rcases List.mem_append.1 hv with hv | hv
    · exact scalars_integers identifier s v hv
    · exact branchScalars_integers identifier parts v hv

end

/-- A call whose condition is a selection tells which rows it changes. -/
theorem truth?_eq {c : Config} {target : Target} {m : Bindings} {us : List Token} {call : Call}
    (h : call.ChangesTarget c target m us) {identifier : FieldRef} (s : Selection)
    (hs : target.condition = (s.formula identifier).condition) {V : Type} {db : Database V} (hdb : db.TakesIntegers)
    (hargs : db.TakesArguments m.args) {row : List String → V} {n : Int}
    (hrow : row (c.fields.path identifier) = db.integer n) : call.truth? db row = some (.ofBool (s.has n)) := by
  rw [h.truth?_eq db row (s.formula identifier) hs, truthSeen_eq hrow (hdb.takes_bound h.scheme hargs)]

end Selection

namespace Resource

variable {σ : Type} [FieldSource σ]

/-- **Both ways to find rows agree.** An integer is among the identifiers that a selection comes to if and only if the
text of a direct removal or update with this selection is true for the rows that have the integer. -/
theorem modes_agree (c : Config) (other : Targeting) (identifier : FieldRef) (s : Selection) {ids : List Int64}
    (hids : (s.formula identifier).condition.identifiers identifier = .ok ids) {V : Type} (db : Database V)
    (hdb : db.TakesIntegers) (row : List String → V) (n : Int) (hrow : row (c.fields.path identifier) = db.integer n)
    (ordering : List OrderBy) (limit : Option Nat) (store : Recorder) :
    (∀ offset, ∀ call ∈ (assemble c other .direct).calls
        (.delete (some (s.formula identifier).condition) ordering limit offset : Operation σ) store,
      ∃ t, call.truth? db row = some t ∧ ((∃ id ∈ ids, id.toInt = n) ↔ t = .holds)) ∧
    ∀ changes : σ, ∀ call ∈ (assemble c .direct other).calls
        (.update changes (some (s.formula identifier).condition) ordering limit) store,
      db.TakesArguments call.args →
        ∃ t, call.truth? db row = some t ∧ ((∃ id ∈ ids, id.toInt = n) ↔ t = .holds) := by
  have hlisted : (∃ id ∈ ids, id.toInt = n) ↔ Truth.ofBool (s.has n) = .holds :=
    (s.mem_identifiers hids n).trans Truth.ofBool_eq_holds.symm
  refine ⟨fun offset call hcall => ?_, fun changes call hcall hargs => ?_⟩
  · obtain ⟨cond, m, us, hcond, hchanges, hscalars⟩ := changesTarget_of_delete hcall
    cases hcond
    have hargs : db.TakesArguments m.args :=
      hdb.takesArguments fun a ha => s.scalars_integers identifier a (hscalars a ha)
    exact ⟨_, s.truth?_eq hchanges rfl hdb hargs hrow, hlisted⟩
  · obtain ⟨cond, m, us, hcond, hchanges⟩ := changesTarget_of_update hcall
    cases hcond
    rw [hchanges.args] at hargs
    exact ⟨_, s.truth?_eq hchanges rfl hdb hargs hrow, hlisted⟩

end Resource

/-! ### Some users -/

/-- Users with some numbers, two of which are named twice. -/
def Selection.someUsers : Selection :=
  .any [.id 5, .any [.range 3 4 (by decide), .among [9, 5, 4]], .among [], .any []]

theorem Selection.someUsers_identifiers :
    (someUsers.formula (.bare "id")).condition.identifiers (.bare "id") = .ok [5, 3, 4, 9] := by
  rw [someUsers]
  simp only [identifiers_any, branches_cons, branches_nil, identifiers_id, identifiers_range, identifiers_among]
  rfl

/-- The removal of these users. -/
def Operation.removeSome : Operation Record :=
  .delete (some (Selection.someUsers.formula (.bare "id")).condition) [] none none

/-- A nickname for these users, which is the number of one of them. -/
def Operation.renameSome : Operation Record :=
  .update (Dict.ofList [("nick", .int 5)]) (some (Selection.someUsers.formula (.bare "id")).condition) [] none

theorem Value.exists_int {v : Value} (h : v.typeTag = .integer) : ∃ n, v = .int n := by
  cases v with
  | int n => exact ⟨n, rfl⟩
  | _ => cases h

/-- A user with a number. -/
def Sql.Cell.user (n : Int) : List String → Cell
  | ["user_id"] => integer n
  | _ => null

theorem Sql.Cell.takesIntegers : database.TakesIntegers := by
  have hle (a b : Int) : (!decide (a < b)) = decide (b ≤ a) := by
    rw [← decide_not]
    exact decide_eq_decide.2 Int.not_lt
  refine fun m => ⟨fun n => ?_, fun n => ?_, fun n => ?_⟩
  · simp [database, test]
  · simp [database, test, less, hle]
  · simp [database, test, less, hle]

namespace Resource

/-- The texts of the removal and of the update are true for user 4, whose number is listed, and not for user 7. -/
theorem someUsers_agree : ∃ removal update : Call,
    (assemble Config.numberedUsers .direct .direct).calls Operation.removeSome .empty = [removal] ∧
      removal.sql = "DELETE FROM \x22users\x22 WHERE (\x22user_id\x22 = %1$d) OR " ++
        "((\x22user_id\x22 BETWEEN %2$d AND %3$d) OR (\x22user_id\x22 IN (%4$d, %1$d, %3$d))) OR (1 = 0) OR (1 = 0)" ∧
    (assemble Config.numberedUsers .direct .direct).calls Operation.renameSome .empty = [update] ∧
      update.sql = "UPDATE \x22users\x22 SET \x22nick\x22 = %1$d WHERE (\x22user_id\x22 = %1$d) OR " ++
        "((\x22user_id\x22 BETWEEN %2$d AND %3$d) OR (\x22user_id\x22 IN (%4$d, %1$d, %3$d))) OR (1 = 0) OR (1 = 0)" ∧
    ∀ call ∈ [removal, update],
      call.truth? Sql.Cell.database (Sql.Cell.user 4) = some .holds ∧
        ∃ t, call.truth? Sql.Cell.database (Sql.Cell.user 7) = some t ∧ t ≠ .holds := by
  have hremovals : ((assemble Config.numberedUsers .direct .direct).calls Operation.removeSome .empty).map (·.sql) =
      ["DELETE FROM \x22users\x22 WHERE (\x22user_id\x22 = %1$d) OR " ++
        "((\x22user_id\x22 BETWEEN %2$d AND %3$d) OR (\x22user_id\x22 IN (%4$d, %1$d, %3$d))) OR (1 = 0) OR (1 = 0)"] := by
    decide +kernel
  have hupdates : ((assemble Config.numberedUsers .direct .direct).calls Operation.renameSome .empty).map
      (fun call => (call.sql, call.args.all (·.typeTag = .integer))) =
      [("UPDATE \x22users\x22 SET \x22nick\x22 = %1$d WHERE (\x22user_id\x22 = %1$d) OR " ++
        "((\x22user_id\x22 BETWEEN %2$d AND %3$d) OR (\x22user_id\x22 IN (%4$d, %1$d, %3$d))) OR (1 = 0) OR (1 = 0)",
        true)] := by
    decide +kernel
  obtain ⟨removal, hremoval, hremovalText⟩ := List.map_eq_singleton_iff.1 hremovals
  obtain ⟨update, hupdate, hread⟩ := List.map_eq_singleton_iff.1 hupdates
  obtain ⟨hupdateText, hintegers⟩ := Prod.mk.inj hread
  have hargs : Sql.Cell.database.TakesArguments update.args := by
    refine Sql.Cell.takesIntegers.takesArguments fun a ha => Value.exists_int ?_
    simpa using List.all_eq_true.1 hintegers a ha
  have hagree (n : Int) := modes_agree (σ := Record) Config.numberedUsers .direct (.bare "id") Selection.someUsers
    Selection.someUsers_identifiers Sql.Cell.database Sql.Cell.takesIntegers (Sql.Cell.user n) n rfl [] none .empty
  have hsplit (call : Call) (h : ∀ n : Int, ∃ t, call.truth? Sql.Cell.database (Sql.Cell.user n) = some t ∧
      ((∃ id ∈ ([5, 3, 4, 9] : List Int64), id.toInt = n) ↔ t = .holds)) :
      call.truth? Sql.Cell.database (Sql.Cell.user 4) = some .holds ∧
        ∃ t, call.truth? Sql.Cell.database (Sql.Cell.user 7) = some t ∧ t ≠ .holds := by
    obtain ⟨t, ht, hlisted⟩ := h 4
    obtain ⟨t', ht', hlisted'⟩ := h 7
    exact ⟨hlisted.1 (by decide) ▸ ht, t', ht', fun hholds => absurd (hlisted'.2 hholds) (by decide)⟩
  refine ⟨removal, update, hremoval, hremovalText, hupdate, hupdateText, ?_⟩
  rintro call hcall
  rcases List.mem_pair.1 hcall with rfl | rfl
  · exact hsplit _ fun n => (hagree n).1 none _ (hremoval ▸ List.mem_singleton_self _)
  · exact hsplit _ fun n => (hagree n).2 _ _ (hupdate ▸ List.mem_singleton_self _) hargs

end Resource

end BoundSql
