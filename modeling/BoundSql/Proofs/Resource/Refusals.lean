import BoundSql.Proofs.Resource.ByIdentifier

/-!
# Calls that the store refuses

What a store reports of its rows makes no difference to the calls that an operation makes; only a refusal does. Up to
the first call that is refused, the calls are those that a store which refuses nothing receives, and the refused call
is the last one: the operation fails with the message of the store (`Resource.calls_until_refusal`).

The n-th call depends on the answers to those before it, and on nothing else that the store holds
(`Recorder.take_made`).
-/

namespace BoundSql

namespace Recorder

/-! ## Refusals -/

/-- Message of an answer that is a failure. -/
def messageOf? {α : Type} : Except String α → Option String
  | .error message => some message
  | .ok _ => none

/-- Message with which a store refuses the n-th of its next calls of a kind, if it does. -/
def refusal? (store : Recorder) (kind : CallKind) (n : Nat) : Option String :=
  match kind with
  | .query => store.rows[n]?.bind messageOf?
  | .execute => store.outcomes[n]?.bind messageOf?

/-- A store that refuses none of its next calls of a kind. -/
def Obliging (store : Recorder) (kind : CallKind) : Prop := ∀ n, store.refusal? kind n = none

theorem messageOf?_eq_some {α : Type} {answered : Except String α} {message : String} :
    messageOf? answered = some message ↔ answered = .error message := by
  cases answered with
  | error other => exact ⟨fun h => congrArg Except.error (Option.some.inj h), fun h => congrArg some (Except.error.inj h)⟩
  | ok a => exact ⟨nofun, nofun⟩

theorem refused_drop (outcomes : List (Except String Outcome)) (n : Nat) :
    refused (outcomes.drop n) = (outcomes[n]?.bind messageOf?).isSome := by
  rw [← List.head?_drop]
  rcases outcomes.drop n with _ | ⟨_ | o, rest⟩
  · rfl
  · rfl
  · rfl

/-! ## The calls of a run -/

variable {kind : CallKind} {outcomes outcomes' : List (Except String Outcome)}
  {requests : List (Except Failure Request)}

/-- The calls up to the n-th one depend on the refusals before it. -/
theorem take_made {n : Nat} (h : ∀ j < n, refused (outcomes.drop j) = refused (outcomes'.drop j)) :
    (made kind outcomes requests).take (n + 1) = (made kind outcomes' requests).take (n + 1) := by
  induction requests generalizing outcomes outcomes' n with
  | nil => rfl
  | cons prepared requests ih =>
    cases prepared with
    | error f => rfl
    | ok request =>
      rw [made, made, List.take_succ_cons, List.take_succ_cons]
      cases n with
      | zero => rfl
      | succ n =>
        have hfirst : refused outcomes = refused outcomes' := h 0 (Nat.zero_lt_succ n)
        have hrest : ∀ j < n, refused (outcomes.tail.drop j) = refused (outcomes'.tail.drop j) := by
          intro j hj
          rw [List.drop_tail, List.drop_tail]
          exact h (j + 1) (Nat.succ_lt_succ hj)
        rw [hfirst]
        split
        · rfl
        · rw [ih hrest]

/-- A call that is refused is the last one. -/
theorem length_made_le {n : Nat} (h : refused (outcomes.drop n) = true) :
    (made kind outcomes requests).length ≤ n + 1 := by
  induction requests generalizing outcomes n with
  | nil => exact Nat.zero_le _
  | cons prepared requests ih =>
    cases prepared with
    | error f => exact Nat.zero_le _
    | ok request =>
      rw [made, List.length_cons]
      refine Nat.succ_le_succ ?_
      split
      · exact Nat.zero_le n
      · next hfirst =>
        cases n with
        | zero => exact absurd h hfirst
        | succ n => exact ih ((List.drop_tail ..).symm ▸ h)

/-- **A run whose n-th call is refused fails with the message of the store.** -/
theorem executeEach_refused {α : Type} {prepare : α → Except Failure Request} {store : Recorder} {items : List α}
    {n : Nat} {message : String} (hn : n < (made .execute store.outcomes (items.map prepare)).length)
    (h : store.outcomes[n]? = some (.error message)) :
    (executeEach prepare store items).1 = .error (.execution message) := by
  induction items generalizing store n with
  | nil => cases hn
  | cons item items ih =>
    unfold executeEach
    cases hrequest : prepare item with
    | error f =>
      rw [List.map_cons, hrequest] at hn
      cases hn
    | ok request =>
      rw [List.map_cons, hrequest, made, List.length_cons] at hn
      obtain ⟨answered, rest, houtcomes⟩ : ∃ answered rest, store.outcomes = answered :: rest := by
        refine List.exists_cons_of_ne_nil ?_
        intro hnil
        rw [hnil] at h
        cases h
      rw [houtcomes] at hn h
      cases n with
      | zero =>
        cases Option.some.inj h
        simp [execute, answer, houtcomes]
      | succ n =>
        cases answered with
        | error message' => exact absurd (Nat.lt_of_succ_lt_succ hn) (Nat.not_lt_zero n)
        | ok o =>
          have hkept : refused (.ok o :: rest) = false := rfl
          rw [hkept, if_neg Bool.false_ne_true, List.tail_cons] at hn
          have hrest : (executeEach prepare { store.record (request.call .execute) with outcomes := rest } items).1 =
              .error (.execution message) := ih (Nat.lt_of_succ_lt_succ hn) h
          simp only [execute, answer, houtcomes, List.tail_cons]
          rw [Request.call] at hrest
          rw [hrest]
          rfl

end Recorder

/-! ## The calls of an operation -/

namespace Resource

open Recorder (made refused messageOf?)

variable {σ : Type} [FieldSource σ]

/-- The calls up to the n-th one depend on which of those before it are refused. -/
theorem take_calls (r : Resource) (op : Operation σ) {store store' : Recorder} {n : Nat}
    (h : ∀ j < n, (store.refusal? op.kind j).isSome = (store'.refusal? op.kind j).isSome) :
    (r.calls op store).take (n + 1) = (r.calls op store').take (n + 1) := by
  rw [calls_eq, calls_eq]
  cases op with
  | select condition ordering limit offset =>
    -- a single call is made whatever the answer to it is
    show (made .query _ [_]).take (n + 1) = (made .query _ [_]).take (n + 1)
    cases (r.selector.draft condition ordering limit offset).request with
    | error f => rfl
    | ok request => simp [made]
  | _ =>
    refine Recorder.take_made fun j hj => ?_
    rw [Recorder.refused_drop, Recorder.refused_drop]
    exact h j hj

/-- The calls depend on which of them are refused. -/
theorem calls_congr (r : Resource) (op : Operation σ) {store store' : Recorder}
    (h : ∀ n, (store.refusal? op.kind n).isSome = (store'.refusal? op.kind n).isSome) :
    r.calls op store = r.calls op store' := by
  have htake : ∀ n, (r.calls op store).take (n + 1) = (r.calls op store').take (n + 1) :=
    fun n => r.take_calls op fun j _ => h j
  replace htake := htake ((r.calls op store).length + (r.calls op store').length)
  rwa [List.take_of_length_le (by omega), List.take_of_length_le (by omega)] at htake

/-- A call that is refused is the last one. -/
theorem length_calls_le (r : Resource) (op : Operation σ) {store : Recorder} {n : Nat} {message : String}
    (h : store.refusal? op.kind n = some message) : (r.calls op store).length ≤ n + 1 := by
  rw [calls_eq]
  cases op with
  | select condition ordering limit offset =>
    show (made .query _ [_]).length ≤ n + 1
    cases (r.selector.draft condition ordering limit offset).request with
    | error f => exact Nat.zero_le _
    | ok request => simp [made]
  | _ =>
    refine Recorder.length_made_le ?_
    rw [Recorder.refused_drop]
    exact Option.isSome_iff_exists.2 ⟨message, h⟩

/-- An operation whose n-th call is refused fails with the message of the store. -/
theorem perform_refused (r : Resource) (op : Operation σ) {store : Recorder} {n : Nat} {message : String}
    (h : store.refusal? op.kind n = some message) (hn : n < (r.calls op store).length) :
    (r.perform op store).1 = .error (.execution message) := by
  rw [calls_eq] at hn
  have hrun : op.kind = .execute → (r.perform op store).1 = .error (.execution message) := by
    intro hop
    rw [hop] at h hn
    obtain ⟨answered, hanswered, hmessage⟩ := Option.bind_eq_some_iff.1 h
    obtain rfl := Recorder.messageOf?_eq_some.1 hmessage
    rw [perform_eq_run r hop]
    rw [requests] at hn
    cases hdrafts : r.drafts op with
    | error f =>
      rw [hdrafts] at hn
      exact absurd hn (Nat.not_lt_zero n)
    | ok drafts =>
      rw [hdrafts] at hn
      show r.answerOf op <$> (store.executeEach Draft.request drafts).1 = _
      rw [Recorder.executeEach_refused hn hanswered]
      rfl
  cases op with
  | select condition ordering limit offset =>
    obtain ⟨answered, hanswered, hmessage⟩ := Option.bind_eq_some_iff.1 h
    obtain rfl := Recorder.messageOf?_eq_some.1 hmessage
    rw [perform, Selector.select]
    replace hn : n < (made .query store.outcomes [r.selector.request condition ordering limit offset]).length := hn
    cases hrequest : r.selector.request condition ordering limit offset with
    | error f =>
      rw [hrequest] at hn
      exact absurd hn (Nat.not_lt_zero n)
    | ok request =>
      obtain rfl : n = 0 := by
        rw [hrequest] at hn
        simpa [made] using hn
      obtain ⟨rest, hrows⟩ := List.head?_eq_some_iff.1 (List.head?_eq_getElem? ▸ hanswered)
      simp [Recorder.query, Recorder.answer, hrows]
  | _ => exact hrun rfl

/-- **An operation stops at the first call that is refused.** Up to that call it makes the calls that it makes if none
is refused, whatever the store reports; it makes no further call, and fails with the message of the store. -/
theorem calls_until_refusal (r : Resource) (op : Operation σ) (store patient : Recorder)
    (hpatient : patient.Obliging op.kind) :
    (∀ store' : Recorder, (∀ n, (store'.refusal? op.kind n).isSome = (store.refusal? op.kind n).isSome) →
      r.calls op store' = r.calls op store) ∧
    (∀ n, (∀ j < n, store.refusal? op.kind j = none) →
      (r.calls op store).take (n + 1) = (r.calls op patient).take (n + 1)) ∧
    ∀ n message, n < (r.calls op store).length → store.refusal? op.kind n = some message →
      (r.perform op store).1 = .error (.execution message) ∧ r.calls op store = (r.calls op patient).take (n + 1) := by
  have hfirst : ∀ n, (∀ j < n, store.refusal? op.kind j = none) →
      (r.calls op store).take (n + 1) = (r.calls op patient).take (n + 1) := by
    intro n hn
    refine r.take_calls op fun j hj => ?_
    rw [hn j hj, hpatient j]
  refine ⟨fun store' h => r.calls_congr op h, hfirst, fun n message hn h => ⟨r.perform_refused op h hn, ?_⟩⟩
  have hbefore : ∀ j < n, store.refusal? op.kind j = none := by
    intro j hj
    cases hj' : store.refusal? op.kind j with
    | none => rfl
    | some message' =>
      have hlast := r.length_calls_le op hj'
      omega
  rw [← hfirst n hbefore, List.take_of_length_le (r.length_calls_le op h)]

end Resource

/-! ## Three users, the second of which is locked -/

/-- A new nickname for three users. -/
def Operation.renameThree : Operation Record :=
  .update (Dict.ofList [("nick", .text "bob")]) (some (.inList (.bare "id") [.int 9, .int 7, .int 5])) [] none

/-- A store that changes one row and refuses to change the next one. -/
def Recorder.locked : Recorder := (Recorder.empty.scriptOutcome (.ok ⟨4, none⟩)).scriptOutcome (.error "locked")

/-- The third of three users is not renamed any more if the second one is refused. -/
theorem Resource.renameThree_until_refusal :
    (numberedUsers.calls Operation.renameThree .empty).length = 3 ∧
      (numberedUsers.perform Operation.renameThree .locked).1 = .error (.execution "locked") ∧
      numberedUsers.calls Operation.renameThree .locked = (numberedUsers.calls Operation.renameThree .empty).take 2 := by
  have hcalls : (numberedUsers.calls Operation.renameThree .empty).length = 3 := by decide +kernel
  have hlocked : (numberedUsers.calls Operation.renameThree .locked).length = 2 := by decide +kernel
  have hpatient : Recorder.empty.Obliging (Operation.kind Operation.renameThree) := fun _ => rfl
  obtain ⟨_, _, hrefused⟩ := calls_until_refusal numberedUsers Operation.renameThree .locked .empty hpatient
  exact ⟨hcalls, hrefused 1 "locked" (hlocked ▸ Nat.lt_add_one 1) rfl⟩

end BoundSql
