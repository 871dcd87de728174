import BoundSql.Proofs.Bindings.Growth
import Mathlib.Data.List.Induction

/-!
# Bindings that several binders share

Any sequence of requests to bind, made by any binders on the same bindings and stopped or not, leaves bindings that are
in order: the texts are distinct, and the entry that came n-th carries position n, its own canonical text as its key,
and the token that the binder which added it makes for it (`after_in_order`). A request only appends.

The step is `BindRequest.run_grows`; the run is an induction on the requests from the last one on.
-/

namespace BoundSql

/-- A request to bind: who binds, and what. -/
inductive BindRequest where
  | condition (b : Binder) (c : Condition)
  | value (b : Binder) (v : Value)

namespace BindRequest

/-- The binder that is asked. -/
def binder : BindRequest → Binder
  | condition b _ => b
  | value b _ => b

/-- What the request does to some bindings. -/
def run (m : Bindings) : BindRequest → Bound
  | condition b c => b.bindCondition m c
  | value b v => b.bindValue m v

theorem run_grows (m : Bindings) : ∀ r : BindRequest, r.binder.Grows m (r.run m).bindings
  | condition b c => b.bindCondition_grows m c
  | value b v => b.bindValue_grows m v

end BindRequest

namespace Bindings

/-- Bindings after some requests; one that was stopped has bound what came before. -/
def after (requests : List BindRequest) : Bindings := requests.foldl (fun m r => (r.run m).bindings) empty

/-- The entry at index `i` is one of those that the request `r` added. -/
def AddedBy (requests : List BindRequest) (i : Nat) (r : BindRequest) : Prop :=
  ∃ before later, requests = before ++ r :: later ∧ (after before).size ≤ i ∧ i < (after (before ++ [r])).size

variable {requests : List BindRequest}

theorem after_snoc (requests : List BindRequest) (r : BindRequest) :
    after (requests ++ [r]) = (r.run (after requests)).bindings := by
  simp [after, List.foldl_append]

theorem AddedBy.snoc {i : Nat} {r : BindRequest} (h : AddedBy requests i r) (last : BindRequest) :
    AddedBy (requests ++ [last]) i r := by
  obtain ⟨before, later, rfl, hi⟩ := h
  exact ⟨before, later ++ [last], by simp, hi⟩

/-! ## What a run keeps -/

theorem after_nodup (requests : List BindRequest) : (after requests).keys.Nodup := by
  induction requests using List.reverseRecOn with
  | nil => exact List.nodup_nil
  | append_singleton requests r ih =>
    rw [after_snoc]
    exact (r.run_grows _).nodup ih

theorem after_prefix (requests : List BindRequest) (r : BindRequest) :
    (after requests).toList <+: (after (requests ++ [r])).toList := by
  obtain ⟨added, h, _⟩ := (r.run_grows (after requests)).appended
  exact ⟨added, by rw [after_snoc, h]⟩

/-- Every entry was made for its place by the binder of the request that added it. -/
theorem after_made {i : Nat} {e : String × Binding} (h : (after requests).toList[i]? = some e) :
    ∃ r, AddedBy requests i r ∧ Binding.MadeBy r.binder.scheme (i + 1) e := by
  induction requests using List.reverseRecOn with
  | nil => cases h
  | append_singleton requests r ih =>
    obtain ⟨added, happ, hadded⟩ := (r.run_grows (after requests)).appended
    rw [← after_snoc] at happ
    have hlt := (List.getElem?_eq_some_iff.1 h).1
    rw [length_toList] at hlt
    rw [happ] at h
    by_cases hi : i < (after requests).size
    · rw [List.getElem?_append_left (by rwa [length_toList])] at h
      obtain ⟨r', hr', hm⟩ := ih h
      exact ⟨r', hr'.snoc r, hm⟩
    · have hi := Nat.le_of_not_lt hi
      rw [List.getElem?_append_right (by rwa [length_toList]), length_toList] at h
      have hm := hadded _ e h
      rw [Nat.add_sub_cancel' hi] at hm
      exact ⟨r, ⟨requests, [], rfl, hi, hlt⟩, hm⟩

/-- **Shared bindings stay in order**: after any requests the texts are distinct, the entry at index `i` carries
position `i + 1`, the canonical text of its value and the token of the binder that added it, arguments and tokens are
listed in the order of the entries, and one more request changes nothing that is there. -/
theorem after_in_order (requests : List BindRequest) :
    (after requests).keys.Nodup ∧
    (∀ i canonical binding, (after requests).toList[i]? = some (canonical, binding) →
      binding.position = i + 1 ∧ binding.value.canonical = .ok canonical ∧
      ∃ r, AddedBy requests i r ∧ r.binder.scheme.token binding.value canonical (i + 1) = .ok binding.placeholder) ∧
    (after requests).args = (after requests).toList.map (fun e => e.2.value) ∧
    (after requests).placeholders = (after requests).toList.map (fun e => e.2.placeholder) ∧
    ∀ r, (after requests).toList <+: (after (requests ++ [r])).toList := by
  refine ⟨after_nodup requests, fun i canonical binding h => ?_, rfl, rfl, after_prefix requests⟩
  obtain ⟨r, hr, hposition, hcanonical, htoken⟩ := after_made h
  exact ⟨hposition, hcanonical, r, hr, htoken⟩

end Bindings

end BoundSql
