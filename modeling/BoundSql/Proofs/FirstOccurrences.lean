import BoundSql.FirstOccurrences
import Mathlib.Data.List.Basic

/-!
# What the first occurrences are

The first occurrences are collected with the help of a set of what was seen. They are the elements of the list without
their later repetitions (`firstOccurrences_eq`), so no element comes twice, and none is lost.
-/

namespace BoundSql

/-- Lists are told apart by a function that keeps their elements apart. -/
theorem eq_of_map_eq {α β : Type} {f : α → β} {xs ys : List α} (hf : ∀ x ∈ xs, ∀ y ∈ ys, f x = f y → x = y)
    (h : xs.map f = ys.map f) : xs = ys := by
  induction xs generalizing ys with
  | nil => exact (List.map_eq_nil_iff.1 h.symm).symm
  | cons x xs ih =>
    cases ys with
    | nil => cases h
    | cons y ys =>
      rw [List.map_cons, List.map_cons] at h
      obtain ⟨hfirst, hrest⟩ := List.cons.inj h
      have hx := hf x List.mem_cons_self y List.mem_cons_self hfirst
      have hxs := ih (fun x hx y hy => hf x (List.mem_cons_of_mem _ hx) y (List.mem_cons_of_mem _ hy)) hrest
      rw [hx, hxs]

/-! ## Lists without repetitions -/

section

variable {α β : Type} [BEq α] [LawfulBEq α] [BEq β] [LawfulBEq β]

theorem nodup_eraseDups (xs : List α) : xs.eraseDups.Nodup := by
  cases xs with
  | nil => exact List.nodup_nil
  | cons x xs =>
    rw [List.eraseDups_cons, List.nodup_cons]
    exact ⟨by simp [List.mem_eraseDups], nodup_eraseDups _⟩
termination_by xs.length
decreasing_by exact Nat.lt_succ_of_le (List.length_filter_le ..)

omit [LawfulBEq α] in
theorem eraseDups_sublist (xs : List α) : xs.eraseDups.Sublist xs := by
  cases xs with
  | nil => exact .slnil
  | cons x xs =>
    rw [List.eraseDups_cons]
    exact ((eraseDups_sublist _).trans List.filter_sublist).cons_cons x
termination_by xs.length
decreasing_by exact Nat.lt_succ_of_le (List.length_filter_le ..)

theorem eraseDups_of_nodup {xs : List α} (h : xs.Nodup) : xs.eraseDups = xs := by
  induction xs with
  | nil => rfl
  | cons x xs ih =>
    obtain ⟨hx, hxs⟩ := List.nodup_cons.1 h
    have hkept : (xs.filter fun y => !y == x) = xs := by
      refine List.filter_eq_self.2 ?_
      intro y hy
      have hne : y ≠ x := fun heq => hx (heq ▸ hy)
      simp [hne]
    rw [List.eraseDups_cons, hkept, ih hxs]

/-- Repetitions of what is in front do not count. -/
theorem eraseDups_append_cons {xs : List α} {x : α} (h : x ∈ xs) (ys : List α) :
    (xs ++ x :: ys).eraseDups = (xs ++ ys).eraseDups := by
  rw [List.eraseDups_append, List.eraseDups_append]
  simp [List.removeAll, h]

theorem eraseDups_filter (p : α → Bool) (xs : List α) : (xs.filter p).eraseDups = xs.eraseDups.filter p := by
  match xs with
  | [] => rfl
  | x :: xs =>
    have hrest := eraseDups_filter p (xs.filter fun y => !y == x)
    rw [List.eraseDups_cons, List.filter_cons, List.filter_cons, ← hrest]
    split
    next => rw [List.eraseDups_cons, List.filter_comm]
    next hx =>
      have hkept : (xs.filter fun y => !y == x).filter p = xs.filter p := by
        rw [List.filter_filter]
        refine List.filter_congr fun y _ => ?_
        cases hy : p y with
        | false => rfl
        | true =>
          have hne : y ≠ x := fun heq => hx (heq ▸ hy)
          simp [hne]
      rw [hkept]
termination_by xs.length
decreasing_by exact Nat.lt_succ_of_le (List.length_filter_le ..)

/-- Only the first occurrences count for those of lists behind each other. -/
theorem eraseDups_append_congr {xs xs' ys ys' : List α} (hxs : xs.eraseDups = xs'.eraseDups)
    (hys : ys.eraseDups = ys'.eraseDups) : (xs ++ ys).eraseDups = (xs' ++ ys').eraseDups := by
  have hmem (y : α) : xs.elem y = xs'.elem y := by
    rw [Bool.eq_iff_iff, List.elem_iff, List.elem_iff, ← List.mem_eraseDups, hxs, List.mem_eraseDups]
  have hnew : (ys.removeAll xs).eraseDups = (ys'.removeAll xs').eraseDups := by
    simp only [List.removeAll, eraseDups_filter, hmem, hys]
  rw [List.eraseDups_append, List.eraseDups_append, hxs, hnew]

/-- A function that keeps elements apart keeps their repetitions. -/
theorem eraseDups_map {f : α → β} {xs : List α} (hf : ∀ x ∈ xs, ∀ y ∈ xs, f x = f y → x = y) :
    (xs.map f).eraseDups = xs.eraseDups.map f := by
  match xs, hf with
  | [], _ => rfl
  | x :: xs, hf =>
    have hrest : ∀ y ∈ xs.filter fun y => !y == x, y ∈ x :: xs := fun y hy =>
      List.mem_cons_of_mem x (List.mem_of_mem_filter hy)
    have hfilter : ((xs.map f).filter fun z => !z == f x) = (xs.filter fun y => !y == x).map f := by
      rw [List.filter_map]
      refine congrArg (List.map f) (List.filter_congr ?_)
      intro y hy
      have hiff : f y = f x ↔ y = x := ⟨hf y (List.mem_cons_of_mem x hy) x List.mem_cons_self, congrArg f⟩
      rw [Function.comp_apply, Bool.not_inj_iff, Bool.eq_iff_iff, beq_iff_eq, beq_iff_eq, hiff]
    rw [List.map_cons, List.eraseDups_cons, List.eraseDups_cons, List.map_cons, hfilter,
      eraseDups_map fun y hy z hz => hf y (hrest y hy) z (hrest z hz)]
termination_by xs.length
decreasing_by exact Nat.lt_succ_of_le (List.length_filter_le ..)

end

/-! ## First occurrences -/

variable {α : Type} [BEq α] [LawfulBEq α] [Hashable α] [LawfulHashable α]

/-- One pass keeps what is neither seen nor a repetition. -/
theorem foldl_keepNew (xs kept : List α) (seen : Std.HashSet α) (hseen : ∀ x, seen.contains x = kept.contains x) :
    (xs.foldl keepNew (seen, kept)).2.reverse = kept.reverse ++ (xs.removeAll kept).eraseDups := by
  induction xs generalizing kept seen with
  | nil => simp [List.removeAll]
  | cons x xs ih =>
    rw [List.foldl_cons, keepNew]
    split
    · next hx =>
      rw [ih kept seen hseen]
      simp_all [List.removeAll]
    · next hx =>
      have hnew : x ∉ kept := by simpa [hseen] using hx
      have hseen' : ∀ y, (seen.insert x).contains y = (x :: kept).contains y := by
        intro y
        rw [Std.HashSet.contains_insert, hseen, List.contains_cons, BEq.comm]
      have hrest : (xs.removeAll kept).filter (fun y => !y == x) = xs.removeAll (x :: kept) := by
        simp [List.removeAll, List.filter_filter]
      have hfirst : (x :: xs).removeAll kept = x :: xs.removeAll kept := by simp [List.removeAll, hnew]
      rw [ih (x :: kept) (seen.insert x) hseen', hfirst, List.eraseDups_cons, hrest, List.reverse_cons,
        List.append_assoc, List.singleton_append]

/-- **The first occurrences are the elements without their repetitions.** -/
theorem firstOccurrences_eq (xs : List α) : firstOccurrences xs = xs.eraseDups := by
  rw [firstOccurrences, foldl_keepNew xs [] ∅ fun x => by simp]
  simp [List.removeAll]

theorem mem_firstOccurrences {x : α} {xs : List α} : x ∈ firstOccurrences xs ↔ x ∈ xs := by
  rw [firstOccurrences_eq, List.mem_eraseDups]

theorem nodup_firstOccurrences (xs : List α) : (firstOccurrences xs).Nodup := by
  rw [firstOccurrences_eq]
  exact nodup_eraseDups xs

end BoundSql
