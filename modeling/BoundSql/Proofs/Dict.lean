import BoundSql.Dict
import BoundSql.Proofs.FirstOccurrences
import Mathlib.Data.List.Nodup

/-!
# Dictionaries made of pairs

Pairs are put in one after the other. Of those with one key, the first gives the place (`Dict.keys_ofList`) and the
last gives the value (`Dict.get?_ofList`). So pairs with distinct keys are the entries of their dictionary
(`Dict.entries_ofList`), and every dictionary is made of its entries (`Dict.ofList_entries`).
-/

namespace BoundSql.Dict

variable {α : Type}

/-! ## Entries -/

theorem eq_of_entries : ∀ {d d' : Dict α}, d.entries = d'.entries → d = d'
  | ⟨_, _⟩, ⟨_, _⟩, rfl => rfl

theorem get?_of_mem {d : Dict α} {e : String × α} (h : e ∈ d.entries) : d.get? e.1 = some e.2 := by
  unfold get?
  cases hfind : d.entries.find? (·.1 = e.1) with
  | none =>
    rw [List.find?_eq_none] at hfind
    exact absurd (decide_eq_true rfl) (hfind e h)
  | some other =>
    have hkey : other.1 = e.1 := by simpa using List.find?_some hfind
    rw [List.inj_on_of_nodup_map d.distinct (List.mem_of_find?_eq_some hfind) h hkey]
    rfl

theorem mem_of_get? {d : Dict α} {key : String} {value : α} (h : d.get? key = some value) :
    (key, value) ∈ d.entries := by
  obtain ⟨e, he, rfl⟩ := Option.map_eq_some_iff.1 h
  have hkey : e.1 = key := by simpa using List.find?_some he
  exact hkey ▸ List.mem_of_find?_eq_some he

/-- What is under a key is its entry. -/
theorem get?_eq_some_iff {d : Dict α} {key : String} {value : α} :
    d.get? key = some value ↔ (key, value) ∈ d.entries := ⟨mem_of_get?, get?_of_mem⟩

/-! ## Pairs -/

/-- Value of the last pair with a key. -/
def lastValue? (pairs : List (String × α)) (key : String) : Option α := (pairs.findRev? (·.1 = key)).map Prod.snd

theorem lastValue?_cons (pair : String × α) (pairs : List (String × α)) (key : String) :
    lastValue? (pair :: pairs) key = (lastValue? pairs key).or (if pair.1 = key then some pair.2 else none) := by
  rw [lastValue?, lastValue?, List.findRev?_eq_find?_reverse, List.findRev?_eq_find?_reverse, List.reverse_cons,
    List.find?_append, List.find?_singleton, Option.map_or]
  by_cases h : pair.1 = key <;> simp [h]

theorem lastValue?_eq_some {pairs : List (String × α)} {key : String} {value : α}
    (h : lastValue? pairs key = some value) : (key, value) ∈ pairs := by
  rw [lastValue?, List.findRev?_eq_find?_reverse] at h
  obtain ⟨p, hp, rfl⟩ := Option.map_eq_some_iff.1 h
  have hkey : p.1 = key := by simpa using List.find?_some hp
  exact hkey ▸ List.mem_reverse.1 (List.mem_of_find?_eq_some hp)

/-- A key that comes has a last value. -/
theorem exists_lastValue? {pairs : List (String × α)} {key : String} {value : α} (h : (key, value) ∈ pairs) :
    ∃ last, lastValue? pairs key = some last := by
  induction pairs with
  | nil => cases h
  | cons pair pairs ih =>
    rw [lastValue?_cons]
    rcases List.mem_cons.1 h with rfl | h
    · cases lastValue? pairs key with
      | none => exact ⟨value, by simp⟩
      | some last => exact ⟨last, rfl⟩
    · obtain ⟨last, hlast⟩ := ih h
      exact ⟨last, by rw [hlast, Option.some_or]⟩

theorem get?_foldl_insert (pairs : List (String × α)) (d : Dict α) (key : String) :
    (pairs.foldl (fun d p => d.insert p.1 p.2) d).get? key = (lastValue? pairs key).or (d.get? key) := by
  induction pairs generalizing d with
  | nil => rfl
  | cons pair pairs ih =>
    rw [List.foldl_cons, ih, get?_insert, lastValue?_cons, Option.or_assoc]
    by_cases h : pair.1 = key
    · rw [if_pos h.symm, if_pos h, Option.some_or]
    · rw [if_neg (Ne.symm h), if_neg h, Option.none_or]

/-- **Of the pairs with one key the last gives the value.** -/
theorem get?_ofList (pairs : List (String × α)) (key : String) : (ofList pairs).get? key = lastValue? pairs key :=
  (get?_foldl_insert pairs empty key).trans Option.or_none

theorem keys_foldl_insert (pairs : List (String × α)) (d : Dict α) :
    (pairs.foldl (fun d p => d.insert p.1 p.2) d).keys = (d.keys ++ pairs.map Prod.fst).eraseDups := by
  induction pairs generalizing d with
  | nil =>
    have hdistinct : d.keys.Nodup := d.distinct
    rw [List.map_nil, List.append_nil, eraseDups_of_nodup hdistinct, List.foldl_nil]
  | cons pair pairs ih =>
    rw [List.foldl_cons, ih, keys_insert, List.map_cons]
    split
    · next hmem => rw [eraseDups_append_cons (contains_iff.1 hmem)]
    · rw [List.append_assoc, List.singleton_append]

/-- **Of the pairs with one key the first gives the place.** -/
theorem keys_ofList (pairs : List (String × α)) : (ofList pairs).keys = (pairs.map Prod.fst).eraseDups :=
  keys_foldl_insert pairs empty

theorem entries_foldl_insert (pairs : List (String × α)) (d : Dict α) (h : (d.keys ++ pairs.map Prod.fst).Nodup) :
    (pairs.foldl (fun d p => d.insert p.1 p.2) d).entries = d.entries ++ pairs := by
  induction pairs generalizing d with
  | nil => exact (List.append_nil _).symm
  | cons pair pairs ih =>
    have hnew : ¬d.contains pair.1 := by
      rw [contains_iff]
      intro hmem
      rw [List.nodup_append] at h
      exact h.2.2 _ hmem _ List.mem_cons_self rfl
    have hentries := entries_insert d pair.1 pair.2
    rw [if_neg hnew] at hentries
    have hkeys := keys_insert d pair.1 pair.2
    rw [if_neg hnew] at hkeys
    rw [List.foldl_cons, ih, hentries, List.append_assoc]
    · rfl
    · rw [hkeys, List.append_assoc]
      exact h

/-- **Pairs with distinct keys are the entries of their dictionary.** -/
theorem entries_ofList {pairs : List (String × α)} (h : (pairs.map Prod.fst).Nodup) : (ofList pairs).entries = pairs :=
  entries_foldl_insert pairs empty h

/-- The entries of a dictionary make it up. -/
theorem ofList_entries (d : Dict α) : ofList d.entries = d := eq_of_entries (entries_ofList d.distinct)

end BoundSql.Dict
