/-!
# Ordered dictionaries

Entries under distinct text keys, in the order in which their keys first came.

* `Dict.get?_insert` : a key reads back what was put under it last, and other keys are left alone.
* `Dict.keys_insert` : putting a value under a present key keeps its place, and a new key goes to the end.
-/

namespace BoundSql

/-- Entries in order; no key comes twice. -/
structure Dict (α : Type) where
  entries : List (String × α)
  distinct : (entries.map Prod.fst).Nodup

namespace Dict

variable {α : Type}

/-- No entries. -/
def empty : Dict α := ⟨[], List.nodup_nil⟩

instance : Inhabited (Dict α) := ⟨empty⟩

/-- Keys in order. -/
def keys (d : Dict α) : List String := d.entries.map Prod.fst

/-- Values in the order of their keys. -/
def values (d : Dict α) : List α := d.entries.map Prod.snd

/-- Count of entries. -/
def size (d : Dict α) : Nat := d.entries.length

/-- Whether there are no entries. -/
def isEmpty (d : Dict α) : Bool := d.entries.isEmpty

/-- Value under a key. -/
def get? (d : Dict α) (key : String) : Option α := (d.entries.find? (·.1 = key)).map Prod.snd

/-- Whether a key is present. -/
def contains (d : Dict α) (key : String) : Bool := d.entries.any (·.1 = key)

theorem contains_iff {d : Dict α} {key : String} : d.contains key = true ↔ key ∈ d.keys := by
  simp [contains, keys]

theorem get?_eq_none_iff {d : Dict α} {key : String} : d.get? key = none ↔ key ∉ d.keys := by
  rw [get?, Option.map_eq_none_iff, List.find?_eq_none, keys, List.mem_map, not_exists]
  simp only [decide_eq_true_eq, not_and]

/-- Entries with the value under one key replaced. -/
def replaceEntry (key : String) (value : α) (entry : String × α) : String × α :=
  if entry.1 = key then (key, value) else entry

theorem fst_replaceEntry (key : String) (value : α) (entry : String × α) :
    (replaceEntry key value entry).1 = entry.1 := by
  unfold replaceEntry
  split
  · simp_all
  · rfl

theorem map_fst_replaceEntry (key : String) (value : α) (entries : List (String × α)) :
    (entries.map (replaceEntry key value)).map Prod.fst = entries.map Prod.fst := by
  simp [List.map_map, Function.comp_def, fst_replaceEntry]

/-- A present key keeps its place and takes the value; a new key goes to the end. -/
def insert (d : Dict α) (key : String) (value : α) : Dict α :=
  if h : d.contains key then
    ⟨d.entries.map (replaceEntry key value), by rw [map_fst_replaceEntry]; exact d.distinct⟩
  else
    ⟨d.entries ++ [(key, value)], by
      have hkey : key ∉ d.entries.map Prod.fst := fun hmem => h (contains_iff.2 hmem)
      rw [List.map_append, List.nodup_append]
      refine ⟨d.distinct, by simp, fun a ha b hb => ?_⟩
      simp only [List.map_cons, List.map_nil, List.mem_singleton] at hb
      exact fun hab => hkey (hb ▸ hab ▸ ha)⟩

/-- Pairs put in one after the other. -/
def ofList (pairs : List (String × α)) : Dict α := pairs.foldl (fun d p => d.insert p.1 p.2) empty

/-- Values changed in place. -/
def mapValues {β : Type} (f : α → β) (d : Dict α) : Dict β :=
  ⟨d.entries.map fun e => (e.1, f e.2), by
    simpa [List.map_map, Function.comp_def] using d.distinct⟩

theorem entries_insert (d : Dict α) (key : String) (value : α) : (d.insert key value).entries =
    if d.contains key then d.entries.map (replaceEntry key value) else d.entries ++ [(key, value)] := by
  unfold insert
  split <;> rfl

theorem keys_insert (d : Dict α) (key : String) (value : α) :
    (d.insert key value).keys = if d.contains key then d.keys else d.keys ++ [key] := by
  rw [keys, entries_insert]
  split
  · rw [map_fst_replaceEntry, keys]
  · rw [List.map_append, List.map_singleton, keys]

theorem find?_replaceEntry (key : String) (value : α) (other : String) (entries : List (String × α)) :
    ((entries.map (replaceEntry key value)).find? (·.1 = other)).map Prod.snd =
      if other = key ∧ entries.any (·.1 = key) then some value
      else (entries.find? (·.1 = other)).map Prod.snd := by
  induction entries with
  | nil => simp
  | cons e es ih =>
    rw [List.map_cons, List.find?_cons, fst_replaceEntry, List.find?_cons, List.any_cons]
    by_cases he : e.1 = other
    · by_cases hk : e.1 = key
      · subst he; simp [replaceEntry, hk]
      · subst he; simp [replaceEntry, hk]
    · have hko : e.1 = key → other ≠ key := fun h ho => he (h.trans ho.symm)
      simp only [he, decide_false, ih]
      by_cases ho : other = key
      · have hk : e.1 ≠ key := fun h => hko h ho
        simp only [ho, hk, decide_false, Bool.false_or]
      · simp [ho]

theorem get?_insert (d : Dict α) (key : String) (value : α) (other : String) :
    (d.insert key value).get? other = if other = key then some value else d.get? other := by
  unfold insert get?
  split
  next h =>
    rw [find?_replaceEntry]
    simp_all [contains]
  next h =>
    rw [List.find?_append]
    by_cases ho : other = key
    · subst ho
      have hnone : d.entries.find? (·.1 = other) = none := by
        simp only [contains, Bool.not_eq_true, List.any_eq_false] at h
        simpa using h
      simp [hnone]
    · have : decide (key = other) = false := by simp [Ne.symm ho]
      simp [ho, Ne.symm ho]

end Dict

end BoundSql
