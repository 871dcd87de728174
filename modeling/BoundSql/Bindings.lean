import BoundSql.Value.Normal
/-!
# Bindings

The values bound so far, by their canonical text and in the order of their positions.  The order is a contract: the
entry that came n-th carries position n, and the arguments of a statement are the values in that order.

* `Bindings.toList_push` : a new entry goes to the end.
* `Bindings.contains_iff`, `Bindings.get?_eq` : look-ups through the list of entries.
-/

namespace BoundSql

/-- A bound value: its position, the token that stands for it, and the value as it was first met. -/
structure Binding where
  position : Nat
  placeholder : String
  value : Value

/-- Bound values with their canonical texts, in the order of their positions. -/
structure Bindings where
  entries : Array (String × Binding)

namespace Bindings

/-- No values. -/
def empty : Bindings := ⟨#[]⟩

instance : Inhabited Bindings := ⟨empty⟩

/-- Entries in order. -/
def toList (m : Bindings) : List (String × Binding) := m.entries.toList

/-- Canonical texts in order. -/
def keys (m : Bindings) : List String := m.toList.map Prod.fst

/-- Count of bound values. -/
def size (m : Bindings) : Nat := m.entries.size

/-- Whether nothing is bound. -/
def isEmpty (m : Bindings) : Bool := m.entries.isEmpty

/-- Position of the value that is bound next. -/
def nextPosition (m : Bindings) : Nat := m.size + 1

/-- Binding under a canonical text. -/
def get? (m : Bindings) (canonical : String) : Option Binding :=
  (m.entries.find? (·.1 = canonical)).map Prod.snd

/-- Whether a canonical text is bound. -/
def contains (m : Bindings) (canonical : String) : Bool := m.entries.any (·.1 = canonical)

/-- Binding of the canonical text of a value. -/
def bindingFor? (m : Bindings) (v : Value) : Option Binding :=
  match v.canonical with
  | .ok canonical => m.get? canonical
  | .error _ => none

/-- Token that stands for a value. -/
def placeholderFor? (m : Bindings) (v : Value) : Option String := (m.bindingFor? v).map (·.placeholder)

/-- Tokens in the order of their positions. -/
def placeholders (m : Bindings) : List String := m.toList.map (·.2.placeholder)

/-- Values in the order of their positions. -/
def args (m : Bindings) : List Value := m.toList.map (·.2.value)

/-- A further value, at the next position. -/
def push (m : Bindings) (canonical placeholder : String) (v : Value) : Bindings :=
  let position := m.nextPosition
  ⟨m.entries.push (canonical, ⟨position, placeholder, v⟩)⟩

@[simp] theorem toList_push (m : Bindings) (canonical placeholder : String) (v : Value) :
    (m.push canonical placeholder v).toList = m.toList ++ [(canonical, ⟨m.nextPosition, placeholder, v⟩)] := by
  simp [push, toList]

theorem length_toList (m : Bindings) : m.toList.length = m.size := Array.length_toList

theorem contains_iff {m : Bindings} {canonical : String} : m.contains canonical = true ↔ canonical ∈ m.keys := by
  rw [contains, ← Array.any_toList, List.any_eq_true, keys, List.mem_map]
  simp only [decide_eq_true_eq, toList]

theorem get?_eq (m : Bindings) (canonical : String) :
    m.get? canonical = (m.toList.find? (·.1 = canonical)).map Prod.snd := by
  simp [get?, toList]

end Bindings

end BoundSql
