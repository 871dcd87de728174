import BoundSql.Proofs.Bindings.Coverage
import BoundSql.Proofs.Bindings.Lookup
import BoundSql.Proofs.FieldMap
import BoundSql.Proofs.Sql.Written

/-!
# When a bound condition can be written

A condition whose operators have the operands that they need has a template, so it is written iff each of the scalars
that its text has a place for is (`conditionUnits_succeeds_iff`).

If a binder that ignores the names of the fields has accepted the condition, its texts can all be written: one that
names a field as that field's column, any other as the placeholder that it was bound to. A number or a truth value whose
canonical text happens to be the name of a field cannot: the binder takes it for the field and passes it over, the
writer does not. No other scalar is refused (`Condition.writable_iff_of_bound`).
-/

namespace BoundSql

open Sql (Token Writer Piece Context template)

variable {τ : Type}

/-! ## Counts of operands -/

/-- Count of the operands that an operator needs; a junction has any number of them. -/
def Operator.operandCount? : Operator → Option Nat
  | .and | .or => none
  | .isNull => some 1
  | .between => some 3
  | _ => some 2

mutual

/-- A term all of whose operators have the operands that they need. -/
def Term.WellCounted : Term → Prop
  | .condition c => c.WellCounted
  | _ => True

/-- A condition all of whose operators have the operands that they need. -/
def Condition.WellCounted : Condition → Prop
  | ⟨operator, terms, _⟩ =>
    (∀ count ∈ operator.operandCount?, terms.length = count) ∧ Term.AllWellCounted terms

/-- Terms all of whose operators have the operands that they need. -/
def Term.AllWellCounted : List Term → Prop
  | [] => True
  | t :: ts => t.WellCounted ∧ Term.AllWellCounted ts

end

namespace Condition

variable {w : Writer τ} {os : List (Operand τ)}

theorem junction_succeeds (h : ∀ o ∈ os, Succeeds o.2) (word : Sql.Keyword) (whenEmpty : Bool) :
    Succeeds (junction w word whenEmpty os) := by
  unfold junction
  split
  · exact .ok _
  · exact (Succeeds.mapM h).bind fun _ => .ok _

section

variable {left right : Operand τ} (hl : Succeeds left.2) (hr : Succeeds right.2)

include hl hr

theorem binary_succeeds (operator : Operator) (between : List Token) :
    Succeeds (binary w operator between [left, right]) :=
  hl.bind fun _ => hr.bind fun _ => .ok _

theorem equality_succeeds (operator : Operator) (sign : Sql.Sign) (nullTest : List Token) :
    Succeeds (equality w operator sign nullTest [left, right]) := by
  unfold equality
  dsimp only
  split
  · exact hl.map _
  · split
    · exact hr.map _
    · exact binary_succeeds hl hr operator [.sign sign]

theorem membership_succeeds : Succeeds (membership w [left, right]) := by
  unfold membership
  dsimp only
  split
  · exact .ok _
  · exact binary_succeeds hl hr .in [.keyword .in]

end

/-- An operator is written if its operands are, and are as many as it needs. -/
theorem body_succeeds {operator : Operator} (h : ∀ o ∈ os, Succeeds o.2)
    (hcount : ∀ count ∈ operator.operandCount?, os.length = count) : Succeeds (body w operator os) := by
  have htwo : operator.operandCount? = some 2 → ∃ left right, os = [left, right] ∧ Succeeds left.2 ∧
      Succeeds right.2 := by
    intro h2
    obtain ⟨left, right, rfl⟩ := List.length_eq_two.1 (hcount 2 h2)
    exact ⟨left, right, rfl, h left (by simp), h right (by simp)⟩
  have hbinary : operator.operandCount? = some 2 → ∀ between, Succeeds (binary w operator between os) := by
    intro h2 between
    obtain ⟨left, right, rfl, hl, hr⟩ := htwo h2
    exact binary_succeeds hl hr operator between
  cases operator with
  | and => exact junction_succeeds h _ _
  | or => exact junction_succeeds h _ _
  | equalTo =>
    obtain ⟨left, right, rfl, hl, hr⟩ := htwo rfl
    exact equality_succeeds hl hr _ _ _
  | notEqualTo =>
    obtain ⟨left, right, rfl, hl, hr⟩ := htwo rfl
    exact equality_succeeds hl hr _ _ _
  | lessThan => exact hbinary rfl _
  | lessThanOrEqualTo => exact hbinary rfl _
  | greaterThan => exact hbinary rfl _
  | greaterThanOrEqualTo => exact hbinary rfl _
  | like => exact hbinary rfl _
  | «in» =>
    obtain ⟨left, right, rfl, hl, hr⟩ := htwo rfl
    exact membership_succeeds hl hr
  | between =>
    obtain ⟨subject, low, high, rfl⟩ := List.length_eq_three.1 (hcount 3 rfl)
    exact (h subject (by simp)).bind fun _ => (h low (by simp)).bind fun _ => (h high (by simp)).bind fun _ => .ok _
  | isNull =>
    obtain ⟨subject, rfl⟩ := List.length_eq_one_iff.1 (hcount 1 rfl)
    exact (h subject (by simp)).map _

end Condition

namespace Sql

variable (fields : FieldMap)

theorem length_operands (w : Writer τ) (ts : List Term) : (operands w fields ts).length = ts.length := by
  induction ts with
  | nil => rfl
  | cons t ts ih => rw [operands, List.length_cons, List.length_cons, ih]

theorem literal_succeeds (v : Value) : Succeeds (template.literal v) := by
  cases v with
  | list items => exact (Succeeds.mapM fun _ _ => .ok _).bind fun _ => .ok _
  | _ => exact .ok _

mutual

theorem termUnits_succeeds : ∀ t : Term, t.WellCounted → Succeeds (termUnits template fields t)
  | .field _, _ => .ok _
  | .literal v, _ => literal_succeeds v
  | .condition c, h => (conditionUnits_succeeds c h).map _

/-- A condition has a template if its operators have the operands that they need. -/
theorem conditionUnits_succeeds : ∀ c : Condition, c.WellCounted → Succeeds (conditionUnits template fields c)
  | ⟨operator, terms, negated⟩, h => by
    refine (Condition.body_succeeds (operands_succeed terms h.2) ?_).bind fun _ => .ok _
    rw [length_operands]
    exact h.1

theorem operands_succeed : ∀ ts : List Term, Term.AllWellCounted ts →
    ∀ o ∈ operands template fields ts, Succeeds o.2
  | [], _ => nofun
  | t :: ts, h => List.forall_mem_cons.2 ⟨termUnits_succeeds t h.1, operands_succeed ts h.2⟩

end

/-- A piece of a condition can be written iff its value can. -/
theorem write_succeeds_iff {w : Writer τ} (hnull : Succeeds (w.scalar .null)) {p : Piece} (hp : p.cell? = none) :
    Succeeds (w.write p) ↔ ∀ v ∈ p.values, Succeeds (w.scalar v) := by
  cases p with
  | token t => exact ⟨fun _ => nofun, fun _ => .ok _⟩
  | cell v => cases hp
  | scalar v =>
    show Succeeds (w.scalar v) ↔ ∀ u ∈ (if v.isNull then [] else [v]), Succeeds (w.scalar u)
    split
    · next hv =>
      have hv : v = .null := by cases v <;> first | rfl | cases hv
      exact ⟨fun _ => nofun, fun _ => hv ▸ hnull⟩
    · exact ⟨fun h u hu => List.mem_singleton.1 hu ▸ h, fun h => h v List.mem_cons_self⟩

/-- **A condition is written iff the scalars that its text has a place for are.** -/
theorem conditionUnits_succeeds_iff {w : Writer τ} (hnull : Succeeds (w.scalar .null)) {c : Condition}
    (hc : c.WellCounted) : Succeeds (conditionUnits w fields c) ↔ ∀ v ∈ c.written, Succeeds (w.scalar v) := by
  obtain ⟨ps, hps⟩ := conditionUnits_succeeds fields c hc
  have hfills : Succeeds (conditionUnits w fields c) ↔ ∃ us, w.Filled ps us := by
    refine exists_congr fun us => (conditionUnits_fills w fields c us).trans ?_
    rw [hps]
    simp
  have hcells := conditionUnits_all template_keeps_scalars fields c ps hps
  rw [hfills, Writer.exists_filled_iff, ← conditionUnits_holds fields c ps hps]
  simp only [List.mem_flatMap]
  constructor
  · rintro h v ⟨p, hp, hv⟩
    exact (write_succeeds_iff hnull (hcells p hp)).1 (h p hp) v hv
  · exact fun h p hp => (write_succeeds_iff hnull (hcells p hp)).2 fun v hv => h v ⟨p, hp, hv⟩

end Sql

/-! ## Scalars that are taken for fields -/

/-- A value that is no text, but is taken for a field: its canonical text is the name of one. -/
def Value.TakenForField (fields : FieldMap) (v : Value) : Prop :=
  (∀ s, v ≠ .text s) ∧ ∃ name ∈ fields.fields, v.canonical = .ok name

variable {fields : FieldMap} {m : Bindings}

/-- A scalar whose text is the name of a field is a text that names it, or is taken for it. -/
theorem Value.named_or_takenForField {v : Value} {name : String} (hv : v.canonical = .ok name)
    (hname : name ∈ fields.fields) : (∃ column, fields.named? v = some column) ∨ v.TakenForField fields := by
  by_cases htext : ∃ s, v = .text s
  · obtain ⟨s, rfl⟩ := htext
    cases hv
    exact Or.inl ((fields.named?_text name).2 hname)
  · exact Or.inr ⟨fun s hs => htext ⟨s, hs⟩, name, hname, hv⟩

theorem Value.TakenForField.mem_fields {v : Value} {canonical : String} (h : v.TakenForField fields)
    (hv : v.canonical = .ok canonical) : canonical ∈ fields.fields := by
  obtain ⟨_, name, hname, hv'⟩ := h
  exact Except.ok.inj (hv'.symm.trans hv) ▸ hname

theorem Value.TakenForField.named?_eq_none {v : Value} (h : v.TakenForField fields) : fields.named? v = none := by
  obtain ⟨htext, _⟩ := h
  cases v with
  | text s => exact absurd rfl (htext s)
  | _ => rfl

/-- A value with a canonical text is written as a placeholder iff the text is bound. -/
theorem Sql.boundTokens_succeeds_iff {v : Value} {canonical : String} (hv : v.canonical = .ok canonical) :
    Succeeds (boundTokens m v) ↔ canonical ∈ m.keys := by
  have hnull : v.isNull = false := by cases v <;> first | rfl | cases hv
  rw [← not_iff_not, ← Bindings.get?_eq_none_iff]
  unfold boundTokens Bindings.placeholderFor? Bindings.bindingFor?
  rw [hnull, hv]
  dsimp only
  cases m.get? canonical with
  | none => exact ⟨fun _ => rfl, fun _ => nofun⟩
  | some binding => exact ⟨fun h => absurd (Succeeds.ok _) h, nofun⟩

/-- A scalar of a condition is written iff it names a field, or is bound. -/
theorem Sql.scalarTokens_succeeds_iff {v : Value} {canonical : String} (hv : v.canonical = .ok canonical) :
    Succeeds (scalarTokens ⟨m, fields⟩ v) ↔ (∃ column, fields.named? v = some column) ∨ canonical ∈ m.keys := by
  unfold scalarTokens
  cases hnamed : fields.named? v with
  | some column => exact ⟨fun _ => Or.inl ⟨column, rfl⟩, fun _ => .ok _⟩
  | none => exact (boundTokens_succeeds_iff hv).trans ⟨Or.inr, fun h => h.resolve_left fun ⟨_, h⟩ => nomatch h⟩

/-! ## What a binder has accepted -/

variable {b : Binder} {m₀ : Bindings} {c : Condition}

/-- After a walk that ignores the names of the fields, a scalar's text is bound iff it was so before or is not the name
of a field. -/
theorem Binder.mem_keys_iff (hb : ∀ name, name ∈ b.ignored ↔ name ∈ fields.fields)
    (hbound : b.bindCondition m₀ c = ⟨m, none⟩) {v : Value} (hv : v ∈ c.scalars) :
    ∃ canonical, v.canonical = .ok canonical ∧
      (canonical ∈ m.keys ↔ canonical ∈ m₀.keys ∨ canonical ∉ fields.fields) := by
  rw [bindCondition_eq] at hbound
  obtain ⟨canonical, hcanonical, hcovered⟩ := bindScalars_covers hbound v hv
  refine ⟨canonical, hcanonical, fun hkey => ?_, ?_⟩
  · exact (bindScalars_adds hbound hkey).imp_right fun hnew hname => hnew.1 ((hb canonical).2 hname)
  · rintro (hkey | hname)
    · have hgrows := bindScalars_grows b m₀ c.scalars
      rw [hbound] at hgrows
      exact hgrows.mem_keys hkey
    · exact hcovered.resolve_left fun hignored => hname ((hb canonical).1 hignored)

/-- A scalar of a condition that was accepted can be written, unless it is taken for a field and its text was not bound
before. -/
theorem Sql.scalar_writable_iff (hb : ∀ name, name ∈ b.ignored ↔ name ∈ fields.fields)
    (hbound : b.bindCondition m₀ c = ⟨m, none⟩) {v : Value} (hv : v ∈ c.scalars) :
    Succeeds (scalarTokens ⟨m, fields⟩ v) ↔
      (v.TakenForField fields → ∃ text ∈ m₀.keys, v.canonical = .ok text) := by
  obtain ⟨canonical, hcanonical, hkeys⟩ := Binder.mem_keys_iff hb hbound hv
  rw [scalarTokens_succeeds_iff hcanonical, hkeys]
  constructor
  · rintro (⟨column, hcolumn⟩ | hkey | hname) htaken
    · rw [htaken.named?_eq_none] at hcolumn
      cases hcolumn
    · exact ⟨canonical, hkey, hcanonical⟩
    · exact absurd (htaken.mem_fields hcanonical) hname
  · intro h
    by_cases hname : canonical ∈ fields.fields
    · refine (Value.named_or_takenForField hcanonical hname).imp_right fun htaken => ?_
      obtain ⟨text, htext, htext'⟩ := h htaken
      exact Or.inl (Except.ok.inj (hcanonical.symm.trans htext') ▸ htext)
    · exact Or.inr (Or.inr hname)

/-- What is left unbound names a field, or is taken for one. -/
theorem Binder.named_of_unbound (hb : ∀ name, name ∈ b.ignored ↔ name ∈ fields.fields)
    (hbound : b.bindCondition m₀ c = ⟨m, none⟩) {v : Value} (hv : v ∈ c.scalars)
    (hunbound : m.placeholderFor? v = none) :
    (∃ column, fields.named? v = some column) ∨ v.TakenForField fields := by
  obtain ⟨canonical, hcanonical, hkeys⟩ := mem_keys_iff hb hbound hv
  have hname : canonical ∈ fields.fields := by
    by_contra hname
    rw [Bindings.placeholderFor?, Bindings.bindingFor?, hcanonical, Option.map_eq_none_iff,
      Bindings.get?_eq_none_iff] at hunbound
    exact hunbound (hkeys.2 (Or.inr hname))
  exact Value.named_or_takenForField hcanonical hname

/-- **A condition that a binder has accepted can be written**, but for numbers and truth values that are taken for
fields; and what such a binder leaves unbound is a text that names a field, or is taken for one. -/
theorem Condition.writable_iff_of_bound (hb : ∀ name, name ∈ b.ignored ↔ name ∈ fields.fields) (hc : c.WellCounted)
    (hbound : b.bindCondition m₀ c = ⟨m, none⟩) :
    ((∃ ts, Sql.conditionTokens ⟨m, fields⟩ c = .ok ts) ↔
      ∀ v ∈ c.written, v.TakenForField fields → ∃ text ∈ m₀.keys, v.canonical = .ok text) ∧
    ∀ v ∈ c.scalars, m.placeholderFor? v = none →
      (∃ column, fields.named? v = some column) ∨ v.TakenForField fields := by
  have hwritten : ∀ v ∈ c.written, v ∈ c.scalars := fun _ hv => c.written_sublist.subset hv
  refine ⟨?_, fun v hv => Binder.named_of_unbound hb hbound hv⟩
  exact (Sql.conditionUnits_succeeds_iff fields (.ok _) hc).trans
    (forall₂_congr fun v hv => Sql.scalar_writable_iff hb hbound (hwritten v hv))

/-- Columns of goods, one of which is stored for a field with the name `1`. -/
def FieldMap.goods : FieldMap := Dict.ofList [("1", "first"), ("price", "price")]

/-- Goods whose price is a number. -/
def Condition.priced (price : Int64) : Condition := ⟨.equalTo, [.field ⟨none, "price"⟩, .literal (.int price)], false⟩

/-- Goods whose price is a number, and for which another number is none of no values. -/
def Condition.pricedBeside (price other : Int64) : Condition :=
  ⟨.and, [.condition (priced price), .condition ⟨.in, [.literal (.int other), .literal (.list [])], true⟩], false⟩

/-- A number that is taken for a field is passed over and cannot be written. -/
theorem Condition.priced_not_writable :
    (priced 1).WellCounted ∧
    ((Binder.ofStyle .numbered).ignoring FieldMap.goods.fields).bindCondition .empty (priced 1) = ⟨.empty, none⟩ ∧
    ¬∃ ts, Sql.conditionTokens ⟨.empty, FieldMap.goods⟩ (priced 1) = .ok ts := by
  refine ⟨⟨fun _ h => Option.some.inj h, trivial, trivial, trivial⟩, ?_, ?_⟩
  · rw [Binder.bindCondition_eq]
    rfl
  · rintro ⟨ts, h⟩
    cases h

/-- The same number is no obstacle where the text has no place for it. -/
theorem Condition.pricedBeside_writable : ∃ m ts,
    ((Binder.ofStyle .numbered).ignoring FieldMap.goods.fields).bindCondition .empty (pricedBeside 2 1) = ⟨m, none⟩ ∧
    Sql.conditionTokens ⟨m, FieldMap.goods⟩ (pricedBeside 2 1) = .ok ts := by
  let walk := ((Binder.ofStyle .numbered).ignoring FieldMap.goods.fields).bindCondition .empty (pricedBeside 2 1)
  have hwalk : walk.failure?.isNone = true := by decide +kernel
  have hbound : walk = ⟨walk.bindings, none⟩ := by rw [← Option.isNone_iff_eq_none.1 hwalk]
  have hcounted : (pricedBeside 2 1).WellCounted :=
    ⟨nofun, ⟨fun _ h => Option.some.inj h, trivial, trivial, trivial⟩,
      ⟨fun _ h => Option.some.inj h, trivial, trivial, trivial⟩, trivial⟩
  obtain ⟨ts, hts⟩ := (writable_iff_of_bound (fun _ => Iff.rfl) hcounted hbound).1.2 fun v hv htaken => by
    obtain rfl : v = .int 2 := List.mem_singleton.1 hv
    exact absurd (htaken.mem_fields rfl) (by decide)
  exact ⟨walk.bindings, ts, hbound, hts⟩

end BoundSql
