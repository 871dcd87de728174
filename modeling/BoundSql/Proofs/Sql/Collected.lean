import BoundSql.Proofs.Sql.Plain

/-!
# What the units of a text hold

A unit may hold something, such as a value that is still in place or a part of a name. What all units of a condition
hold, in order, is collected from its tree: from its fields and its scalars, left to right, except that nothing is
written of what is tested for membership in the empty list (`conditionUnits_gathers`). The clauses of statements add what
their names hold (`scopeUnits_gathers` and its companions).
-/

namespace BoundSql

open Sql (Token Writer)

variable {τ β γ : Type}

/-! ## Walks through conditions -/

/-- Whether a term is the list without items. -/
def Term.isEmptyList : Term → Bool
  | .literal v => v.isEmptyList
  | _ => false

/-- Whether an operator over some terms tests for membership in the empty list. -/
def Condition.isVoid (operator : Operator) (terms : List Term) : Bool :=
  match operator, terms with
  | .in, [_, right] => right.isEmptyList
  | _, _ => false

theorem Condition.isVoid_in (left right : Term) : isVoid .in [left, right] = right.isEmptyList := rfl

/-- What a literal gives: a scalar, or the items of a list one after the other. -/
def Value.collected (scalar : Value → List β) : Value → List β
  | .list items => items.flatMap scalar
  | v => scalar v

mutual

/-- What the fields and the scalars of a term give. -/
def Term.collected (field : FieldRef → List β) (scalar : Value → List β) : Term → List β
  | .field f => field f
  | .literal v => v.collected scalar
  | .condition c => c.collected field scalar

/-- What the fields and the scalars of a condition give that its text has a place for. -/
def Condition.collected (field : FieldRef → List β) (scalar : Value → List β) : Condition → List β
  | ⟨operator, terms, _⟩ => if Condition.isVoid operator terms then [] else Term.allCollected field scalar terms

/-- What the fields and the scalars of several terms give. -/
def Term.allCollected (field : FieldRef → List β) (scalar : Value → List β) : List Term → List β
  | [] => []
  | t :: ts => t.collected field scalar ++ Term.allCollected field scalar ts

end

theorem Value.collected_flatMap (scalar : Value → List β) (h : β → List γ) (v : Value) :
    (v.collected scalar).flatMap h = v.collected fun v => (scalar v).flatMap h := by
  cases v with
  | list items => exact List.flatMap_assoc
  | _ => rfl

section

variable (field : FieldRef → List β) (scalar : Value → List β) (h : β → List γ)

mutual

theorem Term.collected_flatMap : ∀ t : Term, (t.collected field scalar).flatMap h =
    t.collected (fun f => (field f).flatMap h) fun v => (scalar v).flatMap h
  | .field _ => rfl
  | .literal v => v.collected_flatMap scalar h
  | .condition c => Condition.collected_flatMap c

theorem Condition.collected_flatMap : ∀ c : Condition, (c.collected field scalar).flatMap h =
    c.collected (fun f => (field f).flatMap h) fun v => (scalar v).flatMap h
  | ⟨operator, terms, _⟩ => by
    rw [Condition.collected, Condition.collected]
    split
    · rfl
    · exact Term.allCollected_flatMap terms

theorem Term.allCollected_flatMap : ∀ ts : List Term, (Term.allCollected field scalar ts).flatMap h =
    Term.allCollected (fun f => (field f).flatMap h) (fun v => (scalar v).flatMap h) ts
  | [] => rfl
  | t :: ts => by
    rw [Term.allCollected, Term.allCollected, List.flatMap_append, Term.collected_flatMap t,
      Term.allCollected_flatMap ts]

end

end

/-! ## Units that hold something -/

namespace Sql

/-- Whether a token is a part of a name or a dot. -/
def Token.isNamePart : Token → Bool
  | .name _ | .dot => true
  | _ => false

/-- What was written, if it was written at all, holds all this. -/
abbrev Gathers (g : τ → List β) (written : Except Failure (List τ)) (bs : List β) : Prop :=
  Yields (fun us => us.flatMap g = bs) written

/-- Parts that are written one by one and then put together. -/
theorem Gathers.traverse {g : τ → List β} {cs : List β} {α : Type} {f : α → Except Failure (List τ)}
    (part : α → List β) {as : List α} (hf : ∀ a ∈ as, Gathers g (f a) (part a))
    {next : List (List τ) → Except Failure (List τ)}
    (hnext : ∀ parts, parts.flatMap (List.flatMap g) = as.flatMap part → Gathers g (next parts) cs) :
    Gathers g (as.mapM f >>= next) cs := by
  intro vs hvs
  obtain ⟨parts, hparts, hvs'⟩ := bind_eq_ok.1 hvs
  have hheld : ∀ {as parts}, List.Forall₂ (fun a us => f a = .ok us) as parts →
      (∀ a ∈ as, Gathers g (f a) (part a)) → parts.flatMap (List.flatMap g) = as.flatMap part := by
    intro as parts h hf
    induction h with
    | nil => rfl
    | cons hus _ ih =>
      rw [List.flatMap_cons, List.flatMap_cons, hf _ List.mem_cons_self _ hus,
        ih fun a ha => hf a (List.mem_cons_of_mem _ ha)]
  exact hnext parts (hheld (mapM_eq_ok.1 hparts) hf) vs hvs'

/-- A writer whose units hold nothing for a token that is no part of a name, and what a walk takes of a scalar for a
scalar; a missing value has nothing. -/
structure Writer.Holds (w : Writer τ) (g : τ → List β) (scalar : Value → List β) : Prop where
  token : ∀ t, t.isNamePart = false → g (w.token t) = []
  null : scalar .null = []
  scalar : ∀ v, Gathers g (w.scalar v) (scalar v)

/-- What the units of fixed tokens hold. -/
def Writer.held (w : Writer τ) (g : τ → List β) (ts : List Token) : List β := (w.fixed ts).flatMap g

variable {w : Writer τ} {g : τ → List β} {scalar : Value → List β}

theorem Writer.flatMap_fixed (ts : List Token) : (w.fixed ts).flatMap g = w.held g ts := rfl

@[simp] theorem Writer.held_append (ts us : List Token) : w.held g (ts ++ us) = w.held g ts ++ w.held g us := by
  simp [held, fixed]

theorem Writer.fixed_separated (t : Token) (parts : List (List Token)) :
    w.fixed (Sql.separated t parts) = Sql.separated (w.token t) (parts.map w.fixed) := by
  cases parts with
  | nil => rfl
  | cons part parts => simp [Sql.separated, fixed, List.map_flatMap, List.flatMap_map]

namespace Writer.Holds

variable (hw : w.Holds g scalar)

include hw

theorem held_cons {t : Token} (ht : t.isNamePart = false) (ts : List Token) : w.held g (t :: ts) = w.held g ts := by
  rw [held, fixed, List.map_cons, List.flatMap_cons, hw.token t ht, List.nil_append]
  rfl

theorem held_eq_nil {ts : List Token} (h : ∀ t ∈ ts, t.isNamePart = false) : w.held g ts = [] := by
  refine List.flatMap_eq_nil_iff.2 fun u hu => ?_
  obtain ⟨t, ht, rfl⟩ := List.mem_map.1 hu
  exact hw.token t (h t ht)

theorem parenthesized (us : List τ) : (w.parenthesized us).flatMap g = us.flatMap g := by
  rw [Writer.parenthesized, List.flatMap_append, List.flatMap_cons, List.flatMap_singleton, hw.token _ rfl,
    hw.token _ rfl, List.nil_append, List.append_nil]

/-- Separators hold nothing. -/
theorem separated {t : Token} (ht : t.isNamePart = false) (parts : List (List τ)) :
    (separated (w.token t) parts).flatMap g = parts.flatMap (List.flatMap g) := by
  cases parts with
  | nil => rfl
  | cons part rest =>
    rw [Sql.separated, List.flatMap_append, List.flatMap_cons, List.flatMap_assoc]
    simp only [List.flatMap_cons, hw.token t ht, List.nil_append]

theorem held_separated {t : Token} (ht : t.isNamePart = false) (parts : List (List Token)) :
    w.held g (Sql.separated t parts) = parts.flatMap (w.held g) := by
  rw [Writer.held, Writer.fixed_separated, hw.separated ht, List.flatMap_map]
  rfl

theorem listed (parts : List (List τ)) : (w.listed parts).flatMap g = parts.flatMap (List.flatMap g) :=
  hw.separated rfl parts

theorem literal (v : Value) : Gathers g (w.literal v) (v.collected scalar) := by
  cases v with
  | list items =>
    refine .traverse scalar (fun v _ => hw.scalar v) fun parts hparts => .ok ?_
    rw [hw.parenthesized, hw.listed, hparts]
    rfl
  | _ => exact hw.scalar _

end Writer.Holds

end Sql

/-! ## Conditions -/

namespace Condition

open Sql

variable {w : Writer τ} {g : τ → List β} {field : FieldRef → List β} {scalar : Value → List β}

/-- An operand that was made of a term, and holds what is collected from it. -/
def Operand.HoldsOf (g : τ → List β) (field : FieldRef → List β) (scalar : Value → List β) (o : Operand τ) (t : Term) :
    Prop := o.1 = t ∧ Gathers g o.2 (t.collected field scalar)

variable {os : List (Operand τ)} {terms : List Term}

theorem Operand.isEmptyList_eq (o : Operand τ) : o.isEmptyList = o.1.isEmptyList := by
  unfold Operand.isEmptyList Term.isEmptyList
  cases o.1 <;> rfl

theorem Operand.HoldsOf.of_isNull {o : Operand τ} {t : Term} (hnone : scalar .null = [])
    (h : o.HoldsOf g field scalar t) (hnull : o.isNull = true) : t.collected field scalar = [] := by
  obtain ⟨rfl, -⟩ := h
  unfold Operand.isNull at hnull
  split at hnull
  · next v hv =>
    rw [hv, Term.collected]
    cases v <;> first | exact hnone | cases hnull
  · cases hnull

theorem binary_gathers (h : List.Forall₂ (Operand.HoldsOf g field scalar) os terms) (operator : Operator)
    (between : List Token) (hbetween : w.held g between = []) :
    Gathers g (binary w operator between os) (Term.allCollected field scalar terms) := by
  unfold binary
  rcases h with _ | ⟨hl, _ | ⟨hr, _ | _⟩⟩
  · exact .error _
  · exact .error _
  · refine hl.2.bind fun l hl => hr.2.bind fun r hr => .ok ?_
    rw [List.flatMap_append, List.flatMap_append, hl, hr]
    simp only [Term.allCollected, List.append_nil]
    rw [Writer.flatMap_fixed, hbetween, List.append_nil]
  · exact .error _

theorem nullTest_gathers {o : Operand τ} {t : Term} (ho : o.HoldsOf g field scalar t) {test : List Token}
    (htest : w.held g test = []) : Gathers g ((· ++ w.fixed test) <$> o.2) (t.collected field scalar) := by
  refine ho.2.map fun us hus => ?_
  rw [List.flatMap_append, hus, Writer.flatMap_fixed, htest, List.append_nil]

variable (hw : w.Holds g scalar) (h : List.Forall₂ (Operand.HoldsOf g field scalar) os terms)

include hw h

theorem junction_gathers (word : Keyword) (whenEmpty : Bool) :
    Gathers g (junction w word whenEmpty os) (Term.allCollected field scalar terms) := by
  have hparts : os.flatMap (fun o => o.1.collected field scalar) = Term.allCollected field scalar terms ∧
      ∀ o ∈ os, Gathers g o.2 (o.1.collected field scalar) := by
    induction h with
    | nil => exact ⟨rfl, nofun⟩
    | cons ho _ ih =>
      obtain ⟨rfl, ho⟩ := ho
      rw [List.flatMap_cons, Term.allCollected, ih.1]
      exact ⟨rfl, List.forall_mem_cons.2 ⟨ho, ih.2⟩⟩
  unfold junction
  split
  · next hempty =>
    rw [List.isEmpty_iff.1 hempty] at hparts
    refine .ok ((hw.held_eq_nil ?_).trans hparts.1)
    cases whenEmpty <;> decide
  · refine .traverse _ hparts.2 fun parts hheld => .ok ?_
    rw [hw.separated rfl, hheld, hparts.1]

theorem equality_gathers (operator : Operator) (sign : Sign) {test : List Token} (htest : w.held g test = []) :
    Gathers g (equality w operator sign test os) (Term.allCollected field scalar terms) := by
  have hbinary := binary_gathers h operator [.sign sign] (hw.held_eq_nil (by simp [Token.isNamePart]))
  unfold equality
  rcases h with _ | ⟨hl, _ | ⟨hr, _ | _⟩⟩
  · exact .error _
  · exact .error _
  · dsimp only
    split
    · next hnull =>
      simp only [Term.allCollected, hr.of_isNull hw.null hnull, List.append_nil]
      exact nullTest_gathers hl htest
    · split
      · next hnull =>
        simp only [Term.allCollected, hl.of_isNull hw.null hnull, List.append_nil, List.nil_append]
        exact nullTest_gathers hr htest
      · exact hbinary
  · exact .error _

theorem membership_gathers :
    Gathers g (membership w os) (if isVoid .in terms then [] else Term.allCollected field scalar terms) := by
  have hbinary := binary_gathers h .in [.keyword .in] (hw.held_eq_nil (by simp [Token.isNamePart]))
  unfold membership
  rcases h with _ | ⟨hl, _ | ⟨hr, _ | _⟩⟩
  · exact .error _
  · exact .error _
  · obtain ⟨rfl, -⟩ := hr
    dsimp only
    rw [Operand.isEmptyList_eq, isVoid_in]
    split
    · exact .ok (hw.held_eq_nil (by decide))
    · exact hbinary
  · exact .error _

theorem body_gathers (operator : Operator) :
    Gathers g (body w operator os) (if isVoid operator terms then [] else Term.allCollected field scalar terms) := by
  have hsign : ∀ s : Sign, w.held g [.sign s] = [] := fun s => hw.held_eq_nil (by simp [Token.isNamePart])
  have hnull : w.held g [.keyword .is, .keyword .null] = [] := hw.held_eq_nil (by decide)
  cases operator with
  | and => exact junction_gathers hw h _ _
  | or => exact junction_gathers hw h _ _
  | equalTo => exact equality_gathers hw h _ _ hnull
  | notEqualTo => exact equality_gathers hw h _ _ (hw.held_eq_nil (by decide))
  | lessThan => exact binary_gathers h _ _ (hsign _)
  | lessThanOrEqualTo => exact binary_gathers h _ _ (hsign _)
  | greaterThan => exact binary_gathers h _ _ (hsign _)
  | greaterThanOrEqualTo => exact binary_gathers h _ _ (hsign _)
  | like => exact binary_gathers h _ _ (hw.held_eq_nil (by decide))
  | «in» => exact membership_gathers hw h
  | between =>
    simp only [body]
    rcases h with _ | ⟨hs, _ | ⟨hl, _ | ⟨hh, _ | _⟩⟩⟩
    · exact .error _
    · exact .error _
    · exact .error _
    · refine hs.2.bind fun s hs => hl.2.bind fun l hl => hh.2.bind fun h hh => .ok ?_
      have hbetween := hw.token (.keyword .between) rfl
      have hand := hw.token (.keyword .and) rfl
      simp [isVoid, Term.allCollected, hs, hl, hh, hbetween, hand]
    · exact .error _
  | isNull =>
    simp only [body]
    rcases h with _ | ⟨hs, _ | _⟩
    · exact .error _
    · simp only [isVoid, Term.allCollected, List.append_nil]
      exact nullTest_gathers hs hnull
    · exact .error _

end Condition

namespace Sql

variable {w : Writer τ} {g : τ → List β} {field : FieldRef → List β} {scalar : Value → List β} {fields : FieldMap}

mutual

theorem termUnits_gathers (hw : w.Holds g scalar) (hfield : ∀ f, w.held g (fieldTokens fields f) = field f) :
    ∀ t : Term, Gathers g (termUnits w fields t) (t.collected field scalar)
  | .field f => .ok (hfield f)
  | .literal v => hw.literal v
  | .condition c => (conditionUnits_gathers hw hfield c).map fun us hus => (hw.parenthesized us).trans hus

/-- **The units of a condition hold what is collected from it**, in order. -/
theorem conditionUnits_gathers (hw : w.Holds g scalar) (hfield : ∀ f, w.held g (fieldTokens fields f) = field f) :
    ∀ c : Condition, Gathers g (conditionUnits w fields c) (c.collected field scalar)
  | ⟨operator, terms, negated⟩ => by
    refine (Condition.body_gathers hw (operands_gather hw hfield terms) operator).bind fun us hus => .ok ?_
    rw [Condition.collected, ← hus]
    cases negated with
    | false => rfl
    | true =>
      rw [if_pos rfl, List.flatMap_cons, hw.token _ rfl, List.nil_append]
      exact hw.parenthesized us

theorem operands_gather (hw : w.Holds g scalar) (hfield : ∀ f, w.held g (fieldTokens fields f) = field f) :
    ∀ ts : List Term, List.Forall₂ (Condition.Operand.HoldsOf g field scalar) (operands w fields ts) ts
  | [] => .nil
  | t :: ts => .cons ⟨rfl, termUnits_gathers hw hfield t⟩ (operands_gather hw hfield ts)

end

/-! ## Clauses -/

variable (hw : w.Holds g scalar) (hfield : ∀ f, w.held g (fieldTokens fields f) = field f)

include hw hfield

theorem whereUnits_gathers (condition : Option Condition) : Gathers g (whereUnits w fields condition)
    (condition.toList.flatMap (Condition.collected field scalar)) := by
  cases condition with
  | none => exact .ok rfl
  | some c =>
    refine (conditionUnits_gathers hw hfield c).map fun us hus => ?_
    rw [List.flatMap_cons, hw.token _ rfl, hus]
    simp

theorem joinUnits_gathers (j : Join) : Gathers g (joinUnits w fields j)
    (w.held g (tableTokens j.table) ++ j.condition.collected field scalar) := by
  refine (conditionUnits_gathers hw hfield j.condition).map fun us hus => ?_
  have hkind : w.held g (joinKeywords j.kind) = [] := hw.held_eq_nil (by cases j.kind <;> decide)
  have hon : w.held g [.keyword .on] = [] := hw.held_eq_nil (by decide)
  rw [List.flatMap_append, hus, Writer.flatMap_fixed, Writer.held_append, Writer.held_append, hkind, hon, List.append_nil,
    List.nil_append]

/-- A part of the rows is found through a selection, which names the table and the order once more. -/
theorem scopeUnits_gathers (table : String) (condition : Option Condition) (ordering : List OrderBy)
    (limit offset : Option Nat) {order : List β}
    (horder : ∀ ts, orderTokens fields ordering = .ok ts → w.held g ts = order) :
    Gathers g (scopeUnits w fields table condition ordering limit offset)
      (if ordering.isEmpty && limit.isNone && offset.isNone then
        condition.toList.flatMap (Condition.collected field scalar)
      else w.held g (nameTokens table) ++ condition.toList.flatMap (Condition.collected field scalar) ++ order) := by
  refine (whereUnits_gathers hw hfield condition).bind fun rows hrows => ?_
  split
  · exact .ok hrows
  · cases hts : orderTokens fields ordering with
    | error f => exact .error f
    | ok ts =>
      have hlimit : w.held g (limitTokens limit offset) = [] := by
        refine hw.held_eq_nil ?_
        cases limit <;> cases offset <;> simp [limitTokens, Token.isNamePart]
      have hselect : w.held g ([.keyword .select, .keyword .rowid, .keyword .from] ++ nameTokens table) =
          w.held g (nameTokens table) := by
        rw [Writer.held_append, hw.held_eq_nil (by decide), List.nil_append]
      have hwhere : w.held g [.keyword .where, .keyword .rowid, .keyword .in] = [] := hw.held_eq_nil (by decide)
      refine .ok ?_
      rw [List.flatMap_append, hw.parenthesized, List.flatMap_append, List.flatMap_append, hrows, Writer.flatMap_fixed,
        Writer.flatMap_fixed, Writer.flatMap_fixed, hwhere, hselect, Writer.held_append, hlimit, horder ts hts, List.nil_append,
        List.append_nil]

end Sql

end BoundSql
