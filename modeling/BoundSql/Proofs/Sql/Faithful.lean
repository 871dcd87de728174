import BoundSql.Proofs.Sql.Means
import BoundSql.Proofs.Sql.Readable

/-!
# Conditions are written faithfully

The text of a condition means what its tree means. Whatever the database makes of values, on every row the truth of
the text, read by the grammar of SQL with its placeholders taken from the arguments, is the truth of the tree
(`Formula.written_faithfully`).

The proof follows the constructors. Every field and every literal is read back as one operand (`reads_field`,
`literal_reads`), and every condition inside another stands between parentheses, so it is an operand too
(`Formula.body_faithful`, `Formula.parts_faithful`).
-/

namespace BoundSql

open Sql (Token Context Expr Truth Database Reads nameTokens fieldTokens namePath)
open Placeholder (Style)

namespace Sql

/-! ## Columns -/

/-- Tokens of a column. -/
def pathTokens (path : List String) : List Token := separated .dot (path.map fun part => [.name part])

theorem splitDots_ne_nil (cs : List Char) : splitDots cs ≠ [] := by
  unfold splitDots
  cases cs with
  | nil => exact List.cons_ne_nil _ _
  | cons c cs =>
    rw [List.foldr_cons]
    split
    · exact List.cons_ne_nil _ _
    · split <;> exact List.cons_ne_nil _ _

theorem namePath_ne_nil (name : String) : namePath name ≠ [] := by
  unfold namePath
  exact fun h => splitDots_ne_nil _ (List.map_eq_nil_iff.1 h)

theorem nameTokens_eq (name : String) : nameTokens name = pathTokens (namePath name) := by
  rw [nameTokens, pathTokens, namePath, List.map_map]
  rfl

theorem pathTokens_cons (part : String) (path : List String) :
    pathTokens (part :: path) = .name part :: path.flatMap fun part => [.dot, .name part] := by
  simp [pathTokens, separated, List.flatMap_map]

theorem pathTokens_append {path path' : List String} (h : path ≠ []) (h' : path' ≠ []) :
    pathTokens (path ++ path') = pathTokens path ++ .dot :: pathTokens path' := by
  obtain ⟨part, path, rfl⟩ := List.exists_cons_of_ne_nil h
  obtain ⟨part', path', rfl⟩ := List.exists_cons_of_ne_nil h'
  simp [pathTokens_cons]

theorem fieldTokens_eq (fields : FieldMap) (f : FieldRef) :
    fieldTokens fields f = pathTokens (fields.path f) ∧ fields.path f ≠ [] := by
  obtain ⟨entity, field⟩ := f
  unfold fieldTokens FieldMap.path
  cases entity with
  | none => exact ⟨nameTokens_eq _, namePath_ne_nil _⟩
  | some entity =>
    dsimp only
    split
    · exact ⟨nameTokens_eq _, namePath_ne_nil _⟩
    · rw [nameTokens_eq, nameTokens_eq, pathTokens_append (namePath_ne_nil _) (namePath_ne_nil _)]
      exact ⟨rfl, fun h => namePath_ne_nil _ (List.append_eq_nil_iff.1 h).1⟩

theorem reads_path {path : List String} (h : path ≠ []) : Reads .operand (pathTokens path) (.column path) := by
  obtain ⟨part, path, rfl⟩ := List.exists_cons_of_ne_nil h
  rw [pathTokens_cons]
  exact reads_column part path

theorem reads_name (name : String) : Reads .operand (nameTokens name) (.column (namePath name)) := by
  rw [nameTokens_eq]
  exact reads_path (namePath_ne_nil name)

theorem reads_field (fields : FieldMap) (f : FieldRef) :
    Reads .operand (fieldTokens fields f) (.column (fields.path f)) := by
  obtain ⟨htokens, hpath⟩ := fieldTokens_eq fields f
  rw [htokens]
  exact reads_path hpath

end Sql

/-! ## Literals -/

variable {V : Type} (db : Database V) (row : List String → V) {ctx : Context} {seen : Value → Value} {style : Style}

/-- The way that values are seen through others is the way that they are bound. -/
def Bindings.Shows (values : Bindings) (seen : Value → Value) : Prop :=
  ∀ v canonical binding, v.canonical = .ok canonical → values.get? canonical = some binding → seen v = binding.value

theorem parameter_of_get? {values : Bindings} (hvalues : values.OfScheme style.scheme) {canonical : String}
    {binding : Binding} (hget : values.get? canonical = some binding) :
    Expr.parameter db values.args binding.placeholder = db.argument binding.value := by
  obtain ⟨i, hargs, _, _, hmade⟩ := hvalues.argument hget
  unfold Expr.parameter
  rw [Style.carried?_token hmade]
  simp [hargs]

/-- **A literal is read back as one operand with its value.** -/
theorem literal_reads (hvalues : ctx.values.OfScheme style.scheme) (hseen : ctx.values.Shows seen) {v : Value}
    {ts : List Token} (hts : Sql.scalarTokens ctx v = .ok ts) :
    ∃ e, Reads .operand ts e ∧ e.value db row ctx.values.args = Formula.literal db ctx.fields row seen v := by
  unfold Formula.literal
  cases hnamed : ctx.fields.named? v with
  | some column =>
    have hnull : v.isNull = false := by
      cases v with
      | text s => rfl
      | _ => cases hnamed
    rw [Sql.scalarTokens, hnamed] at hts
    cases hts
    rw [hnull]
    exact ⟨_, Sql.reads_name column, rfl⟩
  | none =>
    rw [Sql.scalarTokens, hnamed] at hts
    replace hts : Sql.boundTokens ctx.values v = .ok ts := hts
    unfold Sql.boundTokens at hts
    split at hts
    · next hnull =>
      cases hts
      rw [if_pos hnull]
      exact ⟨_, Sql.reads_null, rfl⟩
    · next hnull =>
      rw [if_neg hnull]
      split at hts
      · next token htoken =>
        cases hts
        obtain ⟨canonical, binding, hv, hget, rfl⟩ := Bindings.placeholderFor?_eq_some.1 htoken
        refine ⟨_, Sql.reads_placeholder _, ?_⟩
        rw [Expr.value, parameter_of_get? db hvalues hget, hseen v canonical binding hv hget]
      · cases hts

/-! ## Operands -/

namespace Condition

open Sql

variable {body : List Token}

@[simp] theorem fixed_writer (ctx : Context) (ts : List Token) : ctx.writer.fixed ts = ts := List.map_id ts

/-- A field with its tokens. -/
def fieldOperand (ctx : Context) (f : FieldRef) : Operand Token := (.field f, .ok (fieldTokens ctx.fields f))

/-- A literal with its tokens. -/
def literalOperand (ctx : Context) (v : Value) : Operand Token := (.literal v, ctx.writer.literal v)

theorem operands_field (ctx : Context) (f : FieldRef) (ts : List Term) :
    operands ctx.writer ctx.fields (.field f :: ts) = fieldOperand ctx f :: operands ctx.writer ctx.fields ts := by
  rw [operands, termUnits, fixed_writer, fieldOperand]

theorem operands_literal (ctx : Context) (v : Value) (ts : List Term) :
    operands ctx.writer ctx.fields (.literal v :: ts) = literalOperand ctx v :: operands ctx.writer ctx.fields ts := by
  rw [operands, termUnits, literalOperand]

theorem literalOperand_scalar (ctx : Context) (v : Scalar) :
    literalOperand ctx v.value = (.literal v.value, scalarTokens ctx v.value) := by
  obtain ⟨v, hv⟩ := v
  cases v with
  | list items => cases hv
  | _ => rfl

theorem junction_eq_ok {word : Keyword} {whenEmpty : Bool} {os : List (Operand Token)}
    (h : junction ctx.writer word whenEmpty os = .ok body) :
    ∃ parts, List.Forall₂ (fun o part => o.2 = .ok part) os parts ∧ body = joined word whenEmpty parts := by
  cases os with
  | nil =>
    cases h
    exact ⟨[], .nil, fixed_writer ctx _⟩
  | cons o os =>
    obtain ⟨parts, hparts, h⟩ := bind_eq_ok.1 h
    have hparts := mapM_eq_ok.1 hparts
    refine ⟨parts, hparts, (pure_eq_ok.1 h).symm.trans ?_⟩
    cases hparts
    rfl

theorem binary_eq_ok (operator : Operator) {between : List Token} {f : FieldRef} {v : Value}
    (h : binary ctx.writer operator between [fieldOperand ctx f, literalOperand ctx v] = .ok body) :
    ∃ us, ctx.writer.literal v = .ok us ∧ body = fieldTokens ctx.fields f ++ between ++ us := by
  obtain ⟨ls, hl, h⟩ := bind_eq_ok.1 h
  obtain ⟨us, hus, h⟩ := bind_eq_ok.1 h
  refine ⟨us, hus, ?_⟩
  rw [← pure_eq_ok.1 h, fixed_writer, ← Except.ok.inj hl]

/-- Equality of a field and a literal, which is a test if the literal is missing. -/
theorem equality_eq (operator : Operator) (sign : Sign) (nullTest : List Token) (f : FieldRef) (v : Value) :
    equality ctx.writer operator sign nullTest [fieldOperand ctx f, literalOperand ctx v] =
      if v.isNull then .ok (fieldTokens ctx.fields f ++ nullTest)
      else binary ctx.writer operator [.sign sign] [fieldOperand ctx f, literalOperand ctx v] := by
  unfold equality
  rw [fixed_writer]
  rfl

end Condition

/-! ## Predicates -/

open Condition

section

variable (hvalues : ctx.values.OfScheme style.scheme) (hseen : ctx.values.Shows seen) {ts : List Token}

include hvalues hseen

theorem scalar_reads {v : Scalar} (hts : ctx.writer.literal v.value = .ok ts) :
    ∃ e, Reads .operand ts e ∧ e.value db row ctx.values.args = Formula.literal db ctx.fields row seen v.value := by
  have hliteral : ctx.writer.literal v.value = Sql.scalarTokens ctx v.value :=
    congrArg Prod.snd (literalOperand_scalar ctx v)
  exact literal_reads db row hvalues hseen (hliteral ▸ hts)

theorem binary_faithful (operator : Operator) {c : Sql.Comparison} {between : List Token} {field : FieldRef}
    {v : Scalar} (hread : ∀ {ls rs e f}, Reads .operand ls e → Reads .operand rs f →
      Reads .predicate (ls ++ between ++ rs) (.compare c e f))
    (h : binary ctx.writer operator between [fieldOperand ctx field, literalOperand ctx v.value] = .ok ts) :
    Sql.Means db row ctx.values.args ts
      (db.compare c (row (ctx.fields.path field)) (Formula.literal db ctx.fields row seen v.value)) := by
  obtain ⟨us, hus, rfl⟩ := binary_eq_ok operator h
  obtain ⟨e, he, hvalue⟩ := scalar_reads db row hvalues hseen hus
  refine ⟨.compare c (.column (ctx.fields.path field)) e, (hread (Sql.reads_field _ field) he).predicateWhole, ?_⟩
  rw [Sql.truth_compare, hvalue, Expr.value]

theorem sign_faithful (operator : Operator) (s : Sql.Sign) {field : FieldRef} {v : Scalar}
    (h : binary ctx.writer operator [.sign s] [fieldOperand ctx field, literalOperand ctx v.value] = .ok ts) :
    Sql.Means db row ctx.values.args ts
      (db.compare (.sign s) (row (ctx.fields.path field)) (Formula.literal db ctx.fields row seen v.value)) :=
  binary_faithful db row hvalues hseen operator (fun he hf => by simpa using he.compare s hf) h

theorem equality_faithful (operator : Operator) (s : Sql.Sign) {nullTest : List Token} {test : Expr → Expr}
    {field : FieldRef} {v : Scalar}
    (htest : ∀ {us e}, Reads .operand us e → Reads .predicate (us ++ nullTest) (test e))
    (h : equality ctx.writer operator s nullTest [fieldOperand ctx field, literalOperand ctx v.value] = .ok ts) :
    Sql.Means db row ctx.values.args ts
      (if v.value.isNull then (test (.column (ctx.fields.path field))).truth db row ctx.values.args
      else db.compare (.sign s) (row (ctx.fields.path field)) (Formula.literal db ctx.fields row seen v.value)) := by
  rw [equality_eq] at h
  split at h
  · next hnull =>
    cases h
    rw [if_pos hnull]
    exact ⟨_, (htest (Sql.reads_field _ field)).predicateWhole, rfl⟩
  · next hnull =>
    rw [if_neg hnull]
    exact sign_faithful db row hvalues hseen operator s h

/-- **A comparison is written faithfully.** -/
theorem comparison_faithful (c : Sql.Comparison) (field : FieldRef) (v : Scalar)
    (h : body ctx.writer c.operator [fieldOperand ctx field, literalOperand ctx v.value] = .ok ts) :
    Sql.Means db row ctx.values.args ts
      (Formula.compared db ctx.fields row seen c (row (ctx.fields.path field)) v.value) := by
  cases c with
  | like => exact binary_faithful db row hvalues hseen .like (fun he hf => by simpa using he.like hf) h
  | sign s =>
    cases s with
    | equal =>
      have hmeans := equality_faithful db row hvalues hseen .equalTo .equal Reads.isNull h
      rw [Sql.truth_isNull, Expr.value] at hmeans
      unfold Formula.compared
      cases hnull : v.value.isNull <;> simpa [hnull] using hmeans
    | notEqual =>
      have hmeans := equality_faithful db row hvalues hseen .notEqualTo .notEqual Reads.isNotNull h
      rw [Sql.truth_isNotNull, Expr.value] at hmeans
      unfold Formula.compared
      cases hnull : v.value.isNull <;> simpa [hnull] using hmeans
    | less => exact sign_faithful db row hvalues hseen .lessThan .less h
    | lessOrEqual => exact sign_faithful db row hvalues hseen .lessThanOrEqualTo .lessOrEqual h
    | greater => exact sign_faithful db row hvalues hseen .greaterThan .greater h
    | greaterOrEqual => exact sign_faithful db row hvalues hseen .greaterThanOrEqualTo .greaterOrEqual h

/-- **A value between two others is written faithfully.** -/
theorem between_faithful (field : FieldRef) (low high : Scalar)
    (h : body ctx.writer .between
      [fieldOperand ctx field, literalOperand ctx low.value, literalOperand ctx high.value] = .ok ts) :
    Sql.Means db row ctx.values.args ts (db.between (row (ctx.fields.path field))
      (Formula.literal db ctx.fields row seen low.value) (Formula.literal db ctx.fields row seen high.value)) := by
  obtain ⟨ls, hl, h⟩ := bind_eq_ok.1 h
  obtain ⟨ms, hm, h⟩ := bind_eq_ok.1 h
  obtain ⟨rs, hr, h⟩ := bind_eq_ok.1 h
  cases hl
  cases pure_eq_ok.1 h
  obtain ⟨e, he, hlow⟩ := scalar_reads db row hvalues hseen hm
  obtain ⟨f, hf, hhigh⟩ := scalar_reads db row hvalues hseen hr
  refine ⟨.between (.column (ctx.fields.path field)) e f, ?_, ?_⟩
  · exact ((Sql.reads_field ctx.fields field).between he hf).predicateWhole
  · rw [Sql.truth_between, hlow, hhigh, Expr.value]

/-- Literals are read back as expressions with their values. -/
theorem literals_read {vs : List Value} {parts : List (List Token)}
    (h : List.Forall₂ (fun v part => Sql.scalarTokens ctx v = .ok part) vs parts) :
    ∃ es, List.Forall₂ (Reads .disjunction) parts es ∧
      Expr.values db row ctx.values.args es = vs.map (Formula.literal db ctx.fields row seen) := by
  induction h with
  | nil => exact ⟨[], .nil, rfl⟩
  | cons hv _ ih =>
    obtain ⟨e, he, hvalue⟩ := literal_reads db row hvalues hseen hv
    obtain ⟨es, hes, hvalues⟩ := ih
    refine ⟨e :: es, .cons he.predicate.predicateWhole hes, ?_⟩
    rw [Expr.values, hvalue, hvalues, List.map_cons]

/-- **Membership in a list is written faithfully.** -/
theorem membership_faithful (field : FieldRef) (vs : List Value)
    (h : body ctx.writer .in [fieldOperand ctx field, literalOperand ctx (.list vs)] = .ok ts) :
    Sql.Means db row ctx.values.args ts
      (db.among (row (ctx.fields.path field)) (vs.map (Formula.literal db ctx.fields row seen))) := by
  cases vs with
  | nil =>
    cases h
    rw [fixed_writer]
    exact .constant db row ctx.values.args false
  | cons v vs =>
    obtain ⟨us, hus, rfl⟩ := binary_eq_ok .in h
    obtain ⟨parts, hparts, hus⟩ := bind_eq_ok.1 hus
    cases pure_eq_ok.1 hus
    have hparts := mapM_eq_ok.1 hparts
    obtain ⟨es, hes, hitems⟩ := literals_read db row hvalues hseen hparts
    have hne : parts ≠ [] := by
      rintro rfl
      cases hparts
    refine ⟨.among (.column (ctx.fields.path field)) es, ?_, ?_⟩
    · have hread := ((Sql.reads_field ctx.fields field).among hne hes).predicateWhole
      simpa [Sql.Writer.parenthesized, Sql.Writer.listed, Context.writer] using hread
    · rw [Sql.truth_among, hitems, Expr.value]

end

/-! ## Conditions -/

/-- A condition is written faithfully if its operator is. -/
theorem condition_faithful {c : Condition} {t : Truth} {ts : List Token}
    (hbody : ∀ us, body ctx.writer c.operator (Sql.operands ctx.writer ctx.fields c.terms) = .ok us →
      Sql.Means db row ctx.values.args us (if c.negated then t.not else t))
    (h : Sql.conditionTokens ctx c = .ok ts) : Sql.Means db row ctx.values.args ts t := by
  obtain ⟨operator, terms, negated⟩ := c
  rw [Sql.conditionTokens, Sql.conditionUnits] at h
  obtain ⟨us, hus, h⟩ := bind_eq_ok.1 h
  cases pure_eq_ok.1 h
  have hmeans := hbody us hus
  cases negated with
  | false => exact hmeans
  | true =>
    rw [if_pos rfl] at hmeans
    exact t.not_not ▸ hmeans.not

mutual

/-- **The operator of a condition is written faithfully.** -/
theorem Formula.body_faithful (hvalues : ctx.values.OfScheme style.scheme) (hseen : ctx.values.Shows seen)
    (f : Formula) {ts : List Token}
    (h : body ctx.writer f.condition.operator (Sql.operands ctx.writer ctx.fields f.condition.terms) = .ok ts) :
    Sql.Means db row ctx.values.args ts (if f.condition.negated then (f.truthSeen db ctx.fields row seen).not
      else f.truthSeen db ctx.fields row seen) := by
  cases f with
  | conj fs =>
    obtain ⟨parts, hparts, rfl⟩ := junction_eq_ok h
    obtain ⟨es, hes, htruths⟩ := Formula.parts_faithful hvalues hseen fs hparts
    show Sql.Means db row ctx.values.args _ (.all (Formula.truthsSeen db ctx.fields row seen fs))
    rw [← htruths]
    exact .all hes
  | disj fs =>
    obtain ⟨parts, hparts, rfl⟩ := junction_eq_ok h
    obtain ⟨es, hes, htruths⟩ := Formula.parts_faithful hvalues hseen fs hparts
    show Sql.Means db row ctx.values.args _ (.any (Formula.truthsSeen db ctx.fields row seen fs))
    rw [← htruths]
    exact .any hes
  | compare c field v =>
    replace h : body _ c.operator (Sql.operands _ _ [.field field, .literal v.value]) = .ok ts := h
    rw [operands_field, operands_literal] at h
    exact comparison_faithful db row hvalues hseen c field v h
  | between field low high =>
    replace h : body _ .between (Sql.operands _ _ [.field field, .literal low.value, .literal high.value]) = .ok ts := h
    rw [operands_field, operands_literal, operands_literal] at h
    exact between_faithful db row hvalues hseen field low high h
  | inList field items =>
    replace h : body _ .in (Sql.operands _ _ [.field field, .literal (.list (items.map Scalar.value))]) = .ok ts := h
    rw [operands_field, operands_literal] at h
    have hmeans := membership_faithful db row hvalues hseen field _ h
    rw [List.map_map] at hmeans
    exact hmeans
  | isNull field =>
    replace h : body _ .isNull (Sql.operands _ _ [.field field]) = .ok ts := h
    rw [operands_field] at h
    cases h
    rw [fixed_writer]
    exact ⟨_, (Sql.reads_field ctx.fields field).isNull.predicateWhole, Sql.truth_isNull⟩
  | negate f =>
    have hmeans := Formula.body_faithful hvalues hseen f h
    show Sql.Means db row ctx.values.args ts (if !f.condition.negated
      then (f.truthSeen db ctx.fields row seen).not.not else (f.truthSeen db ctx.fields row seen).not)
    cases hnegated : f.condition.negated with
    | false => simpa [hnegated] using hmeans
    | true => simpa [hnegated] using hmeans

/-- Conditions between parentheses are read back as operands with their truth. -/
theorem Formula.parts_faithful (hvalues : ctx.values.OfScheme style.scheme) (hseen : ctx.values.Shows seen)
    (fs : List Formula) {parts : List (List Token)}
    (h : List.Forall₂ (fun o part => o.2 = .ok part)
      (Sql.operands ctx.writer ctx.fields ((Formula.conditions fs).map .condition)) parts) :
    ∃ es, List.Forall₂ (Reads .operand) parts es ∧
      es.map (·.truth db row ctx.values.args) = Formula.truthsSeen db ctx.fields row seen fs := by
  cases fs with
  | nil =>
    cases h
    exact ⟨[], .nil, rfl⟩
  | cons f fs =>
    rcases h with _ | ⟨hpart, hparts⟩
    obtain ⟨us, hus, rfl⟩ := map_eq_ok.1 hpart
    obtain ⟨e, he, htruth⟩ := condition_faithful db row (fun us hus => Formula.body_faithful hvalues hseen f hus) hus
    obtain ⟨es, hes, htruths⟩ := Formula.parts_faithful hvalues hseen fs hparts
    refine ⟨e :: es, .cons he.parenthesized hes, ?_⟩
    rw [List.map_cons, htruth, htruths, Formula.truthsSeen]

end

/-- The first scalars of their texts are what a walk over a condition binds. -/
theorem Binder.bindCondition_shows {b : Binder} {c : Condition} {values : Bindings}
    (h : b.bindCondition .empty c = ⟨values, none⟩) :
    values.Shows (Value.firstOf c.scalars) := by
  intro v canonical binding hv hget
  rw [bindCondition_eq] at h
  have hfirst := bindScalars_first h rfl hget
  have hshares : v.sharesText = Value.hasText canonical := by
    funext u
    rw [Value.sharesText, hv]
  rw [Value.firstOf, hshares, hfirst, Option.getD_some]

/-- **The text of a condition has the truth of its tree**, on every row of every database. -/
theorem Formula.written_faithfully (style : Style) (fields : FieldMap) (f : Formula) {values : Bindings}
    {ts : List Token}
    (hbound : ((Binder.ofStyle style).ignoring fields.fields).bindCondition .empty f.condition = ⟨values, none⟩)
    (hts : Sql.conditionTokens ⟨values, fields⟩ f.condition = .ok ts) :
    ∃ e, Sql.parse (Sql.render ts) = some e ∧ e.truth db row values.args = f.truth db fields row := by
  have hgrows := ((Binder.ofStyle style).ignoring fields.fields).bindCondition_grows .empty f.condition
  rw [hbound] at hgrows
  have hvalues : values.OfScheme style.scheme := (Bindings.OfScheme.empty style.scheme).grows hgrows
  have hseen := Binder.bindCondition_shows hbound
  obtain ⟨e, he, htruth⟩ := condition_faithful db row (fun us hus => f.body_faithful db row hvalues hseen hus) hts
  exact ⟨e, he.parse (Sql.conditionTokens_readable hvalues hts), htruth⟩

/-- Columns of people. -/
def FieldMap.people : FieldMap := Dict.ofList [("name", "full_name"), ("nick", "nick"), ("age", "age")]

/-- A person who is called by the nickname. -/
def Sql.Cell.ann : List String → Cell
  | ["full_name"] => text "ann"
  | ["nick"] => text "ann"
  | ["age"] => integer 70
  | _ => null

/-- People who are not of working age, and have no name or are called `bob` or by the nickname. -/
def Formula.retired : Formula :=
  .conj [.negate (.between (.bare "age") ⟨.int 18, rfl⟩ ⟨.int 65, rfl⟩),
    .disj [.equalTo (.bare "name") ⟨.null, rfl⟩, .inList (.bare "name") [⟨.text "bob", rfl⟩, ⟨.text "nick", rfl⟩]]]

/-- The condition holds of a person who is called by the nickname, and so does its text. -/
theorem Formula.retired_holds : ∃ values ts e,
    ((Binder.ofStyle .numbered).ignoring FieldMap.people.fields).bindCondition .empty retired.condition =
      ⟨values, none⟩ ∧
    Sql.conditionTokens ⟨values, FieldMap.people⟩ retired.condition = .ok ts ∧
    Sql.render ts = "(NOT (\x22age\x22 BETWEEN %1$d AND %2$d)) AND " ++
      "((\x22full_name\x22 IS NULL) OR (\x22full_name\x22 IN (%3$s, \x22nick\x22)))" ∧
    Sql.parse (Sql.render ts) = some e ∧ e.truth Sql.Cell.database Sql.Cell.ann values.args = .holds := by
  let walk := ((Binder.ofStyle .numbered).ignoring FieldMap.people.fields).bindCondition .empty retired.condition
  have hwalk : walk.failure?.isNone = true := by decide +kernel
  have htext : (Sql.conditionTokens ⟨walk.bindings, FieldMap.people⟩ retired.condition).toOption.map Sql.render =
      some ("(NOT (\x22age\x22 BETWEEN %1$d AND %2$d)) AND " ++
        "((\x22full_name\x22 IS NULL) OR (\x22full_name\x22 IN (%3$s, \x22nick\x22)))") := by
    decide +kernel
  have htruth : retired.truth Sql.Cell.database FieldMap.people Sql.Cell.ann = .holds := by decide +kernel
  have hbound : walk = ⟨walk.bindings, none⟩ := by rw [← Option.isNone_iff_eq_none.1 hwalk]
  cases hts : Sql.conditionTokens ⟨walk.bindings, FieldMap.people⟩ retired.condition with
  | error f =>
    rw [hts] at htext
    cases htext
  | ok ts =>
    rw [hts] at htext
    obtain ⟨e, he, hvalue⟩ :=
      retired.written_faithfully Sql.Cell.database Sql.Cell.ann .numbered FieldMap.people hbound hts
    exact ⟨walk.bindings, ts, e, hbound, hts, Option.some.inj htext, he, hvalue.trans htruth⟩

end BoundSql
