import BoundSql.Proofs.Sql.Meaning
import BoundSql.Sql.Condition

/-!
# What texts mean

Tokens mean a truth value if the grammar reads them as a whole expression and that expression has it (`Sql.Means`). A
negation means the opposite, and parts with a connective between them mean their conjunction or their disjunction.
-/

namespace BoundSql.Sql

variable {V : Type} {db : Database V} {row : List String → V} {args : List Value} {e f g : Expr}

/-! ## Truth of expressions -/

/-- An expression whose value is that of a truth has this truth. -/
theorem truth_of_value {t : Truth} (h : e.value db row args = db.ofTruth t) : e.truth db row args = t := by
  rw [Expr.truth, h, db.toTruth_ofTruth]

@[simp] theorem truth_not : (Expr.not e).truth db row args = (e.truth db row args).not := truth_of_value rfl

@[simp] theorem truth_and : (Expr.and e f).truth db row args = (e.truth db row args).and (f.truth db row args) :=
  truth_of_value rfl

@[simp] theorem truth_or : (Expr.or e f).truth db row args = (e.truth db row args).or (f.truth db row args) :=
  truth_of_value rfl

@[simp] theorem truth_compare (c : Comparison) :
    (Expr.compare c e f).truth db row args = db.compare c (e.value db row args) (f.value db row args) :=
  truth_of_value rfl

@[simp] theorem truth_between : (Expr.between e f g).truth db row args =
    db.between (e.value db row args) (f.value db row args) (g.value db row args) := truth_of_value rfl

@[simp] theorem truth_among (es : List Expr) : (Expr.among e es).truth db row args =
    db.among (e.value db row args) (Expr.values db row args es) := truth_of_value rfl

@[simp] theorem truth_isNull : (Expr.isNull e).truth db row args = .ofBool (db.isNull (e.value db row args)) :=
  truth_of_value rfl

@[simp] theorem truth_isNotNull :
    (Expr.isNotNull e).truth db row args = .ofBool (!db.isNull (e.value db row args)) := truth_of_value rfl

/-! ## Truth of tokens -/

/-- Some tokens are read as a whole expression, which has a truth. -/
def Means (db : Database V) (row : List String → V) (args : List Value) (ts : List Token) (t : Truth) : Prop :=
  ∃ e, Reads .disjunction ts e ∧ e.truth db row args = t

theorem Reads.predicateWhole {ts : List Token} (h : Reads .predicate ts e) : Reads .disjunction ts e :=
  h.negation.conjunction.disjunction

theorem Means.constant (db : Database V) (row : List String → V) (args : List Value) (truth : Bool) :
    Means db row args (Sql.constant truth) (.ofBool truth) := by
  refine ⟨_, ((reads_integer 1).compare .equal (reads_integer (if truth then 1 else 0))).predicateWhole, ?_⟩
  rw [truth_compare, Expr.value, Expr.value, db.compare_integer]
  cases truth <;> rfl

/-- **A negated expression between parentheses has the opposite truth.** -/
theorem Means.not {ts : List Token} {t : Truth} (h : Means db row args ts t) :
    Means db row args (.keyword .not :: (.openParen :: ts ++ [.closeParen])) t.not := by
  obtain ⟨e, he, rfl⟩ := h
  exact ⟨.not e, he.parenthesized.predicate.negation.not.conjunction.disjunction, truth_not⟩

/-- Parts with a word between every two of them, or a constant condition if there are none. -/
def joined (word : Keyword) (whenEmpty : Bool) (parts : List (List Token)) : List Token :=
  if parts.isEmpty then Sql.constant whenEmpty else separated (.keyword word) parts

variable {part : List Token} {parts : List (List Token)} {es : List Expr}

theorem reads_all (he : Reads .operand part e) (h : List.Forall₂ (Reads .operand) parts es) :
    ∃ whole, Reads .conjunction (separated (.keyword .and) (part :: parts)) whole ∧
      whole.truth db row args = .all ((e :: es).map (·.truth db row args)) := by
  induction h generalizing part e with
  | nil => exact ⟨e, by simpa [separated] using he.predicate.negation.conjunction, by simp [Truth.all]⟩
  | @cons part' e' parts es hpart' _ ih =>
    obtain ⟨whole, hwhole, htruth⟩ := ih hpart'
    refine ⟨.and e whole, ?_, ?_⟩
    · simpa [separated] using he.predicate.negation.and hwhole
    · rw [truth_and, htruth]
      rfl

theorem reads_any (he : Reads .operand part e) (h : List.Forall₂ (Reads .operand) parts es) :
    ∃ whole, Reads .disjunction (separated (.keyword .or) (part :: parts)) whole ∧
      whole.truth db row args = .any ((e :: es).map (·.truth db row args)) := by
  induction h generalizing part e with
  | nil => exact ⟨e, by simpa [separated] using he.predicate.predicateWhole, by simp [Truth.any]⟩
  | @cons part' e' parts es hpart' _ ih =>
    obtain ⟨whole, hwhole, htruth⟩ := ih hpart'
    refine ⟨.or e whole, ?_, ?_⟩
    · simpa [separated] using he.predicate.negation.conjunction.or hwhole
    · rw [truth_or, htruth]
      rfl

/-- **Operands with `AND` between them have the truth of all of them.** -/
theorem Means.all (h : List.Forall₂ (Reads .operand) parts es) :
    Means db row args (joined .and true parts) (.all (es.map (·.truth db row args))) := by
  cases h with
  | nil => exact .constant db row args true
  | cons he h =>
    obtain ⟨whole, hwhole, htruth⟩ := reads_all he h
    exact ⟨whole, hwhole.disjunction, htruth⟩

/-- **Operands with `OR` between them have the truth of any of them.** -/
theorem Means.any (h : List.Forall₂ (Reads .operand) parts es) :
    Means db row args (joined .or false parts) (.any (es.map (·.truth db row args))) := by
  cases h with
  | nil => exact .constant db row args false
  | cons he h => exact reads_any he h

end BoundSql.Sql
