import BoundSql.Condition
import BoundSql.FieldMap
import BoundSql.Proofs.Bindings.Lookup
import BoundSql.Proofs.Sql.Parse

/-!
# What conditions mean

Conditions are true, false or unknown. How a database compares two values, and what a bound argument is to it, is left
open: a `Database` knows both, and says of no more than that constants equal themselves.

* `Expr.truth` : the truth of an expression of SQL on a row, whose placeholders are read from the arguments.
* `Formula` : the conditions that the constructors of conditions build, with scalars for values.
* `Formula.truth` : the truth of such a condition, taken from its tree and without any text.
-/

namespace BoundSql

namespace Sql

/-! ## Three truth values -/

/-- The truth of a condition. -/
inductive Truth where
  | holds
  | unknown
  | fails
  deriving DecidableEq

namespace Truth

/-- The opposite; what is unknown stays so. -/
def not : Truth → Truth
  | holds => fails
  | unknown => unknown
  | fails => holds

/-- The weaker of two truth values. -/
def and : Truth → Truth → Truth
  | holds, t => t
  | fails, _ => fails
  | unknown, fails => fails
  | unknown, _ => unknown

/-- The stronger of two truth values. -/
def or : Truth → Truth → Truth
  | fails, t => t
  | holds, _ => holds
  | unknown, holds => holds
  | unknown, _ => unknown

/-- Truth of what is known. -/
def ofBool (b : Bool) : Truth := if b then holds else fails

/-- Conjunction of several truth values. -/
def all (ts : List Truth) : Truth := ts.foldr and holds

/-- Disjunction of several truth values. -/
def any (ts : List Truth) : Truth := ts.foldr or fails

@[simp] theorem not_not (t : Truth) : t.not.not = t := by cases t <;> rfl

@[simp] theorem and_holds (t : Truth) : t.and holds = t := by cases t <;> rfl

@[simp] theorem or_fails (t : Truth) : t.or fails = t := by cases t <;> rfl

end Truth

/-! ## Databases -/

/-- What a database makes of values. -/
structure Database (V : Type) where
  null : V
  integer : Int → V
  /-- A bound argument. -/
  argument : Value → V
  /-- The value of a condition, and the condition that a value is. -/
  ofTruth : Truth → V
  toTruth : V → Truth
  isNull : V → Bool
  compare : Comparison → V → V → Truth
  toTruth_ofTruth : ∀ t, toTruth (ofTruth t) = t
  compare_integer : ∀ m n, compare (.sign .equal) (integer m) (integer n) = .ofBool (m = n)

namespace Database

variable {V : Type} (db : Database V)

/-- Membership: equality with at least one item. -/
def among (v : V) (items : List V) : Truth := Truth.any (items.map (db.compare (.sign .equal) v))

/-- A value between two others, which may be equal to it. -/
def between (v low high : V) : Truth :=
  (db.compare (.sign .greaterOrEqual) v low).and (db.compare (.sign .lessOrEqual) v high)

end Database

/-! ### A small database -/

/-- A cell of a small database, which has no fractions. -/
inductive Cell where
  | null
  | integer (n : Int)
  | text (s : String)
  deriving DecidableEq

namespace Cell

/-- Integers by size, texts by their characters, and every integer before every text. -/
def less : Cell → Cell → Bool
  | integer m, integer n => m < n
  | integer _, text _ => true
  | text s, text t => s < t
  | _, _ => false

/-- Whether a text matches a pattern, in which `_` stands for one character and `%` for any number of them. -/
def likes : List Char → List Char → Bool
  | [], cs => cs.isEmpty
  | '%' :: pattern, cs => cs.tails.any (likes pattern)
  | _ :: _, [] => false
  | p :: pattern, c :: cs => (p = '_' || p.toLower = c.toLower) && likes pattern cs

/-- Comparison of two cells that are not missing. -/
def test : Comparison → Cell → Cell → Bool
  | .sign .equal, a, b => a = b
  | .sign .notEqual, a, b => a ≠ b
  | .sign .less, a, b => less a b
  | .sign .lessOrEqual, a, b => !less b a
  | .sign .greater, a, b => less b a
  | .sign .greaterOrEqual, a, b => !less a b
  | .like, text s, text pattern => likes pattern.toList s.toList
  | .like, _, _ => false

/-- **The small database**: nothing is known of a comparison with a missing cell. -/
def database : Database Cell where
  null := null
  integer := integer
  argument
    | .bool b => integer (if b then 1 else 0)
    | .int n => integer n.toInt
    | .text s => text s
    | _ => null
  ofTruth
    | .holds => integer 1
    | .unknown => null
    | .fails => integer 0
  toTruth
    | null => .unknown
    | c => .ofBool (c ≠ integer 0)
  isNull c := c = null
  compare c a b := if a = null ∨ b = null then .unknown else .ofBool (test c a b)
  toTruth_ofTruth t := by cases t <;> rfl
  compare_integer m n := by simp [test]

end Cell

/-! ## Expressions -/

namespace Expr

/-! A row has a value for every column, and a statement has arguments. -/

variable {V : Type} (db : Database V) (row : List String → V) (args : List Value)

/-- Argument at the position that a placeholder carries. -/
def parameter (text : String) : V :=
  match Placeholder.carried? text with
  | some position => ((args[position - 1]?).map db.argument).getD db.null
  | none => db.null

mutual

/-- Value of an expression. -/
def value : Expr → V
  | .column path => row path
  | .placeholder text => parameter db args text
  | .null => db.null
  | .integer n => db.integer n
  | .not e => db.ofTruth (db.toTruth (value e)).not
  | .and l r => db.ofTruth ((db.toTruth (value l)).and (db.toTruth (value r)))
  | .or l r => db.ofTruth ((db.toTruth (value l)).or (db.toTruth (value r)))
  | .compare c l r => db.ofTruth (db.compare c (value l) (value r))
  | .between e low high => db.ofTruth (db.between (value e) (value low) (value high))
  | .among e items => db.ofTruth (db.among (value e) (values items))
  | .isNull e => db.ofTruth (.ofBool (db.isNull (value e)))
  | .isNotNull e => db.ofTruth (.ofBool (!db.isNull (value e)))

/-- Values of several expressions. -/
def values : List Expr → List V
  | [] => []
  | e :: es => value e :: values es

end

/-- Truth of an expression. -/
def truth (e : Expr) : Truth := db.toTruth (e.value db row args)

end Expr

end Sql

/-! ## Conditions -/

open Sql (Truth Database Comparison Sign)

/-- A value that is no list. -/
structure Scalar where
  value : Value
  isScalar : value.isList = false

/-- Operator of a comparison. -/
def Sql.Comparison.operator : Comparison → Operator
  | .sign .equal => .equalTo
  | .sign .notEqual => .notEqualTo
  | .sign .less => .lessThan
  | .sign .lessOrEqual => .lessThanOrEqualTo
  | .sign .greater => .greaterThan
  | .sign .greaterOrEqual => .greaterThanOrEqualTo
  | .like => .like

/-- A condition by how it is built. -/
inductive Formula where
  | conj (fs : List Formula)
  | disj (fs : List Formula)
  | compare (c : Comparison) (field : FieldRef) (v : Scalar)
  | between (field : FieldRef) (low high : Scalar)
  | inList (field : FieldRef) (items : List Scalar)
  | isNull (field : FieldRef)
  | negate (f : Formula)

namespace Formula

/-- A field equal to a value. -/
def equalTo (field : FieldRef) (v : Scalar) : Formula := compare (.sign .equal) field v

/-- A field that matches a pattern. -/
def like (field : FieldRef) (pattern : String) : Formula := compare .like field ⟨.text pattern, rfl⟩

mutual

/-- The condition that is built. -/
def condition : Formula → Condition
  | conj fs => .conj (conditions fs)
  | disj fs => .disj (conditions fs)
  | compare c field v => .compare c.operator field v.value
  | between field low high => .between field low.value high.value
  | inList field items => .inList field (items.map Scalar.value)
  | isNull field => .isNull field
  | negate f => f.condition.negate

/-- The conditions that are built. -/
def conditions : List Formula → List Condition
  | [] => []
  | f :: fs => f.condition :: conditions fs

end

end Formula

/-! ## Meaning -/

/-- Parts of a name between its dots. -/
def Sql.namePath (name : String) : List String := (splitDots name.toList).map String.ofList

/-- Column of a field, by the parts of its name; it has the qualifier of the field unless it has its own. -/
def FieldMap.path (fields : FieldMap) (f : FieldRef) : List String :=
  let column := (fields.column? f.field).getD f.field
  match f.entity with
  | some entity =>
    if column.toList.contains '.' then Sql.namePath column else Sql.namePath entity ++ Sql.namePath column
  | none => Sql.namePath column

namespace Formula

variable {V : Type} (db : Database V) (fields : FieldMap) (row : List String → V) (seen : Value → Value)

/-- Value of a literal, which is seen through another value unless it is missing or names a field. -/
def literal (v : Value) : V :=
  if v.isNull then db.null
  else match fields.named? v with
    | some column => row (Sql.namePath column)
    | none => db.argument (seen v)

/-- Truth of a comparison; equality with a missing value is a test for it. -/
def compared (c : Comparison) (field : V) (v : Value) : Truth :=
  match c, v.isNull with
  | .sign .equal, true => .ofBool (db.isNull field)
  | .sign .notEqual, true => .ofBool (!db.isNull field)
  | _, _ => db.compare c field (literal db fields row seen v)

mutual

/-- Truth of a condition, literals seen through other values. -/
def truthSeen : Formula → Truth
  | conj fs => .all (truthsSeen fs)
  | disj fs => .any (truthsSeen fs)
  | compare c field v => compared db fields row seen c (row (fields.path field)) v.value
  | between field low high =>
    db.between (row (fields.path field)) (literal db fields row seen low.value) (literal db fields row seen high.value)
  | inList field items =>
    db.among (row (fields.path field)) (items.map fun v => literal db fields row seen v.value)
  | isNull field => .ofBool (db.isNull (row (fields.path field)))
  | negate f => (truthSeen f).not

/-- Truth of several conditions. -/
def truthsSeen : List Formula → List Truth
  | [] => []
  | f :: fs => truthSeen f :: truthsSeen fs

end

/-- **The truth of a condition on a row**, every literal seen through the first one that has the same canonical text. -/
def truth (f : Formula) : Truth := f.truthSeen db fields row (Value.firstOf f.condition.scalars)

end Formula

end BoundSql
