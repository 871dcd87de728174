import BoundSql.Proofs.Sql.Scan
import Mathlib.Data.List.Forall2

/-!
# Reading conditions

`Sql.parse` reads a text by the grammar of SQL expressions. From the weakest to the strongest: `OR`, `AND`, `NOT`, one
predicate (a comparison, `LIKE`, `BETWEEN`, `IN` or `IS NULL`), and an operand (a column, a placeholder, a constant, or
an expression between parentheses). The bounds of `BETWEEN` are operands, so its `AND` is never taken for the
connective.

The functions of the grammar call one another on the same tokens, so they count their calls; the count that `parse`
starts with is never used up. What each of them reads is given by one lemma for each form (`Reads`).
-/

namespace BoundSql.Sql

/-! ## Expressions -/

/-- Ways to compare two values. -/
inductive Comparison where
  | sign (s : Sign)
  | like
  deriving DecidableEq

/-- An expression of SQL; conditions are expressions too. -/
inductive Expr where
  | column (path : List String)
  | placeholder (text : String)
  | null
  | integer (n : Int)
  | not (e : Expr)
  | and (l r : Expr)
  | or (l r : Expr)
  | compare (c : Comparison) (l r : Expr)
  | between (e low high : Expr)
  | among (e : Expr) (items : List Expr)
  | isNull (e : Expr)
  | isNotNull (e : Expr)

/-! ## The grammar -/

/-- Further parts of a column behind its first one, and what follows. -/
def dotted : List Token → List String × List Token
  | .dot :: .name part :: ts => (part :: (dotted ts).1, (dotted ts).2)
  | ts => ([], ts)

mutual

/-- Expressions with `OR` between them. -/
def disjunction : Nat → List Token → Option (Expr × List Token)
  | 0, _ => none
  | n + 1, ts =>
    match conjunction n ts with
    | some (l, .keyword .or :: rest) => (fun r => (.or l r.1, r.2)) <$> disjunction n rest
    | read => read

/-- Expressions with `AND` between them. -/
def conjunction : Nat → List Token → Option (Expr × List Token)
  | 0, _ => none
  | n + 1, ts =>
    match negation n ts with
    | some (l, .keyword .and :: rest) => (fun r => (.and l r.1, r.2)) <$> conjunction n rest
    | read => read

/-- An expression that may be negated. -/
def negation : Nat → List Token → Option (Expr × List Token)
  | 0, _ => none
  | n + 1, ts =>
    match ts with
    | .keyword .not :: rest => (fun r => (.not r.1, r.2)) <$> negation n rest
    | _ => predicate n ts

/-- An operand, and what is said of it. -/
def predicate : Nat → List Token → Option (Expr × List Token)
  | 0, _ => none
  | n + 1, ts =>
    match operand n ts with
    | some (l, .sign s :: rest) => (fun r => (.compare (.sign s) l r.1, r.2)) <$> operand n rest
    | some (l, .keyword .like :: rest) => (fun r => (.compare .like l r.1, r.2)) <$> operand n rest
    | some (l, .keyword .between :: rest) =>
      match operand n rest with
      | some (low, .keyword .and :: rest) => (fun r => (.between l low r.1, r.2)) <$> operand n rest
      | _ => none
    | some (l, .keyword .in :: .openParen :: rest) => (fun r => (.among l r.1, r.2)) <$> items n rest
    | some (l, .keyword .is :: .keyword .null :: rest) => some (.isNull l, rest)
    | some (l, .keyword .is :: .keyword .not :: .keyword .null :: rest) => some (.isNotNull l, rest)
    | read => read

/-- Expressions with commas between them, up to a closing parenthesis. -/
def items : Nat → List Token → Option (List Expr × List Token)
  | 0, _ => none
  | n + 1, ts =>
    match disjunction n ts with
    | some (e, .comma :: rest) => (fun r => (e :: r.1, r.2)) <$> items n rest
    | some (e, .closeParen :: rest) => some ([e], rest)
    | _ => none

/-- A column, a placeholder, a constant, or an expression between parentheses. -/
def operand : Nat → List Token → Option (Expr × List Token)
  | 0, _ => none
  | n + 1, ts =>
    match ts with
    | .openParen :: ts =>
      match disjunction n ts with
      | some (e, .closeParen :: rest) => some (e, rest)
      | _ => none
    | .name part :: ts => some (.column (part :: (dotted ts).1), (dotted ts).2)
    | .placeholder text :: ts => some (.placeholder text, ts)
    | .keyword .null :: ts => some (.null, ts)
    | .integer k :: ts => some (.integer k, ts)
    | _ => none

end

/-- The expression that some tokens make up. -/
def parseTokens (ts : List Token) : Option Expr :=
  match disjunction (5 * ts.length + 5) ts with
  | some (e, []) => some e
  | _ => none

/-- The expression that a text makes up. -/
def parse (text : String) : Option Expr := (scan text.toList).bind parseTokens

example : parse "NOT (\x22a\x22.\x22b\x22 BETWEEN %1$d AND %2$d AND \x22c\x22 IS NOT NULL)" =
    some (.not (.and (.between (.column ["a", "b"]) (.placeholder "%1$d") (.placeholder "%2$d"))
      (.isNotNull (.column ["c"])))) := by
  cbv

/-! ## What the grammar reads -/

/-- Levels of the grammar. -/
inductive Level where
  | operand
  | predicate
  | negation
  | conjunction
  | disjunction

namespace Level

/-- Function that reads a level. -/
def reader : Level → Nat → List Token → Option (Expr × List Token)
  | operand => Sql.operand
  | predicate => Sql.predicate
  | negation => Sql.negation
  | conjunction => Sql.conjunction
  | disjunction => Sql.disjunction

/-- Whether a token behind an expression ends it. -/
def endedBy : Level → Token → Bool
  | operand, .dot => false
  | operand, _ => true
  | predicate, .keyword .and | negation, .keyword .and => true
  | predicate, .keyword .or | negation, .keyword .or | conjunction, .keyword .or => true
  | _, .closeParen | _, .comma => true
  | _, _ => false

/-- Calls from a level down to an operand, itself included. -/
def calls : Level → Nat
  | operand => 1
  | predicate => 2
  | negation => 3
  | conjunction => 4
  | disjunction => 5

end Level

/-- What follows an expression ends it. -/
def Ends (level : Level) (rest : List Token) : Prop := ∀ t ts, rest = t :: ts → level.endedBy t = true

/-- Some tokens are read as an expression, whatever follows that ends it. -/
def Reads (level : Level) (ts : List Token) (e : Expr) : Prop :=
  ∀ n rest, Ends level rest → level.calls + 5 * ts.length ≤ n → level.reader n (ts ++ rest) = some (e, rest)

variable {ts us vs : List Token} {e f g : Expr}

theorem ends_cons {level : Level} {t : Token} (h : level.endedBy t = true) (rest : List Token) :
    Ends level (t :: rest) := fun _ _ heq => (List.cons.inj heq).1 ▸ h

theorem reads_of_succ {level : Level} (h : ∀ n rest, Ends level rest → level.calls + 5 * ts.length ≤ n + 1 →
    level.reader (n + 1) (ts ++ rest) = some (e, rest)) : Reads level ts e := by
  rintro (_ | n) rest hrest hn
  · cases level <;> simp only [Level.calls] at hn <;> omega
  · exact h n rest hrest hn

theorem dotted_append (path : List String) {rest : List Token} (h : Ends .operand rest) :
    dotted (path.flatMap (fun part => [.dot, .name part]) ++ rest) = (path, rest) := by
  induction path with
  | nil =>
    unfold dotted
    split
    · next heq => cases h _ _ heq
    · rfl
  | cons part path ih => simp [dotted, ih]

/-! ### Operands -/

theorem reads_column (part : String) (path : List String) :
    Reads .operand (.name part :: path.flatMap fun part => [.dot, .name part]) (.column (part :: path)) :=
  reads_of_succ fun n rest hrest _ => by simp [Level.reader, operand, dotted_append path hrest]

theorem reads_placeholder (text : String) : Reads .operand [.placeholder text] (.placeholder text) :=
  reads_of_succ fun _ _ _ _ => rfl

theorem reads_null : Reads .operand [.keyword .null] .null := reads_of_succ fun _ _ _ _ => rfl

theorem reads_integer (k : Int) : Reads .operand [.integer k] (.integer k) := reads_of_succ fun _ _ _ _ => rfl

theorem Reads.parenthesized (h : Reads .disjunction ts e) : Reads .operand (.openParen :: ts ++ [.closeParen]) e := by
  apply reads_of_succ
  intro n rest _ hn
  simp only [Level.calls, List.length_append, List.length_cons, List.length_nil] at hn
  have hts : disjunction n (ts ++ .closeParen :: rest) = some (e, .closeParen :: rest) :=
    h n _ (ends_cons rfl rest) (by simp only [Level.calls]; omega)
  simp [Level.reader, operand, hts]

/-! ### Predicates -/

theorem endedBy_operand {level : Level} {t : Token} (h : level.endedBy t = true) : Level.operand.endedBy t = true := by
  cases t with
  | dot => cases level <;> cases h
  | _ => rfl

theorem Ends.operand {level : Level} {rest : List Token} (h : Ends level rest) : Ends .operand rest :=
  fun t ts heq => endedBy_operand (h t ts heq)

theorem Reads.predicate (h : Reads .operand ts e) : Reads .predicate ts e := by
  apply reads_of_succ
  intro n rest hrest hn
  simp only [Level.calls] at hn
  have hts : operand n (ts ++ rest) = some (e, rest) := h n rest hrest.operand (by simp only [Level.calls]; omega)
  simp only [Level.reader, Sql.predicate, hts]
  split
  · next heq => cases heq; cases hrest _ _ rfl
  · next heq => cases heq; cases hrest _ _ rfl
  · next heq => cases heq; cases hrest _ _ rfl
  · next heq => cases heq; cases hrest _ _ rfl
  · next heq => cases heq; cases hrest _ _ rfl
  · next heq => cases heq; cases hrest _ _ rfl
  · rfl

theorem Reads.compare (h : Reads .operand ts e) (s : Sign) (h' : Reads .operand us f) :
    Reads .predicate (ts ++ .sign s :: us) (.compare (.sign s) e f) := by
  apply reads_of_succ
  intro n rest hrest hn
  simp only [Level.calls, List.length_append, List.length_cons] at hn
  have hts : operand n (ts ++ (.sign s :: (us ++ rest))) = some (e, .sign s :: (us ++ rest)) :=
    h n _ (ends_cons rfl _) (by simp only [Level.calls]; omega)
  have hus : operand n (us ++ rest) = some (f, rest) := h' n rest hrest.operand (by simp only [Level.calls]; omega)
  simp only [Level.reader, Sql.predicate, List.append_assoc, List.cons_append, hts, hus]
  rfl

theorem Reads.like (h : Reads .operand ts e) (h' : Reads .operand us f) :
    Reads .predicate (ts ++ .keyword .like :: us) (.compare .like e f) := by
  apply reads_of_succ
  intro n rest hrest hn
  simp only [Level.calls, List.length_append, List.length_cons] at hn
  have hts : operand n (ts ++ (.keyword .like :: (us ++ rest))) = some (e, .keyword .like :: (us ++ rest)) :=
    h n _ (ends_cons rfl _) (by simp only [Level.calls]; omega)
  have hus : operand n (us ++ rest) = some (f, rest) := h' n rest hrest.operand (by simp only [Level.calls]; omega)
  simp only [Level.reader, Sql.predicate, List.append_assoc, List.cons_append, hts, hus]
  rfl

theorem Reads.between (h : Reads .operand ts e) (h' : Reads .operand us f) (h'' : Reads .operand vs g) :
    Reads .predicate (ts ++ .keyword .between :: us ++ .keyword .and :: vs) (.between e f g) := by
  apply reads_of_succ
  intro n rest hrest hn
  simp only [Level.calls, List.length_append, List.length_cons] at hn
  have hts : operand n (ts ++ (.keyword .between :: (us ++ (.keyword .and :: (vs ++ rest))))) =
      some (e, .keyword .between :: (us ++ (.keyword .and :: (vs ++ rest)))) :=
    h n _ (ends_cons rfl _) (by simp only [Level.calls]; omega)
  have hus : operand n (us ++ (.keyword .and :: (vs ++ rest))) = some (f, .keyword .and :: (vs ++ rest)) :=
    h' n _ (ends_cons rfl _) (by simp only [Level.calls]; omega)
  have hvs : operand n (vs ++ rest) = some (g, rest) := h'' n rest hrest.operand (by simp only [Level.calls]; omega)
  simp only [Level.reader, Sql.predicate, List.append_assoc, List.cons_append, hts, hus, hvs]
  rfl

theorem Reads.isNull (h : Reads .operand ts e) :
    Reads .predicate (ts ++ [.keyword .is, .keyword .null]) (.isNull e) := by
  apply reads_of_succ
  intro n rest hrest hn
  simp only [Level.calls, List.length_append, List.length_cons] at hn
  have hts : operand n (ts ++ (.keyword .is :: .keyword .null :: rest)) =
      some (e, .keyword .is :: .keyword .null :: rest) := h n _ (ends_cons rfl _) (by simp only [Level.calls]; omega)
  simp only [Level.reader, Sql.predicate, List.append_assoc, List.cons_append, List.nil_append, hts]

theorem Reads.isNotNull (h : Reads .operand ts e) :
    Reads .predicate (ts ++ [.keyword .is, .keyword .not, .keyword .null]) (.isNotNull e) := by
  apply reads_of_succ
  intro n rest hrest hn
  simp only [Level.calls, List.length_append, List.length_cons] at hn
  have hts : operand n (ts ++ (.keyword .is :: .keyword .not :: .keyword .null :: rest)) =
      some (e, .keyword .is :: .keyword .not :: .keyword .null :: rest) :=
    h n _ (ends_cons rfl _) (by simp only [Level.calls]; omega)
  simp only [Level.reader, Sql.predicate, List.append_assoc, List.cons_append, List.nil_append, hts]

/-- Items of a list, with commas between them and the closing parenthesis behind them. -/
theorem items_reads {part : List Token} {parts : List (List Token)} {e : Expr} {es : List Expr}
    (h : Reads .disjunction part e) (hs : List.Forall₂ (Reads .disjunction) parts es) {n : Nat} {rest : List Token}
    (hn : 6 + 5 * (part ++ parts.flatMap (.comma :: ·)).length ≤ n) :
    items n (part ++ (parts.flatMap (.comma :: ·) ++ .closeParen :: rest)) = some (e :: es, rest) := by
  induction hs generalizing part e n with
  | nil =>
    simp only [List.flatMap_nil, List.append_nil] at hn
    obtain ⟨n, rfl⟩ : ∃ m, n = m + 1 := ⟨n - 1, by omega⟩
    have hpart : disjunction n (part ++ .closeParen :: rest) = some (e, .closeParen :: rest) :=
      h n _ (ends_cons rfl rest) (by simp only [Level.calls]; omega)
    simp only [items, List.flatMap_nil, List.nil_append, hpart]
  | @cons part' e' parts es hpart' _ ih =>
    simp only [List.flatMap_cons, List.length_append, List.length_cons] at hn
    obtain ⟨n, rfl⟩ : ∃ m, n = m + 1 := ⟨n - 1, by omega⟩
    have hpart : disjunction n (part ++ .comma :: (part' ++ (parts.flatMap (.comma :: ·) ++ .closeParen :: rest))) =
        some (e, .comma :: (part' ++ (parts.flatMap (.comma :: ·) ++ .closeParen :: rest))) :=
      h n _ (ends_cons rfl _) (by simp only [Level.calls]; omega)
    have hrest := ih hpart' (n := n) (by simp only [List.length_append]; omega)
    simp only [items, List.flatMap_cons, List.append_assoc, List.cons_append, hpart, hrest]
    rfl

theorem Reads.among (h : Reads .operand ts e) {parts : List (List Token)} {es : List Expr} (hne : parts ≠ [])
    (hs : List.Forall₂ (Reads .disjunction) parts es) :
    Reads .predicate (ts ++ .keyword .in :: .openParen :: separated .comma parts ++ [.closeParen]) (.among e es) := by
  apply reads_of_succ
  intro n rest hrest hn
  cases hs with
  | nil => exact absurd rfl hne
  | @cons part e' parts es hpart hparts =>
    simp only [Level.calls, separated, List.length_append, List.length_cons, List.length_nil] at hn
    have hts : operand n (ts ++ (.keyword .in :: .openParen ::
        (part ++ (parts.flatMap (.comma :: ·) ++ .closeParen :: rest)))) =
          some (e, .keyword .in :: .openParen :: (part ++ (parts.flatMap (.comma :: ·) ++ .closeParen :: rest))) :=
      h n _ (ends_cons rfl _) (by simp only [Level.calls]; omega)
    have hitems : items n (part ++ (parts.flatMap (.comma :: ·) ++ .closeParen :: rest)) = some (_, rest) :=
      items_reads hpart hparts (by simp only [List.length_append]; omega)
    simp only [Level.reader, Sql.predicate, separated, List.append_assoc, List.cons_append, List.nil_append, hts,
      hitems]
    rfl

/-! ### Connectives -/

theorem endedBy_negation (t : Token) : Level.negation.endedBy t = Level.predicate.endedBy t := by
  cases t with
  | keyword k => cases k <;> rfl
  | _ => rfl

theorem endedBy_of_conjunction {t : Token} (h : Level.conjunction.endedBy t = true) :
    Level.negation.endedBy t = true := by
  cases t with
  | keyword k => cases k <;> first | rfl | cases h
  | _ => first | rfl | cases h

theorem endedBy_of_disjunction {t : Token} (h : Level.disjunction.endedBy t = true) :
    Level.conjunction.endedBy t = true := by
  cases t with
  | keyword k => cases h
  | _ => first | rfl | cases h

/-- What is read as a predicate does not begin with a negation. -/
theorem Reads.first (h : Reads .predicate ts e) : ∃ t us, ts = t :: us ∧ t ≠ .keyword .not := by
  have hread := h (5 * ts.length + 4) [] nofun (by simp only [Level.calls]; omega)
  simp only [Level.reader, Sql.predicate, List.append_nil] at hread
  match ts, hread with
  | [], hread => cases hread
  | t :: us, hread =>
    refine ⟨t, us, rfl, ?_⟩
    rintro rfl
    cases hread

theorem Reads.negation (h : Reads .predicate ts e) : Reads .negation ts e := by
  apply reads_of_succ
  intro n rest hrest hn
  simp only [Level.calls] at hn
  have hts : Sql.predicate n (ts ++ rest) = some (e, rest) :=
    h n rest (fun t us heq => endedBy_negation t ▸ hrest t us heq) (by simp only [Level.calls]; omega)
  obtain ⟨t, us, rfl, ht⟩ := h.first
  simp only [Level.reader, Sql.negation]
  split
  · next heq => exact absurd (List.cons.inj heq).1 ht
  · exact hts

theorem Reads.not (h : Reads .negation ts e) : Reads .negation (.keyword .not :: ts) (.not e) := by
  apply reads_of_succ
  intro n rest hrest hn
  simp only [Level.calls, List.length_cons] at hn
  have hts : Sql.negation n (ts ++ rest) = some (e, rest) := h n rest hrest (by simp only [Level.calls]; omega)
  simp only [Level.reader, Sql.negation, List.cons_append, hts]
  rfl

theorem Reads.conjunction (h : Reads .negation ts e) : Reads .conjunction ts e := by
  apply reads_of_succ
  intro n rest hrest hn
  simp only [Level.calls] at hn
  have hts : Sql.negation n (ts ++ rest) = some (e, rest) :=
    h n rest (fun t us heq => endedBy_of_conjunction (hrest t us heq)) (by simp only [Level.calls]; omega)
  simp only [Level.reader, Sql.conjunction, hts]
  split
  · next heq => cases heq; cases hrest _ _ rfl
  · rfl

theorem Reads.and (h : Reads .negation ts e) (h' : Reads .conjunction us f) :
    Reads .conjunction (ts ++ .keyword .and :: us) (.and e f) := by
  apply reads_of_succ
  intro n rest hrest hn
  simp only [Level.calls, List.length_append, List.length_cons] at hn
  have hts : Sql.negation n (ts ++ (.keyword .and :: (us ++ rest))) = some (e, .keyword .and :: (us ++ rest)) :=
    h n _ (ends_cons rfl _) (by simp only [Level.calls]; omega)
  have hus : Sql.conjunction n (us ++ rest) = some (f, rest) := h' n rest hrest (by simp only [Level.calls]; omega)
  simp only [Level.reader, Sql.conjunction, List.append_assoc, List.cons_append, hts, hus]
  rfl

theorem Reads.disjunction (h : Reads .conjunction ts e) : Reads .disjunction ts e := by
  apply reads_of_succ
  intro n rest hrest hn
  simp only [Level.calls] at hn
  have hts : Sql.conjunction n (ts ++ rest) = some (e, rest) :=
    h n rest (fun t us heq => endedBy_of_disjunction (hrest t us heq)) (by simp only [Level.calls]; omega)
  simp only [Level.reader, Sql.disjunction, hts]
  split
  · next heq => cases heq; cases hrest _ _ rfl
  · rfl

theorem Reads.or (h : Reads .conjunction ts e) (h' : Reads .disjunction us f) :
    Reads .disjunction (ts ++ .keyword .or :: us) (.or e f) := by
  apply reads_of_succ
  intro n rest hrest hn
  simp only [Level.calls, List.length_append, List.length_cons] at hn
  have hts : Sql.conjunction n (ts ++ (.keyword .or :: (us ++ rest))) = some (e, .keyword .or :: (us ++ rest)) :=
    h n _ (ends_cons rfl _) (by simp only [Level.calls]; omega)
  have hus : Sql.disjunction n (us ++ rest) = some (f, rest) := h' n rest hrest (by simp only [Level.calls]; omega)
  simp only [Level.reader, Sql.disjunction, List.append_assoc, List.cons_append, hts, hus]
  rfl

/-! ### Whole texts -/

/-- **What is read as a disjunction is the expression that its tokens make up.** -/
theorem Reads.parseTokens_eq (h : Reads .disjunction ts e) : parseTokens ts = some e := by
  have hread : Sql.disjunction (5 * ts.length + 5) (ts ++ []) = some (e, []) :=
    h (5 * ts.length + 5) [] nofun (by simp only [Level.calls]; omega)
  rw [List.append_nil] at hread
  rw [parseTokens, hread]

/-- What is read as a disjunction is what its text is parsed as. -/
theorem Reads.parse (h : Reads .disjunction ts e) (hts : ∀ t ∈ ts, t.Readable) : parse (render ts) = some e := by
  rw [Sql.parse, scan_render hts, Option.bind_some, h.parseTokens_eq]

end BoundSql.Sql
