import BoundSql.Proofs.Sql.Faithful

/-!
# Reading statements that change a table

`Sql.command?` reads a text by the grammar of the statements that insert, update and delete. What it finds is a
`Command`: the names by their parts, and the values and the condition as expressions.

It reads what these statements are laid out as, by one lemma for each form: `commandOf?_defaults`, `commandOf?_insert`,
`commandOf?_update` and `commandOf?_delete`. Lists are read alike, whatever they are lists of (`listOf_separated`).
-/

namespace BoundSql.Sql

/-- A statement that changes a table. -/
inductive Command where
  /-- One new row without any values. -/
  | insertDefaults (table : List String)
  | insert (table : List String) (columns : List (List String)) (tuples : List (List Expr))
  | update (table : List String) (assignments : List (List String × Expr)) (condition : Option Expr)
  | delete (table : List String) (condition : Option Expr)

/-! ## The grammar -/

/-- A name, and what follows. -/
def name? : List Token → Option (List String × List Token)
  | .name part :: ts => some (part :: (dotted ts).1, (dotted ts).2)
  | _ => none

/-- Parts with commas between them, and what follows; there is at least one, and there are no more than counted. -/
def listOf {α : Type} (read : List Token → Option (α × List Token)) :
    Nat → List Token → Option (List α × List Token)
  | 0, _ => none
  | n + 1, ts =>
    match read ts with
    | some (a, .comma :: rest) => (fun r => (a :: r.1, r.2)) <$> listOf read n rest
    | some (a, rest) => some ([a], rest)
    | none => none

/-- Values between parentheses, and what follows. -/
def tuple? : List Token → Option (List Expr × List Token)
  | .openParen :: ts => items (5 * ts.length + 6) ts
  | _ => none

/-- An assignment to a column, and what follows. -/
def assignment? (ts : List Token) : Option ((List String × Expr) × List Token) :=
  match name? ts with
  | some (path, .sign .equal :: rest) => (fun r => ((path, r.1), r.2)) <$> operand (5 * rest.length + 1) rest
  | _ => none

/-- The condition at the end of a statement, if it has one. -/
def where? : List Token → Option (Option Expr)
  | [] => some none
  | .keyword .where :: ts => some <$> parseTokens ts
  | _ => none

/-- What is inserted: nothing, or some tuples under some columns. -/
def inserted? (table : List String) : List Token → Option Command
  | [.keyword .default, .keyword .values] => some (.insertDefaults table)
  | .openParen :: ts =>
    match listOf name? (ts.length + 1) ts with
    | some (columns, .closeParen :: .keyword .values :: rest) =>
      match listOf tuple? (rest.length + 1) rest with
      | some (tuples, []) => some (.insert table columns tuples)
      | _ => none
    | _ => none
  | _ => none

/-- What is assigned, and where. -/
def updated? (table : List String) : List Token → Option Command
  | .keyword .set :: ts =>
    match listOf assignment? (ts.length + 1) ts with
    | some (assignments, rest) => .update table assignments <$> where? rest
    | none => none
  | _ => none

/-- The statement that some tokens make up. -/
def commandOf? : List Token → Option Command
  | .keyword .insert :: .keyword .into :: ts => (name? ts).bind fun r => inserted? r.1 r.2
  | .keyword .update :: ts => (name? ts).bind fun r => updated? r.1 r.2
  | .keyword .delete :: .keyword .from :: ts => (name? ts).bind fun r => .delete r.1 <$> where? r.2
  | _ => none

/-- The statement that a text makes up. -/
def command? (text : String) : Option Command := (scan text.toList).bind commandOf?

example : command? "INSERT INTO \x22a\x22.\x22b\x22 (\x22c\x22, \x22d\x22) VALUES (%1$d, NULL), (NULL, %2$s)" =
    some (.insert ["a", "b"] [["c"], ["d"]] [[.placeholder "%1$d", .null], [.null, .placeholder "%2$s"]]) := by
  cbv

/-! ## What the grammar reads -/

theorem name?_nameTokens (name : String) {rest : List Token} (h : Ends .operand rest) :
    name? (nameTokens name ++ rest) = some (namePath name, rest) := by
  rw [nameTokens_eq]
  obtain ⟨part, path, hpath⟩ := List.exists_cons_of_ne_nil (namePath_ne_nil name)
  rw [hpath, pathTokens_cons, List.cons_append, name?, dotted_append path h]

/-- A list of tokens that does not go on with a comma. -/
def EndsList (rest : List Token) : Prop := Ends .operand rest ∧ ∀ ts, rest ≠ .comma :: ts

theorem endsList_cons {t : Token} (hdot : t ≠ .dot) (hcomma : t ≠ .comma) (ts : List Token) : EndsList (t :: ts) := by
  refine ⟨ends_cons ?_ ts, fun us h => hcomma (List.cons.inj h).1⟩
  cases t with
  | dot => exact absurd rfl hdot
  | _ => rfl

theorem endsList_nil : EndsList [] := ⟨nofun, nofun⟩

theorem endsList_where (ts : List Token) : EndsList (.keyword .where :: ts) :=
  endsList_cons Token.noConfusion Token.noConfusion ts

theorem length_le_separated {α : Type} (sep : α) (parts : List (List α)) :
    parts.length ≤ (separated sep parts).length + 1 := by
  cases parts with
  | nil => exact Nat.zero_le _
  | cons part parts =>
    have hrest : parts.length ≤ (parts.flatMap (sep :: ·)).length := by
      induction parts with
      | nil => exact Nat.le_refl 0
      | cons part' parts ih =>
        simp only [List.flatMap_cons, List.length_append, List.length_cons]
        omega
    simp only [separated, List.length_append, List.length_cons]
    omega

/-- **A list is read if each of its parts is.** -/
theorem listOf_separated {α : Type} {read : List Token → Option (α × List Token)} {parts : List (List Token)}
    {as : List α} (hne : parts ≠ [])
    (h : List.Forall₂ (fun part a => ∀ rest, Ends .operand rest → read (part ++ rest) = some (a, rest)) parts as)
    {rest : List Token} (hrest : EndsList rest) {n : Nat} (hn : parts.length ≤ n) :
    listOf read n (separated .comma parts ++ rest) = some (as, rest) := by
  induction h generalizing n with
  | nil => exact absurd rfl hne
  | @cons part a parts as hpart hparts ih =>
    obtain ⟨n, rfl⟩ : ∃ m, n = m + 1 := ⟨n - 1, by simp only [List.length_cons] at hn; omega⟩
    cases hparts with
    | nil =>
      have hread := hpart rest hrest.1
      rw [separated, List.flatMap_nil, List.append_nil, listOf, hread]
      split
      · next heq =>
        cases heq
        exact absurd rfl (hrest.2 _)
      · next heq =>
        cases heq
        rfl
      · next heq => cases heq
    | @cons part' a' parts as _ _ =>
      have htail : separated .comma (part :: part' :: parts) ++ rest =
          part ++ .comma :: (separated .comma (part' :: parts) ++ rest) := by
        simp [separated]
      have hread := hpart (.comma :: (separated .comma (part' :: parts) ++ rest)) (ends_cons rfl _)
      rw [htail, listOf, hread]
      dsimp only
      rw [ih (List.cons_ne_nil _ _) (by simpa using hn)]
      rfl

/-- Names are read as their parts. -/
theorem names_read {names : List String} (hne : names ≠ []) {rest : List Token} (hrest : EndsList rest) :
    listOf name? ((separated .comma (names.map nameTokens) ++ rest).length + 1)
      (separated .comma (names.map nameTokens) ++ rest) = some (names.map namePath, rest) := by
  refine listOf_separated (by simpa using hne) ?_ hrest ?_
  · rw [List.forall₂_map_left_iff, List.forall₂_map_right_iff]
    exact List.forall₂_same.2 fun name _ rest h => name?_nameTokens name h
  · have := length_le_separated .comma (names.map nameTokens)
    rw [List.length_append]
    omega

/-- Operands between parentheses are read as a tuple. -/
theorem tuple?_reads {cells : List (List Token)} {es : List Expr} (hne : cells ≠ [])
    (h : List.Forall₂ (Reads .operand) cells es) (rest : List Token) :
    tuple? (.openParen :: separated .comma cells ++ [.closeParen] ++ rest) = some (es, rest) := by
  cases h with
  | nil => exact absurd rfl hne
  | @cons cell e cells es hcell hcells =>
    have hcells' : List.Forall₂ (Reads .disjunction) cells es :=
      hcells.imp fun _ _ hread => hread.predicate.predicateWhole
    have hitems : items (5 * (separated .comma (cell :: cells) ++ .closeParen :: rest).length + 6)
        (cell ++ (cells.flatMap (.comma :: ·) ++ .closeParen :: rest)) = some (e :: es, rest) :=
      items_reads hcell.predicate.predicateWhole hcells' (by simp only [separated, List.length_append]; omega)
    rw [List.cons_append, List.cons_append, tuple?, List.append_assoc, List.singleton_append]
    simpa [separated] using hitems

/-- A name and an operand with an equality sign between them are read as an assignment. -/
theorem assignment?_reads (name : String) {ts : List Token} {e : Expr} (h : Reads .operand ts e) {rest : List Token}
    (hrest : Ends .operand rest) :
    assignment? (nameTokens name ++ [.sign .equal] ++ ts ++ rest) = some ((namePath name, e), rest) := by
  have hname : name? (nameTokens name ++ .sign .equal :: (ts ++ rest)) =
      some (namePath name, .sign .equal :: (ts ++ rest)) := name?_nameTokens name (ends_cons rfl _)
  have hvalue : operand (5 * (ts ++ rest).length + 1) (ts ++ rest) = some (e, rest) :=
    h (5 * (ts ++ rest).length + 1) rest hrest (by simp only [Level.calls, List.length_append]; omega)
  rw [List.append_assoc, List.append_assoc, List.singleton_append, assignment?, hname]
  dsimp only
  rw [hvalue]
  rfl

/-- A condition at the end of a statement is read whole. -/
theorem where?_reads {ts : List Token} {e : Expr} (h : Reads .disjunction ts e) :
    where? (.keyword .where :: ts) = some (some e) := by
  rw [where?, h.parseTokens_eq]
  rfl

/-! ## Names -/

/-- A name is its parts with dots between them. -/
theorem separated_splitDots (cs : List Char) : separated '.' (splitDots cs) = cs := by
  induction cs with
  | nil => rfl
  | cons c cs ih =>
    obtain ⟨part, parts, hparts⟩ := List.exists_cons_of_ne_nil (splitDots_ne_nil cs)
    rw [hparts] at ih
    have hsplit : splitDots (c :: cs) = if c = '.' then [] :: part :: parts else (c :: part) :: parts := by
      rw [← hparts, splitDots, List.foldr_cons, ← splitDots, hparts]
    rw [hsplit]
    split
    · next hc => rw [hc, separated, List.flatMap_cons, List.nil_append, List.cons_append, ← separated, ih]
    · rw [separated, List.cons_append, ← separated, ih]

/-- Names are told apart by their parts. -/
theorem namePath_injective : Function.Injective namePath := by
  intro name name' h
  have hparts : splitDots name.toList = splitDots name'.toList :=
    List.map_injective_iff.2 (fun _ _ => String.ofList_injective) h
  rw [← String.toList_inj, ← separated_splitDots name.toList, hparts, separated_splitDots]

/-! ## Statements -/

/-- **An insertion without values.** -/
theorem commandOf?_defaults (table : String) :
    commandOf? ([.keyword .insert, .keyword .into] ++ nameTokens table ++ [.keyword .default, .keyword .values]) =
      some (.insertDefaults (namePath table)) := by
  have hname : name? (nameTokens table ++ [.keyword .default, .keyword .values]) =
      some (namePath table, [.keyword .default, .keyword .values]) := name?_nameTokens table (ends_cons rfl _)
  rw [List.append_assoc, List.cons_append, List.cons_append, List.nil_append, commandOf?, hname]
  rfl

/-- **An insertion of tuples.** -/
theorem commandOf?_insert (table : String) {columns : List String} (hcolumns : columns ≠ []) {rows : List (List Token)}
    {tuples : List (List Expr)} (hrows : rows ≠ [])
    (h : List.Forall₂ (fun row tuple => ∀ rest, tuple? (row ++ rest) = some (tuple, rest)) rows tuples) :
    commandOf? ([.keyword .insert, .keyword .into] ++ nameTokens table ++
      (.openParen :: separated .comma (columns.map nameTokens) ++ [.closeParen]) ++ [.keyword .values] ++
      separated .comma rows) = some (.insert (namePath table) (columns.map namePath) tuples) := by
  have hname := name?_nameTokens table (ends_cons (t := .openParen) rfl
    (separated .comma (columns.map nameTokens) ++ .closeParen :: .keyword .values :: separated .comma rows))
  have hnames := names_read hcolumns (endsList_cons (t := .closeParen) nofun nofun
    (.keyword .values :: separated .comma rows))
  have htuples : listOf tuple? ((separated .comma rows).length + 1) (separated .comma rows ++ []) = some (tuples, []) :=
    listOf_separated hrows (h.imp fun _ _ hread rest _ => hread rest) endsList_nil (length_le_separated .comma rows)
  rw [List.append_nil] at htuples
  simp only [List.append_assoc, List.cons_append, List.nil_append] at hname hnames ⊢
  rw [commandOf?, hname, Option.bind_some, inserted?, hnames]
  dsimp only
  rw [htuples]

/-- **An update.** -/
theorem commandOf?_update (table : String) {parts : List (List Token)} {assignments : List (List String × Expr)}
    (hne : parts ≠ [])
    (h : List.Forall₂ (fun part assignment => ∀ rest, Ends .operand rest →
      assignment? (part ++ rest) = some (assignment, rest)) parts assignments)
    {scope : List Token} (hscope : EndsList scope) {condition : Option Expr} (hwhere : where? scope = some condition) :
    commandOf? (.keyword .update :: nameTokens table ++ [.keyword .set] ++ separated .comma parts ++ scope) =
      some (.update (namePath table) assignments condition) := by
  have hname := name?_nameTokens table (ends_cons (t := .keyword .set) rfl
    (separated .comma parts ++ scope))
  have hassignments := listOf_separated hne h hscope (n := (separated .comma parts ++ scope).length + 1) (by
    have := length_le_separated .comma parts
    rw [List.length_append]
    omega)
  simp only [List.append_assoc, List.cons_append, List.nil_append] at hname ⊢
  rw [commandOf?, hname, Option.bind_some, updated?, hassignments]
  dsimp only
  rw [hwhere]
  rfl

/-- **A removal.** -/
theorem commandOf?_delete (table : String) {scope : List Token} (hscope : EndsList scope) {condition : Option Expr}
    (hwhere : where? scope = some condition) :
    commandOf? ([.keyword .delete, .keyword .from] ++ nameTokens table ++ scope) =
      some (.delete (namePath table) condition) := by
  have hname := name?_nameTokens table hscope.1
  rw [List.append_assoc, List.cons_append, List.cons_append, List.nil_append, commandOf?, hname, Option.bind_some,
    hwhere]
  rfl

end BoundSql.Sql
