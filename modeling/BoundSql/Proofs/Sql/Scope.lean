import BoundSql.Proofs.Sql.Command
import Mathlib.Data.List.Perm.Subperm

/-!
# The rows that a statement changes

`Sql.changed?` reads from an update or a removal the table that it changes and which of its rows: the tokens of a
condition, those of an order, and how many rows. It looks at nothing else, so it reads conditions of any form, also
those that are no expressions. What a condition is ends at the first clause or parenthesis that does not belong to it
(`cut`), and no condition contains such a token (`conditionUnits_enclosed`).

* `Scope` : which rows these are.
* `scope?_scopeUnits`, `Update.units_changed`, `Delete.units_changed` : what is read back.
* `Scope.Picks` : which rows of a table they are.
-/

namespace BoundSql

open Sql (Token Context name? nameTokens namePath)

namespace Sql

/-! ## Scopes -/

/-- Which rows of a table a statement is about: those that satisfy a condition, in some order, but for the first ones,
and up to a count. -/
structure Scope where
  condition : List Token
  ordering : List Token
  limit : Option Int
  offset : Option Int
  deriving DecidableEq

/-- Whether a token opens a further clause. -/
def Token.opensClause : Token → Bool
  | .keyword .where | .keyword .order | .keyword .limit => true
  | _ => false

/-- Tokens up to the first one that opens a clause or closes a parenthesis outside of all those that were opened among
them, and what follows. -/
def cut (depth : Nat) : List Token → List Token × List Token
  | [] => ([], [])
  | t :: ts =>
    match t, depth with
    | .openParen, depth => (fun r => (t :: r.1, r.2)) (cut (depth + 1) ts)
    | .closeParen, 0 => ([], t :: ts)
    | .closeParen, depth + 1 => (fun r => (t :: r.1, r.2)) (cut depth ts)
    | t, 0 => if t.opensClause then ([], t :: ts) else (fun r => (t :: r.1, r.2)) (cut 0 ts)
    | t, depth => (fun r => (t :: r.1, r.2)) (cut depth ts)

/-- Count of the rows and of those that are passed over, up to a closing parenthesis. -/
def window? : List Token → Option (Option Int × Option Int)
  | [.closeParen] => some (none, none)
  | [.keyword .limit, .integer limit, .closeParen] => some (some limit, none)
  | [.keyword .limit, .integer limit, .keyword .offset, .integer offset, .closeParen] => some (some limit, some offset)
  | _ => none

/-- A condition and what follows it, up to a closing parenthesis. -/
def selection? (ts : List Token) : Option Scope :=
  match cut 0 ts with
  | (condition, .keyword .order :: .keyword .by :: rest) =>
    (fun w => ⟨condition, (cut 0 rest).1, w.1, w.2⟩) <$> window? (cut 0 rest).2
  | (condition, rest) => (fun w => ⟨condition, [], w.1, w.2⟩) <$> window? rest

/-- The rows of a table that a statement is about: those that satisfy a condition, or those whose numbers are selected
from the same table. -/
def scope? (table : List String) : List Token → Option Scope
  | .keyword .where :: .keyword .rowid :: .keyword .in :: .openParen :: .keyword .select :: .keyword .rowid ::
      .keyword .from :: ts =>
    match name? ts with
    | some (path, .keyword .where :: rest) => if path = table then selection? rest else none
    | _ => none
  | .keyword .where :: ts =>
    match cut 0 ts with
    | (condition, []) => some ⟨condition, [], none, none⟩
    | _ => none
  | _ => none

/-- The table that an update or a removal changes, and which of its rows. -/
def changedOf? : List Token → Option (List String × Scope)
  | .keyword .update :: ts =>
    match name? ts with
    | some (table, .keyword .set :: rest) => (fun scope => (table, scope)) <$> scope? table (cut 0 rest).2
    | _ => none
  | .keyword .delete :: .keyword .from :: ts =>
    match name? ts with
    | some (table, rest) => (fun scope => (table, scope)) <$> scope? table rest
    | none => none
  | _ => none

/-- The table that a text changes, and which of its rows. -/
def changed? (text : String) : Option (List String × Scope) := (scan text.toList).bind changedOf?

example : changed? ("DELETE FROM \x22t\x22 WHERE rowid IN " ++
    "(SELECT rowid FROM \x22t\x22 WHERE \x22a\x22 IN (%1$d) ORDER BY \x22a\x22 ASC LIMIT 2 OFFSET 1)") =
    some (["t"], ⟨[.name "a", .keyword .in, .openParen, .placeholder "%1$d", .closeParen],
      [.name "a", .keyword .asc], some 2, some 1⟩) := by
  cbv

/-! ## Tokens that stay together -/

/-- Whether a token can belong to a condition, whatever follows: it is no parenthesis, opens no clause and is no row
number. -/
def Token.isInner : Token → Bool
  | .openParen | .closeParen | .keyword .rowid => false
  | t => !t.opensClause

/-- Tokens whose parentheses match, and all others of which can belong to a condition. -/
inductive Enclosed : List Token → Prop
  | nil : Enclosed []
  | token {t : Token} (h : t.isInner = true) : Enclosed [t]
  | append {ts us : List Token} (h : Enclosed ts) (h' : Enclosed us) : Enclosed (ts ++ us)
  | parens {ts : List Token} (h : Enclosed ts) : Enclosed (.openParen :: ts ++ [.closeParen])

theorem cut_inner {t : Token} (h : t.isInner = true) (depth : Nat) (ts : List Token) :
    cut depth (t :: ts) = (t :: (cut depth ts).1, (cut depth ts).2) := by
  have hclause : t.opensClause = false := by
    cases t with
    | keyword k =>
      cases k with
      | «where» => cases h
      | order => cases h
      | limit => cases h
      | _ => rfl
    | _ => rfl
  cases t with
  | openParen => cases h
  | closeParen => cases h
  | _ =>
    cases depth with
    | zero => simp [cut, hclause]
    | succ depth => rfl

/-- **What stays together is not cut.** -/
theorem cut_append {ts : List Token} (h : Enclosed ts) (depth : Nat) (us : List Token) :
    cut depth (ts ++ us) = (ts ++ (cut depth us).1, (cut depth us).2) := by
  induction h generalizing depth us with
  | nil => rfl
  | token h => exact cut_inner h depth us
  | append _ _ ih ih' => rw [List.append_assoc, ih, ih', List.append_assoc]
  | @parens ts _ ih =>
    rw [List.append_assoc, List.cons_append, cut, ih, List.singleton_append, cut]
    simp

/-- What stays together is cut off where a clause opens, a parenthesis closes or the tokens end. -/
theorem cut_eq {ts us : List Token} (h : Enclosed ts) (hus : cut 0 us = ([], us)) : cut 0 (ts ++ us) = (ts, us) := by
  rw [cut_append h, hus, List.append_nil]

theorem cut_clause {t : Token} (h : t.opensClause = true) (ts : List Token) : cut 0 (t :: ts) = ([], t :: ts) := by
  cases t with
  | keyword k => simp [cut, h]
  | _ => cases h

namespace Enclosed

theorem cons {t : Token} {ts : List Token} (ht : t.isInner = true) (h : Enclosed ts) : Enclosed (t :: ts) :=
  .append (.token ht) h

theorem of_forall {ts : List Token} (h : ∀ t ∈ ts, t.isInner = true) : Enclosed ts := by
  induction ts with
  | nil => exact .nil
  | cons t ts ih => exact .cons (h t List.mem_cons_self) (ih fun t ht => h t (List.mem_cons_of_mem _ ht))

theorem separated {sep : Token} (hsep : sep.isInner = true) {parts : List (List Token)}
    (h : ∀ part ∈ parts, Enclosed part) : Enclosed (separated sep parts) := by
  cases parts with
  | nil => exact .nil
  | cons part parts =>
    refine .append (h part List.mem_cons_self) ?_
    replace h := (List.forall_mem_cons.1 h).2
    induction parts with
    | nil => exact .nil
    | cons part' parts ih =>
      rw [List.flatMap_cons]
      exact .append (.cons hsep (h part' List.mem_cons_self)) (ih fun p hp => h p (List.mem_cons_of_mem _ hp))

end Enclosed

theorem nameTokens_enclosed (name : String) : Enclosed (nameTokens name) := by
  refine .separated rfl fun part hpart => ?_
  obtain ⟨cs, _, rfl⟩ := List.mem_map.1 hpart
  exact .token rfl

theorem fieldTokens_enclosed (fields : FieldMap) (f : FieldRef) : Enclosed (fieldTokens fields f) := by
  unfold fieldTokens
  dsimp only
  split
  · split
    · exact nameTokens_enclosed _
    · exact .append (nameTokens_enclosed _) (.cons rfl (nameTokens_enclosed _))
  · exact nameTokens_enclosed _

theorem boundTokens_enclosed (values : Bindings) (v : Value) : Yields Enclosed (boundTokens values v) := by
  unfold boundTokens
  split
  · exact .ok (.token rfl)
  · split
    · exact .ok (.token rfl)
    · exact .error _

theorem scalarTokens_enclosed (ctx : Context) (v : Value) : Yields Enclosed (scalarTokens ctx v) := by
  unfold scalarTokens
  split
  · exact .ok (nameTokens_enclosed _)
  · exact boundTokens_enclosed ctx.values v

end Sql

/-! ## Conditions -/

namespace Condition

variable {ctx : Context} {os : List (Operand Token)} (h : ∀ o ∈ os, Yields Sql.Enclosed o.2)

include h

theorem junction_enclosed {word : Sql.Keyword} (hword : (Token.keyword word).isInner = true) (whenEmpty : Bool) :
    Yields Sql.Enclosed (junction ctx.writer word whenEmpty os) := by
  unfold junction
  split
  · exact .ok (Condition.fixed_writer ctx _ ▸ .of_forall (by simp [Sql.constant, Token.isInner, Token.opensClause]))
  · exact (Yields.mapM h).bind fun parts hparts => .ok (.separated hword hparts)

theorem binary_enclosed (operator : Operator) {between : List Token} (hbetween : Sql.Enclosed between) :
    Yields Sql.Enclosed (binary ctx.writer operator between os) := by
  unfold binary
  split
  · next left right =>
    refine (h left (by simp)).bind fun l hl => (h right (by simp)).bind fun r hr => .ok ?_
    rw [fixed_writer]
    exact .append (.append hl hbetween) hr
  · exact .error _

theorem equality_enclosed (operator : Operator) (sign : Sql.Sign) {nullTest : List Token}
    (htest : Sql.Enclosed nullTest) : Yields Sql.Enclosed (equality ctx.writer operator sign nullTest os) := by
  rw [← fixed_writer ctx nullTest] at htest
  unfold equality
  split
  · next left right =>
    split
    · exact (h left (by simp)).map fun us hus => .append hus htest
    · split
      · exact (h right (by simp)).map fun us hus => .append hus htest
      · exact binary_enclosed h operator (.token rfl)
  · exact .error _

theorem membership_enclosed : Yields Sql.Enclosed (membership ctx.writer os) := by
  unfold membership
  split
  · split
    · exact .ok (fixed_writer ctx _ ▸ .of_forall (by decide))
    · exact binary_enclosed h .in (.token rfl)
  · exact binary_enclosed h .in (.token rfl)

/-- What an operator is written as stays together if its operands do. -/
theorem body_enclosed (operator : Operator) : Yields Sql.Enclosed (body ctx.writer operator os) := by
  cases operator with
  | and => exact junction_enclosed h rfl _
  | or => exact junction_enclosed h rfl _
  | equalTo => exact equality_enclosed h _ _ (.of_forall (by decide))
  | notEqualTo => exact equality_enclosed h _ _ (.of_forall (by decide))
  | lessThan => exact binary_enclosed h _ (.token rfl)
  | lessThanOrEqualTo => exact binary_enclosed h _ (.token rfl)
  | greaterThan => exact binary_enclosed h _ (.token rfl)
  | greaterThanOrEqualTo => exact binary_enclosed h _ (.token rfl)
  | like => exact binary_enclosed h _ (.token rfl)
  | «in» => exact membership_enclosed h
  | between =>
    unfold body
    dsimp only
    split
    · next subject low high =>
      refine (h subject (by simp)).bind fun s hs => (h low (by simp)).bind fun l hl => (h high (by simp)).bind
        fun r hr => .ok ?_
      exact .append (.append hs (.cons rfl hl)) (.cons rfl hr)
    · exact .error _
  | isNull =>
    unfold body
    dsimp only
    split
    · next subject =>
      refine (h subject (by simp)).map fun us hus => .append hus ?_
      exact fixed_writer ctx _ ▸ .of_forall (by decide)
    · exact .error _

end Condition

namespace Sql

variable (ctx : Context)

theorem literal_enclosed (v : Value) : Yields Enclosed (ctx.writer.literal v) := by
  unfold Writer.literal
  split
  · refine (Yields.mapM fun v _ => scalarTokens_enclosed ctx v).bind fun parts hparts => .ok ?_
    exact .parens (.separated rfl hparts)
  · exact scalarTokens_enclosed ctx v

mutual

theorem termUnits_enclosed : ∀ t : Term, Yields Enclosed (termUnits ctx.writer ctx.fields t)
  | .field f => .ok (Condition.fixed_writer ctx _ ▸ fieldTokens_enclosed ctx.fields f)
  | .literal v => literal_enclosed ctx v
  | .condition c => (conditionUnits_enclosed c).map fun _ h => .parens h

/-- **A condition stays together**, whatever its form. -/
theorem conditionUnits_enclosed : ∀ c : Condition, Yields Enclosed (conditionUnits ctx.writer ctx.fields c)
  | ⟨operator, terms, negated⟩ => by
    refine (Condition.body_enclosed (operands_enclosed terms) operator).bind fun us hus => .ok ?_
    cases negated with
    | false => exact hus
    | true => exact .cons rfl (.parens hus)

theorem operands_enclosed : ∀ ts : List Term, ∀ o ∈ operands ctx.writer ctx.fields ts, Yields Enclosed o.2
  | [] => nofun
  | t :: ts => List.forall_mem_cons.2 ⟨termUnits_enclosed t, operands_enclosed ts⟩

end

theorem Enclosed.not_rowid {ts : List Token} (h : Enclosed ts) : .keyword .rowid ∉ ts := by
  induction h with
  | nil => exact List.not_mem_nil
  | token h =>
    intro hmem
    obtain rfl := List.mem_singleton.1 hmem
    cases h
  | append _ _ ih ih' => exact fun hmem => (List.mem_append.1 hmem).elim ih ih'
  | parens _ ih => simpa using ih

/-! ## Scopes read back -/

/-- The count that a limit is written as: without a limit of its own an offset comes with one that is unbounded. -/
def writtenLimit : Option Nat → Option Nat → Option Int
  | some limit, _ => some limit
  | none, some _ => some (-1)
  | none, none => none

theorem window?_limitTokens (limit offset : Option Nat) :
    window? (limitTokens limit offset ++ [.closeParen]) = some (writtenLimit limit offset, offset.map Nat.cast) := by
  cases limit <;> cases offset <;> rfl

theorem cut_limitTokens (limit offset : Option Nat) :
    cut 0 (limitTokens limit offset ++ [.closeParen]) = ([], limitTokens limit offset ++ [.closeParen]) := by
  cases limit <;> cases offset <;> rfl

/-- Clause of an order. -/
def orderClause : List Token → List Token
  | [] => []
  | ts => .keyword .order :: .keyword .by :: ts

theorem criterionTokens_enclosed (fields : FieldMap) (o : OrderBy) :
    Yields (fun ts => Enclosed ts ∧ ts ≠ []) (criterionTokens fields o) := by
  unfold criterionTokens
  split
  · refine .ok ⟨.append (nameTokens_enclosed _) (.token ?_), by simp⟩
    cases o.direction <;> rfl
  · exact .error _

/-- An order is written as a clause. -/
theorem orderTokens_enclosed (fields : FieldMap) (ordering : List OrderBy) :
    Yields (fun ts => ∃ criteria, Enclosed criteria ∧ ts = orderClause criteria) (orderTokens fields ordering) := by
  unfold orderTokens
  split
  · exact .ok ⟨[], .nil, rfl⟩
  · cases ordering with
    | nil => next hne => exact absurd rfl hne
    | cons o ordering =>
      intro ts hts
      obtain ⟨parts, hparts, hts⟩ := bind_eq_ok.1 hts
      cases pure_eq_ok.1 hts
      have hcriteria := Yields.mapM (fun o _ => criterionTokens_enclosed fields o) parts hparts
      refine ⟨Sql.separated .comma parts, .separated rfl fun part hpart => (hcriteria part hpart).1, ?_⟩
      cases mapM_eq_ok.1 hparts with
      | @cons _ part _ parts hpart _ =>
        obtain ⟨t, us, hus⟩ := List.exists_cons_of_ne_nil (hcriteria part List.mem_cons_self).2
        rw [hus]
        rfl

/-- A selection of rows is read back. -/
theorem selection?_reads {us criteria : List Token} (hus : Enclosed us) (hcriteria : Enclosed criteria)
    (limit offset : Option Nat) :
    selection? (us ++ (orderClause criteria ++ (limitTokens limit offset ++ [.closeParen]))) =
      some ⟨us, criteria, writtenLimit limit offset, offset.map Nat.cast⟩ := by
  have hwindow := cut_limitTokens limit offset
  unfold selection?
  cases criteria with
  | nil =>
    rw [orderClause, List.nil_append, cut_eq hus hwindow]
    split
    · next heq => cases limit <;> cases offset <;> cases heq
    · next heq =>
      cases heq
      rw [window?_limitTokens]
      rfl
  | cons t criteria =>
    have hclause : orderClause (t :: criteria) = .keyword .order :: .keyword .by :: t :: criteria := rfl
    rw [hclause, List.cons_append, List.cons_append, cut_eq hus (cut_clause rfl _)]
    dsimp only
    rw [cut_eq hcriteria hwindow, window?_limitTokens]
    rfl

/-- Rows that satisfy a condition are read back as this condition. -/
theorem scope?_where (table : List String) {us : List Token} (hus : Enclosed us) :
    scope? table (.keyword .where :: us) = some ⟨us, [], none, none⟩ := by
  have hcut : cut 0 us = (us, []) := by
    have hnil : cut 0 ([] : List Token) = ([], []) := rfl
    simpa using cut_eq hus hnil
  unfold scope?
  split
  · next ts heq =>
    -- a condition does not begin with a row number
    cases heq
    exact absurd List.mem_cons_self hus.not_rowid
  · next heq =>
    cases heq
    rw [hcut]
  · next hne => exact absurd rfl (hne us)

variable {ctx : Context}

/-- **The rows of a statement are read back**: its condition, its order, and how many there are. -/
theorem scope?_scopeUnits {table : String} {c : Condition} {ordering : List OrderBy} {limit offset : Option Nat}
    {ts : List Token} (h : scopeUnits ctx.writer ctx.fields table (some c) ordering limit offset = .ok ts) :
    ∃ us criteria, conditionTokens ctx c = .ok us ∧ orderTokens ctx.fields ordering = .ok (orderClause criteria) ∧
      scope? (namePath table) ts = some ⟨us, criteria, writtenLimit limit offset, offset.map Nat.cast⟩ := by
  obtain ⟨rows, hrows, h⟩ := bind_eq_ok.1 h
  obtain ⟨us, hus, rfl⟩ := map_eq_ok.1 hrows
  have henclosed := conditionUnits_enclosed ctx c us hus
  split at h
  · next hnone =>
    cases pure_eq_ok.1 h
    simp only [Bool.and_eq_true, List.isEmpty_iff, Option.isNone_iff_eq_none] at hnone
    obtain ⟨⟨rfl, rfl⟩, rfl⟩ := hnone
    exact ⟨us, [], hus, rfl, scope?_where _ henclosed⟩
  · obtain ⟨order, horder, h⟩ := bind_eq_ok.1 h
    cases pure_eq_ok.1 h
    obtain ⟨criteria, hcriteria, rfl⟩ := orderTokens_enclosed ctx.fields ordering order horder
    refine ⟨us, criteria, hus, horder, ?_⟩
    have hname := name?_nameTokens table (ends_cons (t := .keyword .where) rfl
      (us ++ (orderClause criteria ++ (limitTokens limit offset ++ [.closeParen]))))
    have hlayout : ctx.writer.fixed [.keyword .where, .keyword .rowid, .keyword .in] ++ ctx.writer.parenthesized
        (ctx.writer.fixed ([.keyword .select, .keyword .rowid, .keyword .from] ++ nameTokens table) ++
          .keyword .where :: us ++ ctx.writer.fixed (orderClause criteria ++ limitTokens limit offset)) =
        .keyword .where :: .keyword .rowid :: .keyword .in :: .openParen :: .keyword .select :: .keyword .rowid ::
          .keyword .from :: (nameTokens table ++ .keyword .where ::
            (us ++ (orderClause criteria ++ (limitTokens limit offset ++ [.closeParen])))) := by
      simp only [Condition.fixed_writer]
      simp [Writer.parenthesized, Context.writer]
    refine (congrArg (scope? (namePath table)) hlayout).trans ?_
    rw [scope?, hname]
    dsimp only
    rw [if_pos rfl, selection?_reads henclosed hcriteria]

/-- The rows of a statement begin with their condition. -/
theorem scopeUnits_where {table : String} {c : Condition} {ordering : List OrderBy} {limit offset : Option Nat}
    {ts : List Token} (h : scopeUnits ctx.writer ctx.fields table (some c) ordering limit offset = .ok ts) :
    ∃ rest, ts = .keyword .where :: rest := by
  obtain ⟨rows, hrows, h⟩ := bind_eq_ok.1 h
  obtain ⟨us, _, rfl⟩ := map_eq_ok.1 hrows
  split at h
  · exact ⟨us, (pure_eq_ok.1 h).symm⟩
  · obtain ⟨order, _, h⟩ := bind_eq_ok.1 h
    exact ⟨_, (pure_eq_ok.1 h).symm⟩

end Sql

/-! ## Rows of a table -/

namespace Sql

/-- What is left of some rows from an offset on and up to a limit; a limit below zero is none. -/
def window {α : Type} (limit offset : Option Int) (rows : List α) : List α :=
  let rest := rows.drop (offset.getD 0).toNat
  match limit with
  | some limit => if limit < 0 then rest else rest.take limit.toNat
  | none => rest

theorem length_window_le {α : Type} (n : Nat) (offset : Option Int) (rows : List α) :
    (window (some n) offset rows).length ≤ n := by
  have hn : ¬(n : Int) < 0 := Int.not_lt.2 (Int.natCast_nonneg n)
  rw [window, if_neg hn, Int.toNat_natCast, List.length_take]
  exact Nat.min_le_left _ _

/-- The rows of a table, told apart by their numbers. -/
structure NumberedRows (ρ : Type) where
  rows : List (Int × ρ)
  distinct : (rows.map Prod.fst).Nodup

/-- **The rows that a statement is about**: the rows that satisfy its condition are put into some order, and those whose
numbers are left of it between its offset and its limit are meant. -/
def Scope.Picks {ρ : Type} (s : Scope) (satisfies : ρ → Bool) (table : NumberedRows ρ) (picked : List (Int × ρ)) :
    Prop :=
  ∃ sorted : List (Int × ρ), sorted.Perm (table.rows.filter fun r => satisfies r.2) ∧
    picked = table.rows.filter fun r => r.1 ∈ (window s.limit s.offset sorted).map Prod.fst

/-- **A limit bounds the rows that a statement is about**, whichever rows satisfy its condition. -/
theorem Scope.Picks.length_le {ρ : Type} {s : Scope} {n : Nat} (hs : s.limit = some n) {satisfies : ρ → Bool}
    {table : NumberedRows ρ} {picked : List (Int × ρ)} (h : s.Picks satisfies table picked) : picked.length ≤ n := by
  obtain ⟨sorted, _, rfl⟩ := h
  rw [hs]
  have hkept : ((table.rows.filter fun r => r.1 ∈ (window (some n) s.offset sorted).map Prod.fst).map Prod.fst).Nodup :=
    table.distinct.sublist (List.filter_sublist.map Prod.fst)
  have hnumbers : (table.rows.filter fun r => r.1 ∈ (window (some n) s.offset sorted).map Prod.fst).map Prod.fst ⊆
      (window (some n) s.offset sorted).map Prod.fst := by
    intro number hnumber
    obtain ⟨r, hr, rfl⟩ := List.mem_map.1 hnumber
    exact of_decide_eq_true (List.mem_filter.1 hr).2
  have hlength := (List.subperm_of_subset hkept hnumbers).length_le
  rw [List.length_map, List.length_map] at hlength
  exact hlength.trans (length_window_le n s.offset sorted)

end Sql

/-! ## Statements -/

variable {ctx : Context} {c : Condition} {ts : List Token}

/-- **The rows that a removal is about are read back.** -/
theorem Delete.units_changed {s : Delete} (hc : s.condition = some c)
    (h : s.units ctx.writer ctx.fields = .ok ts) : ∃ us criteria, Sql.conditionTokens ctx c = .ok us ∧
    Sql.orderTokens ctx.fields s.ordering = .ok (Sql.orderClause criteria) ∧ Sql.changedOf? ts =
      some (namePath s.table, ⟨us, criteria, Sql.writtenLimit s.limit s.offset, s.offset.map Nat.cast⟩) := by
  obtain ⟨scope, hscope, h⟩ := bind_eq_ok.1 h
  cases pure_eq_ok.1 h
  rw [hc] at hscope
  obtain ⟨us, criteria, hus, horder, hread⟩ := Sql.scope?_scopeUnits hscope
  obtain ⟨rest, rfl⟩ := Sql.scopeUnits_where hscope
  refine ⟨us, criteria, hus, horder, ?_⟩
  rw [Condition.fixed_writer, List.append_assoc, List.cons_append, List.cons_append, List.nil_append, Sql.changedOf?,
    Sql.name?_nameTokens s.table (Sql.ends_cons rfl rest)]
  dsimp only
  rw [hread]
  rfl

/-- **The rows that an update is about are read back.** -/
theorem Update.units_changed {s : Update} (hc : s.condition = some c)
    (h : s.units ctx.writer ctx.fields = .ok ts) : ∃ us criteria, Sql.conditionTokens ctx c = .ok us ∧
    Sql.orderTokens ctx.fields s.ordering = .ok (Sql.orderClause criteria) ∧ Sql.changedOf? ts =
      some (namePath s.table, ⟨us, criteria, Sql.writtenLimit s.limit none, none⟩) := by
  unfold Update.units at h
  split at h
  · cases h
  · obtain ⟨parts, hparts, h⟩ := bind_eq_ok.1 h
    obtain ⟨scope, hscope, h⟩ := bind_eq_ok.1 h
    cases pure_eq_ok.1 h
    rw [hc] at hscope
    obtain ⟨us, criteria, hus, horder, hread⟩ := Sql.scope?_scopeUnits hscope
    obtain ⟨rest, rfl⟩ := Sql.scopeUnits_where hscope
    refine ⟨us, criteria, hus, horder, ?_⟩
    have hassignments : Sql.Enclosed (ctx.writer.listed parts) := by
      refine .separated rfl (Yields.mapM (fun change _ => ?_) parts hparts)
      refine (Sql.boundTokens_enclosed ctx.values change.2).map fun us hus => ?_
      rw [Condition.fixed_writer]
      exact .append (.append (Sql.nameTokens_enclosed _) (.token rfl)) hus
    rw [Condition.fixed_writer, List.append_assoc, List.append_assoc, List.cons_append, Sql.changedOf?,
      List.singleton_append, Sql.name?_nameTokens s.table (Sql.ends_cons rfl _)]
    dsimp only
    rw [Sql.cut_eq hassignments (Sql.cut_clause rfl rest), hread]
    rfl

end BoundSql
