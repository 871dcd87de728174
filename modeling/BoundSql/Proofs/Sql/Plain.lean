import BoundSql.Proofs.Success
import BoundSql.Sql.Render

/-!
# Fixed tokens

The tokens that the form of a statement brings with it: names, tables, orders and limits. None of them is a placeholder
(`nameTokens_plain`, `orderTokens_plain`, `Select.head_plain` and their companions).
-/

namespace BoundSql

open Sql (Token)

namespace Sql

/-- Whether a token stands for a bound value. -/
def Token.isPlaceholder : Token → Bool
  | .placeholder _ => true
  | _ => false

/-- Tokens without a placeholder. -/
def Plain (ts : List Token) : Prop := ∀ t ∈ ts, t.isPlaceholder = false

theorem Plain.append {ts us : List Token} (h : Plain ts) (h' : Plain us) : Plain (ts ++ us) := by
  intro t ht
  rcases List.mem_append.1 ht with ht | ht
  · exact h t ht
  · exact h' t ht

theorem plain_nil : Plain [] := fun _ h => nomatch h

theorem plain_singleton {t : Token} (h : t.isPlaceholder = false) : Plain [t] := List.forall_mem_singleton.2 h

theorem plain_cons {t : Token} {ts : List Token} (h : t.isPlaceholder = false) (hts : Plain ts) : Plain (t :: ts) :=
  List.forall_mem_cons.2 ⟨h, hts⟩

theorem mem_separated {α : Type} {sep x : α} {parts : List (List α)} (h : x ∈ separated sep parts) :
    x = sep ∨ ∃ part ∈ parts, x ∈ part := by
  cases parts with
  | nil => cases h
  | cons first rest =>
    rcases List.mem_append.1 h with h | h
    · exact Or.inr ⟨first, List.mem_cons_self, h⟩
    · obtain ⟨part, hpart, hx⟩ := List.mem_flatMap.1 h
      rcases List.mem_cons.1 hx with hx | hx
      · exact Or.inl hx
      · exact Or.inr ⟨part, List.mem_cons_of_mem _ hpart, hx⟩

theorem Plain.separated {sep : Token} {parts : List (List Token)} (hsep : sep.isPlaceholder = false)
    (h : ∀ part ∈ parts, Plain part) : Plain (separated sep parts) := by
  intro t ht
  rcases mem_separated ht with rfl | ⟨part, hpart, ht⟩
  · exact hsep
  · exact h part hpart t ht

theorem nameTokens_plain (name : String) : Plain (nameTokens name) := by
  refine .separated rfl ?_
  intro part hpart t ht
  obtain ⟨cs, _, rfl⟩ := List.mem_map.1 hpart
  cases List.mem_singleton.1 ht
  rfl

theorem fieldTokens_plain (fields : FieldMap) (f : FieldRef) : Plain (fieldTokens fields f) := by
  unfold fieldTokens
  dsimp only
  split
  · split
    · exact nameTokens_plain _
    · exact (nameTokens_plain _).append ((plain_singleton rfl).append (nameTokens_plain _))
  · exact nameTokens_plain _

theorem tableTokens_plain (t : TableRef) : Plain (tableTokens t) := by
  unfold tableTokens
  split
  · exact (nameTokens_plain _).append ((plain_singleton rfl).append (nameTokens_plain _))
  · exact nameTokens_plain _

theorem limitTokens_plain (limit offset : Option Nat) : Plain (limitTokens limit offset) := by
  cases limit <;> cases offset <;> simp [limitTokens, Plain, Token.isPlaceholder]

theorem criterionTokens_plain {fields : FieldMap} {o : OrderBy} {ts : List Token}
    (h : criterionTokens fields o = .ok ts) : Plain ts := by
  unfold criterionTokens at h
  split at h
  · cases h
    exact (nameTokens_plain _).append (plain_singleton rfl)
  · cases h

theorem orderTokens_plain {fields : FieldMap} {ordering : List OrderBy} {ts : List Token}
    (h : orderTokens fields ordering = .ok ts) : Plain ts := by
  unfold orderTokens at h
  split at h
  · cases h
    exact plain_nil
  · obtain ⟨parts, hparts, h⟩ := bind_eq_ok.1 h
    cases pure_eq_ok.1 h
    have hcriteria : Plain (separated .comma parts) := .separated rfl fun part hpart => by
      obtain ⟨o, _, ho⟩ := exists_of_forall₂_right (mapM_eq_ok.1 hparts) hpart
      exact criterionTokens_plain ho
    exact (plain_singleton rfl).append ((plain_singleton rfl).append hcriteria)

end Sql

open Sql

theorem Select.head_plain (s : Select) : Plain s.head := by
  have hcolumns : Plain (if s.fields.isEmpty then [.star] else
      separated .comma (s.fields.entries.map fun e => nameTokens e.2 ++ .keyword .as :: nameTokens e.1)) := by
    split
    · exact plain_singleton rfl
    · refine .separated rfl ?_
      intro part hpart
      obtain ⟨e, _, rfl⟩ := List.mem_map.1 hpart
      exact (nameTokens_plain _).append ((plain_singleton rfl).append (nameTokens_plain _))
  have htables : Plain (separated .comma (s.tables.map tableTokens)) := .separated rfl fun part hpart => by
    obtain ⟨t, _, rfl⟩ := List.mem_map.1 hpart
    exact tableTokens_plain t
  exact (plain_singleton rfl).append (hcolumns.append ((plain_singleton rfl).append htables))

end BoundSql
