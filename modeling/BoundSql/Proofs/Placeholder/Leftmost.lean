import BoundSql.Proofs.Placeholder.Rewrite
import Mathlib.Data.Nat.Find

/-!
# The leftmost tokens

What the rewriting of a text does, said without its scan: `Replaced` takes the leftmost numbered token of a text, puts
the parameter with the same digits in its place, and goes on behind it, until no token is left. That is one text for
each text, and the scan finds it (`replaced_iff`). The text has no numbered token any more, since a match cannot pass
the question mark of a parameter (`not_hasNumbered_indexed`), so rewriting it again changes nothing.

The scan resumes behind a percent sign that begins no token, so the induction goes over what stands in front of the
leftmost token (`indexed_leftmost`).
-/

namespace BoundSql.Placeholder

open Text (isDecimalDigit)

variable {c letter : Char} {cs before digits after out : List Char}

/-! ## Occurrences -/

/-- A numbered token is written in a text, between `before` and `after`. -/
structure NumberedIn (cs before digits : List Char) (letter : Char) (after : List Char) : Prop where
  text : cs = before ++ '%' :: (digits ++ '$' :: letter :: after)
  ne_nil : digits ≠ []
  decimal : ∀ c ∈ digits, isDecimalDigit c = true
  type : isTypeLetter letter = true

theorem hasNumbered_iff : HasNumbered cs ↔ ∃ before digits letter after, NumberedIn cs before digits letter after :=
  ⟨fun ⟨before, digits, letter, after, h⟩ => ⟨before, digits, letter, after, h.1, h.2.1, h.2.2.1, h.2.2.2⟩,
    fun ⟨before, digits, letter, after, h⟩ => ⟨before, digits, letter, after, h.text, h.ne_nil, h.decimal, h.type⟩⟩

namespace NumberedIn

theorem cons (h : NumberedIn cs before digits letter after) (c : Char) :
    NumberedIn (c :: cs) (c :: before) digits letter after :=
  ⟨congrArg (c :: ·) h.text, h.ne_nil, h.decimal, h.type⟩

theorem tail (h : NumberedIn (c :: cs) (c :: before) digits letter after) :
    NumberedIn cs before digits letter after :=
  ⟨(List.cons.inj h.text).2, h.ne_nil, h.decimal, h.type⟩

/-- A token at the front is found by the scan. -/
theorem numbered? (h : NumberedIn ('%' :: cs) [] digits letter after) :
    Placeholder.numbered? cs = some (digits, after) := by
  obtain ⟨-, rfl⟩ := List.cons.inj h.text
  exact numbered?_append h.ne_nil h.decimal h.type after

theorem of_numbered? (h : Placeholder.numbered? cs = some (digits, after)) :
    ∃ letter, NumberedIn ('%' :: cs) [] digits letter after := by
  obtain ⟨hne, hdigits, letter, hletter, rfl⟩ := numbered?_eq_some h
  exact ⟨letter, rfl, hne, hdigits, hletter⟩

theorem length_lt (h : NumberedIn cs before digits letter after) : after.length < cs.length := by
  rw [h.text]
  simp only [List.length_append, List.length_cons]
  omega

end NumberedIn

/-- A numbered token in a text such that none begins in front of it. -/
structure Leftmost (cs before digits : List Char) (letter : Char) (after : List Char) : Prop
    extends NumberedIn cs before digits letter after where
  first : ∀ before' digits' letter' after', NumberedIn cs before' digits' letter' after' →
    before.length ≤ before'.length

theorem Leftmost.tail (h : Leftmost (c :: cs) (c :: before) digits letter after) :
    Leftmost cs before digits letter after where
  toNumberedIn := h.toNumberedIn.tail
  first _ _ _ _ h' := Nat.le_of_succ_le_succ (h.first _ _ _ _ (h'.cons c))

theorem exists_leftmost (h : HasNumbered cs) : ∃ before digits letter after, Leftmost cs before digits letter after := by
  classical
  have hlength : ∃ n before digits letter after, before.length = n ∧ NumberedIn cs before digits letter after := by
    obtain ⟨before, digits, letter, after, h⟩ := hasNumbered_iff.1 h
    exact ⟨_, before, digits, letter, after, rfl, h⟩
  obtain ⟨before, digits, letter, after, hfind, h⟩ := Nat.find_spec hlength
  refine ⟨before, digits, letter, after, h, fun _ _ _ _ h' => ?_⟩
  rw [hfind]
  exact Nat.find_min' hlength ⟨_, _, _, _, rfl, h'⟩

/-! ## Replacing them -/

/-- **A text with its leftmost numbered tokens replaced**: the first one by a question mark and its digits, and those
behind it alike. -/
inductive Replaced : List Char → List Char → Prop
  | none {cs : List Char} (h : ¬HasNumbered cs) : Replaced cs cs
  | next {cs before digits after out : List Char} {letter : Char} (h : Leftmost cs before digits letter after)
      (hout : Replaced after out) : Replaced cs (before ++ '?' :: (digits ++ out))

/-- The scan goes on to the leftmost token. -/
theorem indexed_leftmost (h : Leftmost cs before digits letter after) :
    indexed cs = before ++ '?' :: (digits ++ indexed after) := by
  induction before generalizing cs with
  | nil =>
    obtain rfl := h.text
    exact indexed_token h.toNumberedIn.numbered?
  | cons b before ih =>
    obtain ⟨cs, rfl⟩ : ∃ cs', cs = b :: cs' := ⟨_, h.text⟩
    have hrest := ih h.tail
    by_cases hb : b = '%'
    · subst hb
      -- A token right here would be further to the left.
      have hnone : numbered? cs = none := by
        refine Option.eq_none_iff_forall_not_mem.2 ?_
        rintro ⟨digits', after'⟩ hnumbered
        obtain ⟨letter', h'⟩ := NumberedIn.of_numbered? hnumbered
        exact absurd (h.first _ _ _ _ h') (by simp)
      rw [indexed_percent hnone, hrest]
      rfl
    · rw [indexed_cons hb, hrest]
      rfl

theorem replaced_indexed (cs : List Char) : Replaced cs (indexed cs) := by
  induction h : cs.length using Nat.strong_induction_on generalizing cs with
  | _ n ih =>
    subst h
    by_cases hcs : HasNumbered cs
    · obtain ⟨before, digits, letter, after, hleft⟩ := exists_leftmost hcs
      rw [indexed_leftmost hleft]
      exact .next hleft (ih _ hleft.length_lt _ rfl)
    · rw [indexed_eq_self_iff.2 hcs]
      exact .none hcs

theorem Replaced.eq_indexed (h : Replaced cs out) : out = indexed cs := by
  induction h with
  | none h => exact (indexed_eq_self_iff.2 h).symm
  | next h _ ih => rw [ih, indexed_leftmost h]

theorem replaced_iff : Replaced cs out ↔ out = indexed cs := ⟨Replaced.eq_indexed, fun h => h ▸ replaced_indexed cs⟩

/-! ## Nothing is left to replace -/

/-- What the rewriting leaves in front of the first question mark was there before. -/
theorem exists_of_indexed_append (hbefore : ∀ c ∈ before, c ≠ '?') (h : indexed cs = before ++ out) :
    ∃ rest, cs = before ++ rest ∧ indexed rest = out := by
  induction before generalizing cs with
  | nil => exact ⟨cs, rfl, h⟩
  | cons b before ih =>
    have hb := hbefore b List.mem_cons_self
    have hnext {cs' : List Char} (h' : b :: indexed cs' = b :: (before ++ out)) :
        ∃ rest, b :: cs' = b :: (before ++ rest) ∧ indexed rest = out := by
      obtain ⟨rest, rfl, hrest⟩ :=
        ih (fun c hc => hbefore c (List.mem_cons_of_mem b hc)) (List.cons.inj h').2
      exact ⟨rest, rfl, hrest⟩
    cases cs with
    | nil => exact absurd h (by simp [indexed_nil])
    | cons c cs =>
      by_cases hc : c = '%'
      · subst hc
        cases hnumbered : numbered? cs with
        | none =>
          rw [indexed_percent hnumbered] at h
          obtain ⟨rfl, -⟩ := List.cons.inj h
          exact hnext h
        | some r =>
          obtain ⟨digits, rest⟩ := r
          rw [indexed_token hnumbered] at h
          exact absurd (List.cons.inj h).1.symm hb
      · rw [indexed_cons hc] at h
        obtain ⟨rfl, -⟩ := List.cons.inj h
        exact hnext h

/-- A percent sign that begins no token begins none in the rewritten text. -/
theorem numbered?_indexed (h : numbered? cs = none) : numbered? (indexed cs) = none := by
  refine Option.eq_none_iff_forall_not_mem.2 ?_
  rintro ⟨digits, after⟩ hnumbered
  obtain ⟨hne, hdigits, letter, hletter, heq⟩ := numbered?_eq_some hnumbered
  have hquestion : ∀ c ∈ digits ++ ['$', letter], c ≠ '?' := by
    rintro c hc rfl
    simp only [List.mem_append, List.mem_cons, List.not_mem_nil, or_false] at hc
    rcases hc with hc | hc | hc
    · exact absurd (hdigits _ hc) (by decide)
    · exact absurd hc (by decide)
    · exact absurd (hc ▸ hletter) (by decide)
  obtain ⟨rest, rfl, -⟩ :=
    exists_of_indexed_append hquestion (heq.trans (List.append_assoc digits ['$', letter] after).symm)
  rw [List.append_assoc, List.cons_append, List.singleton_append, numbered?_append hne hdigits hletter rest] at h
  cases h

theorem HasNumbered.of_append (h : HasNumbered (before ++ cs)) (hbefore : ∀ c ∈ before, c ≠ '%') : HasNumbered cs := by
  induction before with
  | nil => exact h
  | cons b before ih =>
    rcases HasNumbered.cons_iff.1 h with ⟨rfl, -⟩ | h
    · exact absurd rfl (hbefore _ List.mem_cons_self)
    · exact ih h fun c hc => hbefore c (List.mem_cons_of_mem b hc)

/-- **No numbered token is written in a rewritten text.** -/
theorem not_hasNumbered_indexed (cs : List Char) : ¬HasNumbered (indexed cs) := by
  induction cs using indexed_induction with
  | nil =>
    rw [indexed_nil]
    exact indexed_eq_self_iff.1 indexed_nil
  | other c cs hc ih =>
    rw [indexed_cons hc, HasNumbered.cons_iff]
    rintro (⟨rfl, -⟩ | h)
    · exact hc rfl
    · exact ih h
  | token cs digits rest h ih =>
    obtain ⟨-, hdigits, -⟩ := numbered?_eq_some h
    rw [indexed_token h]
    have hparameter : ∀ c ∈ '?' :: digits, c ≠ '%' := by
      rintro c hc rfl
      rcases List.mem_cons.1 hc with hc | hc
      · exact absurd hc (by decide)
      · exact absurd (hdigits _ hc) (by decide)
    exact fun hnumbered => ih (hnumbered.of_append hparameter)
  | percent cs h ih =>
    rw [indexed_percent h, HasNumbered.cons_iff, numbered?_indexed h]
    rintro (⟨-, hsome⟩ | h)
    · cases hsome
    · exact ih h

/-- **The leftmost numbered tokens are replaced, and none is left.** A text is rewritten to the one that has a parameter
with the same digits for each of its leftmost tokens that do not overlap, and all else as it was. No numbered token is
written in it, so rewriting it again changes nothing. -/
theorem toIndexed_replaces (sql : String) :
    (∀ out : String, Replaced sql.toList out.toList ↔ out = toIndexed sql) ∧
      ¬HasNumbered (toIndexed sql).toList ∧ toIndexed (toIndexed sql) = toIndexed sql := by
  have hnone : ¬HasNumbered (toIndexed sql).toList := by
    rw [toList_toIndexed]
    exact not_hasNumbered_indexed sql.toList
  refine ⟨fun out => ?_, hnone, toIndexed_eq_self_iff.2 hnone⟩
  rw [replaced_iff, ← toList_toIndexed, String.toList_inj]

/-- Neither a second percent sign nor digits without a type keep the scan from the tokens behind them. -/
example : toIndexed "100%%1$d, %2 and %3%4$s%5$x" = "100%?1, %2 and %3?4%5$x" := by decide +kernel

end BoundSql.Placeholder
