import BoundSql.Proofs.Placeholder.Position
import Mathlib.Data.List.TakeWhile

/-!
# Texts with parameters

`indexed` is the text that a driver gets: every numbered token is replaced by its parameter. A token of a style is
replaced alone, whatever follows it, by the parameter of its position or by itself (`indexed_numberedText`,
`indexed_contentText`), and a text stays as it is iff no numbered token is written in it (`indexed_eq_self_iff`).
-/

namespace BoundSql.Placeholder

open Text (isDecimalDigit)

/-! ## One token after the other -/

/-- A text with every numbered token replaced by a parameter. -/
def indexed (cs : List Char) : List Char := toIndexedFrom [] cs

variable {c : Char} {cs digits rest : List Char}

theorem numbered?_eq_some (h : numbered? cs = some (digits, rest)) :
    digits ≠ [] ∧ (∀ c ∈ digits, isDecimalDigit c = true) ∧
      ∃ letter, isTypeLetter letter = true ∧ cs = digits ++ '$' :: letter :: rest := by
  have hall : ∀ c ∈ cs.takeWhile isDecimalDigit, isDecimalDigit c = true := fun c hc => List.mem_takeWhile_imp hc
  have hcs := List.takeWhile_append_dropWhile (p := isDecimalDigit) (l := cs)
  unfold numbered? at h
  dsimp only at h
  split at h
  · cases h
  · next first more letter rest' htake hdrop =>
    split at h
    · next hletter =>
      cases h
      rw [hdrop] at hcs
      exact ⟨by rw [htake]; nofun, hall, letter, hletter, hcs.symm⟩
    · cases h
  · cases h

theorem numbered?_append (hne : digits ≠ []) (hdigits : ∀ c ∈ digits, isDecimalDigit c = true) {letter : Char}
    (hletter : isTypeLetter letter = true) (rest : List Char) :
    numbered? (digits ++ '$' :: letter :: rest) = some (digits, rest) := by
  have hdollar : isDecimalDigit '$' = false := by decide
  unfold numbered?
  rw [Text.takeWhile_append_cons hdigits hdollar, Text.dropWhile_append_cons hdigits hdollar]
  obtain ⟨first, more, rfl⟩ := List.exists_cons_of_ne_nil hne
  exact if_pos hletter

theorem toIndexedFrom_eq (done cs : List Char) : toIndexedFrom done cs = done.reverse ++ indexed cs := by
  unfold indexed
  induction h : cs.length using Nat.strong_induction_on generalizing done cs with
  | _ n ih =>
    subst h
    cases cs with
    | nil => rw [toIndexedFrom, toIndexedFrom, List.reverse_nil, List.append_nil]
    | cons c cs =>
      have hnext : cs.length < (c :: cs).length := Nat.lt_succ_self _
      rw [toIndexedFrom, toIndexedFrom]
      by_cases hc : c = '%'
      · rw [if_pos hc, if_pos hc]
        split
        · next digits rest hnumbered =>
          have hrest := (numbered?_length hnumbered).trans hnext
          rw [ih _ hrest _ _ rfl, ih _ hrest (digits.reverse ++ ['?']) _ rfl]
          simp
        · rw [ih _ hnext _ _ rfl, ih _ hnext [c] _ rfl]
          simp
      · rw [if_neg hc, if_neg hc, ih _ hnext _ _ rfl, ih _ hnext [c] _ rfl]
        simp

theorem indexed_nil : indexed [] = [] := by
  rw [indexed, toIndexedFrom]
  rfl

theorem indexed_cons (hc : c ≠ '%') (cs : List Char) : indexed (c :: cs) = c :: indexed cs := by
  rw [indexed, toIndexedFrom, if_neg hc, toIndexedFrom_eq]
  rfl

theorem indexed_token (h : numbered? cs = some (digits, rest)) :
    indexed ('%' :: cs) = '?' :: digits ++ indexed rest := by
  rw [indexed, toIndexedFrom, if_pos rfl]
  split
  · next h' =>
    cases h.symm.trans h'
    rw [toIndexedFrom_eq]
    simp
  · next h' => cases h.symm.trans h'

theorem indexed_percent (h : numbered? cs = none) : indexed ('%' :: cs) = '%' :: indexed cs := by
  rw [indexed, toIndexedFrom, if_pos rfl]
  split
  · next h' => cases h.symm.trans h'
  · rw [toIndexedFrom_eq]
    rfl

/-- Induction on what is replaced: a text goes on behind a numbered token, or behind its first character. -/
theorem indexed_induction {motive : List Char → Prop} (nil : motive [])
    (other : ∀ c cs, c ≠ '%' → motive cs → motive (c :: cs))
    (token : ∀ cs digits rest, numbered? cs = some (digits, rest) → motive rest → motive ('%' :: cs))
    (percent : ∀ cs, numbered? cs = none → motive cs → motive ('%' :: cs)) (cs : List Char) : motive cs := by
  induction h : cs.length using Nat.strong_induction_on generalizing cs with
  | _ n ih =>
    subst h
    cases cs with
    | nil => exact nil
    | cons c cs =>
      have hnext : cs.length < (c :: cs).length := Nat.lt_succ_self _
      by_cases hc : c = '%'
      · subst hc
        cases hnumbered : numbered? cs with
        | none => exact percent cs hnumbered (ih _ hnext _ rfl)
        | some r => exact token cs r.1 r.2 hnumbered (ih _ ((numbered?_length hnumbered).trans hnext) _ rfl)
      · exact other c cs hc (ih _ hnext _ rfl)

/-! ## Texts that stay as they are -/

/-- A text in which a numbered token is written. -/
def HasNumbered (cs : List Char) : Prop :=
  ∃ before digits letter after, cs = before ++ '%' :: (digits ++ '$' :: letter :: after) ∧ digits ≠ [] ∧
    (∀ c ∈ digits, isDecimalDigit c = true) ∧ isTypeLetter letter = true

theorem HasNumbered.cons (h : HasNumbered cs) (c : Char) : HasNumbered (c :: cs) := by
  obtain ⟨before, digits, letter, after, rfl, h⟩ := h
  exact ⟨c :: before, digits, letter, after, rfl, h⟩

theorem HasNumbered.of_token (h : numbered? cs = some (digits, rest)) : HasNumbered ('%' :: cs) := by
  obtain ⟨hne, hdigits, letter, hletter, rfl⟩ := numbered?_eq_some h
  exact ⟨[], digits, letter, rest, rfl, hne, hdigits, hletter⟩

theorem HasNumbered.mem_dollar (h : HasNumbered cs) : '$' ∈ cs := by
  obtain ⟨before, digits, letter, after, rfl, _⟩ := h
  simp

/-- A numbered token in a text is at its front or behind its first character. -/
theorem HasNumbered.cons_iff : HasNumbered (c :: cs) ↔ (c = '%' ∧ (numbered? cs).isSome) ∨ HasNumbered cs := by
  constructor
  · rintro ⟨before, digits, letter, after, hcs, hne, hdigits, hletter⟩
    cases before with
    | nil =>
      obtain ⟨rfl, rfl⟩ := List.cons.inj hcs
      rw [numbered?_append hne hdigits hletter]
      exact Or.inl ⟨rfl, rfl⟩
    | cons _ before =>
      obtain ⟨-, rfl⟩ := List.cons.inj hcs
      exact Or.inr ⟨before, digits, letter, after, rfl, hne, hdigits, hletter⟩
  · rintro (⟨rfl, h⟩ | h)
    · obtain ⟨r, hr⟩ := Option.isSome_iff_exists.1 h
      exact HasNumbered.of_token hr
    · exact h.cons c

theorem length_indexed_le (cs : List Char) : (indexed cs).length ≤ cs.length := by
  induction cs using indexed_induction with
  | nil => rw [indexed_nil]
  | other c cs hc ih =>
    rw [indexed_cons hc]
    exact Nat.succ_le_succ ih
  | token cs digits rest h ih =>
    obtain ⟨_, _, letter, _, rfl⟩ := numbered?_eq_some h
    rw [indexed_token h]
    simp only [List.length_cons, List.length_append]
    omega
  | percent cs h ih =>
    rw [indexed_percent h]
    exact Nat.succ_le_succ ih

/-- **A text stays as it is iff no numbered token is written in it**: a parameter is shorter than its token. -/
theorem indexed_eq_self_iff : indexed cs = cs ↔ ¬HasNumbered cs := by
  induction cs using indexed_induction with
  | nil =>
    refine iff_of_true indexed_nil ?_
    rintro ⟨before, digits, letter, after, h, _⟩
    exact absurd h.symm (by simp)
  | other c cs hc ih => rw [indexed_cons hc, HasNumbered.cons_iff, List.cons.injEq, ih]; simp [hc]
  | token cs digits rest h ih =>
    refine iff_of_false (fun heq => ?_) (not_not_intro (HasNumbered.of_token h))
    have hle := length_indexed_le rest
    rw [indexed_token h] at heq
    obtain ⟨_, _, letter, _, rfl⟩ := numbered?_eq_some h
    replace heq := congrArg List.length heq
    simp only [List.length_cons, List.length_append] at heq
    omega
  | percent cs h ih => rw [indexed_percent h, HasNumbered.cons_iff, List.cons.injEq, ih, h]; simp

theorem toList_toIndexed (sql : String) : (toIndexed sql).toList = indexed sql.toList := String.toList_ofList

theorem toIndexed_eq_self_iff {sql : String} : toIndexed sql = sql ↔ ¬HasNumbered sql.toList := by
  rw [← String.toList_inj, toList_toIndexed, indexed_eq_self_iff]

theorem indexed_append_of_ne (h : ∀ c ∈ cs, c ≠ '%') (rest : List Char) :
    indexed (cs ++ rest) = cs ++ indexed rest := by
  induction cs with
  | nil => rfl
  | cons c cs ih =>
    rw [List.cons_append, indexed_cons (h c List.mem_cons_self), ih fun c' hc' => h c' (List.mem_cons_of_mem _ hc')]
    rfl

/-! ## Tokens of the styles -/

theorem ne_percent_of_isDigit (h : c.isDigit = true) : c ≠ '%' := by
  rintro rfl
  cases h

/-- **A numbered token becomes the parameter of its position**, whatever follows it. -/
theorem indexed_numberedText (tag : TypeTag) (position : Nat) (rest : List Char) :
    indexed ((Style.numberedText tag position).toList ++ rest) =
      ("?" ++ toString position).toList ++ indexed rest := by
  have hnumbered := numbered?_append (Text.repr_toList_ne_nil position)
    (fun c hc => Text.isDecimalDigit_of_isDigit (Text.all_isDigit_repr position c hc)) (isTypeLetter_letter tag) rest
  have htext : (Style.numberedText tag position).toList ++ rest =
      '%' :: (position.repr.toList ++ '$' :: tag.letter :: rest) := by
    simp [Style.numberedText]
  rw [htext, indexed_token hnumbered]
  simp

/-- **A token with a checksum stays as it is**, whatever follows it. -/
theorem indexed_contentText (canonical : String) (position : Nat) (rest : List Char) :
    indexed ((Style.contentText canonical position).toList ++ rest) =
      (Style.contentText canonical position).toList ++ indexed rest := by
  refine indexed_append_of_ne (fun c hc => ?_) rest
  have hsum := List.all_eq_true.1 (Text.all_isLowerHex_hexDigits 8 (Digest.checksum canonical).toNat)
  rintro rfl
  simp only [Style.contentText, Style.checksumText, String.toList_append, String.toList_ofList, List.mem_append] at hc
  rcases hc with ((hc | hc) | hc) | hc
  · exact absurd hc (by decide)
  · exact ne_percent_of_isDigit (Text.all_isDigit_repr position _ hc) rfl
  · exact absurd hc (by decide)
  · exact absurd (hsum _ hc) (by decide)

end BoundSql.Placeholder
