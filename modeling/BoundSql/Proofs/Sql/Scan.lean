import BoundSql.Proofs.Placeholder.Position
import BoundSql.Sql.Token
import Mathlib.Data.List.TakeWhile

/-!
# Reading tokens off a text

`Sql.scan` splits a text by the lexical rules of SQL, and knows nothing of how the text was laid out: names between
quotes, in which two quotes stand for one; placeholders; integers; words; signs and punctuation; and blanks between
them.

It splits every text into the tokens that it was laid out from (`scan_render`), whatever names are among them, provided
that the placeholders can be read (`Token.Readable`). A token ends where it should because of what is laid out behind
it (`next?_text`).
-/

namespace BoundSql.Sql

open Placeholder (leading?)

/-! ## The scanner -/

/-- Characters of a quoted name behind its opening quote, and what follows its closing one. -/
def quotedPart? : List Char → Option (List Char × List Char)
  | [] => none
  | '\x22' :: '\x22' :: cs => (fun r => ('\x22' :: r.1, r.2)) <$> quotedPart? cs
  | '\x22' :: cs => some ([], cs)
  | c :: cs => (fun r => (c :: r.1, r.2)) <$> quotedPart? cs

/-- Every word. -/
def Keyword.all : List Keyword :=
  [.select, .as, .from, .where, .order, .by, .asc, .desc, .limit, .offset, .insert, .into, .default, .values, .update,
    .set, .delete, .and, .or, .not, .in, .is, .null, .between, .like, .inner, .left, .join, .on, .rowid]

/-- Word of a spelling. -/
def Keyword.ofText? (s : String) : Option Keyword := all.find? (·.text = s)

/-- Sign or punctuation at the front of a text, and what follows. -/
def symbol? : List Char → Option (Token × List Char)
  | '<' :: '>' :: cs => some (.sign .notEqual, cs)
  | '<' :: '=' :: cs => some (.sign .lessOrEqual, cs)
  | '<' :: cs => some (.sign .less, cs)
  | '>' :: '=' :: cs => some (.sign .greaterOrEqual, cs)
  | '>' :: cs => some (.sign .greater, cs)
  | '=' :: cs => some (.sign .equal, cs)
  | '.' :: cs => some (.dot, cs)
  | ',' :: cs => some (.comma, cs)
  | '*' :: cs => some (.star, cs)
  | '(' :: cs => some (.openParen, cs)
  | ')' :: cs => some (.closeParen, cs)
  | _ => none

/-- Integer that digits denote at the front of a text, and what follows. -/
def digits? (cs : List Char) : Option (Nat × List Char) :=
  let digits := cs.takeWhile Char.isDigit
  if digits = [] then none else some (Text.decimalValue digits, cs.dropWhile Char.isDigit)

/-- Placeholder at the front of a text, and what follows. -/
def placeholder? (cs : List Char) : Option (Token × List Char) :=
  (fun r => (.placeholder (String.ofList (cs.take (cs.length - r.2.length))), r.2)) <$> leading? cs

/-- Token at the front of a text, and what follows. -/
def next? (cs : List Char) : Option (Token × List Char) :=
  match cs with
  | [] => none
  | c :: rest =>
    if c = '\x22' then (fun r => (.name (String.ofList r.1), r.2)) <$> quotedPart? rest
    else if c = '%' ∨ c = ':' then placeholder? cs
    else if c = '-' then (fun r => (.integer (-r.1), r.2)) <$> digits? rest
    else if c.isDigit then (fun r => (.integer r.1, r.2)) <$> digits? cs
    else if c.isAlpha then
      (fun k => (.keyword k, cs.dropWhile Char.isAlpha)) <$> Keyword.ofText? (String.ofList (cs.takeWhile Char.isAlpha))
    else symbol? cs

/-- Tokens of a text, if it is made of tokens and blanks. -/
def scan : List Char → Option (List Token)
  | [] => some []
  | c :: cs =>
    if c = ' ' then scan cs
    else match next? (c :: cs) with
      | some (t, rest) => if rest.length < (c :: cs).length then (t :: ·) <$> scan rest else none
      | none => none
termination_by cs => cs.length
decreasing_by
  · exact Nat.lt_succ_self _
  · assumption

/-! ## Where a token ends -/

/-- A text behind a token that does not continue it: the end, a blank, or punctuation that is glued to what precedes
it. -/
def Stops (rest : List Char) : Prop := ∀ c cs, rest = c :: cs → c = ' ' ∨ c = ')' ∨ c = ',' ∨ c = '.'

/-- A token that can be read back: a placeholder must be one whatever follows it. -/
def Token.Readable : Token → Prop
  | .placeholder text => ∃ position, ∀ rest, leading? (text.toList ++ rest) = some (position, rest)
  | _ => True

variable {rest : List Char}

theorem Stops.takeWhile {p : Char → Bool} (h : Stops rest)
    (hp : ∀ c, c = ' ' ∨ c = ')' ∨ c = ',' ∨ c = '.' → p c = false) {cs : List Char} (hcs : ∀ c ∈ cs, p c = true) :
    (cs ++ rest).takeWhile p = cs ∧ (cs ++ rest).dropWhile p = rest := by
  cases rest with
  | nil =>
    rw [List.append_nil]
    exact ⟨List.takeWhile_eq_self_iff.2 hcs, List.dropWhile_eq_nil_iff.2 hcs⟩
  | cons c rest =>
    have hc := hp c (h c rest rfl)
    exact ⟨Text.takeWhile_append_cons hcs hc, Text.dropWhile_append_cons hcs hc⟩

theorem quotedPart?_quoted (h : Stops rest) (part : List Char) :
    quotedPart? (part.flatMap Token.quoteChar ++ '\x22' :: rest) = some (part, rest) := by
  induction part with
  | nil =>
    cases rest with
    | nil => rfl
    | cons c rest =>
      have hc : c ≠ '\x22' := by
        rintro rfl
        exact absurd (h _ _ rfl) (by decide)
      simp [quotedPart?, hc]
  | cons c part ih =>
    rw [List.flatMap_cons, List.append_assoc]
    by_cases hc : c = '\x22'
    · subst hc
      simp [Token.quoteChar, quotedPart?, ih]
    · simp [Token.quoteChar, quotedPart?, hc, ih]

theorem Keyword.ofText?_text (k : Keyword) : ofText? k.text = some k := by cases k <;> decide

theorem Keyword.text_isAlpha (k : Keyword) : k.text.toList ≠ [] ∧ ∀ c ∈ k.text.toList, c.isAlpha = true := by
  have hall : k.text.toList.all Char.isAlpha = true := by cases k <;> decide
  exact ⟨by cases k <;> decide, List.all_eq_true.1 hall⟩

theorem isDigit_of_isAlpha {c : Char} (h : c.isAlpha = true) : c.isDigit = false := by
  replace h : (decide (65 ≤ c.val ∧ c.val ≤ 90) || decide (97 ≤ c.val) && decide (c.val ≤ 122)) = true := h
  simp only [Bool.or_eq_true, Bool.and_eq_true, decide_eq_true_eq, UInt32.le_iff_toNat_le] at h
  simp only [Char.isDigit, Bool.and_eq_false_iff, decide_eq_false_iff_not, ge_iff_le, UInt32.le_iff_toNat_le]
  simp at h ⊢
  omega

/-! ## Every token is read back -/

theorem next?_name (h : Stops rest) (part : String) :
    next? ((Token.name part).text.toList ++ rest) = some (.name part, rest) := by
  have hquoted := quotedPart?_quoted h part.toList
  simp [Token.text, Token.quoted, next?, hquoted]

theorem next?_keyword (h : Stops rest) (k : Keyword) :
    next? ((Token.keyword k).text.toList ++ rest) = some (.keyword k, rest) := by
  obtain ⟨hne, halpha⟩ := k.text_isAlpha
  obtain ⟨htake, hdrop⟩ := h.takeWhile (p := Char.isAlpha) (by rintro c (rfl | rfl | rfl | rfl) <;> rfl) halpha
  have htext : Keyword.ofText? (String.ofList k.text.toList) = some k := by rw [String.ofList_toList, k.ofText?_text]
  change next? (k.text.toList ++ rest) = _
  generalize k.text.toList = cs at *
  obtain ⟨c, cs, rfl⟩ := List.exists_cons_of_ne_nil hne
  have hc := halpha c List.mem_cons_self
  have hother : ∀ x : Char, x.isAlpha = false → c ≠ x := by
    rintro x hx rfl
    rw [hc] at hx
    cases hx
  rw [List.cons_append, next?, if_neg (hother _ rfl), if_neg (not_or.2 ⟨hother _ rfl, hother _ rfl⟩),
    if_neg (hother _ rfl), if_neg (by rw [isDigit_of_isAlpha hc]; decide), if_pos hc, ← List.cons_append, htake, hdrop,
    htext]
  rfl

theorem digits?_repr (h : Stops rest) (n : Nat) : digits? (n.repr.toList ++ rest) = some (n, rest) := by
  obtain ⟨htake, hdrop⟩ := h.takeWhile (p := Char.isDigit) (by rintro c (rfl | rfl | rfl | rfl) <;> rfl)
    (Text.all_isDigit_repr n)
  unfold digits?
  rw [htake, hdrop, if_neg (Text.repr_toList_ne_nil n), Text.decimalValue_repr]

theorem next?_integer (h : Stops rest) (n : Int) :
    next? ((Token.integer n).text.toList ++ rest) = some (.integer n, rest) := by
  cases n with
  | negSucc n =>
    have hdigits := digits?_repr h (n + 1)
    have htext : (Token.integer (.negSucc n)).text.toList = '-' :: (n + 1).repr.toList := by
      simp [Token.text, toString, Int.repr]
    rw [htext, List.cons_append, next?, if_neg (by decide), if_neg (by decide), if_pos rfl, hdigits]
    rfl
  | ofNat n =>
    have hdigits := digits?_repr h n
    have htext : (Token.integer (.ofNat n)).text.toList = n.repr.toList := rfl
    have hall := Text.all_isDigit_repr n
    have hne := Text.repr_toList_ne_nil n
    rw [htext]
    generalize n.repr.toList = cs at *
    obtain ⟨c, cs, rfl⟩ := List.exists_cons_of_ne_nil hne
    have hc := hall c List.mem_cons_self
    have hother : ∀ x : Char, x.isDigit = false → c ≠ x := by
      rintro x hx rfl
      rw [hc] at hx
      cases hx
    rw [List.cons_append, next?, if_neg (hother _ rfl), if_neg (not_or.2 ⟨hother _ rfl, hother _ rfl⟩),
      if_neg (hother _ rfl), if_pos hc, ← List.cons_append, hdigits]
    rfl

theorem first_of_leading? {cs : List Char} {r : Nat × List Char} (h : leading? cs = some r) :
    ∃ c rest, cs = c :: rest ∧ (c = '%' ∨ c = ':') := by
  unfold leading? at h
  split at h
  · exact ⟨_, _, rfl, Or.inl rfl⟩
  · exact ⟨_, _, rfl, Or.inr rfl⟩
  · cases h

theorem next?_placeholder {text : String} (ht : (Token.placeholder text).Readable) :
    next? ((Token.placeholder text).text.toList ++ rest) = some (.placeholder text, rest) := by
  obtain ⟨position, hread⟩ := ht
  change next? (text.toList ++ rest) = _
  have hplaceholder : placeholder? (text.toList ++ rest) = some (.placeholder text, rest) := by
    unfold placeholder?
    rw [hread]
    simp
  obtain ⟨c, cs, hcs, hc⟩ := first_of_leading? ((hread []).trans rfl)
  rw [List.append_nil] at hcs
  rw [← hplaceholder, hcs, List.cons_append, next?, if_neg (by rintro rfl; revert hc; decide), if_pos hc]

theorem next?_sign (h : Stops rest) (s : Sign) :
    next? ((Token.sign s).text.toList ++ rest) = some (.sign s, rest) := by
  cases rest with
  | nil => cases s <;> rfl
  | cons c rest => rcases h c rest rfl with rfl | rfl | rfl | rfl <;> cases s <;> rfl

/-- **A token is read back**, if nothing behind it continues it. -/
theorem next?_text {t : Token} (ht : t.Readable) (h : t = .openParen ∨ t = .dot ∨ Stops rest) :
    next? (t.text.toList ++ rest) = some (t, rest) := by
  cases t with
  | openParen => rfl
  | dot => rfl
  | comma => rfl
  | star => rfl
  | closeParen => rfl
  | placeholder text => exact next?_placeholder ht
  | name part => exact next?_name (by simpa using h) part
  | integer n => exact next?_integer (by simpa using h) n
  | keyword k => exact next?_keyword (by simpa using h) k
  | sign s => exact next?_sign (by simpa using h) s

/-! ## Every text is split into its tokens -/

/-- Characters of the tokens that follow `last`, as they are laid out. -/
def layout (last : Token) : List Token → List Char
  | [] => []
  | t :: ts => (if Token.glued last t then [] else [' ']) ++ t.text.toList ++ layout t ts

theorem renderFrom_toList (done : String) (last : Token) (ts : List Token) :
    (Token.renderFrom done last ts).toList = done.toList ++ layout last ts := by
  induction ts generalizing done last with
  | nil => simp [Token.renderFrom, layout]
  | cons t ts ih =>
    rw [Token.renderFrom, ih, layout]
    split <;> simp

theorem render_toList (t : Token) (ts : List Token) : (render (t :: ts)).toList = t.text.toList ++ layout t ts :=
  renderFrom_toList t.text t ts

/-- What is laid out behind a token ends it. -/
theorem layout_stops (last : Token) (ts : List Token) : last = .openParen ∨ last = .dot ∨ Stops (layout last ts) := by
  cases ts with
  | nil => exact Or.inr (Or.inr nofun)
  | cons t ts =>
    cases hglued : Token.glued last t with
    | false =>
      refine Or.inr (Or.inr fun c cs h => ?_)
      rw [layout, hglued] at h
      exact Or.inl (List.cons.inj h).1.symm
    | true =>
      rw [layout, hglued]
      unfold Token.glued at hglued
      split at hglued
      · exact Or.inl rfl
      · exact Or.inr (Or.inl rfl)
      · exact Or.inr (Or.inr fun c cs h => Or.inr (Or.inl (List.cons.inj h).1.symm))
      · exact Or.inr (Or.inr fun c cs h => Or.inr (Or.inr (Or.inl (List.cons.inj h).1.symm)))
      · exact Or.inr (Or.inr fun c cs h => Or.inr (Or.inr (Or.inr (List.cons.inj h).1.symm)))
      · cases hglued

theorem scan_text {t : Token} (ht : t.Readable) (h : t = .openParen ∨ t = .dot ∨ Stops rest) :
    scan (t.text.toList ++ rest) = (t :: ·) <$> scan rest := by
  have hnext := next?_text ht h
  have halone : next? (t.text.toList ++ []) = some (t, []) := next?_text ht (Or.inr (Or.inr nofun))
  rw [List.append_nil] at halone
  generalize t.text.toList = cs at hnext halone
  cases cs with
  | nil => cases halone
  | cons c cs =>
    have hblank : c ≠ ' ' := by
      rintro rfl
      cases halone
    have hshorter : rest.length < (c :: (cs ++ rest)).length := by
      rw [List.length_cons, List.length_append]
      omega
    rw [List.cons_append] at hnext ⊢
    rw [scan, if_neg hblank, hnext]
    exact if_pos hshorter

theorem scan_layout {ts : List Token} (last : Token) (h : ∀ t ∈ ts, t.Readable) : scan (layout last ts) = some ts := by
  induction ts generalizing last with
  | nil => rw [layout, scan]
  | cons t ts ih =>
    have htext := scan_text (h t List.mem_cons_self) (layout_stops t ts)
    rw [ih t fun t' ht' => h t' (List.mem_cons_of_mem _ ht')] at htext
    rw [layout]
    split
    · exact htext
    · rw [List.append_assoc, List.singleton_append, scan, if_pos rfl]
      exact htext

/-- **A text is split into the tokens that it was laid out from.** -/
theorem scan_render {ts : List Token} (h : ∀ t ∈ ts, t.Readable) : scan (render ts).toList = some ts := by
  cases ts with
  | nil => exact scan.eq_1
  | cons t ts =>
    rw [render_toList, scan_text (h t List.mem_cons_self) (layout_stops t ts),
      scan_layout t fun t' ht' => h t' (List.mem_cons_of_mem _ ht')]
    rfl

end BoundSql.Sql
