import BoundSql.Proofs.Placeholder.Rewrite
import BoundSql.Proofs.Sql.AnyStatement

/-!
# Parameters of a statement

A text is rewritten for a driver character by character, without regard to what is quoted. This still goes token by
token: no numbered token begins in one token of a statement and ends in another (`toIndexed_render`). A placeholder
becomes its parameter. A name stays as it is iff no numbered token is written in it, so a statement comes out with its
placeholders replaced and nothing else changed iff its names are all like that (`Statement.parameters_written`,
`Select.percent_rewritten`).
-/

namespace BoundSql

namespace Sql

open Placeholder (Style indexed HasNumbered numbered? isTypeLetter toIndexed)
open Text (isDecimalDigit)

/-! ## Names between quotes -/

variable {cs : List Char}

section

variable {p : Char → Bool} (hp : p '\x22' = false)

include hp

/-- A run in a quoted name ends where it ends in the name. -/
theorem takeWhile_quoted (cs rest : List Char) :
    (cs.flatMap Token.quoteChar ++ '\x22' :: rest).takeWhile p = cs.takeWhile p := by
  induction cs with
  | nil => rw [List.flatMap_nil, List.nil_append, List.takeWhile_cons_of_neg (by simp [hp])]; rfl
  | cons c cs ih =>
    by_cases hc : c = '\x22'
    · subst hc
      simp [Token.quoteChar, hp]
    · cases hpc : p c <;> simp [Token.quoteChar, hc, hpc, ih]

theorem dropWhile_quoted (cs rest : List Char) :
    (cs.flatMap Token.quoteChar ++ '\x22' :: rest).dropWhile p =
      (cs.dropWhile p).flatMap Token.quoteChar ++ '\x22' :: rest := by
  induction cs with
  | nil => rw [List.flatMap_nil, List.nil_append, List.dropWhile_cons_of_neg (by simp [hp])]; rfl
  | cons c cs ih =>
    by_cases hc : c = '\x22'
    · subst hc
      simp [Token.quoteChar, hp]
    · cases hpc : p c <;> simp [Token.quoteChar, hc, hpc, ih]

end

/-- **A numbered token in a quoted name is one of the name**: neither a doubled quote nor the closing one is part of
it. -/
theorem numbered?_quoted (cs rest : List Char) :
    numbered? (cs.flatMap Token.quoteChar ++ '\x22' :: rest) =
      (fun r => (r.1, r.2.flatMap Token.quoteChar ++ '\x22' :: rest)) <$> numbered? cs := by
  have hquote : isDecimalDigit '\x22' = false := by decide
  unfold numbered?
  rw [takeWhile_quoted hquote, dropWhile_quoted hquote]
  dsimp only
  generalize cs.takeWhile isDecimalDigit = digits
  cases digits with
  | nil => rfl
  | cons first more =>
    cases cs.dropWhile isDecimalDigit with
    | nil => rfl
    | cons c tail =>
      by_cases hc : c = '\x22'
      · subst hc
        rfl
      · rw [List.flatMap_cons, Token.quoteChar, if_neg hc]
        by_cases hdollar : c = '$'
        · subst hdollar
          cases tail with
          | nil => rfl
          | cons letter tail =>
            by_cases hletter : letter = '\x22'
            · subst hletter
              rfl
            · simp only [List.flatMap_cons, Token.quoteChar, if_neg hletter, List.cons_append, List.nil_append]
              split <;> rfl
        · simp [hdollar]

/-- What is between the quotes of a name is rewritten as the name is. -/
theorem indexed_quoted (cs rest : List Char) :
    indexed (cs.flatMap Token.quoteChar ++ '\x22' :: rest) =
      (indexed cs).flatMap Token.quoteChar ++ '\x22' :: indexed rest := by
  induction cs using Placeholder.indexed_induction with
  | nil => rw [List.flatMap_nil, List.nil_append, Placeholder.indexed_cons (by decide), Placeholder.indexed_nil]; rfl
  | other c cs hc ih =>
    rw [Placeholder.indexed_cons hc, List.flatMap_cons, List.flatMap_cons, List.append_assoc, List.append_assoc, ← ih]
    refine Placeholder.indexed_append_of_ne (fun c' hc' => ?_) _
    unfold Token.quoteChar at hc'
    split at hc' <;> simp_all
  | token cs digits rest' h ih =>
    have hnumbered : numbered? (cs.flatMap Token.quoteChar ++ '\x22' :: rest) =
        some (digits, rest'.flatMap Token.quoteChar ++ '\x22' :: rest) := by
      rw [numbered?_quoted, h]
      rfl
    have hdigits : digits.flatMap Token.quoteChar = digits := by
      refine (List.flatMap_congr fun c hc => ?_).trans (List.flatMap_singleton' digits)
      have hc := (Placeholder.numbered?_eq_some h).2.1 c hc
      exact if_neg (by rintro rfl; exact absurd hc (by decide))
    have hpercent : ('%' :: cs).flatMap Token.quoteChar = '%' :: cs.flatMap Token.quoteChar := rfl
    have hparameter : ('?' :: digits).flatMap Token.quoteChar = '?' :: digits := by
      rw [List.flatMap_cons, hdigits]
      rfl
    rw [hpercent, List.cons_append, Placeholder.indexed_token hnumbered, ih, Placeholder.indexed_token h,
      List.flatMap_append, hparameter, List.append_assoc]
  | percent cs h ih =>
    have hnumbered : numbered? (cs.flatMap Token.quoteChar ++ '\x22' :: rest) = none := by
      rw [numbered?_quoted, h]
      rfl
    have hpercent : ('%' :: cs).flatMap Token.quoteChar = '%' :: cs.flatMap Token.quoteChar := rfl
    rw [hpercent, List.cons_append, Placeholder.indexed_percent hnumbered, ih, Placeholder.indexed_percent h]
    rfl

/-! ## Tokens -/

/-- A placeholder as a driver knows it: the parameter of the position of a numbered token, or the token itself. -/
def parameterText (token : String) : String :=
  match token.toList with
  | '%' :: cs => match Placeholder.leadingNumbered? cs with
    | some (position, []) => "?" ++ toString position
    | _ => token
  | _ => token

/-- A token with a parameter for a placeholder. -/
def Token.parameter : Token → Token
  | .placeholder text => .placeholder (parameterText text)
  | t => t

/-- A token with a parameter for a placeholder, or a name that is rewritten as well. -/
def Token.indexed : Token → Token
  | .name part => .name (toIndexed part)
  | t => t.parameter

theorem parameterText_numbered (tag : TypeTag) (position : Nat) :
    parameterText (Style.numberedText tag position) = "?" ++ toString position := by
  have hleading := Placeholder.leadingNumbered?_append position (Placeholder.isTypeLetter_letter tag) []
  have htext : (Style.numberedText tag position).toList = '%' :: (position.repr.toList ++ ['$', tag.letter]) := by
    simp [Style.numberedText]
  simp only [parameterText, htext, hleading]

theorem parameterText_content (canonical : String) (position : Nat) :
    parameterText (Style.contentText canonical position) = Style.contentText canonical position := by
  have htext : (Style.contentText canonical position).toList = ':' :: 'v' :: (position.repr.toList ++
      '_' :: (Style.checksumText canonical).toList) := by
    simp [Style.contentText]
  unfold parameterText
  rw [htext]
  rfl

theorem indexed_placeholder {text : String} (h : Placeholder.OfStyle text) (rest : List Char) :
    indexed (text.toList ++ rest) = (parameterText text).toList ++ indexed rest := by
  rcases h.text_eq with ⟨tag, position, rfl⟩ | ⟨canonical, position, rfl⟩
  · rw [Placeholder.indexed_numberedText, parameterText_numbered]
  · rw [Placeholder.indexed_contentText, parameterText_content]

theorem Keyword.ne_percent (k : Keyword) : ∀ c ∈ k.text.toList, c ≠ '%' := by
  rintro c hc rfl
  exact absurd (k.text_isAlpha.2 _ hc) (by decide)

theorem ne_percent_of_integer (n : Int) : ∀ c ∈ (toString n).toList, c ≠ '%' := by
  rintro c hc rfl
  cases n with
  | ofNat n => exact absurd (Text.all_isDigit_repr n _ hc) (by decide)
  | negSucc n =>
    have htext : (toString (Int.negSucc n)).toList = '-' :: (n + 1).repr.toList := by simp [toString, Int.repr]
    rw [htext, List.mem_cons] at hc
    rcases hc with hc | hc
    · exact absurd hc (by decide)
    · exact absurd (Text.all_isDigit_repr (n + 1) _ hc) (by decide)

theorem ne_percent_of_all {cs : List Char} (h : cs.all (· != '%') = true) : ∀ c ∈ cs, c ≠ '%' := by
  simpa using h

/-- **A token is rewritten alone**, whatever follows it. -/
theorem indexed_text {t : Token} (ht : t.Styled) (rest : List Char) :
    indexed (t.text.toList ++ rest) = t.indexed.text.toList ++ indexed rest := by
  cases t with
  | name part =>
    have hquoted := indexed_quoted part.toList rest
    have hpart : (toIndexed part).toList = indexed part.toList := Placeholder.toList_toIndexed part
    have hopening := Placeholder.indexed_cons (c := '\x22') (by decide)
      (part.toList.flatMap Token.quoteChar ++ '\x22' :: rest)
    simp only [Token.text, Token.indexed, Token.quoted, String.toList_ofList, List.cons_append, List.append_assoc,
      List.nil_append, hpart]
    rw [hopening, hquoted]
  | placeholder text => exact indexed_placeholder ht rest
  | integer n => exact Placeholder.indexed_append_of_ne (ne_percent_of_integer n) rest
  | keyword k => exact Placeholder.indexed_append_of_ne k.ne_percent rest
  | sign s => exact Placeholder.indexed_append_of_ne (ne_percent_of_all (by cases s <;> decide)) rest
  | dot => exact Placeholder.indexed_append_of_ne (ne_percent_of_all (by decide)) rest
  | comma => exact Placeholder.indexed_append_of_ne (ne_percent_of_all (by decide)) rest
  | star => exact Placeholder.indexed_append_of_ne (ne_percent_of_all (by decide)) rest
  | openParen => exact Placeholder.indexed_append_of_ne (ne_percent_of_all (by decide)) rest
  | closeParen => exact Placeholder.indexed_append_of_ne (ne_percent_of_all (by decide)) rest

/-! ## Texts -/

theorem Token.glued_indexed (t t' : Token) : glued t.indexed t'.indexed = glued t t' := by
  cases t <;> cases t' <;> rfl

theorem Token.glued_parameter (t t' : Token) : glued t.parameter t'.parameter = glued t t' := by
  cases t <;> cases t' <;> rfl

theorem indexed_layout {ts : List Token} (last : Token) (h : ∀ t ∈ ts, t.Styled) :
    indexed (layout last ts) = layout last.indexed (ts.map Token.indexed) := by
  induction ts generalizing last with
  | nil => exact Placeholder.indexed_nil
  | cons t ts ih =>
    have htext := indexed_text (h t List.mem_cons_self) (layout t ts)
    rw [ih t fun t' ht' => h t' (List.mem_cons_of_mem _ ht')] at htext
    rw [List.map_cons, layout, layout, Token.glued_indexed]
    split
    · exact htext
    · rw [List.append_assoc, List.singleton_append, Placeholder.indexed_cons (by decide), htext]
      rfl

/-- **A text is rewritten token by token.** -/
theorem toIndexed_render {ts : List Token} (h : ∀ t ∈ ts, t.Styled) :
    toIndexed (render ts) = render (ts.map Token.indexed) := by
  rw [← String.toList_inj, Placeholder.toList_toIndexed]
  cases ts with
  | nil => exact Placeholder.indexed_nil
  | cons t ts =>
    rw [List.map_cons, render_toList, render_toList, indexed_text (h t List.mem_cons_self),
      indexed_layout t fun t' ht' => h t' (List.mem_cons_of_mem _ ht')]

theorem Token.eq_of_text {t : Token} {rest rest' : List Char}
    (hrest : t.indexed = .openParen ∨ t.indexed = .dot ∨ Stops rest)
    (hrest' : t.parameter = .openParen ∨ t.parameter = .dot ∨ Stops rest')
    (h : t.indexed.text.toList ++ rest = t.parameter.text.toList ++ rest') :
    t.indexed = t.parameter ∧ rest = rest' := by
  cases t with
  | name part =>
    have hpart := next?_name (by simpa [indexed] using hrest) (toIndexed part)
    have hpart' := next?_name (by simpa [parameter] using hrest') part
    obtain ⟨hname, hrests⟩ := Prod.mk.inj (Option.some.inj ((hpart.symm.trans (congrArg next? h)).trans hpart'))
    exact ⟨hname, hrests⟩
  | _ => exact ⟨rfl, List.append_cancel_left h⟩

theorem eq_of_layout {ts : List Token} (last : Token)
    (h : layout last.indexed (ts.map Token.indexed) = layout last.parameter (ts.map Token.parameter)) :
    ts.map Token.indexed = ts.map Token.parameter := by
  induction ts generalizing last with
  | nil => rfl
  | cons t ts ih =>
    simp only [List.map_cons, layout, Token.glued_indexed, Token.glued_parameter, List.append_assoc] at h
    obtain ⟨ht, hts⟩ := Token.eq_of_text (layout_stops _ _) (layout_stops _ _) (List.append_cancel_left h)
    rw [List.map_cons, List.map_cons, ht, ih t hts]

/-- Rewritten tokens have the text of tokens with parameters only if they are these. -/
theorem render_indexed_iff {ts : List Token} :
    render (ts.map Token.indexed) = render (ts.map Token.parameter) ↔
      ts.map Token.indexed = ts.map Token.parameter := by
  refine ⟨fun h => ?_, congrArg render⟩
  cases ts with
  | nil => rfl
  | cons t ts =>
    replace h := congrArg String.toList h
    rw [List.map_cons, List.map_cons, render_toList, render_toList] at h
    obtain ⟨ht, hts⟩ := Token.eq_of_text (layout_stops _ _) (layout_stops _ _) h
    rw [List.map_cons, List.map_cons, ht, eq_of_layout t hts]

/-- A token is rewritten to one with a parameter, unless it is a name in which a numbered token is written. -/
theorem Token.indexed_eq_iff {t : Token} :
    t.indexed = t.parameter ↔ ∀ part, t = .name part → ¬HasNumbered part.toList := by
  cases t with
  | name part =>
    have hpart : (Token.name part).indexed = (Token.name part).parameter ↔ toIndexed part = part :=
      ⟨Token.name.inj, congrArg Token.name⟩
    rw [hpart, Placeholder.toIndexed_eq_self_iff]
    simp
  | _ => exact iff_of_true rfl nofun

end Sql

open Sql (Token Context render)
open Placeholder (Style HasNumbered toIndexed)

/-- **What a driver gets for a statement.** Every placeholder is a numbered token, which becomes the parameter of its
position, or a token with a checksum, which stays. The text is rewritten token by token, and nothing but its
placeholders changes iff no numbered token is written in any of its names. -/
theorem Statement.parameters_written {values : Bindings} (hvalues : values.Styled) (fields : FieldMap) (s : Statement)
    {ts : List Token} (hts : s.units (Context.writer ⟨values, fields⟩) fields = .ok ts) :
    (∀ text, .placeholder text ∈ ts →
      (∃ tag position, text = Style.numberedText tag position ∧
        Sql.parameterText text = "?" ++ toString position) ∨
      ∃ canonical position, text = Style.contentText canonical position ∧ Sql.parameterText text = text) ∧
    toIndexed (render ts) = render (ts.map Token.indexed) ∧
    (toIndexed (render ts) = render (ts.map Token.parameter) ↔
      ∀ part, .name part ∈ ts → ¬HasNumbered part.toList) := by
  have hstyled := Statement.units_styled hvalues hts
  refine ⟨fun text htext => ?_, Sql.toIndexed_render hstyled, ?_⟩
  · have hstyle : Placeholder.OfStyle text := hstyled _ htext
    rcases hstyle.text_eq with ⟨tag, position, rfl⟩ | ⟨canonical, position, rfl⟩
    · exact Or.inl ⟨tag, position, rfl, Sql.parameterText_numbered tag position⟩
    · exact Or.inr ⟨canonical, position, rfl, Sql.parameterText_content canonical position⟩
  · rw [Sql.toIndexed_render hstyled, Sql.render_indexed_iff, List.map_inj_left]
    refine ⟨fun h part hpart => Token.indexed_eq_iff.1 (h _ hpart) part rfl, fun h t ht => ?_⟩
    exact Token.indexed_eq_iff.2 fun part hpart => h part (hpart ▸ ht)

/-! ## Items -/

/-- A value for each of the two styles. -/
def Bindings.sevenAnn : Bindings :=
  after [.value (Binder.ofStyle .numbered) (.int 7), .value (Binder.ofStyle .contentHash) (.text "Ann")]

theorem Bindings.sevenAnn_styled : sevenAnn.Styled := by
  refine after_styled fun r hr => ?_
  simp only [List.mem_cons, List.not_mem_nil, or_false] at hr
  rcases hr with rfl | rfl
  · exact ⟨.numbered, rfl⟩
  · exact ⟨.contentHash, rfl⟩

/-- Items, whose columns have quotes, dots and percent signs in their names. -/
def FieldMap.items : FieldMap := Dict.ofList [("share", "100%\x22"), ("owner", "%1.s")]

/-- Items whose columns are called like placeholders. -/
def FieldMap.oddItems : FieldMap := Dict.ofList [("share", "%1$s"), ("owner", "%2$s")]

/-- The items of an owner with a share. -/
def Select.ofItems (fields : FieldMap) : Select where
  fields := fields
  tables := [⟨"items", none⟩]
  joins := []
  condition := some (.conj [.equalTo (.bare "share") (.int 7), .equalTo (.bare "owner") (.text "Ann")])
  ordering := []
  limit := none
  offset := none

/-- Tokens of this selection. -/
def Select.itemTokens (fields : FieldMap) : List Token :=
  ((ofItems fields).units (Context.writer ⟨.sevenAnn, fields⟩) fields).toOption.getD []

/-- No placeholder is written in the names, and only the placeholders become parameters. -/
theorem Select.ofItems_written : Bindings.sevenAnn.Styled ∧
    (Statement.select (ofItems .items)).units (Context.writer ⟨.sevenAnn, .items⟩) .items = .ok (itemTokens .items) ∧
    (∀ part, .name part ∈ itemTokens .items → ¬HasNumbered part.toList) ∧
    toIndexed (render (itemTokens .items)) =
      "SELECT \x22100%\x22\x22\x22 AS \x22share\x22, \x22%1\x22.\x22s\x22 AS \x22owner\x22 FROM \x22items\x22 " ++
        "WHERE (\x22100%\x22\x22\x22 = ?1) AND (\x22%1\x22.\x22s\x22 = :v2_59cdb578)" := by
  have hunits : (ofItems .items).units (Context.writer ⟨.sevenAnn, .items⟩) .items = .ok (itemTokens .items) := by
    apply eq_ok_of_toOption
    decide +kernel
  have hdollars : (itemTokens .items).all (fun t => match t with
      | .name part => !part.toList.contains '$'
      | _ => true) = true := by
    decide +kernel
  have hnames : ∀ part, .name part ∈ itemTokens .items → ¬HasNumbered part.toList := by
    intro part hpart hnumbered
    have hdollar := List.all_eq_true.1 hdollars _ hpart
    simp [hnumbered.mem_dollar] at hdollar
  have hwritten := Statement.parameters_written Bindings.sevenAnn_styled .items (.select (ofItems .items)) hunits
  refine ⟨Bindings.sevenAnn_styled, hunits, hnames, (hwritten.2.2.2 hnames).trans ?_⟩
  decide +kernel

/-- Columns that are called like placeholders become parameters too, so the text names other columns. -/
theorem Select.oddItems_rewritten : Bindings.sevenAnn.Styled ∧
    (Statement.select (ofItems .oddItems)).units (Context.writer ⟨.sevenAnn, .oddItems⟩) .oddItems =
      .ok (itemTokens .oddItems) ∧
    toIndexed (render (itemTokens .oddItems)) =
      "SELECT \x22?1\x22 AS \x22share\x22, \x22?2\x22 AS \x22owner\x22 FROM \x22items\x22 " ++
        "WHERE (\x22?1\x22 = ?1) AND (\x22?2\x22 = :v2_59cdb578)" ∧
    render ((itemTokens .oddItems).map Token.parameter) =
      "SELECT \x22%1$s\x22 AS \x22share\x22, \x22%2$s\x22 AS \x22owner\x22 FROM \x22items\x22 " ++
        "WHERE (\x22%1$s\x22 = ?1) AND (\x22%2$s\x22 = :v2_59cdb578)" := by
  have hunits : (ofItems .oddItems).units (Context.writer ⟨.sevenAnn, .oddItems⟩) .oddItems =
      .ok (itemTokens .oddItems) := by
    apply eq_ok_of_toOption
    decide +kernel
  refine ⟨Bindings.sevenAnn_styled, hunits, ?_, by decide +kernel⟩
  have hstyled := Statement.units_styled (s := .select (ofItems .oddItems)) Bindings.sevenAnn_styled hunits
  rw [Sql.toIndexed_render hstyled]
  decide +kernel

end BoundSql
