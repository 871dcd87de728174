import BoundSql.Proofs.Sql.Collected
import BoundSql.Proofs.Sql.Faithful
import Mathlib.Data.List.Chain

/-!
# Parentheses in conditions

The parentheses of a text should come in pairs with something between, and behind every `IN` should stand such a pair
(`Sql.WellEnclosed`). Whether a condition's text is like this is seen from its tree (`Condition.Enclosable`): no operand
that is written is the list without items, and membership is tested in lists and conditions only.

What is written is like this iff its tree is of this kind, and what is not written is refused as an invalid argument
(`Condition.tokens_enclosed_iff`). But trees of the other kind are written all the same
(`Condition.emptyOperand_written`).
-/

namespace BoundSql

open Sql (Token Context)

namespace Sql

/-! ## Pairs of parentheses -/

/-- Whether a token is neither a parenthesis nor the word in front of one. -/
def Token.isFlat : Token → Bool
  | .openParen | .closeParen | .keyword .in => false
  | _ => true

/-- Tokens with parentheses in pairs that enclose something, such a pair behind every `IN`. -/
inductive WellEnclosed : List Token → Prop
  | nil : WellEnclosed []
  | token {t : Token} (h : t.isFlat = true) : WellEnclosed [t]
  | group {ts : List Token} (hne : ts ≠ []) (h : WellEnclosed ts) : WellEnclosed (.openParen :: ts ++ [.closeParen])
  | member {ts : List Token} (hne : ts ≠ []) (h : WellEnclosed ts) :
    WellEnclosed (.keyword .in :: .openParen :: ts ++ [.closeParen])
  | append {ts us : List Token} (h : WellEnclosed ts) (h' : WellEnclosed us) : WellEnclosed (ts ++ us)

/-- Two tokens that may stand side by side. -/
def Fits (t u : Token) : Prop := ¬(t = .openParen ∧ u = .closeParen) ∧ (t = .keyword .in → u = .openParen)

theorem fits_of_ne {t : Token} (hopen : t ≠ .openParen) (hin : t ≠ .keyword .in) (u : Token) : Fits t u :=
  ⟨fun h => hopen h.1, fun h => absurd h hin⟩

theorem fits_of_isFlat {t : Token} (h : t.isFlat = true) (u : Token) : Fits t u := by
  refine fits_of_ne ?_ ?_ u <;> rintro rfl <;> cases h

variable {ts us : List Token}

theorem WellEnclosed.head_ne (h : WellEnclosed ts) : ∀ t ∈ ts.head?, t ≠ .closeParen := by
  induction h with
  | nil => nofun
  | token h =>
    rintro _ ⟨⟩ rfl
    cases h
  | group => rintro _ ⟨⟩; decide
  | member => rintro _ ⟨⟩; decide
  | @append ts us _ _ ih ih' =>
    cases ts with
    | nil => exact ih'
    | cons t ts => exact ih

/-- **Well enclosed tokens fit**, whatever stands behind them. -/
theorem WellEnclosed.isChain_append (h : WellEnclosed ts) (hus : us.IsChain Fits) : (ts ++ us).IsChain Fits := by
  have hclose {us : List Token} (hus : us.IsChain Fits) : (.closeParen :: us : List Token).IsChain Fits :=
    List.isChain_cons.2 ⟨fun u _ => fits_of_ne (by decide) (by decide) u, hus⟩
  have hopen {ts us : List Token} (hne : ts ≠ []) (h : WellEnclosed ts) (htail : (ts ++ us).IsChain Fits) :
      (.openParen :: (ts ++ us) : List Token).IsChain Fits := by
    refine List.isChain_cons.2 ⟨fun u hu => ⟨fun hclosed => ?_, fun hin => by cases hin⟩, htail⟩
    rw [List.head?_append_of_ne_nil _ hne] at hu
    exact h.head_ne u hu hclosed.2
  induction h generalizing us with
  | nil => exact hus
  | token h => exact List.isChain_cons.2 ⟨fun u _ => fits_of_isFlat h u, hus⟩
  | group hne h ih =>
    simp only [List.cons_append, List.append_assoc, List.nil_append]
    exact hopen hne h (ih (hclose hus))
  | member hne h ih =>
    simp only [List.cons_append, List.append_assoc, List.nil_append]
    refine List.isChain_cons.2 ⟨fun u hu => ?_, hopen hne h (ih (hclose hus))⟩
    obtain rfl : .openParen = u := Option.some.inj hu
    exact ⟨fun hgroup => Token.noConfusion hgroup.1, fun _ => rfl⟩
  | append _ _ ih ih' =>
    rw [List.append_assoc]
    exact ih (ih' hus)

theorem WellEnclosed.isChain (h : WellEnclosed ts) : ts.IsChain Fits := by
  have happend := h.isChain_append (List.IsChain.nil (R := Fits))
  rwa [List.append_nil] at happend

theorem WellEnclosed.of_isFlat (h : ∀ t ∈ ts, t.isFlat = true) : WellEnclosed ts := by
  induction ts with
  | nil => exact .nil
  | cons t ts ih =>
    have hrest := ih fun u hu => h u (List.mem_cons_of_mem t hu)
    exact (WellEnclosed.token (h t List.mem_cons_self)).append hrest

/-- Some tokens, none of which is a parenthesis or an `IN`. -/
def Flat (ts : List Token) : Prop := ts ≠ [] ∧ ∀ t ∈ ts, t.isFlat = true

/-! ## Tokens that are enclosed under a condition -/

/-- There are tokens, and they are well enclosed iff `p` holds: otherwise two of them do not fit. -/
structure EnclosedIff (p : Prop) (ts : List Token) : Prop where
  ne_nil : ts ≠ []
  enclosed : p → WellEnclosed ts
  holds : ts.IsChain Fits → p

namespace EnclosedIff

variable {p q : Prop}

theorem iff (h : EnclosedIff p ts) : WellEnclosed ts ↔ p := ⟨fun henclosed => h.holds henclosed.isChain, h.enclosed⟩

theorem congr (h : EnclosedIff p ts) (hpq : p ↔ q) : EnclosedIff q ts :=
  ⟨h.ne_nil, fun hq => h.enclosed (hpq.2 hq), fun hts => hpq.1 (h.holds hts)⟩

theorem of_flat (h : Flat ts) : EnclosedIff True ts := ⟨h.1, fun _ => .of_isFlat h.2, fun _ => trivial⟩

theorem append (h : EnclosedIff p ts) (h' : EnclosedIff q us) : EnclosedIff (p ∧ q) (ts ++ us) :=
  ⟨List.append_ne_nil_of_left_ne_nil h.ne_nil us, fun hpq => (h.enclosed hpq.1).append (h'.enclosed hpq.2),
    fun hts => ⟨h.holds hts.left_of_append, h'.holds hts.right_of_append⟩⟩

/-- Fixed tokens between two parts, or behind one, do not count. -/
theorem between (h : EnclosedIff p ts) {middle : List Token} (hmiddle : ∀ t ∈ middle, t.isFlat = true)
    (h' : EnclosedIff q us) : EnclosedIff (p ∧ q) (ts ++ middle ++ us) :=
  ⟨List.append_ne_nil_of_right_ne_nil _ h'.ne_nil,
    fun hpq => ((h.enclosed hpq.1).append (.of_isFlat hmiddle)).append (h'.enclosed hpq.2),
    fun hts => ⟨h.holds hts.left_of_append.left_of_append, h'.holds hts.right_of_append⟩⟩

theorem behind (h : EnclosedIff p ts) {last : List Token} (hlast : ∀ t ∈ last, t.isFlat = true) :
    EnclosedIff p (ts ++ last) :=
  ⟨List.append_ne_nil_of_left_ne_nil h.ne_nil last, fun hp => (h.enclosed hp).append (.of_isFlat hlast),
    fun hts => h.holds hts.left_of_append⟩

theorem group (h : EnclosedIff p ts) : EnclosedIff p (.openParen :: ts ++ [.closeParen]) :=
  ⟨List.cons_ne_nil _ _, fun hp => .group h.ne_nil (h.enclosed hp),
    fun hts => h.holds (List.IsChain.tail hts.left_of_append)⟩

end EnclosedIff

end Sql

/-! ## Results and refusals -/

/-- The result has a property, or the failure is that of an invalid argument. -/
def Answers {α : Type} (P : α → Prop) : Except Failure α → Prop
  | .ok a => P a
  | .error f => f.kind = .invalidArgument

namespace Answers

variable {α β : Type} {P : α → Prop} {Q : β → Prop} {x : Except Failure α}

theorem bind {f : α → Except Failure β} (h : Answers P x) (hf : ∀ a, P a → Answers Q (f a)) :
    Answers Q (x >>= f) := by
  cases x with
  | error e => exact h
  | ok a => exact hf a h

theorem map {f : α → β} (h : Answers P x) (hf : ∀ a, P a → Q (f a)) : Answers Q (f <$> x) := by
  cases x with
  | error e => exact h
  | ok a => exact hf a h

theorem imp {P' : α → Prop} (h : Answers P x) (hP : ∀ a, P a → P' a) : Answers P' x := by
  cases x with
  | error e => exact h
  | ok a => exact hP a h

theorem mapM {γ : Type} {R : γ → β → Prop} {f : α → Except Failure β} {xs : List α} {zs : List γ}
    (h : List.Forall₂ (fun x z => Answers (R z) (f x)) xs zs) : Answers (List.Forall₂ R zs) (xs.mapM f) := by
  induction h with
  | nil => exact .nil
  | cons hx _ ih =>
    rw [List.mapM_cons]
    exact hx.bind fun y hy => ih.bind fun ys hys => .cons hy hys

end Answers

/-! ## Trees whose texts are enclosed -/

/-- Whether a term is written between parentheses: a list or a condition. -/
def Term.isGroup : Term → Bool
  | .literal v => v.isList
  | .condition _ => true
  | .field _ => false

mutual

/-- A term that is not the list without items, nor has it as an operand that is written. -/
def Term.Enclosable : Term → Prop
  | .field _ => True
  | .literal v => v.isEmptyList = false
  | .condition c => c.Enclosable

/-- A condition that tests for membership in the empty list, which is written as a constant, or whose operands can be
written, among them a list or a condition if it tests for membership. -/
def Condition.Enclosable : Condition → Prop
  | ⟨operator, terms, _⟩ => Condition.isVoid operator terms = true ∨
      Term.AllEnclosable terms ∧ (operator = .in → ∀ right ∈ terms.getLast?, right.isGroup = true)

/-- Terms none of which is the list without items, nor has it as an operand that is written. -/
def Term.AllEnclosable : List Term → Prop
  | [] => True
  | t :: ts => t.Enclosable ∧ Term.AllEnclosable ts

end

open Sql (WellEnclosed EnclosedIff)

/-- Tokens of a term: they are well enclosed iff the term is fit for it, and begin with a parenthesis iff it is a list
or a condition. -/
structure Term.WrittenAs (t : Term) (us : List Token) : Prop extends EnclosedIff t.Enclosable us where
  head : ∀ u ∈ us.head?, u = .openParen ↔ t.isGroup = true
  member : t.isGroup = true → t.Enclosable → WellEnclosed (.keyword .in :: us)

namespace Term.WrittenAs

variable {t : Term} {us : List Token}

/-- A term without parentheses. -/
theorem of_flat (ht : t.Enclosable) (hgroup : t.isGroup = false) (hus : Sql.Flat us) : t.WrittenAs us where
  toEnclosedIff := (EnclosedIff.of_flat hus).congr (iff_of_true trivial ht)
  head u hu := by
    have hflat := hus.2 u (List.mem_of_mem_head? hu)
    rw [hgroup]
    exact iff_of_false (by rintro rfl; cases hflat) Bool.false_ne_true
  member h := by
    rw [hgroup] at h
    cases h

/-- A term between parentheses. -/
theorem of_group (hgroup : t.isGroup = true) (h : EnclosedIff t.Enclosable us) :
    t.WrittenAs (.openParen :: us ++ [.closeParen]) where
  toEnclosedIff := h.group
  head u hu := by
    obtain rfl : .openParen = u := Option.some.inj hu
    exact iff_of_true rfl hgroup
  member _ ht := .member h.ne_nil (h.enclosed ht)

end Term.WrittenAs

/-! ## Literals and fields -/

namespace Sql

theorem pathTokens_flat {path : List String} (h : path ≠ []) : Flat (pathTokens path) := by
  obtain ⟨part, path, rfl⟩ := List.exists_cons_of_ne_nil h
  rw [pathTokens_cons]
  refine ⟨List.cons_ne_nil _ _, List.forall_mem_cons.2 ⟨rfl, fun t ht => ?_⟩⟩
  obtain ⟨part, -, ht⟩ := List.mem_flatMap.1 ht
  simp only [List.mem_cons, List.not_mem_nil, or_false] at ht
  rcases ht with rfl | rfl <;> rfl

theorem scalarTokens_flat (ctx : Context) (v : Value) : Answers Flat (scalarTokens ctx v) := by
  have hsingle {t : Token} (ht : t.isFlat = true) : Flat [t] := ⟨List.cons_ne_nil _ _, List.forall_mem_singleton.2 ht⟩
  unfold scalarTokens boundTokens
  split
  · rw [nameTokens_eq]
    exact pathTokens_flat (namePath_ne_nil _)
  · split
    · exact hsingle rfl
    · split
      · exact hsingle rfl
      · exact (rfl : (Failure.unbound v).kind = .invalidArgument)

theorem constant_flat (truth : Bool) : Flat (constant truth) :=
  ⟨List.cons_ne_nil _ _, by cases truth <;> decide⟩

/-- The list without items is an empty pair of parentheses. -/
theorem emptyList_written : (Term.literal (.list [])).WrittenAs [.openParen, .closeParen] where
  ne_nil := List.cons_ne_nil _ _
  enclosed h := by cases h
  holds h := absurd ⟨rfl, rfl⟩ (List.isChain_cons_cons.1 h).1.1
  head u hu := by
    obtain rfl : .openParen = u := Option.some.inj hu
    exact iff_of_true rfl rfl
  member _ h := by cases h

theorem literal_written (ctx : Context) (v : Value) : Answers (Term.literal v).WrittenAs (ctx.writer.literal v) := by
  have hscalar (v : Value) (hlist : v.isList = false) (hempty : v.isEmptyList = false) :
      Answers (Term.literal v).WrittenAs (scalarTokens ctx v) := by
    have hflat := scalarTokens_flat ctx v
    cases hv : scalarTokens ctx v with
    | error f =>
      rw [hv] at hflat
      exact hflat
    | ok us =>
      rw [hv] at hflat
      exact .of_flat hempty hlist hflat
  cases v with
  | list items =>
    have hscalars : List.Forall₂ (fun item _ => Answers Flat (scalarTokens ctx item)) items items :=
      List.forall₂_same.2 fun item _ => scalarTokens_flat ctx item
    refine (Answers.mapM hscalars).bind fun parts hparts => ?_
    show (Term.literal (.list items)).WrittenAs (.openParen :: separated .comma parts ++ [.closeParen])
    cases hparts with
    | nil => exact emptyList_written
    | @cons item part items parts hpart hparts =>
      have hall : ∀ us ∈ part :: parts, Flat us := fun us hus => by
        obtain ⟨_, -, hflat⟩ := exists_of_forall₂_right (.cons (a := item) hpart hparts) hus
        exact hflat
      refine .of_group rfl ((EnclosedIff.of_flat ⟨?_, fun t ht => ?_⟩).congr (iff_of_true trivial rfl))
      · exact List.append_ne_nil_of_left_ne_nil hpart.1 _
      · rcases mem_separated ht with rfl | ⟨other, hother, ht⟩
        · rfl
        · exact (hall other hother).2 t ht
  | _ => exact hscalar _ rfl rfl

end Sql

/-! ## Operators -/

namespace Condition

open Sql

variable {ctx : Context} {os : List (Operand Token)} {terms : List Term}

/-- An operand that was made of a term. -/
def Operand.MadeOf (o : Operand Token) (t : Term) : Prop := o.1 = t ∧ Answers t.WrittenAs o.2

theorem Operand.MadeOf.enclosable_of_isNull {o : Operand Token} {t : Term} (h : o.MadeOf t) (hnull : o.isNull = true) :
    t.Enclosable := by
  obtain ⟨rfl, -⟩ := h
  unfold Operand.isNull at hnull
  split at hnull
  · next v hv =>
    rw [hv]
    cases v <;> first | rfl | cases hnull
  · cases hnull

/-- Parts with a flat token between every two of them. -/
theorem separated_encloses {separator : Token} (hseparator : separator.isFlat = true) {t : Term} {us : List Token}
    (ht : t.WrittenAs us) {parts : List (List Token)} (h : List.Forall₂ Term.WrittenAs terms parts) :
    EnclosedIff (Term.AllEnclosable (t :: terms)) (separated separator (us :: parts)) := by
  induction h generalizing t us with
  | nil =>
    rw [separated, List.flatMap_nil, List.append_nil]
    exact ht.toEnclosedIff.congr (and_iff_left trivial).symm
  | @cons u vs terms parts hu _ ih =>
    have hparts := ht.toEnclosedIff.between (List.forall_mem_singleton.2 hseparator) (ih hu)
    have htokens : us ++ [separator] ++ separated separator (vs :: parts) =
        separated separator (us :: vs :: parts) := by
      simp [separated]
    rw [htokens] at hparts
    exact hparts

variable (h : List.Forall₂ Operand.MadeOf os terms)

include h

theorem junction_encloses (word : Keyword) (hword : (Token.keyword word).isFlat = true) (whenEmpty : Bool) :
    Answers (EnclosedIff (Term.AllEnclosable terms)) (junction ctx.writer word whenEmpty os) := by
  unfold junction
  cases h with
  | nil =>
    exact EnclosedIff.of_flat (constant_flat whenEmpty)
  | @cons o t os terms ho hos =>
    have hwritten : List.Forall₂ (fun o t => Answers t.WrittenAs o.2) (o :: os) (t :: terms) :=
      .cons ho.2 (hos.imp fun _ _ ho => ho.2)
    refine (Answers.mapM hwritten).bind fun parts hparts => ?_
    cases hparts with
    | cons ht hparts => exact separated_encloses hword ht hparts

theorem binary_encloses (operator : Operator) {middle : List Token} (hmiddle : ∀ t ∈ middle, t.isFlat = true) :
    Answers (EnclosedIff (Term.AllEnclosable terms)) (binary ctx.writer operator middle os) := by
  unfold binary
  rcases h with _ | ⟨hl, _ | ⟨hr, _ | _⟩⟩
  · rfl
  · rfl
  · refine hl.2.bind fun l hl => hr.2.bind fun r hr => ?_
    have hparts := hl.toEnclosedIff.between hmiddle hr.toEnclosedIff
    show EnclosedIff _ (l ++ ctx.writer.fixed middle ++ r)
    rw [fixed_writer]
    exact hparts.congr (by simp [Term.AllEnclosable])
  · rfl

theorem equality_encloses (operator : Operator) (sign : Sign) {test : List Token}
    (htest : ∀ t ∈ test, t.isFlat = true) :
    Answers (EnclosedIff (Term.AllEnclosable terms)) (equality ctx.writer operator sign test os) := by
  have hbinary : Answers (EnclosedIff (Term.AllEnclosable terms)) (binary ctx.writer operator [.sign sign] os) :=
    binary_encloses h operator (List.forall_mem_singleton.2 rfl)
  unfold equality
  rcases h with _ | ⟨hl, _ | ⟨hr, _ | _⟩⟩
  · rfl
  · rfl
  · dsimp only
    split
    · next hnull =>
      -- the missing value is not written, and would be fit
      have hright := hr.enclosable_of_isNull hnull
      refine hl.2.map fun l hl => ?_
      rw [fixed_writer]
      exact (hl.toEnclosedIff.behind htest).congr (by simp [Term.AllEnclosable, hright])
    · split
      · next hnull =>
        have hleft := hl.enclosable_of_isNull hnull
        refine hr.2.map fun r hr => ?_
        rw [fixed_writer]
        exact (hr.toEnclosedIff.behind htest).congr (by simp [Term.AllEnclosable, hleft])
      · exact hbinary
  · rfl

omit h in
/-- What is tested for membership is enclosed if it is between parentheses. -/
theorem member_encloses {left right : Term} {l r : List Token} (hl : left.WrittenAs l) (hr : right.WrittenAs r) :
    EnclosedIff (left.Enclosable ∧ right.Enclosable ∧ right.isGroup = true) (l ++ [.keyword .in] ++ r) := by
  rw [List.append_assoc, List.singleton_append]
  refine ⟨List.append_ne_nil_of_left_ne_nil hl.ne_nil _, fun ⟨hleft, hright, hgroup⟩ => ?_, fun hchain => ?_⟩
  · exact (hl.enclosed hleft).append (hr.member hgroup hright)
  · -- what fits behind `IN` is a parenthesis, so the right operand begins with one
    obtain ⟨hfits, hrest⟩ := List.isChain_cons.1 hchain.right_of_append
    refine ⟨hl.holds hchain.left_of_append, hr.holds hrest, ?_⟩
    obtain ⟨first, rest, rfl⟩ := List.exists_cons_of_ne_nil hr.ne_nil
    exact (hr.head first rfl).1 ((hfits first rfl).2 rfl)

theorem membership_encloses : Answers (EnclosedIff (isVoid .in terms = true ∨
      Term.AllEnclosable terms ∧ ∀ right ∈ terms.getLast?, right.isGroup = true)) (membership ctx.writer os) := by
  unfold membership
  rcases h with _ | ⟨hl, _ | ⟨hr, _ | _⟩⟩
  · rfl
  · rfl
  · dsimp only
    rw [Operand.isEmptyList_eq, hr.1, isVoid_in]
    split
    · next hempty =>
      rw [fixed_writer]
      exact (EnclosedIff.of_flat (constant_flat false)).congr (iff_of_true trivial (Or.inl hempty))
    · next hempty =>
      refine hl.2.bind fun l hl => hr.2.bind fun r hr => ?_
      show EnclosedIff _ (l ++ ctx.writer.fixed [.keyword .in] ++ r)
      rw [fixed_writer]
      exact (member_encloses hl hr).congr (by simp [Term.AllEnclosable, hempty, and_assoc])
  · rfl

theorem body_encloses (operator : Operator) : Answers (EnclosedIff (isVoid operator terms = true ∨
      Term.AllEnclosable terms ∧ (operator = .in → ∀ right ∈ terms.getLast?, right.isGroup = true)))
    (body ctx.writer operator os) := by
  have hsign (s : Sign) : ∀ t ∈ [Token.sign s], t.isFlat = true := List.forall_mem_singleton.2 rfl
  have hnull : ∀ t ∈ [Token.keyword .is, .keyword .null], t.isFlat = true := by decide
  by_cases hin : operator = .in
  · subst hin
    exact (membership_encloses h).imp fun us hus => hus.congr (by simp)
  · have hvoid : isVoid operator terms = false := by
      unfold isVoid
      split
      · exact absurd rfl hin
      · rfl
    refine Answers.imp (P := EnclosedIff (Term.AllEnclosable terms)) ?_ fun us hus => hus.congr (by simp [hvoid, hin])
    cases operator with
    | and => exact junction_encloses h _ rfl _
    | or => exact junction_encloses h _ rfl _
    | equalTo => exact equality_encloses h _ _ hnull
    | notEqualTo => exact equality_encloses h _ _ (by decide)
    | lessThan => exact binary_encloses h _ (hsign _)
    | lessThanOrEqualTo => exact binary_encloses h _ (hsign _)
    | greaterThan => exact binary_encloses h _ (hsign _)
    | greaterThanOrEqualTo => exact binary_encloses h _ (hsign _)
    | like => exact binary_encloses h _ (by decide)
    | «in» => exact absurd rfl hin
    | between =>
      simp only [body]
      rcases h with _ | ⟨hs, _ | ⟨hl, _ | ⟨hh, _ | _⟩⟩⟩
      · rfl
      · rfl
      · rfl
      · refine hs.2.bind fun s hs => hl.2.bind fun l hl => hh.2.bind fun u hu => ?_
        have hbetween : ∀ t ∈ [Token.keyword .between], t.isFlat = true := by decide
        have hand : ∀ t ∈ [Token.keyword .and], t.isFlat = true := by decide
        have hboth := (hs.toEnclosedIff.between hbetween hl.toEnclosedIff).between hand hu.toEnclosedIff
        have htokens : s ++ [.keyword .between] ++ l ++ [.keyword .and] ++ u =
            s ++ .keyword .between :: l ++ .keyword .and :: u := by simp
        rw [htokens] at hboth
        exact hboth.congr (by simp [Term.AllEnclosable, and_assoc])
      · rfl
    | isNull =>
      simp only [body]
      rcases h with _ | ⟨hs, _ | _⟩
      · rfl
      · refine hs.2.map fun s hs => ?_
        rw [fixed_writer]
        exact (hs.toEnclosedIff.behind hnull).congr (by simp [Term.AllEnclosable])
      · rfl

end Condition

/-! ## Conditions -/

namespace Sql

mutual

theorem termUnits_encloses (ctx : Context) : ∀ t : Term, Answers t.WrittenAs (termUnits ctx.writer ctx.fields t)
  | .field f => by
    obtain ⟨htokens, hpath⟩ := fieldTokens_eq ctx.fields f
    rw [termUnits, Condition.fixed_writer, htokens]
    exact Term.WrittenAs.of_flat trivial rfl (pathTokens_flat hpath)
  | .literal v => literal_written ctx v
  | .condition c => (conditionUnits_encloses ctx c).map fun us hus => .of_group rfl hus

/-- **The tokens of a condition are enclosed iff the condition is fit for it**, and a condition without tokens is an
invalid argument. -/
theorem conditionUnits_encloses (ctx : Context) : ∀ c : Condition,
    Answers (EnclosedIff c.Enclosable) (conditionUnits ctx.writer ctx.fields c)
  | ⟨operator, terms, negated⟩ => by
    refine (Condition.body_encloses (operands_made ctx terms) operator).bind fun us hus => ?_
    cases negated with
    | false => exact hus
    | true =>
      have hnot : EnclosedIff True [.keyword .not] := .of_flat ⟨List.cons_ne_nil _ _, by decide⟩
      exact (hnot.append hus.group).congr (and_iff_right trivial)

theorem operands_made (ctx : Context) : ∀ ts : List Term,
    List.Forall₂ Condition.Operand.MadeOf (operands ctx.writer ctx.fields ts) ts
  | [] => .nil
  | t :: ts => .cons ⟨rfl, termUnits_encloses ctx t⟩ (operands_made ctx ts)

end

end Sql

namespace Condition

/-- **What is written is enclosed iff the tree is fit for it.** A tree is refused as an invalid argument, or written. If
it is written, then the parentheses of its tokens enclose something, and such a pair stands behind every `IN`, iff no
operand that is written is the empty list and membership is tested in lists and conditions only. The text is made of
just these tokens if the placeholders are those of styles. -/
theorem tokens_enclosed_iff (values : Bindings) (fields : FieldMap) (c : Condition) :
    (∀ f, Sql.conditionTokens ⟨values, fields⟩ c = .error f → f.kind = .invalidArgument) ∧
    ∀ ts, Sql.conditionTokens ⟨values, fields⟩ c = .ok ts →
      (WellEnclosed ts ↔ c.Enclosable) ∧ (values.Styled → Sql.scan (Sql.render ts).toList = some ts) := by
  have hanswers : Answers (EnclosedIff c.Enclosable) (Sql.conditionTokens ⟨values, fields⟩ c) :=
    Sql.conditionUnits_encloses ⟨values, fields⟩ c
  refine ⟨fun f hf => ?_, fun ts hts => ⟨?_, fun hstyled => ?_⟩⟩
  · rw [hf] at hanswers
    exact hanswers
  · rw [hts] at hanswers
    exact hanswers.iff
  · have hall := Sql.conditionUnits_all (Context.writer_keeps_styled hstyled fields) fields c ts hts
    exact Sql.scan_render fun t ht => (hall t ht).readable

/-- Membership in a list of one number. -/
theorem memberOfOne_enclosed : ∃ ts,
    Sql.conditionTokens ⟨Bindings.empty.push "5" "%1$d" (.int 5), Dict.ofList [("id", "ID")]⟩
        (.inList (.bare "id") [.int 5]) = .ok ts ∧ WellEnclosed ts := by
  obtain ⟨-, hwritten⟩ := tokens_enclosed_iff (Bindings.empty.push "5" "%1$d" (.int 5)) (Dict.ofList [("id", "ID")])
    (.inList (.bare "id") [.int 5])
  refine ⟨[.name "ID", .keyword .in, .openParen, .placeholder "%1$d", .closeParen], rfl, (hwritten _ rfl).1.2 ?_⟩
  exact Or.inr ⟨⟨trivial, rfl, trivial⟩, fun _ right hright => by cases hright; rfl⟩

/-- Equality with the empty list is written with nothing between its parentheses, and membership in a number without
any. -/
theorem emptyOperand_written :
    (Sql.conditionTokens ⟨.empty, Dict.ofList [("id", "ID")]⟩ (.equalTo (.bare "id") (.list [])) =
        .ok [.name "ID", .sign .equal, .openParen, .closeParen] ∧
      Sql.render [.name "ID", .sign .equal, .openParen, .closeParen] = "\x22ID\x22 = ()" ∧
      ¬WellEnclosed [.name "ID", .sign .equal, .openParen, .closeParen]) ∧
    Sql.conditionTokens ⟨Bindings.empty.push "5" "%1$d" (.int 5), Dict.ofList [("id", "ID")]⟩
        (.compare .in (.bare "id") (.int 5)) = .ok [.name "ID", .keyword .in, .placeholder "%1$d"] ∧
      ¬WellEnclosed [.name "ID", .keyword .in, .placeholder "%1$d"] := by
  refine ⟨⟨rfl, rfl, fun h => ?_⟩, rfl, fun h => ?_⟩
  · have hpair := (List.isChain_cons_cons.1 (List.isChain_cons_cons.1 h.isChain).2).2
    exact (List.isChain_cons_cons.1 hpair).1.1 ⟨rfl, rfl⟩
  · have hmember := (List.isChain_cons_cons.1 h.isChain).2
    have hplaceholder := (List.isChain_cons_cons.1 hmember).1.2 rfl
    cases hplaceholder

end Condition

end BoundSql
