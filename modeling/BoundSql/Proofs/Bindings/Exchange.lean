import BoundSql.Proofs.Bindings.Growth
import BoundSql.Proofs.Placeholder.Position
import BoundSql.Proofs.Sql.Matching
import BoundSql.Proofs.Success

/-!
# Exchanged values

A relation between values *exchanges* them if related values differ in nothing but their texts: they announce the same
type, they have canonical texts or not, neither text is among some names unless the values are equal, and two values
share their text iff their partners do (`Value.Exchanges`).

Binders do not notice an exchange: related values are bound, passed over or refused alike, and end up at the same
positions (`Binder.bindScalars_exchanged`).
-/

namespace BoundSql

open Placeholder (Style Scheme)

/-- Two values with the same canonical text. -/
def Value.Share (v u : Value) : Prop := ∃ text, v.canonical = .ok text ∧ u.canonical = .ok text

/-- A relation of values that differ in their texts only, and in those only outside of some names. -/
structure Value.Exchanges (names : List String) (R : Value → Value → Prop) : Prop extends Value.Shaped R where
  tag : ∀ {v v'}, R v v' → v.typeTag = v'.typeTag
  canonical : ∀ {v v'}, R v v' → ((∃ text, v.canonical = .ok text) ↔ ∃ text', v'.canonical = .ok text')
  unnamed : ∀ {v v' text text'}, R v v' → v.canonical = .ok text → v'.canonical = .ok text' →
    text ∉ names ∧ text' ∉ names ∨ v = v'
  share : ∀ {v v' u u'}, R v v' → R u u' → (v.Share u ↔ v'.Share u')

variable {names : List String} {R : Value → Value → Prop}

/-- Two failures, whatever they are. -/
abbrev AnyFailures (_ _ : Failure) : Prop := True

theorem Value.Exchanges.canonical_cases (hR : Value.Exchanges names R) {v v' : Value} (h : R v v') :
    (∃ text text', v.canonical = .ok text ∧ v'.canonical = .ok text') ∨
      ∃ f f', v.canonical = .error f ∧ v'.canonical = .error f' := by
  have hiff := hR.canonical h
  cases hv : v.canonical <;> cases hv' : v'.canonical <;> simp_all

theorem Value.Exchanges.mem_iff (hR : Value.Exchanges names R) {v v' : Value} {text text' : String} (h : R v v')
    (hv : v.canonical = .ok text) (hv' : v'.canonical = .ok text') {ignored : List String}
    (hignored : ignored ⊆ names) : text ∈ ignored ↔ text' ∈ ignored := by
  rcases hR.unnamed h hv hv' with ⟨hn, hn'⟩ | rfl
  · constructor
    · intro hmem
      exact absurd (hignored hmem) hn
    · intro hmem
      exact absurd (hignored hmem) hn'
  · rw [hv] at hv'
    rw [Except.ok.inj hv']

/-! ## Bindings of exchanged values -/

namespace Bindings

/-- Entries that were made for the same position and for related values. -/
def AlikeEntries (s : Scheme) (R : Value → Value → Prop) (e e' : String × Binding) : Prop :=
  ∃ position, Binding.MadeBy s position e ∧ Binding.MadeBy s position e' ∧ R e.2.value e'.2.value

/-- Bindings that were made for related values. -/
def Alike (s : Scheme) (R : Value → Value → Prop) (m m' : Bindings) : Prop :=
  List.Forall₂ (AlikeEntries s R) m.toList m'.toList

theorem Alike.empty (s : Scheme) (R : Value → Value → Prop) : Alike s R empty empty := .nil

variable {s : Scheme} {m m' : Bindings}

theorem Alike.nextPosition (h : m.Alike s R m') : m.nextPosition = m'.nextPosition := by
  rw [Bindings.nextPosition, Bindings.nextPosition, ← m.length_toList, ← m'.length_toList, h.length_eq]

theorem find?_related {α β : Type} {Q : α → β → Prop} {p : α → Bool} {q : β → Bool} {as : List α} {bs : List β}
    (h : List.Forall₂ (fun a b => p a = q b ∧ Q a b) as bs) : Option.Rel Q (as.find? p) (bs.find? q) := by
  induction h with
  | nil => exact .none
  | @cons a b _ _ hab _ ih =>
    rw [List.find?_cons, List.find?_cons, ← hab.1]
    cases p a with
    | true => exact .some hab.2
    | false => exact ih

/-- Related values lead to bindings that were made alike, or to none. -/
theorem Alike.get? (hR : Value.Exchanges names R) (h : m.Alike s R m') {v v' : Value} {text text' : String}
    (hvv' : R v v') (hv : v.canonical = .ok text) (hv' : v'.canonical = .ok text') :
    Option.Rel (fun b b' => ∃ key key', AlikeEntries s R (key, b) (key', b')) (m.get? text) (m'.get? text') := by
  have hkeys : List.Forall₂ (fun e e' => decide (e.1 = text) = decide (e'.1 = text') ∧ AlikeEntries s R e e')
      m.toList m'.toList := by
    refine List.Forall₂.imp (fun e e' he => ⟨?_, he⟩) h
    obtain ⟨_, ⟨_, hcanonical, _⟩, ⟨_, hcanonical', _⟩, hvalues⟩ := he
    have hshare := hR.share hvv' hvalues
    simp only [Value.Share, hv, hv', hcanonical, hcanonical', Except.ok.injEq, exists_eq_left'] at hshare
    exact decide_eq_decide.2 hshare
  have hfind := find?_related hkeys
  rw [get?_eq, get?_eq]
  revert hfind
  cases m.toList.find? (·.1 = text) <;> cases m'.toList.find? (·.1 = text') <;> rintro (_ | he)
  · exact .none
  · exact .some ⟨_, _, ‹_›⟩

theorem isSome_of_rel {α β : Type} {Q : α → β → Prop} {a : Option α} {b : Option β} (h : Option.Rel Q a b) :
    a.isSome = b.isSome := by
  cases h <;> rfl

theorem contains_eq (m : Bindings) (text : String) : m.contains text = (m.get? text).isSome := by
  rw [Bool.eq_iff_iff, contains_iff, get?_eq]
  simp [keys]

end Bindings

/-! ## Walks over exchanged values -/

open Bindings (AlikeEntries)

theorem Placeholder.Style.token_ok (style : Style) {v : Value} {text : String} (hv : v.canonical = .ok text)
    (position : Nat) : ∃ token, style.scheme.token v text position = .ok token := by
  cases style with
  | numbered =>
    simp only [Style.scheme, Style.numberedToken, hv]
    split
    · exact ⟨_, rfl⟩
    · exact ⟨_, rfl⟩
  | contentHash => exact ⟨_, rfl⟩

namespace Binder

variable {style : Style} {b : Binder} {m m' : Bindings}

/-- **One scalar is bound, passed over or refused as its partner is.** -/
theorem bindScalar_exchanged (hR : Value.Exchanges names R) (hb : b.scheme = style.scheme)
    (hignored : b.ignored ⊆ names) (hm : m.Alike style.scheme R m') {v v' : Value} (hvv' : R v v') :
    Related AnyFailures (Bindings.Alike style.scheme R) (b.bindScalar m v) (b.bindScalar m' v') := by
  unfold bindScalar
  rw [hb]
  rcases hR.canonical_cases hvv' with ⟨text, text', hv, hv'⟩ | ⟨f, f', hv, hv'⟩
  · have hcontains : m.contains text = m'.contains text' := by
      rw [Bindings.contains_eq, Bindings.contains_eq]
      exact Bindings.isSome_of_rel (hm.get? hR hvv' hv hv')
    have hmem : b.ignored.contains text = b.ignored.contains text' := by
      rw [Bool.eq_iff_iff, List.contains_iff_mem, List.contains_iff_mem]
      exact hR.mem_iff hvv' hv hv' hignored
    obtain ⟨token, htoken⟩ := style.token_ok hv m.nextPosition
    obtain ⟨token', htoken'⟩ := style.token_ok hv' m'.nextPosition
    rw [hv, hv']
    simp only [bind, Except.bind, hmem, hcontains, htoken, htoken']
    split
    · exact .ok hm
    · refine .ok ?_
      unfold Bindings.Alike
      rw [Bindings.toList_push, Bindings.toList_push]
      refine List.rel_append hm (.cons ⟨m.nextPosition, ⟨rfl, hv, htoken⟩, ?_, hvv'⟩ .nil)
      rw [hm.nextPosition]
      exact ⟨rfl, hv', htoken'⟩
  · rw [hv, hv']
    exact .error trivial

theorem bindScalars_toExcept (b : Binder) (m : Bindings) (vs : List Value) :
    (b.bindScalars m vs).toExcept = vs.foldlM b.bindScalar m := by
  induction vs generalizing m with
  | nil => rfl
  | cons v vs ih =>
    rw [List.foldlM_cons, bindScalars]
    cases b.bindScalar m v with
    | error f => rfl
    | ok m => exact ih m

/-- **Binders do not notice an exchange of values.** -/
theorem bindScalars_exchanged (hR : Value.Exchanges names R) (hb : b.scheme = style.scheme)
    (hignored : b.ignored ⊆ names) (hm : m.Alike style.scheme R m') {vs vs' : List Value}
    (hvs : List.Forall₂ R vs vs') :
    Related AnyFailures (Bindings.Alike style.scheme R) (b.bindScalars m vs).toExcept
      (b.bindScalars m' vs').toExcept := by
  rw [bindScalars_toExcept, bindScalars_toExcept]
  induction hvs generalizing m m' with
  | nil => exact .ok hm
  | cons hv _ ih =>
    rw [List.foldlM_cons, List.foldlM_cons]
    exact (bindScalar_exchanged hR hb hignored hm hv).bind fun _ _ hm => ih hm

end Binder

/-! ## Scalars of matching trees -/

theorem Binder.scalarsOf_related (hR : Value.Shaped R) {v v' : Value} (h : R v v') :
    List.Forall₂ R (scalarsOf v) (scalarsOf v') := by
  have hnull := hR.null h
  have hlist := hR.list h
  cases v with
  | null =>
    cases v' with
    | null => exact .nil
    | _ => cases hnull
  | list items =>
    cases v' with
    | list items' =>
      have hkept : ∀ {a b}, R a b → ((!a.isNull) = true ↔ (!b.isNull) = true) := fun hab => by rw [hR.null hab]
      exact List.rel_filter (R := R) (fun _ _ hab => hkept hab) (hR.items h)
    | _ => cases hlist
  | _ =>
    cases v' with
    | null => cases hnull
    | list items' => cases hlist
    | _ => exact .cons h .nil

mutual

theorem Term.scalars_related (hR : Value.Shaped R) : ∀ t t' : Term, t.Matches R t' →
    List.Forall₂ R t.scalars t'.scalars
  | .literal _, .literal _, h => Binder.scalarsOf_related hR h
  | .field _, .field _, _ => .nil
  | .condition c, .condition c', h => Condition.scalars_related hR c c' h

theorem Condition.scalars_related (hR : Value.Shaped R) : ∀ c c' : Condition, c.Matches R c' →
    List.Forall₂ R c.scalars c'.scalars
  | ⟨_, terms, _⟩, ⟨_, terms', _⟩, h => Term.allScalars_related hR terms terms' h.2.2

theorem Term.allScalars_related (hR : Value.Shaped R) : ∀ ts ts' : List Term, Term.AllMatch R ts ts' →
    List.Forall₂ R (Term.allScalars ts) (Term.allScalars ts')
  | [], [], _ => .nil
  | t :: ts, t' :: ts', h =>
    List.rel_append (Term.scalars_related hR t t' h.1) (Term.allScalars_related hR ts ts' h.2)

end

end BoundSql
