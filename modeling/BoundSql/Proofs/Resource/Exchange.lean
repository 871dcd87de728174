import BoundSql.Proofs.Bindings.Exchange
import BoundSql.Proofs.FieldMap
import BoundSql.Proofs.Resource.Drafts
import BoundSql.Proofs.Sources

/-!
# No value reaches the text

Two calls of the same operation that differ in exchanged values only (`Operation.Matches`, `Value.Exchanges`) send the
same texts to the store, or texts that differ in the checksums of placeholders if those carry one
(`Resource.calls_hide_values`).

The bindings of the two calls are made alike, so the writers over them correspond (`Context.writer_corresponds`), and
matching statements are written alike.
-/

namespace BoundSql

open Sql (Token Context)
open Placeholder (Style Scheme)

variable {names : List String} {R : Value → Value → Prop} {style : Style} {fields : FieldMap}

/-! ## Tokens of exchanged values -/

/-- Eight lower-case hexadecimal digits. -/
def Placeholder.IsChecksum (sum : String) : Prop := sum.toList.length = 8 ∧ sum.toList.all isLowerHex = true

/-- Tokens that are equal but for the checksum of a placeholder. -/
def Sql.Token.SameButChecksum (t t' : Token) : Prop :=
  t = t' ∨ ∃ position sum sum', Placeholder.IsChecksum sum ∧ Placeholder.IsChecksum sum' ∧
    t = .placeholder (":v" ++ toString (position : Nat) ++ "_" ++ sum) ∧
    t' = .placeholder (":v" ++ toString position ++ "_" ++ sum')

namespace Placeholder.Style

/-- Tokens that do not tell exchanged values apart: the same ones, but for checksums if the style has them. -/
def Alike : Style → Token → Token → Prop
  | .numbered => Eq
  | .contentHash => Token.SameButChecksum

theorem Alike.refl (style : Style) (t : Token) : style.Alike t t := by
  cases style with
  | numbered => rfl
  | contentHash => exact Or.inl rfl

theorem isChecksum_checksumText (canonical : String) : IsChecksum (checksumText canonical) := by
  constructor
  · rw [checksumText, String.toList_ofList, Text.length_hexDigits]
  · rw [checksumText, String.toList_ofList, Text.all_isLowerHex_hexDigits]

/-- Tokens made for the same position and the same type are alike. -/
theorem alike_of_madeBy {position : Nat} {e e' : String × Binding} (h : Binding.MadeBy style.scheme position e)
    (h' : Binding.MadeBy style.scheme position e') (htag : e.2.value.typeTag = e'.2.value.typeTag) :
    style.Alike (.placeholder e.2.placeholder) (.placeholder e'.2.placeholder) := by
  rw [token_eq h.2.2, token_eq h'.2.2]
  cases style with
  | numbered => exact congrArg _ (by rw [htag])
  | contentHash =>
    exact Or.inr ⟨position, _, _, isChecksum_checksumText e.1, isChecksum_checksumText e'.1, rfl, rfl⟩

/-- The same text, but for the checksums of placeholders if the style has them. -/
def SameText : Style → String → String → Prop
  | .numbered, text, text' => text = text'
  | .contentHash, text, text' =>
    ∃ ts ts', List.Forall₂ Token.SameButChecksum ts ts' ∧ text = Sql.render ts ∧ text' = Sql.render ts'

theorem sameText_of_alike {ts ts' : List Token} (h : List.Forall₂ style.Alike ts ts') :
    style.SameText (Sql.render ts) (Sql.render ts') := by
  cases style with
  | numbered =>
    have hts : List.Forall₂ Eq ts ts' := h
    rw [List.forall₂_eq_eq_eq] at hts
    exact congrArg Sql.render hts
  | contentHash => exact ⟨ts, ts', h, rfl, rfl⟩

end Placeholder.Style

/-! ## Writers over bindings that were made alike -/

theorem named?_exchanged (hR : Value.Exchanges fields.fields R) {v v' : Value} (h : R v v') :
    fields.named? v = fields.named? v' := by
  rcases hR.canonical_cases h with ⟨text, text', hv, hv'⟩ | ⟨f, f', hv, hv'⟩
  · rcases hR.unnamed h hv hv' with ⟨hn, hn'⟩ | rfl
    · rw [FieldMap.named?_eq_none hv hn, FieldMap.named?_eq_none hv' hn']
    · rfl
  · rw [FieldMap.named?_of_error hv, FieldMap.named?_of_error hv']

namespace Sql

variable {m m' : Bindings}

theorem boundTokens_exchanged (hR : Value.Exchanges names R) (hm : m.Alike style.scheme R m') {v v' : Value}
    (h : R v v') : Related AnyFailures (List.Forall₂ style.Alike) (boundTokens m v) (boundTokens m' v') := by
  unfold boundTokens Bindings.placeholderFor? Bindings.bindingFor?
  rw [hR.null h]
  split
  · exact .ok (.cons (.refl style _) .nil)
  · rcases hR.canonical_cases h with ⟨text, text', hv, hv'⟩ | ⟨f, f', hv, hv'⟩
    · have hget := hm.get? hR h hv hv'
      rw [hv, hv']
      dsimp only
      revert hget
      cases m.get? text <;> cases m'.get? text' <;> rintro (_ | hentries)
      · exact .error trivial
      · obtain ⟨key, key', position, hmade, hmade', hvalues⟩ := ‹_›
        exact .ok (.cons (Style.alike_of_madeBy hmade hmade' (hR.tag hvalues)) .nil)
    · rw [hv, hv']
      exact .error trivial

/-- **Writers over bindings that were made alike correspond.** -/
theorem Context.writer_corresponds (hR : Value.Exchanges fields.fields R) (hm : m.Alike style.scheme R m') :
    (writer ⟨m, fields⟩).Corresponds (writer ⟨m', fields⟩) R AnyFailures style.Alike where
  shaped := hR.toShaped
  failure _ := trivial
  token t _ := .refl style t
  scalar v v' h := by
    have hbound := boundTokens_exchanged hR hm h
    unfold writer scalarTokens
    dsimp only
    rw [named?_exchanged hR h]
    split
    · exact .ok (List.forall₂_same.2 fun t _ => .refl style t)
    · exact hbound

end Sql

/-! ## Drafts of exchanged values -/

/-- Drafts that differ in exchanged values. -/
structure Draft.Exchanged (style : Style) (fields : FieldMap) (R : Value → Value → Prop) (d d' : Draft) : Prop where
  left : d.fields = fields
  right : d'.fields = fields
  statement : d.statement.Matches R d'.statement
  values : Related AnyFailures (Bindings.Alike style.scheme R) d.values.toExcept d'.values.toExcept

theorem Draft.Exchanged.request (hR : Value.Exchanges fields.fields R) {d d' : Draft}
    (h : d.Exchanged style fields R d') :
    Related AnyFailures (fun r r' => style.SameText r.sql r'.sql) d.request d'.request := by
  unfold Draft.request Sql.request
  rw [h.left, h.right]
  refine h.values.bind fun m m' hm => (d.statement.units_related (Sql.Context.writer_corresponds hR hm)
    (fun v v' hv => Sql.boundTokens_exchanged hR hm hv) fields d'.statement h.statement).map fun ts ts' hts => ?_
  exact Style.sameText_of_alike hts

/-! ## Operations that differ in exchanged values -/

/-- Failures that agree on whether a key is missing. -/
def SameLack (f f' : Failure) : Prop := f.isNotFound = f'.isNotFound

theorem sameLack_shaped : Failure.Shaped SameLack := ⟨fun _ => rfl, id⟩

variable {σ σ' : Type} [FieldSource σ] [FieldSource σ']

/-- Operations that differ in the literals of their conditions and in the values of their sources only. -/
def Operation.Matches (R : Value → Value → Prop) : Operation σ → Operation σ' → Prop
  | .select condition ordering limit offset, .select condition' ordering' limit' offset' =>
    Option.Rel (Condition.Matches R) condition condition' ∧ ordering = ordering' ∧ limit = limit' ∧ offset = offset'
  | .insert records, .insert records' => List.Forall₂ (FieldSource.Alike SameLack R) records records'
  | .update changes condition ordering limit, .update changes' condition' ordering' limit' =>
    FieldSource.Alike SameLack R changes changes' ∧ Option.Rel (Condition.Matches R) condition condition' ∧
      ordering = ordering' ∧ limit = limit'
  | .delete condition ordering limit offset, .delete condition' ordering' limit' offset' =>
    Option.Rel (Condition.Matches R) condition condition' ∧ ordering = ordering' ∧ limit = limit' ∧ offset = offset'
  | _, _ => False

namespace Binder

variable {b : Binder} {m m' : Bindings}

theorem bindConditions_exchanged (hR : Value.Exchanges names R) (hb : b.scheme = style.scheme)
    (hignored : b.ignored ⊆ names) (hm : m.Alike style.scheme R m') {cs cs' : List Condition}
    (h : List.Forall₂ (Condition.Matches R) cs cs') :
    Related AnyFailures (Bindings.Alike style.scheme R) (b.bindConditions m cs).toExcept
      (b.bindConditions m' cs').toExcept := by
  rw [bindConditions_eq, bindConditions_eq]
  exact bindScalars_exchanged hR hb hignored hm (List.rel_flatMap h fun c c' => c.scalars_related hR.toShaped c')

theorem bindCondition_exchanged (hR : Value.Exchanges names R) (hb : b.scheme = style.scheme)
    (hignored : b.ignored ⊆ names) (hm : m.Alike style.scheme R m') {c c' : Condition} (h : c.Matches R c') :
    Related AnyFailures (Bindings.Alike style.scheme R) (b.bindCondition m c).toExcept
      (b.bindCondition m' c').toExcept := by
  rw [bindCondition_eq, bindCondition_eq]
  exact bindScalars_exchanged hR hb hignored hm (c.scalars_related hR.toShaped c' h)

theorem bindValues_exchanged (hR : Value.Exchanges names R) (hb : b.scheme = style.scheme)
    (hignored : b.ignored ⊆ names) (hm : m.Alike style.scheme R m') {vs vs' : List Value}
    (h : List.Forall₂ R vs vs') :
    Related AnyFailures (Bindings.Alike style.scheme R) (b.bindValues m vs).toExcept
      (b.bindValues m' vs').toExcept := by
  rw [bindValues_eq, bindValues_eq]
  exact bindScalars_exchanged hR hb hignored hm (List.rel_flatMap h fun _ _ => scalarsOf_related hR.toShaped)

end Binder

namespace Resource

variable (c : Config) {condition condition' : Option Condition}

theorem select_exchanged (hR : Value.Exchanges c.fields.fields R) {joins : List Join}
    (hjoins : List.Forall₂ (Join.Matches R) c.joins joins)
    (h : Option.Rel (Condition.Matches R) condition condition') (ordering : List OrderBy) (limit offset : Option Nat) :
    Draft.Exchanged c.placeholders c.fields R ((selectorOf c).draft condition ordering limit offset)
      ((selectorOf { c with joins := joins }).draft condition' ordering limit offset) where
  left := rfl
  right := rfl
  statement := ⟨rfl, rfl, hjoins, h, rfl, rfl, rfl⟩
  values := by
    have hconditions : List.Forall₂ (Condition.Matches R) (c.joins.map Join.condition ++ condition.toList)
        (joins.map Join.condition ++ condition'.toList) := by
      refine List.rel_append (List.rel_map (fun j j' hj => hj.2.2) hjoins) ?_
      cases h with
      | none => exact .nil
      | some h => exact .cons h .nil
    exact Binder.bindConditions_exchanged (b := (selectorOf c).binder) hR rfl (List.Subset.refl _) (.empty _ _)
      hconditions

theorem insert_exchanged (hR : Value.Exchanges c.fields.fields R) {rows rows' : List Row}
    (h : List.Forall₂ (Row.Matches R) rows rows') :
    Draft.Exchanged c.placeholders c.fields R ((assemble c .direct .direct).inserter.draft rows)
      ((assemble c .direct .direct).inserter.draft rows') where
  left := rfl
  right := rfl
  statement := by
    have hkeys : rows.flatMap Dict.keys = rows'.flatMap Dict.keys := by
      induction h with
      | nil => rfl
      | cons hrow _ ih => rw [List.flatMap_cons, List.flatMap_cons, hrow.keys, ih]
    exact ⟨rfl, congrArg firstOccurrences hkeys, h⟩
  values := Binder.bindValues_exchanged hR rfl (List.nil_subset _) (.empty _ _)
    (List.rel_flatMap h fun _ _ hrow => hrow.values)

theorem update_exchanged (hR : Value.Exchanges c.fields.fields R) {row row' : Row} (hrow : row.Matches R row')
    {c₁ c₂ : Condition} (h : c₁.Matches R c₂) (ordering : List OrderBy) (limit offset : Option Nat) :
    Draft.Exchanged c.placeholders c.fields R
      ((assemble c .direct .direct).updater.draft row ⟨c₁, ordering, limit, offset⟩)
      ((assemble c .direct .direct).updater.draft row' ⟨c₂, ordering, limit, offset⟩) where
  left := rfl
  right := rfl
  statement := ⟨rfl, hrow, .some h, rfl, rfl⟩
  values := by
    rw [Updater.draft_values, Updater.draft_values]
    exact (Binder.bindValues_exchanged hR rfl (List.nil_subset _) (.empty _ _) hrow.values).bind fun _ _ hm =>
      Binder.bindCondition_exchanged hR rfl (List.Subset.refl _) hm h

theorem delete_exchanged (hR : Value.Exchanges c.fields.fields R) {c₁ c₂ : Condition} (h : c₁.Matches R c₂)
    (ordering : List OrderBy) (limit offset : Option Nat) :
    Draft.Exchanged c.placeholders c.fields R
      ((assemble c .direct .direct).deleter.draft ⟨c₁, ordering, limit, offset⟩)
      ((assemble c .direct .direct).deleter.draft ⟨c₂, ordering, limit, offset⟩) where
  left := rfl
  right := rfl
  statement := ⟨rfl, .some h, rfl, rfl, rfl⟩
  values := Binder.bindCondition_exchanged hR rfl (List.Subset.refl _) (.empty _ _) h

theorem batches_related (i : Inserter) {rows rows' : List Row} (h : List.Forall₂ (Row.Matches R) rows rows') :
    List.Forall₂ (List.Forall₂ (Row.Matches R)) (i.batches rows) (i.batches rows') := by
  unfold Inserter.batches
  cases i.mode with
  | batched => exact .cons h .nil
  | perRecord => exact List.rel_map (fun _ _ hrow => .cons hrow .nil) h

theorem changes_related (u : Updater) (hR : Value.Shaped R) {changes : σ} {changes' : σ'}
    (h : FieldSource.Alike SameLack R changes changes') :
    Related AnyFailures (Row.Matches R) (u.changes changes) (u.changes changes') := by
  have hrow : Related AnyFailures (Row.Matches R) (Row.ofSource u.fields changes) (Row.ofSource u.fields changes') :=
    (Row.ofSource_related hR sameLack_shaped h u.fields).imp (fun _ _ _ => trivial) fun _ _ h => h
  refine hrow.bind ?_
  intro row row' hrow
  rw [hrow.isEmpty]
  split
  · exact .error trivial
  · exact .ok hrow

theorem prepare_related (u : Updater) (hu : u.targeting = .direct) (hR : Value.Shaped R) {changes : σ} {changes' : σ'}
    (h : FieldSource.Alike SameLack R changes changes') (c₁ c₂ : Condition) (ordering : List OrderBy)
    (limit : Option Nat) :
    Related AnyFailures (fun p p' => p.1.Matches R p'.1 ∧ p.2 = [⟨c₁, ordering, limit, none⟩] ∧
      p'.2 = [⟨c₂, ordering, limit, none⟩]) (u.prepare changes (some c₁) ordering limit)
      (u.prepare changes' (some c₂) ordering limit) := by
  refine (changes_related u hR h).bind ?_
  intro row row' hrow
  unfold Updater.targets
  rw [hu]
  exact .ok ⟨hrow, rfl, rfl⟩

/-- The drafts of matching operations differ in exchanged values. -/
theorem drafts_exchanged (hR : Value.Exchanges c.fields.fields R) {joins : List Join}
    (hjoins : List.Forall₂ (Join.Matches R) c.joins joins) {op : Operation σ} {op' : Operation σ'}
    (h : op.Matches R op') :
    Related AnyFailures (List.Forall₂ (Draft.Exchanged c.placeholders c.fields R))
      ((assemble c .direct .direct).drafts op) ((assemble { c with joins := joins } .direct .direct).drafts op') := by
  cases op with
  | select condition ordering limit offset =>
    cases op' with
    | select condition' ordering' limit' offset' =>
      obtain ⟨hcondition, rfl, rfl, rfl⟩ := h
      exact .ok (.cons (select_exchanged c hR hjoins hcondition ordering limit offset) .nil)
    | _ => exact h.elim
  | insert records =>
    cases op' with
    | insert records' =>
      have hrows : Related SameLack (List.Forall₂ (Row.Matches R)) (records.mapM (Row.ofSource c.fields))
          (records'.mapM (Row.ofSource c.fields)) :=
        Related.mapM (h.imp fun _ _ hsource => Row.ofSource_related hR.toShaped sameLack_shaped hsource c.fields)
      cases h with
      | nil => exact .ok .nil
      | cons =>
        refine (hrows.imp (fun _ _ _ => trivial) fun _ _ h => h).map ?_
        intro rows rows' hrows
        have hbatches := batches_related (assemble c .direct .direct).inserter hrows
        exact List.rel_map (R := List.Forall₂ (Row.Matches R)) (fun _ _ hbatch => insert_exchanged c hR hbatch) hbatches
    | _ => exact h.elim
  | update changes condition ordering limit =>
    cases op' with
    | update changes' condition' ordering' limit' =>
      obtain ⟨hsource, hcondition, rfl, rfl⟩ := h
      cases hcondition with
      | none => exact .error trivial
      | some h =>
        refine (prepare_related (assemble c .direct .direct).updater rfl hR.toShaped hsource _ _ ordering limit).map ?_
        rintro ⟨row, _⟩ ⟨row', _⟩ ⟨hrow, rfl, rfl⟩
        exact .cons (update_exchanged c hR hrow h ordering limit none) .nil
    | _ => exact h.elim
  | delete condition ordering limit offset =>
    cases op' with
    | delete condition' ordering' limit' offset' =>
      obtain ⟨hcondition, rfl, rfl, rfl⟩ := h
      cases hcondition with
      | none => exact .error trivial
      | some h => exact .ok (.cons (delete_exchanged c hR h ordering limit offset) .nil)
    | _ => exact h.elim

/-! ## Two runs -/

/-- **No value reaches the text.** Two calls of an operation that differ in exchanged values only: whatever the stores
answer, the texts of the n-th statements are the same, but for the checksums of placeholders if the style has them, and
under the same answers there are equally many. -/
theorem calls_hide_values (hR : Value.Exchanges c.fields.fields R) {joins : List Join}
    (hjoins : List.Forall₂ (Join.Matches R) c.joins joins) {op : Operation σ} {op' : Operation σ'}
    (h : op.Matches R op') (store store' : Recorder) :
    (∀ (i : Nat) (call call' : Call), ((assemble c .direct .direct).calls op store)[i]? = some call →
      ((assemble { c with joins := joins } .direct .direct).calls op' store')[i]? = some call' →
        c.placeholders.SameText call.sql call'.sql) ∧
    (store.outcomes = store'.outcomes → ((assemble c .direct .direct).calls op store).length =
      ((assemble { c with joins := joins } .direct .direct).calls op' store').length) := by
  have hrequests : List.Forall₂ (Related AnyFailures fun r r' => c.placeholders.SameText r.sql r'.sql)
      ((assemble c .direct .direct).requests op)
      ((assemble { c with joins := joins } .direct .direct).requests op') := by
    unfold requests
    have hdrafts := drafts_exchanged c hR hjoins h
    revert hdrafts
    generalize (assemble c .direct .direct).drafts op = ds,
      (assemble { c with joins := joins } .direct .direct).drafts op' = ds'
    rintro (hds | _)
    · exact List.rel_map (fun _ _ hd => hd.request hR) hds
    · exact .nil
  rw [calls_eq, calls_eq]
  constructor
  · intro i call call' hcall hcall'
    obtain ⟨r, hr, rfl⟩ := Recorder.made_getElem? hcall
    obtain ⟨r', hr', rfl⟩ := Recorder.made_getElem? hcall'
    have hrelated := getElem?_related hrequests hr hr'
    cases hrelated with
    | ok hsame => exact hsame
  · intro houtcomes
    rw [houtcomes]
    exact (Recorder.made_related hrequests).length_eq

/-- One name for another. -/
def annForBob (v v' : Value) : Prop := v = .text "Ann" ∧ v' = .text "Bob"

theorem annForBob_exchanges : Value.Exchanges Config.users.fields.fields annForBob where
  null := by rintro _ _ ⟨rfl, rfl⟩; rfl
  list := by rintro _ _ ⟨rfl, rfl⟩; rfl
  items := by rintro _ _ ⟨h, _⟩; cases h
  tag := by rintro _ _ ⟨rfl, rfl⟩; rfl
  canonical := by rintro _ _ ⟨rfl, rfl⟩; exact ⟨fun _ => ⟨_, rfl⟩, fun _ => ⟨_, rfl⟩⟩
  unnamed := by
    rintro _ _ text text' ⟨rfl, rfl⟩ h h'
    cases h
    cases h'
    exact Or.inl (by decide)
  share := by
    rintro _ _ _ _ ⟨rfl, rfl⟩ ⟨rfl, rfl⟩
    exact ⟨fun _ => ⟨_, rfl, rfl⟩, fun _ => ⟨_, rfl, rfl⟩⟩

/-- A selection by name. -/
def findName (name : String) : Operation Record :=
  .select (some (.equalTo (.bare "name") (.text name))) [] none none

/-- The text of a selection by name does not tell the name. -/
theorem findName_hides_name :
    ∃ call call', ((assemble Config.users .direct .direct).calls (findName "Ann") Recorder.empty)[0]? = some call ∧
      ((assemble Config.users .direct .direct).calls (findName "Bob") Recorder.empty)[0]? = some call' ∧
        call.sql = call'.sql := by
  have hAnn : (((assemble Config.users .direct .direct).calls (findName "Ann") Recorder.empty)[0]?).isSome := by
    decide +kernel
  have hBob : (((assemble Config.users .direct .direct).calls (findName "Bob") Recorder.empty)[0]?).isSome := by
    decide +kernel
  obtain ⟨call, hcall⟩ := Option.isSome_iff_exists.1 hAnn
  obtain ⟨call', hcall'⟩ := Option.isSome_iff_exists.1 hBob
  have hmatches : Operation.Matches annForBob (findName "Ann") (findName "Bob") :=
    ⟨.some ⟨rfl, rfl, rfl, ⟨rfl, rfl⟩, trivial⟩, rfl, rfl, rfl⟩
  exact ⟨call, call', hcall, hcall', (calls_hide_values Config.users annForBob_exchanges .nil hmatches Recorder.empty
    Recorder.empty).1 0 call call' hcall hcall'⟩

end Resource

end BoundSql
