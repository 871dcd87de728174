import BoundSql.Proofs.Bindings.History
import BoundSql.Proofs.Bindings.Lookup
import BoundSql.Proofs.Bindings.Recursion
import BoundSql.Proofs.Value.Integer
import Std.Data.String.ToInt

/-!
# Numbers with one text

Values are bound under their texts alone, so the number that is bound for another one is a number with the same decimal
digits. Two integers with one text are equal, and so are two doubles. An integer and a double have one text only if the
double is nearest to the integer (`Binary64.isNearest_of_text`), since the double is read back from the text.

So a number is bound as the same number, unless an integer that no double is meets the double that is nearest to it
(`Bindings.number_of_bound`). Integers up to `2 ^ 53` are doubles; above, such a meeting does happen
(`Bindings.beyondDoubles_confused`).
-/

namespace BoundSql

/-! ## Texts of integers -/

/-- The numeral that an integer is written as. -/
def WrittenNumeral.ofInt (n : Int) : WrittenNumeral where
  sign := if n < 0 then .minus else .absent
  whole := ⟨n.natAbs.repr.toList, List.all_eq_true.2 (Text.all_isDigit_repr n.natAbs)⟩
  fraction := none
  exponent := none
  nonempty := List.append_ne_nil_of_left_ne_nil (Text.repr_toList_ne_nil n.natAbs) _

namespace WrittenNumeral

theorem isPlain_ofInt (n : Int) : (ofInt n).IsPlain := ⟨rfl, rfl⟩

theorem chars_ofInt (n : Int) : (ofInt n).chars = (toString n).toList := by
  rw [chars, (value_of_isPlain (isPlain_ofInt n)).1]
  cases n with
  | ofNat n => rfl
  | negSucc n => simp [ofInt, toString, Int.repr, WrittenSign.chars]

theorem value_ofInt (n : Int) : (ofInt n).value = n := by
  have hdigits : (ofInt n).whole.value = n.natAbs := Text.decimalValue_repr n.natAbs
  rw [(value_of_isPlain (isPlain_ofInt n)).2, hdigits, Int.cast_inj]
  by_cases h : n < 0
  · have hminus : (ofInt n).sign = .minus := if_pos h
    rw [hminus, if_pos (show WrittenSign.minus.isMinus = true from rfl)]
    omega
  · have habsent : (ofInt n).sign = .absent := if_neg h
    rw [habsent, if_neg (by decide)]
    omega

end WrittenNumeral

namespace Binary64

variable {x y : Binary64}

theorem isNumeric_plain : Layout.plain.IsNumeric := ⟨.inl rfl, .inl rfl⟩

/-- Finite doubles are told apart by their texts. -/
theorem eq_of_text (hx : x.isFinite) (hy : y.isFinite) (h : Layout.plain.text x = Layout.plain.text y) : x = y := by
  have hread := ofText?_text isNumeric_plain hx
  rw [h, ofText?_text isNumeric_plain hy] at hread
  exact (Option.some.inj hread).symm

/-- **A double with the text of an integer is nearest to the integer.** -/
theorem isNearest_of_text {n : Int} (hx : x.isFinite) (h : Layout.plain.text x = toString n) : x.IsNearest n := by
  -- the text is read as `x` itself, and as the double `y` that is nearest to the integer
  obtain ⟨y, hy, hnearest⟩ := (WrittenNumeral.ofInt n).ofText?_chars
  have hread := ofText?_text isNumeric_plain hx
  rw [h, ← WrittenNumeral.chars_ofInt, hy] at hread
  rwa [Option.some.inj hread, WrittenNumeral.value_ofInt] at hnearest

end Binary64

/-! ## Numbers among the values -/

namespace Value

/-- The number that a value denotes, if it is an integer or a finite double. -/
def number? : Value → Option ℚ
  | .int n => some n.toInt
  | .float x => x.value?
  | _ => none

/-- An integer that no double is, and a double that is nearest to it. -/
def RoundsTo : Value → Value → Prop
  | .int n, .float x => x.IsNearest n.toInt ∧ ∀ y : Binary64, y.value? ≠ some (n.toInt : ℚ)
  | _, _ => False

variable {v w : Value} {text : String}

theorem canonical_float {x : Binary64} (h : (float x).canonical = .ok text) :
    x.isFinite ∧ Layout.plain.text x = text := by
  rw [canonical] at h
  split at h
  · next hfinite => exact ⟨hfinite, Except.ok.inj h⟩
  · cases h

/-- A number with a text denotes something. -/
theorem exists_number? (hv : v.canonical = .ok text) (hnumber : v.typeTag ≠ .string) : ∃ q, v.number? = some q := by
  cases v with
  | int n => exact ⟨_, rfl⟩
  | float x =>
    obtain ⟨hfinite, -⟩ := canonical_float hv
    cases x with
    | finite negative units hrep => exact ⟨_, rfl⟩
    | nan => cases hfinite
    | infinity negative => cases hfinite
  | _ => exact absurd rfl hnumber

/-- Numbers of one type are told apart by their texts. -/
theorem eq_of_canonical (hv : v.canonical = .ok text) (hw : w.canonical = .ok text) (hnumber : v.typeTag ≠ .string)
    (htag : v.typeTag = w.typeTag) : v = w := by
  cases v with
  | int n =>
    cases w with
    | int m =>
      have htext : toString n.toInt = toString m.toInt := (Except.ok.inj hv).trans (Except.ok.inj hw).symm
      rw [Int64.toInt_inj.1 (Int.repr_injective htext)]
    | _ => cases htag
  | float x =>
    cases w with
    | float y =>
      obtain ⟨hx, htext⟩ := canonical_float hv
      obtain ⟨hy, htext'⟩ := canonical_float hw
      rw [Binary64.eq_of_text hx hy (htext.trans htext'.symm)]
    | _ => cases htag
  | _ => exact absurd rfl hnumber

/-- An integer and a double with one text are one number, or the integer is rounded to the double. -/
theorem number?_eq_iff {n : Int64} {x : Binary64} (hn : (int n).canonical = .ok text)
    (hx : (float x).canonical = .ok text) :
    ((int n).number? = (float x).number? ↔ ¬(int n).RoundsTo (float x)) ∧
      (n.toInt.natAbs ≤ 2 ^ 53 → (int n).number? = (float x).number?) := by
  obtain ⟨hfinite, htext⟩ := canonical_float hx
  have hnearest : x.IsNearest n.toInt :=
    Binary64.isNearest_of_text hfinite (htext.trans (Except.ok.inj hn).symm)
  refine ⟨⟨fun heq hrounds => hrounds.2 x heq.symm, fun hrounds => ?_⟩, fun hsmall => ?_⟩
  · have hdouble : ∃ y : Binary64, y.value? = some (n.toInt : ℚ) := by
      by_contra hnone
      exact hrounds ⟨hnearest, not_exists.1 hnone⟩
    obtain ⟨y, hy⟩ := hdouble
    exact (hnearest.value?_eq hy).symm
  · obtain ⟨y, hy⟩ := Binary64.exists_value?_eq_int hsmall
    exact (hnearest.value?_eq hy).symm

/-- Whether two numbers with one text are the same number. -/
theorem number?_of_canonical (hv : v.canonical = .ok text) (hw : w.canonical = .ok text) (hnv : v.typeTag ≠ .string)
    (hnw : w.typeTag ≠ .string) :
    (v.number? = w.number? ↔ ¬(v.RoundsTo w ∨ w.RoundsTo v)) ∧
      ((∃ n : Int64, (v = .int n ∨ w = .int n) ∧ n.toInt.natAbs ≤ 2 ^ 53) → v.number? = w.number?) := by
  by_cases htag : v.typeTag = w.typeTag
  · obtain rfl := eq_of_canonical hv hw hnv htag
    refine ⟨iff_of_true rfl ?_, fun _ => rfl⟩
    cases v <;> simp [RoundsTo]
  · cases v with
    | int n =>
      cases w with
      | int m => exact absurd rfl htag
      | float x =>
        obtain ⟨hiff, hsmall⟩ := number?_eq_iff hv hw
        refine ⟨by simpa [RoundsTo] using hiff, ?_⟩
        rintro ⟨m, hm | hm, hle⟩
        · cases hm
          exact hsmall hle
        · cases hm
      | _ => exact absurd rfl hnw
    | float x =>
      cases w with
      | int n =>
        obtain ⟨hiff, hsmall⟩ := number?_eq_iff hw hv
        refine ⟨eq_comm.trans (by simpa [RoundsTo] using hiff), ?_⟩
        rintro ⟨m, hm | hm, hle⟩
        · cases hm
        · cases hm
          exact (hsmall hle).symm
      | float y => exact absurd rfl htag
      | _ => exact absurd rfl hnw
    | _ => exact absurd rfl hnv

end Value

/-! ## Bound numbers -/

namespace Bindings

variable {requests : List BindRequest} {v : Value} {binding : Binding}

/-- What is bound for a value has the value's text. -/
theorem canonical_of_bound (h : (after requests).bindingFor? v = some binding) :
    ∃ text, v.canonical = .ok text ∧ binding.value.canonical = .ok text := by
  unfold bindingFor? at h
  cases hv : v.canonical with
  | error f =>
    rw [hv] at h
    cases h
  | ok text =>
    rw [hv] at h
    obtain ⟨i, hi⟩ := getElem?_of_get? h
    obtain ⟨-, -, -, hcanonical, -⟩ := after_made hi
    exact ⟨text, rfl, hcanonical⟩

/-- **A number is bound as the same number, unless an integer that no double is meets a double nearest to it.** Whatever
requests were made, if the value that is bound for a number is a number, then both denote something. They denote the
same unless one is an integer that no double is and the other a double nearest to it. So they do if one of them is an
integer up to `2 ^ 53`, and a number is bound as it is if it is of the type of the bound value. -/
theorem number_of_bound (requests : List BindRequest) (v : Value) (binding : Binding)
    (h : (after requests).bindingFor? v = some binding) (hv : v.typeTag ≠ .string)
    (hw : binding.value.typeTag ≠ .string) :
    (∃ q r, v.number? = some q ∧ binding.value.number? = some r) ∧
    (v.number? = binding.value.number? ↔ ¬(v.RoundsTo binding.value ∨ binding.value.RoundsTo v)) ∧
    ((∃ n : Int64, (v = .int n ∨ binding.value = .int n) ∧ n.toInt.natAbs ≤ 2 ^ 53) →
      v.number? = binding.value.number?) ∧
    (v.typeTag = binding.value.typeTag → v = binding.value) := by
  obtain ⟨text, htext, htext'⟩ := canonical_of_bound h
  obtain ⟨hiff, hsmall⟩ := Value.number?_of_canonical htext htext' hv hw
  obtain ⟨q, hq⟩ := Value.exists_number? htext hv
  obtain ⟨r, hr⟩ := Value.exists_number? htext' hw
  exact ⟨⟨q, r, hq, hr⟩, hiff, hsmall, Value.eq_of_canonical htext htext' hv⟩

/-- A request to bind a condition with a list. -/
def listRequest (items : List Value) : BindRequest :=
  .condition (Binder.ofStyle .numbered) (.inList (.bare "id") items)

/-- Of two values with one text the first is bound for both. -/
theorem bound_as_first {w : Value} {text : String} (hv : v.canonical = .ok text) (hw : w.canonical = .ok text) :
    ((listRequest [v, w]).run empty).failure? = none ∧
      ∃ binding, (after [listRequest [v, w]]).bindingFor? w = some binding ∧ binding.value = v := by
  have hnull {u : Value} (hu : u.canonical = .ok text) : u.isNull = false := by
    cases u with
    | null => cases hu
    | _ => rfl
  have hscalars : (Condition.inList (.bare "id") [v, w]).scalars = [v, w] := by
    show [] ++ ([v, w].filter (fun item => !item.isNull) ++ []) = _
    simp [hnull hv, hnull hw]
  have hseen : text ∈ [] ++ (empty.push text (Placeholder.Style.numbered.text v text empty.nextPosition) v).keys := by
    rw [keys_push]
    exact List.mem_singleton_self text
  have hrun : (listRequest [v, w]).run empty =
      ⟨empty.push text (Placeholder.Style.numbered.text v text 1) v, none⟩ := by
    show (Binder.ofStyle .numbered).bindCondition empty _ = _
    rw [Binder.bindCondition_eq, hscalars, Binder.bindScalars, Binder.ofStyle,
      Binder.bindScalar_of_unseen .numbered [] hv List.not_mem_nil]
    dsimp only
    rw [Binder.bindScalars, Binder.bindScalar_of_seen .numbered [] hw hseen]
    rfl
  refine ⟨by rw [hrun], ⟨1, Placeholder.Style.numbered.text v text 1, v⟩, ?_, rfl⟩
  show ((listRequest [v, w]).run empty).bindings.bindingFor? w = _
  rw [hrun, bindingFor?, hw]
  show (empty.push text _ v).get? text = _
  rw [get?_push, if_pos rfl]
  rfl

/-- Five as a double is met before five as an integer. -/
theorem number_of_five : ∃ binding,
    (after [listRequest [.float (.ofInt 5), .int 5]]).bindingFor? (.int 5) = some binding ∧
      binding.value.typeTag ≠ .string ∧ (Value.int 5).typeTag ≠ .string ∧
      (Value.int 5).number? = binding.value.number? := by
  have htext : (Value.float (.ofInt 5)).canonical = .ok "5" := by
    apply eq_ok_of_toOption
    decide +kernel
  obtain ⟨-, binding, hbinding, hvalue⟩ := bound_as_first htext (show (Value.int 5).canonical = .ok "5" from rfl)
  have htag : binding.value.typeTag ≠ .string := by
    rw [hvalue]
    decide
  obtain ⟨-, -, hsmall, -⟩ := number_of_bound [listRequest [.float (.ofInt 5), .int 5]] (.int 5) binding hbinding
    (by decide) htag
  exact ⟨binding, hbinding, htag, by decide, hsmall ⟨5, Or.inl rfl, by decide⟩⟩

/-- An integer beyond `2 ^ 53` is bound as the double nearest to it, which is another number. -/
theorem beyondDoubles_confused :
    ((listRequest [.float (.ofInt (2 ^ 62)), .int 4611686018427388000]).run empty).failure? = none ∧
    ∃ binding, (after [listRequest [.float (.ofInt (2 ^ 62)), .int 4611686018427388000]]).bindingFor?
        (.int 4611686018427388000) = some binding ∧
      binding.value = .float (.ofInt (2 ^ 62)) ∧ (Value.int 4611686018427388000).number? = some 4611686018427388000 ∧
      binding.value.number? = some 4611686018427387904 := by
  have htext : (Value.float (.ofInt (2 ^ 62))).canonical = .ok "4611686018427388000" := by
    apply eq_ok_of_toOption
    decide +kernel
  obtain ⟨haccepted, binding, hbinding, hvalue⟩ := bound_as_first htext
    (show (Value.int 4611686018427388000).canonical = .ok "4611686018427388000" from rfl)
  have hwhole : (Binary64.ofInt (2 ^ 62)).toInt? = some 4611686018427387904 := by decide +kernel
  refine ⟨haccepted, binding, hbinding, hvalue, ?_, ?_⟩
  · have hint : (4611686018427388000 : Int64).toInt = 4611686018427388000 := by decide
    rw [Value.number?, hint]
    norm_num
  · rw [hvalue]
    exact (Binary64.toInt?_eq_some.1 hwhole).trans (by norm_num)

end Bindings

end BoundSql
