import BoundSql.Proofs.Condition.Json

/-!
# Two ways from JSON to a literal

A literal is read from a JSON text directly, or a JSON value is read first and then converted. Every text that has a
literal has a JSON value, and where no integer of the text is above the signed range the value is converted into the
same literal. An integer above that range (`NumberText.isWide`) is where the two ways part: directly it is read as the
nearest double, which stands in the literal where the integer stands in the text, while the conversion refuses it. It is
refused for the first such integer of the text (`Value.readJson?_converted`).
-/

namespace BoundSql

open Json (Tree)

namespace Json

/-! ## Integers above the signed range -/

/-- Whether a number is written as an integer from `2 ^ 63` to `2 ^ 64 - 1`. -/
def NumberText.isWide (n : NumberText) : Bool :=
  n.fraction.isNone && n.exponent.isNone && !n.negative && Int64.maxValue.toInt < Text.decimalValue n.whole &&
    Text.decimalValue n.whole < UInt64.size

mutual

/-- Integers above the signed range in a syntax tree, from left to right; those in objects do not count. -/
def Tree.wide : Tree → List Nat
  | .number n => if n.isWide then [Text.decimalValue n.whole] else []
  | .array items => Tree.allWide items
  | _ => []

/-- Integers above the signed range in several syntax trees. -/
def Tree.allWide : List Tree → List Nat
  | [] => []
  | t :: ts => t.wide ++ Tree.allWide ts

end

/-- What stands in a syntax tree at a place: positions in arrays, from the outermost one to the innermost one. -/
def Tree.at? (t : Tree) : List Nat → Option Tree
  | [] => some t
  | i :: place =>
    match t with
    | .array items => items[i]?.bind (·.at? place)
    | _ => none

mutual

/-- An integer above the signed range stands at some place. -/
theorem Tree.exists_at?_of_mem_wide {t : Tree} {k : Nat} (h : k ∈ t.wide) :
    ∃ place n, t.at? place = some (.number n) ∧ n.isWide ∧ Text.decimalValue n.whole = k := by
  cases t with
  | number n =>
    rw [wide] at h
    split at h
    next hwide => exact ⟨[], n, rfl, hwide, (List.mem_singleton.1 h).symm⟩
    next => cases h
  | array items =>
    obtain ⟨i, t, ht, place, n, hn, hwide⟩ := exists_at?_of_mem_allWide h
    exact ⟨i :: place, n, by rw [at?, ht, Option.bind_some, hn], hwide⟩
  | _ => cases h

theorem Tree.exists_at?_of_mem_allWide {ts : List Tree} {k : Nat} (h : k ∈ allWide ts) : ∃ (i : Nat) (t : Tree),
    ts[i]? = some t ∧ ∃ place n, t.at? place = some (.number n) ∧ n.isWide ∧ Text.decimalValue n.whole = k := by
  cases ts with
  | nil => cases h
  | cons t ts =>
    rcases List.mem_append.1 h with hfirst | hrest
    · exact ⟨0, t, rfl, exists_at?_of_mem_wide hfirst⟩
    · obtain ⟨i, t', ht', hplace⟩ := exists_at?_of_mem_allWide hrest
      exact ⟨i + 1, t', ht', hplace⟩

end

/-- What comes of a literal beside the integers that cannot be converted: the first of them is refused. -/
def converted {α : Type} (wide : List Nat) (a : α) : Except Failure α :=
  match wide with
  | [] => .ok a
  | n :: _ => .error (.integerOutOfRange n)

theorem inInt64_natCast {n : Nat} : inInt64 n ↔ (n : Int) ≤ Int64.maxValue.toInt := by
  have hmin : Int64.minValue.toInt ≤ (n : Int) := Int.le_trans (by decide) (Int.natCast_nonneg n)
  rw [inInt64, Bool.and_eq_true, decide_eq_true_eq, decide_eq_true_eq]
  exact and_iff_right hmin

theorem NumberText.not_inInt64 {n : NumberText} (h : n.isWide) : ¬inInt64 (Text.decimalValue n.whole) := by
  simp only [isWide, Bool.and_eq_true, decide_eq_true_eq] at h
  exact fun hrange => Int.not_le.2 h.1.2 (inInt64_natCast.1 hrange)

theorem Number.ofText?_of_isWide {n : NumberText} (h : n.isWide) :
    ofText? n = some (.integer (Text.decimalValue n.whole)) := by
  simp only [NumberText.isWide, Bool.and_eq_true, decide_eq_true_eq] at h
  rw [ofText?, if_pos]
  simp only [Bool.and_eq_true, decide_eq_true_eq]
  exact ⟨h.1.1, h.2⟩

/-- A number is converted into what is read directly, or refused as an integer above the signed range. -/
theorem Number.value_ofText? {n : NumberText} {m : Number} (h : Number.ofText? n = some m) :
    (Json.number m).value = converted (if n.isWide then [Text.decimalValue n.whole] else []) (Value.ofNumber m) := by
  rw [Number.ofText?] at h
  split at h
  next hwhole =>
    cases h
    simp only [Bool.and_eq_true, decide_eq_true_eq] at hwhole
    by_cases hrange : inInt64 (Text.decimalValue n.whole)
    · have hwide : n.isWide = false := Bool.eq_false_iff.2 fun hwide => NumberText.not_inInt64 hwide hrange
      simp [Json.value, Value.ofNumber, hrange, hwide, converted]
    · have hwide : n.isWide := by
        have := mt inInt64_natCast.2 hrange
        simp only [NumberText.isWide, Bool.and_eq_true, decide_eq_true_eq]
        exact ⟨⟨hwhole.1, by omega⟩, hwhole.2⟩
      simp [Json.value, hrange, hwide, converted]
  next hwhole =>
    have hwide : n.isWide = false := by
      refine Bool.eq_false_iff.2 fun hwide => hwhole ?_
      simp only [NumberText.isWide, Bool.and_eq_true, decide_eq_true_eq] at hwide
      simp [hwide]
    split at h
    next hnegative =>
      cases h
      simp only [Bool.and_eq_true] at hnegative
      simp [Json.value, Value.ofNumber, hnegative.2, hwide, converted]
    next =>
      obtain ⟨x, _, rfl⟩ := Option.map_eq_some_iff.1 h
      simp [Json.value, Value.ofNumber, hwide, converted]

theorem converted_map {α β : Type} (wide : List Nat) (a : α) (f : α → β) :
    f <$> converted wide a = converted wide (f a) := by
  cases wide <;> rfl

/-- Of two conversions one behind the other the first refusal counts. -/
theorem converted_bind {α β γ : Type} (wide wide' : List Nat) (a : α) (b : β) (f : α → β → γ) :
    (do let x ← converted wide a; return f x (← converted wide' b)) = converted (wide ++ wide') (f a b) := by
  cases wide with
  | nil => exact converted_map wide' b (f a)
  | cons n wide => rfl

end Json

/-! ## Conversions of trees -/

namespace Value

mutual

/-- A tree that is read as a literal is read as a JSON value, which is converted into it unless it has an integer above
the signed range. -/
theorem ofTree?_converted {depth : Nat} {t : Tree} {v : Value} (h : ofTree? depth t = some v) :
    ∃ j, Json.ofTree? depth t = some j ∧ j.value = Json.converted t.wide v := by
  cases t with
  | null => cases h; exact ⟨.null, rfl, rfl⟩
  | bool b => cases h; exact ⟨.bool b, rfl, rfl⟩
  | object members => cases h
  | text s =>
    obtain ⟨s, rfl, rfl⟩ := Option.map_eq_some_iff.1 h
    exact ⟨.text s, rfl, rfl⟩
  | number n =>
    obtain ⟨m, hm, rfl⟩ := Option.map_eq_some_iff.1 h
    exact ⟨.number m, by rw [Json.ofTree?, hm, Option.map_some], Json.Number.value_ofText? hm⟩
  | array items =>
    rw [ofTree?] at h
    split at h
    next hdepth =>
      obtain ⟨vs, hvs, rfl⟩ := Option.map_eq_some_iff.1 h
      obtain ⟨js, hjs, hvalues⟩ := ofTrees?_converted hvs
      refine ⟨.array js, by rw [Json.ofTree?, if_pos hdepth, hjs, Option.map_some], ?_⟩
      rw [Json.value, hvalues, Tree.wide, Json.converted_map]
    next => cases h

theorem ofTrees?_converted {depth : Nat} {ts : List Tree} {vs : List Value} (h : ofTrees? depth ts = some vs) :
    ∃ js, Json.ofTrees? depth ts = some js ∧ Json.values js = Json.converted (Tree.allWide ts) vs := by
  cases ts with
  | nil => cases h; exact ⟨[], rfl, rfl⟩
  | cons t ts =>
    simp only [ofTrees?, Option.bind_eq_bind, Option.bind_eq_some_iff] at h
    obtain ⟨v, hv, vs, hvs, hresult⟩ := h
    cases hresult
    obtain ⟨j, hj, hvalue⟩ := ofTree?_converted hv
    obtain ⟨js, hjs, hvalues⟩ := ofTrees?_converted hvs
    refine ⟨j :: js, by rw [Json.ofTrees?, hj, hjs]; rfl, ?_⟩
    rw [Json.values, hvalue, hvalues, Tree.allWide, Json.converted_bind]

end

/-! ## Places -/

/-- What stands in a value at a place: positions in lists, from the outermost one to the innermost one. -/
def at? (v : Value) : List Nat → Option Value
  | [] => some v
  | i :: place =>
    match v with
    | .list items => items[i]?.bind (·.at? place)
    | _ => none

theorem ofTrees?_getElem? {depth : Nat} {ts : List Tree} {vs : List Value} (h : ofTrees? depth ts = some vs) {i : Nat}
    {t : Tree} (ht : ts[i]? = some t) : ∃ v, vs[i]? = some v ∧ ofTree? depth t = some v := by
  induction ts generalizing vs i with
  | nil => cases ht
  | cons t' ts ih =>
    simp only [ofTrees?, Option.bind_eq_bind, Option.bind_eq_some_iff] at h
    obtain ⟨v, hv, vs, hvs, hresult⟩ := h
    cases hresult
    cases i with
    | zero =>
      cases ht
      exact ⟨v, rfl, hv⟩
    | succ i => exact ih hvs ht

/-- **What stands at a place of a literal is read from what stands there in the tree.** -/
theorem ofTree?_at? {depth : Nat} {t u : Tree} {v : Value} (h : ofTree? depth t = some v) {place : List Nat}
    (hu : t.at? place = some u) : ∃ depth' w, v.at? place = some w ∧ ofTree? depth' u = some w := by
  induction place generalizing depth t v with
  | nil =>
    cases hu
    exact ⟨depth, v, rfl, h⟩
  | cons i place ih =>
    cases t with
    | array items =>
      obtain ⟨t, ht, hu⟩ := Option.bind_eq_some_iff.1 hu
      rw [ofTree?] at h
      split at h
      next =>
        obtain ⟨vs, hvs, rfl⟩ := Option.map_eq_some_iff.1 h
        obtain ⟨w, hw, hread⟩ := ofTrees?_getElem? hvs ht
        obtain ⟨depth', w', hw', hread'⟩ := ih hread hu
        exact ⟨depth', w', by rw [at?, hw, Option.bind_some, hw'], hread'⟩
      next => cases h
    | _ => cases hu

/-- An integer above the signed range is read as a double, which stands where the integer stood. -/
theorem ofTree?_wide {depth : Nat} {t : Tree} {v : Value} (h : ofTree? depth t = some v) {place : List Nat}
    {n : Json.NumberText} (hn : t.at? place = some (.number n)) (hwide : n.isWide) :
    v.at? place = some (.float (Binary64.ofInt (Text.decimalValue n.whole))) := by
  obtain ⟨_, w, hw, hread⟩ := ofTree?_at? h hn
  have hrange := Json.NumberText.not_inInt64 hwide
  rw [ofTree?, Json.Number.ofText?_of_isWide hwide, Option.map_some, ofNumber, if_neg hrange] at hread
  rw [hw, ← hread]

/-! ## Both ways -/

/-- **A literal that is read directly from a text is also what the JSON value of the text is converted into**, unless an
integer of the text is above the signed range: then the conversion fails for the first such integer, while each of them
is read as a double in its place. -/
theorem readJson?_converted {text : String} {v : Value} (h : readJson? text = some v) :
    ∃ t j, Tree.read? text = some t ∧ Json.read? text = some j ∧
      (j.value = match t.wide with
        | [] => .ok v
        | n :: _ => .error (.integerOutOfRange n)) ∧
      (∀ place n, t.at? place = some (.number n) → n.isWide →
        v.at? place = some (.float (Binary64.ofInt (Text.decimalValue n.whole)))) ∧
      ∀ n ∈ t.wide, ∃ place, v.at? place = some (.float (Binary64.ofInt n)) := by
  obtain ⟨t, ht, hv⟩ := Option.bind_eq_some_iff.1 h
  obtain ⟨j, hj, hvalue⟩ := ofTree?_converted hv
  refine ⟨t, j, ht, by rw [Json.read?, ht]; exact hj, hvalue, fun _ _ => ofTree?_wide hv, fun k hk => ?_⟩
  obtain ⟨place, n, hn, hwide, rfl⟩ := Tree.exists_at?_of_mem_wide hk
  exact ⟨place, ofTree?_wide hv hn hwide⟩

/-- Both ends of the signed range, and a list within a list. -/
theorem readJson?_converted_ends :
    readJson? "[-9223372036854775808, 9223372036854775807, [\"2\"]]" =
        some (.list [.int Int64.minValue, .int Int64.maxValue, .list [.text "2"]]) ∧
      ∃ j, Json.read? "[-9223372036854775808, 9223372036854775807, [\"2\"]]" = some j ∧
        j.value = .ok (.list [.int Int64.minValue, .int Int64.maxValue, .list [.text "2"]]) := by
  let least := Json.NumberText.ofInt Int64.minValue.toInt
  let greatest := Json.NumberText.ofInt Int64.maxValue.toInt
  have hscan : Json.Token.scan? "[-9223372036854775808, 9223372036854775807, [\"2\"]]".toList =
      some [.openBracket, .number least, .comma, .number greatest, .comma, .openBracket, .text "2", .closeBracket,
        .closeBracket] := by decide +kernel
  have htree : Tree.read? "[-9223372036854775808, 9223372036854775807, [\"2\"]]" =
      some (.array [.number least, .number greatest, .array [.text "2"]]) := by
    rw [Tree.read?, hscan]
    rfl
  have hread : readJson? "[-9223372036854775808, 9223372036854775807, [\"2\"]]" =
      some (.list [.int Int64.minValue, .int Int64.maxValue, .list [.text "2"]]) := by
    have hleast : (Json.Number.ofText? least).map ofNumber = some (.int Int64.minValue) := ofNumber_ofInt _
    have hgreatest : (Json.Number.ofText? greatest).map ofNumber = some (.int Int64.maxValue) := ofNumber_ofInt _
    simp [readJson?, htree, ofTree?, ofTrees?, hleast, hgreatest, Tree.depthLimit]
  obtain ⟨t, j, ht, hj, hvalue, _⟩ := readJson?_converted hread
  cases htree.symm.trans ht
  exact ⟨hread, j, hj, hvalue⟩

/-- The first integer above the signed range is read as a double, and refused by the conversion. -/
theorem readJson?_not_converted :
    readJson? "9223372036854775808" = some (.float (Binary64.ofInt 9223372036854775808)) ∧
      (Json.read? "9223372036854775808").map Json.value =
        some (.error (.integerOutOfRange 9223372036854775808)) := by
  let beyond : Json.NumberText := ⟨false, "9223372036854775808".toList, none, none⟩
  have hscan : Json.Token.scan? "9223372036854775808".toList = some [.number beyond] := by decide +kernel
  have htree : Tree.read? "9223372036854775808" = some (.number beyond) := by
    rw [Tree.read?, hscan]
    rfl
  have hbeyond : Json.Number.ofText? beyond = some (.integer 9223372036854775808) := by decide +kernel
  have hrange : inInt64 9223372036854775808 = false := by decide
  constructor
  · simp [readJson?, htree, ofTree?, hbeyond, ofNumber, hrange]
  · simp [Json.read?, htree, Json.ofTree?, hbeyond, Json.value, hrange]

end Value

end BoundSql
