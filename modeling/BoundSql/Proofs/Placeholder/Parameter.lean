import BoundSql.Proofs.Bindings.Exchange
import BoundSql.Proofs.Bindings.History
import BoundSql.Proofs.Placeholder.Rewrite
import Mathlib.Data.List.Nodup

/-!
# Tokens as parameter names

`ParameterName p` is the form of the names that carry the position `p`, and `position?` reads these names and no others
(`position?_eq_some_iff`). What a driver gets for the token of a style has this form: a numbered token becomes the
parameter of its position, and a token with a checksum is a parameter name as it stands (`toIndexed_token`).

The tokens of any bindings carry 1, 2, 3 and so on in their order (`Bindings.after_carried`), so no two of them are
equal. Their checksums may be.
-/

namespace BoundSql

namespace Placeholder

variable {p : Nat} {name : String} {cs digits : List Char}

/-! ## The form of parameter names -/

/-- A run of ASCII digits that denotes a number. -/
structure IsNumeral (digits : List Char) (n : Nat) : Prop where
  ne_nil : digits ≠ []
  digit : ∀ c ∈ digits, c.isDigit = true
  value : Text.decimalValue digits = n

/-- Parameter names that carry a position: its digits behind a question mark, or in front of a checksum. -/
inductive ParameterName (p : Nat) : List Char → Prop
  | indexed {digits : List Char} (h : IsNumeral digits p) : ParameterName p ('?' :: digits)
  | checked {digits sum : List Char} (h : IsNumeral digits p) (hlength : sum.length = 8)
      (hsum : ∀ c ∈ sum, isLowerHex c = true) : ParameterName p (':' :: 'v' :: (digits ++ '_' :: sum))

theorem isNumeral_repr (n : Nat) : IsNumeral n.repr.toList n :=
  ⟨Text.repr_toList_ne_nil n, Text.all_isDigit_repr n, Text.decimalValue_repr n⟩

theorem index?_eq_some_iff {n : Nat} : index? digits = some n ↔ IsNumeral digits n ∧ n < UInt64.size := by
  have hrun : (digits.isEmpty || !digits.all Char.isDigit) = true ↔
      ¬(digits ≠ [] ∧ ∀ c ∈ digits, c.isDigit = true) := by
    simp [← List.all_eq_true, Classical.or_iff_not_imp_left]
  unfold index?
  constructor
  · intro h
    split at h
    · cases h
    · next hdigits =>
      obtain ⟨hne, hall⟩ := Classical.not_not.1 (mt hrun.2 hdigits)
      dsimp only at h
      split at h
      · next hlt =>
        cases h
        exact ⟨⟨hne, hall, rfl⟩, hlt⟩
      · cases h
  · rintro ⟨⟨hne, hall, rfl⟩, hlt⟩
    rw [if_neg fun hnot => hrun.1 hnot ⟨hne, hall⟩]
    exact if_pos hlt

/-! ## Reading a name -/

/-- The digits of a name with a checksum end at its underscore. -/
theorem position?_checked (hname : name.toList = ':' :: 'v' :: (digits ++ '_' :: cs))
    (hdigits : ∀ c ∈ digits, Text.isDecimalDigit c = true) :
    position? name = if cs.length = 8 && cs.all isLowerHex then index? digits else none := by
  have hunderscore : Text.isDecimalDigit '_' = false := by decide
  simp only [position?, hname, Text.dropWhile_append_cons hdigits hunderscore,
    Text.takeWhile_append_cons hdigits hunderscore]

theorem ParameterName.position? (h : ParameterName p name.toList) (hp : p < UInt64.size) :
    position? name = some p := by
  generalize hname : name.toList = cs at h
  cases h with
  | indexed h =>
    unfold Placeholder.position?
    rw [hname]
    exact index?_eq_some_iff.2 ⟨h, hp⟩
  | checked h hlength hsum =>
    rw [position?_checked hname fun c hc => Text.isDecimalDigit_of_isDigit (h.digit c hc), if_pos]
    · exact index?_eq_some_iff.2 ⟨h, hp⟩
    · simpa [hlength] using hsum

theorem parameterName_of_position? (h : position? name = some p) :
    p < UInt64.size ∧ ParameterName p name.toList := by
  generalize hname : name.toList = cs
  unfold position? at h
  rw [hname] at h
  split at h
  · obtain ⟨hdigits, hp⟩ := index?_eq_some_iff.1 h
    exact ⟨hp, .indexed hdigits⟩
  · next rest =>
    have hrest := List.takeWhile_append_dropWhile (p := Text.isDecimalDigit) (l := rest)
    split at h
    · next sum hdrop =>
      rw [hdrop] at hrest
      split at h
      · next hsum =>
        obtain ⟨hdigits, hp⟩ := index?_eq_some_iff.1 h
        simp only [Bool.and_eq_true, decide_eq_true_eq, List.all_eq_true] at hsum
        exact ⟨hp, hrest ▸ .checked hdigits hsum.1 hsum.2⟩
      · cases h
    · cases h
  · cases h

/-- **The names that a position is read from are those that carry it**, and it fits into a word. -/
theorem position?_eq_some_iff : position? name = some p ↔ p < UInt64.size ∧ ParameterName p name.toList :=
  ⟨parameterName_of_position?, fun h => h.2.position? h.1⟩

/-! ## Tokens in front of a driver -/

/-- What a driver gets for the token of a style: the parameter of a position, or the token itself. -/
def Style.parameter : Style → String → Nat → String
  | .numbered, _, position => "?" ++ toString position
  | .contentHash, token, _ => token

/-- **A driver gets the parameter for a numbered token**, and a token with a checksum as it stands. -/
theorem toIndexed_token {style : Style} {v : Value} {canonical token : String} {position : Nat}
    (h : style.scheme.token v canonical position = .ok token) :
    toIndexed token = style.parameter token position := by
  rw [← String.toList_inj, toList_toIndexed, Style.token_eq h]
  cases style with
  | numbered =>
    have hindexed := indexed_numberedText v.typeTag position []
    rwa [List.append_nil, indexed_nil, List.append_nil] at hindexed
  | contentHash =>
    have hindexed := indexed_contentText canonical position []
    rwa [List.append_nil, indexed_nil, List.append_nil] at hindexed

theorem parameterName_token {style : Style} {v : Value} {canonical token : String} {position : Nat}
    (h : style.scheme.token v canonical position = .ok token) :
    ParameterName position (style.parameter token position).toList := by
  rw [Style.token_eq h]
  cases style with
  | numbered =>
    have hname := ParameterName.indexed (isNumeral_repr position)
    simpa [Style.parameter] using hname
  | contentHash =>
    have hname := ParameterName.checked (isNumeral_repr position)
      (Text.length_hexDigits 8 (Digest.checksum canonical).toNat)
      (List.all_eq_true.1 (Text.all_isLowerHex_hexDigits 8 _))
    simpa [Style.parameter, Style.contentText, Style.checksumText] using hname

end Placeholder

/-! ## Tokens of bindings -/

namespace Bindings

open Placeholder (Style)

variable {requests : List BindRequest}

/-- **The tokens of bindings carry the positions 1, 2, 3 and so on**, whoever has bound and in whichever style. -/
theorem after_carried (h : ∀ r ∈ requests, ∃ style : Style, r.binder.scheme = style.scheme) :
    (after requests).placeholders.map Placeholder.carried? =
      (List.range (after requests).size).map fun i => some (i + 1) := by
  refine List.ext_getElem? fun i => ?_
  rw [placeholders, List.map_map, List.getElem?_map, List.getElem?_map, ← length_toList]
  cases he : (after requests).toList[i]? with
  | none =>
    rw [List.getElem?_eq_none (by simpa using he)]
    rfl
  | some e =>
    obtain ⟨hi, -⟩ := List.getElem?_eq_some_iff.1 he
    obtain ⟨r, ⟨before, later, hrequests, -⟩, -, -, hmade⟩ := after_made he
    obtain ⟨style, hstyle⟩ := h r (hrequests ▸ List.mem_append_right _ List.mem_cons_self)
    rw [List.getElem?_range hi]
    exact congrArg some (Style.carried?_token (hstyle ▸ hmade))

theorem after_placeholders_nodup (h : ∀ r ∈ requests, ∃ style : Style, r.binder.scheme = style.scheme) :
    (after requests).placeholders.Nodup := by
  refine List.Nodup.of_map Placeholder.carried? ?_
  rw [after_carried h]
  refine List.Nodup.map (fun i j hij => ?_) List.nodup_range
  exact Nat.succ.inj (Option.some.inj hij)

end Bindings

namespace Placeholder

/-- **Tokens and parameter names fit together.** For a value with a canonical text and a position below `2 ^ 64` each
style writes a token, and a driver gets the parameter of the position for it, or the token itself, and reads the
position back. So after any requests of styles no two entries have one token, whatever their checksums. And a position
is read from a name iff the name carries it: ASCII digits that denote it, behind a question mark or in front of a
checksum. -/
theorem positions_read_back :
    (∀ (style : Style) (v : Value) (canonical : String) (position : Nat), v.canonical = .ok canonical →
      position < UInt64.size → ∃ token, style.scheme.token v canonical position = .ok token ∧
        toIndexed token = style.parameter token position ∧ position? (toIndexed token) = some position) ∧
    (∀ requests : List BindRequest, (∀ r ∈ requests, ∃ style : Style, r.binder.scheme = style.scheme) →
      (Bindings.after requests).placeholders.Nodup) ∧
    ∀ (name : String) (position : Nat),
      position? name = some position ↔ position < UInt64.size ∧ ParameterName position name.toList := by
  refine ⟨fun style v canonical position hv hposition => ?_, fun _ h => Bindings.after_placeholders_nodup h,
    fun _ _ => position?_eq_some_iff⟩
  obtain ⟨token, htoken⟩ := style.token_ok hv position
  refine ⟨token, htoken, toIndexed_token htoken, ?_⟩
  rw [toIndexed_token htoken]
  exact (parameterName_token htoken).position? hposition

/-- Requests to bind two integers whose texts have one checksum. -/
def sharedChecksum : List BindRequest :=
  [.value (Binder.ofStyle .contentHash) (.int 6880), .value (Binder.ofStyle .contentHash) (.int 53802)]

/-- Their tokens are different, and the last position that fits into a word is read back from a token. -/
theorem sharedChecksum_read_back :
    (∀ r ∈ sharedChecksum, ∃ style : Style, r.binder.scheme = style.scheme) ∧
    (Bindings.after sharedChecksum).placeholders = [":v1_e6680b74", ":v2_e6680b74"] ∧
    (Bindings.after sharedChecksum).placeholders.Nodup ∧
    (Value.int 53802).canonical = .ok "53802" ∧ 18446744073709551615 < UInt64.size ∧
    ∃ token, Style.numbered.scheme.token (.int 53802) "53802" 18446744073709551615 = .ok token ∧
      toIndexed token = Style.numbered.parameter token 18446744073709551615 ∧
      position? (toIndexed token) = some 18446744073709551615 := by
  have hstyles : ∀ r ∈ sharedChecksum, ∃ style : Style, r.binder.scheme = style.scheme := by
    intro r hr
    simp only [sharedChecksum, List.mem_cons, List.not_mem_nil, or_false] at hr
    rcases hr with rfl | rfl <;> exact ⟨.contentHash, rfl⟩
  have hcanonical : (Value.int 53802).canonical = .ok "53802" := rfl
  have hsize : 18446744073709551615 < UInt64.size := by decide
  exact ⟨hstyles, by decide +kernel, positions_read_back.2.1 sharedChecksum hstyles, hcanonical, hsize,
    positions_read_back.1 .numbered (.int 53802) "53802" 18446744073709551615 hcanonical hsize⟩

end Placeholder

end BoundSql
