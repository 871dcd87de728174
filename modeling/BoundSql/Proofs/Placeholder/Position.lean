import BoundSql.Placeholder
import BoundSql.Placeholder.Parameter

/-!
# The position that a token carries

`leading?` reads a placeholder token of either style off the front of a text: the position that its digits denote, and
what follows the token. It knows the form of the tokens and nothing of how they are made, and takes exactly what a style
has written, whatever comes behind (`Style.leading?_token`). So a token carries one position, which can be read back
from its text alone (`Style.carried?_token`).
-/

namespace BoundSql

/-! ## Decimal and hexadecimal digits -/

namespace Text

theorem all_isDigit_repr (n : Nat) : ∀ c ∈ n.repr.toList, c.isDigit = true := by
  rw [Nat.toList_repr]
  exact fun c hc => Nat.isDigit_of_mem_toDigits (by decide) (by decide) hc

theorem repr_toList_ne_nil (n : Nat) : n.repr.toList ≠ [] := by
  rw [Nat.toList_repr]
  exact Nat.toDigits_ne_nil

theorem decimalValue_repr (n : Nat) : decimalValue n.repr.toList = n := by
  rw [Nat.toList_repr]
  exact Nat.ofDigitChars_eq_foldl.symm.trans Nat.ofDigitChars_ten_toDigits

/-- A run of characters is taken whole if the next character does not continue it. -/
theorem takeWhile_append_cons {p : Char → Bool} {cs rest : List Char} {c : Char} (hcs : ∀ x ∈ cs, p x = true)
    (hc : p c = false) : (cs ++ c :: rest).takeWhile p = cs := by
  rw [List.takeWhile_append_of_pos hcs, List.takeWhile_cons_of_neg (by simp [hc]), List.append_nil]

theorem dropWhile_append_cons {p : Char → Bool} {cs rest : List Char} {c : Char} (hcs : ∀ x ∈ cs, p x = true)
    (hc : p c = false) : (cs ++ c :: rest).dropWhile p = c :: rest := by
  rw [List.dropWhile_append_of_pos hcs, List.dropWhile_cons_of_neg (by simp [hc])]

theorem length_hexDigits (width n : Nat) : (hexDigits width n).length = width := by
  induction width generalizing n with
  | zero => rfl
  | succ width ih => simp [hexDigits, ih]

theorem isLowerHex_hexDigit {n : Nat} (h : n < 16) : Placeholder.isLowerHex (hexDigit n) = true := by
  have hall : ∀ k : Fin 16, Placeholder.isLowerHex (hexDigit k) = true := by decide
  exact hall ⟨n, h⟩

theorem all_isLowerHex_hexDigits (width n : Nat) : (hexDigits width n).all Placeholder.isLowerHex = true := by
  induction width generalizing n with
  | zero => rfl
  | succ width ih =>
    rw [hexDigits, List.all_append, ih, Bool.true_and, List.all_cons, List.all_nil, Bool.and_true]
    exact isLowerHex_hexDigit (Nat.mod_lt n (by decide))

end Text

namespace Placeholder

/-! ## Reading tokens -/

/-- Letter of a type that a numbered token may end with. -/
def isTypeLetter (c : Char) : Bool := c = 'd' || c = 'f' || c = 's'

/-- Position of the numbered token behind its percent sign, and what follows the token. -/
def leadingNumbered? (cs : List Char) : Option (Nat × List Char) :=
  let digits := cs.takeWhile Char.isDigit
  match cs.dropWhile Char.isDigit with
  | '$' :: letter :: rest =>
    if digits ≠ [] ∧ isTypeLetter letter then some (Text.decimalValue digits, rest) else none
  | _ => none

/-- Position of the token with a checksum behind its first two characters, and what follows the token. -/
def leadingChecked? (cs : List Char) : Option (Nat × List Char) :=
  let digits := cs.takeWhile Char.isDigit
  match cs.dropWhile Char.isDigit with
  | '_' :: rest =>
    if digits ≠ [] ∧ (rest.take 8).length = 8 ∧ (rest.take 8).all isLowerHex then
      some (Text.decimalValue digits, rest.drop 8)
    else none
  | _ => none

/-- Position of the token at the front of a text, and what follows the token. -/
def leading? : List Char → Option (Nat × List Char)
  | '%' :: cs => leadingNumbered? cs
  | ':' :: 'v' :: cs => leadingChecked? cs
  | _ => none

/-- Position that a text carries which is a token and nothing else. -/
def carried? (token : String) : Option Nat :=
  match leading? token.toList with
  | some (position, []) => some position
  | _ => none

theorem leadingNumbered?_append (n : Nat) {letter : Char} (h : isTypeLetter letter = true) (rest : List Char) :
    leadingNumbered? (n.repr.toList ++ '$' :: letter :: rest) = some (n, rest) := by
  have hdigits := Text.all_isDigit_repr n
  unfold leadingNumbered?
  rw [Text.takeWhile_append_cons hdigits (by decide), Text.dropWhile_append_cons hdigits (by decide)]
  exact (if_pos ⟨Text.repr_toList_ne_nil n, h⟩).trans (by rw [Text.decimalValue_repr])

theorem leadingChecked?_append (n : Nat) {sum : List Char} (hlength : sum.length = 8) (hsum : sum.all isLowerHex = true)
    (rest : List Char) : leadingChecked? (n.repr.toList ++ '_' :: (sum ++ rest)) = some (n, rest) := by
  have hdigits := Text.all_isDigit_repr n
  have htake : (sum ++ rest).take 8 = sum := by rw [← hlength, List.take_left]
  have hdrop : (sum ++ rest).drop 8 = rest := by rw [← hlength, List.drop_left]
  unfold leadingChecked?
  rw [Text.takeWhile_append_cons hdigits (by decide), Text.dropWhile_append_cons hdigits (by decide)]
  have hlength' : ((sum ++ rest).take 8).length = 8 := by rw [htake, hlength]
  have hsum' : ((sum ++ rest).take 8).all isLowerHex = true := by rw [htake, hsum]
  exact (if_pos ⟨Text.repr_toList_ne_nil n, hlength', hsum'⟩).trans (by rw [Text.decimalValue_repr, hdrop])

theorem isTypeLetter_letter (tag : TypeTag) : isTypeLetter tag.letter = true := by cases tag <;> rfl

/-! ## The tokens of the two styles -/

namespace Style

theorem numberedToken_eq {v : Value} {canonical token : String} {position : Nat}
    (h : numberedToken v canonical position = .ok token) : token = numberedText v.typeTag position := by
  unfold numberedToken at h
  split at h
  · next htag =>
    rw [htag]
    cases hv : v.canonical with
    | error f => rw [hv] at h; cases h
    | ok canonical => rw [hv] at h; exact (Except.ok.inj h).symm
  · exact (Except.ok.inj h).symm

/-- Text of a token with a checksum. -/
def contentText (canonical : String) (position : Nat) : String :=
  ":v" ++ toString position ++ "_" ++ checksumText canonical

/-- What a style writes. -/
theorem token_eq {s : Style} {v : Value} {canonical token : String} {position : Nat}
    (h : s.scheme.token v canonical position = .ok token) :
    token = match s with
      | .numbered => numberedText v.typeTag position
      | .contentHash => contentText canonical position := by
  cases s with
  | numbered => exact numberedToken_eq (show numberedToken v canonical position = .ok token from h)
  | contentHash => exact (Except.ok.inj h).symm

theorem leading?_numberedText (tag : TypeTag) (position : Nat) (rest : List Char) :
    leading? ((numberedText tag position).toList ++ rest) = some (position, rest) := by
  have h := leadingNumbered?_append position (isTypeLetter_letter tag) rest
  simpa [numberedText, leading?] using h

theorem leading?_contentText (canonical : String) (position : Nat) (rest : List Char) :
    leading? ((contentText canonical position).toList ++ rest) = some (position, rest) := by
  have h := leadingChecked?_append position (Text.length_hexDigits 8 (Digest.checksum canonical).toNat)
    (Text.all_isLowerHex_hexDigits 8 _) rest
  simpa [contentText, checksumText, leading?] using h

/-- A token is read whole, whatever follows it. -/
theorem leading?_token {s : Style} {v : Value} {canonical token : String} {position : Nat}
    (h : s.scheme.token v canonical position = .ok token) (rest : List Char) :
    leading? (token.toList ++ rest) = some (position, rest) := by
  rw [token_eq h]
  cases s with
  | numbered => exact leading?_numberedText _ _ rest
  | contentHash => exact leading?_contentText _ _ rest

/-- **A token carries the position that it was made for.** -/
theorem carried?_token {s : Style} {v : Value} {canonical token : String} {position : Nat}
    (h : s.scheme.token v canonical position = .ok token) : carried? token = some position := by
  have hleading := leading?_token h []
  rw [List.append_nil] at hleading
  rw [carried?, hleading]

end Style

end Placeholder

end BoundSql
