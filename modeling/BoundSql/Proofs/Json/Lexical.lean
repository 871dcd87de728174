import BoundSql.Json.Basic
import BoundSql.Proofs.Placeholder.Position
import Mathlib.Data.List.DropRight
import Mathlib.Data.List.Forall2
import Mathlib.Tactic.FinCases

/-!
# Written tokens are scanned again

What the writer of JSON puts down token by token is what the scanner finds. A quoted text is taken whole whatever
follows its closing quote (`next?_quote`). A number runs on as long as it can, so it is taken whole only in front of a
text that does not continue it (`Token.EndsNumber`, `next?_append`), as commas and closing marks do not.

`Lexes cs ts` says that `cs` is scanned as `ts` in front of every such text. It is closed under putting texts behind
each other (`Lexes.cons`, `Lexes.append`) and under commas between them (`Lexes.separated`), and for a whole text it is
what `Token.scan?` gives (`Lexes.scan?`).
-/

namespace BoundSql.Json

/-! ## Quoted texts -/

/-- How a character comes back from between quotes: a control character without an escape of its own as a number. -/
def pieceOf (c : Char) : Piece :=
  if c < ' ' ∧ c ∉ ['\x08', '\x0c', '\n', '\r', '\t'] then .unit c.toNat else .plain c

theorem hex4?_hexDigits {n : Nat} (h : n < 32) :
    hex4? '0' '0' (Text.hexDigit (n / 16 % 16)) (Text.hexDigit (n % 16)) = some n := by
  have hall : ∀ k : Fin 32,
      hex4? '0' '0' (Text.hexDigit (k / 16 % 16)) (Text.hexDigit (k % 16)) = some k.val := by decide
  exact hall ⟨n, h⟩

theorem quoted?_quoteChar (c : Char) (done : List Piece) (rest : List Char) :
    quoted? done (quoteChar c ++ rest) = quoted? (pieceOf c :: done) rest := by
  by_cases hescape : c ∈ ['\x22', '\\', '\x08', '\x0c', '\n', '\r', '\t']
  · fin_cases hescape <;> rfl
  · by_cases hcontrol : c < ' '
    · have hlt : c.toNat < 32 := hcontrol
      have hpiece : pieceOf c = .unit c.toNat := if_pos ⟨hcontrol, by simp_all⟩
      have htext : quoteChar c =
          ['\\', 'u', '0', '0', Text.hexDigit (c.toNat / 16 % 16), Text.hexDigit (c.toNat % 16)] := by
        simp_all [quoteChar, Text.hexDigits]
      rw [hpiece, htext]
      simp only [List.cons_append, List.nil_append]
      rw [quoted?, hex4?_hexDigits hlt]
    · have hpiece : pieceOf c = .plain c := if_neg fun h => hcontrol h.1
      have htext : quoteChar c = [c] := by simp_all [quoteChar]
      rw [hpiece, htext, List.singleton_append, quoted?.eq_def]
      split <;> simp_all

theorem quoted?_flatMap (cs : List Char) (done : List Piece) (rest : List Char) :
    quoted? done (cs.flatMap quoteChar ++ '\x22' :: rest) = some (done.reverse ++ cs.map pieceOf, rest) := by
  induction cs generalizing done with
  | nil => simp [quoted?]
  | cons c cs ih => rw [List.flatMap_cons, List.append_assoc, quoted?_quoteChar, ih]; simp

namespace Pieces

theorem chars?_unit {n : Nat} (h : n < 0xD800) (done : List Char) (pieces : List Piece) :
    chars? done (.unit n :: pieces) = chars? (Char.ofNat n :: done) pieces := by
  have hhigh : isHigh n = false := by simp only [isHigh, Bool.and_eq_false_iff, decide_eq_false_iff_not]; omega
  have hlow : isLow n = false := by simp only [isLow, Bool.and_eq_false_iff, decide_eq_false_iff_not]; omega
  rcases pieces with _ | ⟨_ | _, pieces⟩ <;> simp [chars?, hhigh, hlow]

theorem chars?_pieceOf (c : Char) (done : List Char) (pieces : List Piece) :
    chars? done (pieceOf c :: pieces) = chars? (c :: done) pieces := by
  unfold pieceOf
  split
  next h =>
    have hlt : c.toNat < 32 := h.1
    rw [chars?_unit (by omega), Char.ofNat_toNat]
  next => rw [chars?]

theorem chars?_map_pieceOf (cs done : List Char) : chars? done (cs.map pieceOf) = some (done.reverse ++ cs) := by
  induction cs generalizing done with
  | nil => simp [chars?]
  | cons c cs ih => rw [List.map_cons, chars?_pieceOf, ih]; simp

theorem text?_map_pieceOf (s : String) : text? (s.toList.map pieceOf) = some s := by
  simp [text?, chars?_map_pieceOf]

end Pieces

theorem next?_quote (s : String) (rest : List Char) :
    Token.next? ((quote s).toList ++ rest) = some (.text (some s), rest) := by
  have htext : (quote s).toList ++ rest = '\x22' :: (s.toList.flatMap quoteChar ++ '\x22' :: rest) := by simp [quote]
  rw [htext]
  show (quoted? [] _).map _ = _
  rw [quoted?_flatMap, Option.map_some, List.reverse_nil, List.nil_append]
  dsimp only
  rw [Pieces.text?_map_pieceOf]

/-! ## Numbers -/

namespace Token

/-- Whether a number ends in front of a text: no digit, point or exponent follows. -/
def EndsNumber (rest : List Char) : Prop := ∀ c ∈ rest.head?, !c.isDigit && c ≠ '.' && c ≠ 'e' && c ≠ 'E'

theorem endsNumber_nil : EndsNumber [] := fun _ h => nomatch h

theorem EndsNumber.append {cs rest : List Char} (hcs : EndsNumber cs) (hrest : EndsNumber rest) :
    EndsNumber (cs ++ rest) := by
  cases cs with
  | nil => exact hrest
  | cons c cs => exact hcs

/-- A text that does not begin with a digit adds nothing to the digits before it. -/
theorem takeWhile_isDigit_append {rest : List Char} (h : EndsNumber rest) (cs : List Char) :
    (cs ++ rest).takeWhile Char.isDigit = cs.takeWhile Char.isDigit ∧
      (cs ++ rest).dropWhile Char.isDigit = cs.dropWhile Char.isDigit ++ rest := by
  induction cs with
  | nil =>
    cases rest with
    | nil => exact ⟨rfl, rfl⟩
    | cons c rest =>
      have hc : c.isDigit = false := by have := h c rfl; simp_all
      simp [hc]
  | cons c cs ih => by_cases hc : c.isDigit <;> simp [hc, ih]

end Token

open Token (EndsNumber takeWhile_isDigit_append)

theorem fraction?_point (cs : List Char) :
    fraction? ('.' :: cs) =
      if (cs.takeWhile Char.isDigit).isEmpty then none
      else some (some (cs.takeWhile Char.isDigit), cs.dropWhile Char.isDigit) := rfl

theorem fraction?_none {cs : List Char} (h : cs.head? ≠ some '.') : fraction? cs = some (none, cs) := by
  rw [fraction?.eq_def]
  split
  · simp at h
  · rfl

theorem fraction?_append {rest : List Char} (h : EndsNumber rest) {cs left : List Char} {f : Option (List Char)}
    (hcs : fraction? cs = some (f, left)) : fraction? (cs ++ rest) = some (f, left ++ rest) := by
  by_cases hpoint : cs.head? = some '.'
  · obtain ⟨cs, rfl⟩ := List.head?_eq_some_iff.mp hpoint
    obtain ⟨htake, hdrop⟩ := takeWhile_isDigit_append h cs
    rw [List.cons_append, fraction?_point, htake, hdrop]
    rw [fraction?_point] at hcs
    split at hcs
    next => cases hcs
    next hdigits => cases hcs; exact if_neg hdigits
  · have hpoint' : (cs ++ rest).head? ≠ some '.' := by
      cases cs with
      | nil => exact fun hrest => absurd (h '.' hrest) (by decide)
      | cons c cs => exact hpoint
    cases (fraction?_none hpoint).symm.trans hcs
    exact fraction?_none hpoint'

theorem splitSign_append {cs : List Char} (h : cs ≠ []) (rest : List Char) :
    Numeral.splitSign (cs ++ rest) = ((Numeral.splitSign cs).1, (Numeral.splitSign cs).2 ++ rest) := by
  obtain ⟨c, cs, rfl⟩ := List.exists_cons_of_ne_nil h
  rw [List.cons_append, Numeral.splitSign.eq_def, Numeral.splitSign.eq_def]
  split <;> split <;> simp_all

/-- Exponent that digits stand for after a sign. -/
def exponentValue (negative : Bool) (digits : List Char) : Int :=
  if negative then -(Text.decimalValue digits : Int) else Text.decimalValue digits

theorem exponent?_letter {c : Char} (h : c = 'e' ∨ c = 'E') (cs : List Char) :
    exponent? (c :: cs) =
      if ((Numeral.splitSign cs).2.takeWhile Char.isDigit).isEmpty then none
      else some (some (exponentValue (Numeral.splitSign cs).1 ((Numeral.splitSign cs).2.takeWhile Char.isDigit)),
        (Numeral.splitSign cs).2.dropWhile Char.isDigit) := by
  rcases h with rfl | rfl <;> rfl

theorem exponent?_none {cs : List Char} (h : ∀ c ∈ cs.head?, c ≠ 'e' ∧ c ≠ 'E') : exponent? cs = some (none, cs) := by
  cases cs with
  | nil => rfl
  | cons c cs => exact if_neg (by simpa using h c rfl)

theorem exponent?_append {rest : List Char} (h : EndsNumber rest) {cs left : List Char} {e : Option Int}
    (hcs : exponent? cs = some (e, left)) : exponent? (cs ++ rest) = some (e, left ++ rest) := by
  by_cases hletter : ∀ c ∈ cs.head?, c ≠ 'e' ∧ c ≠ 'E'
  · have hletter' : ∀ c ∈ (cs ++ rest).head?, c ≠ 'e' ∧ c ≠ 'E' := by
      cases cs with
      | nil => exact fun c hc => by have := h c hc; simp_all
      | cons c cs => exact hletter
    cases (exponent?_none hletter).symm.trans hcs
    exact exponent?_none hletter'
  · obtain ⟨c, cs, rfl, hc⟩ : ∃ c ds, cs = c :: ds ∧ (c = 'e' ∨ c = 'E') := by
      cases cs with
      | nil => simp at hletter
      | cons c cs => exact ⟨c, cs, rfl, by simp at hletter; tauto⟩
    rw [exponent?_letter hc] at hcs
    split at hcs
    next => cases hcs
    next hdigits =>
      have hne : cs ≠ [] := by rintro rfl; exact hdigits rfl
      obtain ⟨htake, hdrop⟩ := takeWhile_isDigit_append h (Numeral.splitSign cs).2
      cases hcs
      rw [List.cons_append, exponent?_letter hc, splitSign_append hne, htake, hdrop]
      exact if_neg hdigits

theorem number?_append {rest : List Char} (h : EndsNumber rest) {negative : Bool} {cs left : List Char} {t : Token}
    (hcs : number? negative cs = some (t, left)) : number? negative (cs ++ rest) = some (t, left ++ rest) := by
  obtain ⟨htake, hdrop⟩ := takeWhile_isDigit_append h cs
  unfold number? at hcs ⊢
  rw [htake, hdrop]
  dsimp only at hcs ⊢
  split at hcs
  next => cases hcs
  next hwhole =>
    simp only [Option.bind_eq_bind, Option.bind_eq_some_iff, Prod.exists] at hcs
    obtain ⟨f, left₁, hf, e, left₂, he, hresult⟩ := hcs
    cases hresult
    rw [if_neg hwhole, fraction?_append h hf, Option.bind_eq_bind, Option.bind_some, exponent?_append h he]
    rfl

/-- An integer as written. -/
def NumberText.ofInt (n : Int) : NumberText := ⟨n < 0, n.natAbs.repr.toList, none, none⟩

/-- Only zero is written with a zero in front. -/
theorem head?_toDigits {n : Nat} (h : (Nat.toDigits 10 n).head? = some '0') : n = 0 := by
  induction n using Nat.strong_induction_on with
  | _ n ih =>
    rw [Nat.toDigits_eq_if (by decide)] at h
    split at h
    next hlt =>
      have hall : ∀ k : Fin 10, [Nat.digitChar k].head? = some '0' → k.val = 0 := by decide
      exact hall ⟨n, hlt⟩ h
    next hge =>
      rw [List.head?_append_of_ne_nil _ Nat.toDigits_ne_nil] at h
      have := ih (n / 10) (by omega) h
      omega

theorem number?_repr (negative : Bool) (n : Nat) :
    number? negative n.repr.toList = some (.number ⟨negative, n.repr.toList, none, none⟩, []) := by
  have htake : n.repr.toList.takeWhile Char.isDigit = n.repr.toList :=
    List.takeWhile_eq_self_iff.mpr (Text.all_isDigit_repr n)
  have hdrop : n.repr.toList.dropWhile Char.isDigit = [] := List.dropWhile_eq_nil_iff.mpr (Text.all_isDigit_repr n)
  have hzero : ¬(n.repr.toList.head? = some '0' ∧ 1 < n.repr.toList.length) := by
    rintro ⟨hhead, hlength⟩
    rw [Nat.toList_repr] at hhead
    obtain rfl := head?_toDigits hhead
    exact absurd hlength (by decide)
  unfold number?
  rw [htake, hdrop]
  simpa [fraction?, exponent?, Text.repr_toList_ne_nil n] using hzero

theorem Number.ofText?_ofInt {n : Int} (h : inInt64 n) : Number.ofText? (.ofInt n) = some (.integer n) := by
  have hbounds : -2 ^ 63 ≤ n ∧ n < 2 ^ 63 := by
    simp only [inInt64, Bool.and_eq_true, decide_eq_true_eq] at h
    exact ⟨h.1, Int.lt_of_le_of_lt h.2 (by decide)⟩
  rw [Number.ofText?, NumberText.ofInt]
  simp only [Text.decimalValue_repr, Option.isNone_none, Bool.true_and]
  by_cases hneg : n < 0
  · have habs : -(n.natAbs : Int) = n := by omega
    have hpos : 0 < n.natAbs := by omega
    have hsign : ¬(!decide (n < 0) && decide (n.natAbs < UInt64.size)) := by simp [hneg]
    have hrange : decide (n < 0) && decide (0 < n.natAbs) && inInt64 n := by simp [hneg, hpos, h]
    rw [habs, if_neg hsign, if_pos hrange]
  · have habs : (n.natAbs : Int) = n := by omega
    have hlt : n.natAbs < UInt64.size := by simp only [UInt64.size]; omega
    have hsign : !decide (n < 0) && decide (n.natAbs < UInt64.size) := by simp [hneg, hlt]
    rw [habs, if_pos hsign]

theorem number?_digit {negative : Bool} {cs left : List Char} {t : Token} (h : number? negative cs = some (t, left)) :
    ∃ c ds, cs = c :: ds ∧ c.isDigit := by
  cases cs with
  | nil => cases h
  | cons c ds =>
    refine ⟨c, ds, rfl, ?_⟩
    by_contra hc
    simp [number?, hc] at h

namespace Token

theorem next?_minus (cs : List Char) : next? ('-' :: cs) = number? true cs := rfl

theorem next?_digit {c : Char} (h : c.isDigit) (cs : List Char) : next? (c :: cs) = number? false (c :: cs) := by
  unfold next?
  split <;> first | rfl | simp_all

/-- A number in front of a text that ends it is scanned as it is alone. -/
theorem next?_append {rest : List Char} (h : EndsNumber rest) {cs left : List Char} {n : NumberText}
    (hcs : next? cs = some (.number n, left)) : next? (cs ++ rest) = some (.number n, left ++ rest) := by
  unfold next? at hcs
  split at hcs
  -- a number begins with a minus, or with what begins no other token
  case h_11 cs => exact number?_append h hcs
  case h_12 =>
    obtain ⟨c, ds, rfl, hc⟩ := number?_digit hcs
    exact (next?_digit hc _).trans (number?_append h hcs)
  all_goals simp at hcs

theorem next?_toString (n : Int) : next? (toString n).toList = some (.number (.ofInt n), []) := by
  cases n with
  | ofNat n =>
    have hdigits : (toString (Int.ofNat n)).toList = n.repr.toList := rfl
    obtain ⟨c, cs, hcs, hc⟩ := number?_digit (number?_repr false n)
    rw [hdigits, hcs, next?_digit hc, ← hcs, number?_repr]
    rfl
  | negSucc n =>
    have hdigits : (toString (Int.negSucc n)).toList = '-' :: (n + 1).repr.toList := by
      simp [toString, Int.repr]
    have hnegative : (true : Bool) = decide (Int.negSucc n < 0) := (decide_eq_true (Int.negSucc_lt_zero n)).symm
    rw [hdigits, next?_minus, number?_repr, NumberText.ofInt, ← hnegative]
    rfl

/-! ## Scanning -/

theorem next?_blank {c : Char} (h : isBlank c) (cs : List Char) : next? (c :: cs) = none := by
  simp only [isBlank, Bool.or_eq_true, decide_eq_true_eq] at h
  rcases h with ((rfl | rfl) | rfl) | rfl <;> rfl

theorem dropWhile_isBlank_of_next? {cs left : List Char} {t : Token} (h : next? cs = some (t, left)) :
    ∃ c ds, cs = c :: ds ∧ cs.dropWhile isBlank = c :: ds := by
  cases cs with
  | nil => cases h
  | cons c ds =>
    have hc : isBlank c = false := by
      by_contra hc
      rw [next?_blank (by simpa using hc)] at h
      cases h
    exact ⟨c, ds, rfl, by simp [hc]⟩

theorem scanFrom_next {cs left : List Char} {t : Token} (h : next? cs = some (t, left)) (done : List Token)
    (fuel : Nat) : scanFrom done (fuel + 1) cs = scanFrom (t :: done) fuel left := by
  obtain ⟨c, ds, rfl, hdrop⟩ := dropWhile_isBlank_of_next? h
  rw [scanFrom, hdrop]
  simp only [h]

/-- Blanks in front of a text do not matter. -/
theorem scanFrom_congr {cs cs' : List Char} (h : cs.dropWhile isBlank = cs'.dropWhile isBlank) (done : List Token)
    (fuel : Nat) : scanFrom done fuel cs = scanFrom done fuel cs' := by
  cases fuel with
  | zero => rfl
  | succ fuel => rw [scanFrom, scanFrom, h]

theorem length_le_of_scanFrom {done ts : List Token} {fuel : Nat} {cs : List Char}
    (h : scanFrom done fuel cs = some ts) : done.length ≤ ts.length := by
  induction fuel generalizing done cs with
  | zero => cases h
  | succ fuel ih =>
    rw [scanFrom] at h
    split at h
    · cases h; simp
    · split at h
      · exact Nat.le_of_succ_le (ih h)
      · cases h

theorem scan?_of_next? {cs : List Char} {t : Token} (h : next? cs = some (t, [])) : scan? cs = some [t] := by
  obtain ⟨c, ds, rfl, -⟩ := dropWhile_isBlank_of_next? h
  rw [scan?, scanFrom_next h]
  rfl

/-- A text that is one token has only blanks around it. -/
theorem next?_of_scan? {cs : List Char} {t : Token} (h : scan? cs = some [t]) :
    ∃ left, next? (cs.dropWhile isBlank) = some (t, left) ∧ left.dropWhile isBlank = [] := by
  rw [scan?, scanFrom] at h
  split at h
  next => cases h
  next =>
    split at h
    next u left hnext =>
      cases hlength : cs.length with
      | zero => rw [hlength] at h; cases h
      | succ k =>
        rw [hlength, scanFrom] at h
        split at h
        next hleft => cases h; exact ⟨left, hnext, hleft⟩
        next =>
          split at h
          next => exact absurd (length_le_of_scanFrom h) (by simp)
          next => cases h
    next => cases h

end Token

/-- In front of every text that ends a number, a text is scanned as these tokens, of at least one character each. -/
structure Lexes (cs : List Char) (ts : List Token) : Prop where
  length_le : ts.length ≤ cs.length
  scanned : ∀ (done : List Token) (fuel : Nat) (rest : List Char), EndsNumber rest →
    Token.scanFrom done (fuel + ts.length) (cs ++ rest) = Token.scanFrom (ts.reverse ++ done) fuel rest

namespace Lexes

theorem nil : Lexes [] [] := ⟨Nat.le_refl 0, fun _ _ _ _ => rfl⟩

/-- A token that is scanned whatever follows it. -/
theorem cons {word cs : List Char} {t : Token} {ts : List Token}
    (hnext : ∀ rest, Token.next? (word ++ rest) = some (t, rest)) (h : Lexes cs ts) :
    Lexes (word ++ cs) (t :: ts) where
  length_le := by
    have hword : word ≠ [] := by
      rintro rfl
      cases hnext []
    have := List.length_pos_of_ne_nil hword
    have := h.length_le
    simp only [List.length_cons, List.length_append]
    omega
  scanned done fuel rest hrest := by
    rw [List.append_assoc, List.length_cons, ← Nat.add_assoc, Token.scanFrom_next (hnext _), h.scanned _ _ _ hrest]
    simp

theorem token {word : List Char} {t : Token} (hnext : ∀ rest, Token.next? (word ++ rest) = some (t, rest)) :
    Lexes word [t] := by
  rw [← word.append_nil]
  exact cons hnext nil

theorem append {cs ds : List Char} {ts us : List Token} (hcs : Lexes cs ts) (hds : Lexes ds us)
    (hend : EndsNumber ds) : Lexes (cs ++ ds) (ts ++ us) where
  length_le := by
    have := hcs.length_le
    have := hds.length_le
    simp only [List.length_append]
    omega
  scanned done fuel rest hrest := by
    have hsum : fuel + (ts ++ us).length = fuel + us.length + ts.length := by simp only [List.length_append]; omega
    rw [hsum, List.append_assoc, hcs.scanned _ _ _ (hend.append hrest), hds.scanned _ _ _ hrest]
    simp

/-- Texts with a comma between any two of them, in front of a text that closes them. -/
theorem separated {texts : List (List Char)} {tokens : List (List Token)} (h : List.Forall₂ Lexes texts tokens)
    {close : List Char} {ts : List Token} (hclose : Lexes close ts) (hend : EndsNumber close) :
    Lexes ([','].intercalate texts ++ close) ([Token.comma].intercalate tokens ++ ts) := by
  induction h with
  | nil => exact hclose
  | @cons cs us texts tokens hcs htexts ih =>
    cases htexts with
    | nil =>
      rw [List.intercalate_singleton, List.intercalate_singleton]
      exact hcs.append hclose hend
    | cons _ _ =>
      rw [List.intercalate_cons_cons, List.intercalate_cons_cons, List.append_assoc, List.append_assoc,
        List.append_assoc, List.append_assoc]
      have hrest := Lexes.cons (t := .comma) (fun rest => (rfl : Token.next? ([','] ++ rest) = _)) ih
      exact hcs.append hrest fun c hc => by cases hc; decide

/-- A text that is one number, alone, is that number in front of whatever ends it. -/
theorem number {cs : List Char} {n : NumberText} (h : Token.scan? cs = some [.number n]) : Lexes cs [.number n] where
  length_le := by
    cases cs with
    | nil => cases h
    | cons c cs => simp
  scanned done fuel rest hrest := by
    obtain ⟨left, hnext, hleft⟩ := Token.next?_of_scan? h
    -- blanks before the number are skipped with it, those behind it with what follows
    have hfront : (cs ++ rest).dropWhile Token.isBlank =
        (cs.dropWhile Token.isBlank ++ rest).dropWhile Token.isBlank := by
      rw [List.dropWhile_append, List.dropWhile_append, List.dropWhile_idempotent]
    have hback : (left ++ rest).dropWhile Token.isBlank = rest.dropWhile Token.isBlank := by
      rw [List.dropWhile_append, hleft]
      rfl
    calc Token.scanFrom done (fuel + 1) (cs ++ rest)
      _ = Token.scanFrom done (fuel + 1) (cs.dropWhile Token.isBlank ++ rest) := Token.scanFrom_congr hfront done _
      _ = Token.scanFrom (.number n :: done) fuel (left ++ rest) :=
        Token.scanFrom_next (Token.next?_append hrest hnext) done fuel
      _ = Token.scanFrom (.number n :: done) fuel rest := Token.scanFrom_congr hback _ fuel

/-- An integer is written as one number. -/
theorem int (n : Int) : Lexes (toString n).toList [.number (NumberText.ofInt n)] :=
  number (Token.scan?_of_next? (Token.next?_toString n))

theorem scan? {cs : List Char} {ts : List Token} (h : Lexes cs ts) : Token.scan? cs = some ts := by
  have hfuel : cs.length + 1 = (cs.length - ts.length + 1) + ts.length := by have := h.length_le; omega
  have hscan := h.scanned [] (cs.length - ts.length + 1) [] Token.endsNumber_nil
  rw [List.append_nil, ← hfuel] at hscan
  rw [Token.scan?, hscan]
  simp [Token.scanFrom]

end Lexes

end BoundSql.Json
