import BoundSql.Proofs.Yaml.Quoted
import BoundSql.Yaml.Node.Printer
import Mathlib.Data.List.TakeWhile

/-!
# Tags are read back

A tag of the document's own with a plain name is written as it is, read back as a suffix (`WrittenTag.read?_name`), and
expanded to the tag (`Tag.IsPlain.expand?`).
-/

namespace BoundSql.Yaml

open Yaml.Scalar (isGraphic)

variable {p : Place} {c : Char} {name rest : List Char} {tag : Tag}

/-- Tags of the document's own whose name has plain characters only. -/
def Tag.IsPlain (tag : Tag) : Prop :=
  ∃ name, tag.name? = some name ∧ name.toList ≠ [] ∧ name.toList.all isNameChar ∧
    tag.bytes = '!'.toUInt8 :: name.toList.map Char.toUInt8

theorem isGraphic_of_isNameChar (h : isNameChar c) : isGraphic c := by
  delta isNameChar Char.isAlphanum Char.isAlpha Char.isUpper Char.isLower Char.isDigit at h
  simp only [Bool.or_eq_true, Bool.and_eq_true, decide_eq_true_eq] at h
  have hrange {a b : Char} (hlow : a ≤ c) (hhigh : c ≤ b) (h : '!' ≤ a ∧ b ≤ '~') : isGraphic c := by
    simp [isGraphic, Char.le_trans h.1 hlow, Char.le_trans hhigh h.2]
  obtain ((((h | h) | h) | rfl) | rfl) := h
  · exact hrange (a := 'A') (b := 'Z') h.1 h.2 (by decide)
  · exact hrange (a := 'a') (b := 'z') h.1 h.2 (by decide)
  · exact hrange (a := '0') (b := '9') h.1 h.2 (by decide)
  · rfl
  · rfl

theorem toUInt8_ne_zero (h : isGraphic c) : c.toUInt8 ≠ 0 := by
  simp only [isGraphic, Bool.and_eq_true, decide_eq_true_eq] at h
  have hlow : 33 ≤ c.val.toNat := h.1
  have hhigh : c.val.toNat ≤ 126 := h.2
  intro hzero
  have hnat := congrArg UInt8.toNat hzero
  rw [Char.toUInt8, UInt32.toNat_toUInt8] at hnat
  have : c.val.toNat % 2 ^ 8 = 0 := hnat
  omega

namespace WrittenTag

theorem beforeZero_map (h : name.all isNameChar) : beforeZero (name.map Char.toUInt8) = name.map Char.toUInt8 := by
  rw [beforeZero, List.takeWhile_eq_self_iff]
  intro byte hbyte
  obtain ⟨c, hc, rfl⟩ := List.mem_map.1 hbyte
  exact decide_eq_true (toUInt8_ne_zero (isGraphic_of_isNameChar (List.all_eq_true.1 h c hc)))

theorem suffixBytes?_name (h : name.all isNameChar) : suffixBytes? 0 name = some (name.map Char.toUInt8) := by
  induction name with
  | nil => rfl
  | cons c name ih =>
    rw [List.all_cons, Bool.and_eq_true] at h
    have hpercent : c ≠ '%' := by
      rintro rfl
      exact absurd h.1 (by decide)
    rw [suffixBytes?.eq_def]
    split
    next heq => cases heq
    next heq => exact absurd (List.cons.inj heq).1 hpercent
    next heq =>
      obtain ⟨rfl, rfl⟩ := List.cons.inj heq
      rw [if_neg hpercent, ih h.2]
      rfl
    next hother => exact absurd rfl (hother c name rfl)

/-- **A plain name is read back.** -/
theorem read?_name (hname : name.all isNameChar) (hne : name ≠ []) (hrest : isSeparator (rest.headD endChar)) :
    read? false (p.whole (name ++ rest)) = some (⟨"!", name.map Char.toUInt8⟩, (p.after name).whole rest) := by
  have hall := List.all_eq_true.1 hname
  generalize hnext : rest.headD endChar = next at hrest
  have hseparator : ∀ d : Char, isNameChar d ∨ d = '!' ∨ isSuffixChar false d → d ≠ next := by
    rintro d hd rfl
    simp only [isSeparator, isBlank, isBreak, Bool.or_eq_true, decide_eq_true_eq] at hrest
    obtain ((rfl | rfl) | ((rfl | rfl) | rfl)) | rfl := hrest <;> exact absurd hd (by decide)
  have hword : Yaml.name (p.whole (name ++ rest)) = (String.ofList name, (p.after name).whole rest) := by
    have hstop : isNameChar (rest.headD endChar) = false := by
      rw [hnext, ← Bool.not_eq_true]
      exact fun h => hseparator next (.inl h) rfl
    rw [Yaml.name, Place.takeWhile_whole hall hstop, Place.map_char_cells, Place.length_cells, Place.drop_whole]
  have hsuffix : suffix? false (p.whole (name ++ rest)) = some (name.map Char.toUInt8, (p.after name).whole rest) := by
    have hsuffixChars : ∀ c ∈ name, isSuffixChar false c := fun c hc => by
      rw [isSuffixChar, hall c hc]
      rfl
    have hstop : isSuffixChar false (rest.headD endChar) = false := by
      rw [hnext, ← Bool.not_eq_true]
      exact fun h => hseparator next (.inr (.inr h)) rfl
    rw [suffix?, Place.takeWhile_whole hsuffixChars hstop, Place.map_char_cells, suffixBytes?_name hname,
      Place.length_cells, Place.drop_whole]
    rfl
  have hhead : Cell.headChar (p.whole (name ++ rest)) ≠ '<' := by
    obtain ⟨c, cs, rfl⟩ := List.exists_cons_of_ne_nil hne
    rw [Place.headChar_whole]
    rintro rfl
    exact absurd (hall '<' List.mem_cons_self) (by decide)
  have hmark : Cell.headChar ((p.after name).whole rest) ≠ '!' := by
    rw [Place.headChar_whole, hnext]
    exact (hseparator '!' (.inr (.inl rfl))).symm
  have hbytes : (beforeZero (name.map Char.toUInt8)).isEmpty = false := by
    rw [beforeZero_map hname]
    simpa using hne
  have hbody : body? (p.whole (name ++ rest)) = some (⟨"!", name.map Char.toUInt8⟩, (p.after name).whole rest) := by
    rw [body?, if_neg hhead, hword]
    simp only [if_neg hmark, hsuffix, Option.bind_eq_bind, Option.bind_some, hbytes]
    rfl
  rw [read?, hbody, Option.bind_eq_bind, Option.bind_some]
  simp only [Place.headChar_whole, hnext, hrest, Bool.true_or, if_true]

end WrittenTag

namespace Tag.IsPlain

/-- A plain tag as it is written. -/
theorem tagText (h : tag.IsPlain) : ∃ name : List Char, Node.tagText (some tag) = ' ' :: '!' :: name ∧ name ≠ [] ∧
    name.all isNameChar ∧ tag.bytes = '!'.toUInt8 :: name.map Char.toUInt8 := by
  obtain ⟨name, hname, hne, hall, hbytes⟩ := h
  refine ⟨name.toList, ?_, hne, hall, hbytes⟩
  rw [Node.tagText, hname]
  simp only [hall, if_true]

/-- **A plain tag is expanded to itself.** -/
theorem expand? (h : tag.IsPlain) :
    WrittenTag.expand? WrittenTag.commonHandles ⟨"!", tag.bytes.drop 1⟩ = some tag := by
  obtain ⟨name, -, -, hall, hbytes⟩ := h
  have hsuffix : tag.bytes.drop 1 = name.toList.map Char.toUInt8 := by rw [hbytes]; rfl
  have hlookup : WrittenTag.commonHandles.lookup "!" = some ['!'.toUInt8] := rfl
  have hhandle : "!".isEmpty = false := rfl
  simp only [WrittenTag.expand?, hhandle, Bool.false_eq_true, if_false, hlookup, Option.map_some, hsuffix,
    WrittenTag.beforeZero_map hall]
  exact congrArg (fun bytes => some (Tag.mk bytes)) hbytes.symm

end Tag.IsPlain

end BoundSql.Yaml
