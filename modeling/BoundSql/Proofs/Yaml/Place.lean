import BoundSql.Yaml.Style
import BoundSql.Yaml.Token
import Mathlib.Algebra.Order.Ring.Nat
import Mathlib.Tactic.Tauto

/-!
# Cells of printable texts

A text without control characters is one cell for each of its characters, and one for its end (`Cell.ofText?_whole`).
So what is scanned can be named by a place and the characters that come after it: `whole p cs`.
-/

namespace BoundSql.Yaml

/-- A place in a text. -/
structure Place where
  /-- Count of the bytes in front of it. -/
  offset : Nat
  line : Nat
  column : Nat

namespace Place

/-- The beginning of a text. -/
def start : Place := ⟨0, 0, 0⟩

/-- The cell of a character at a place. -/
def cell (p : Place) (c : Char) : Cell := ⟨c, p.offset, p.line, p.column⟩

/-- The place behind a character. -/
def step (p : Place) (c : Char) : Place :=
  if isBreak c then ⟨p.offset + c.utf8Size, p.line + 1, 0⟩ else ⟨p.offset + c.utf8Size, p.line, p.column + 1⟩

/-- The place behind some characters. -/
def after (p : Place) (cs : List Char) : Place := cs.foldl step p

/-- The cells of a text from a place on, with the cell of its end. -/
def whole (p : Place) : List Char → List Cell
  | [] => [p.cell endChar]
  | c :: cs => p.cell c :: (p.step c).whole cs

variable {p : Place} {c : Char} {cs ds : List Char}

@[simp] theorem char_cell : (p.cell c).char = c := rfl

@[simp] theorem line_cell : (p.cell c).line = p.line := rfl

@[simp] theorem column_cell : (p.cell c).column = p.column := rfl

@[simp] theorem after_nil : p.after [] = p := rfl

@[simp] theorem after_cons : p.after (c :: cs) = (p.step c).after cs := rfl

theorem after_append : p.after (cs ++ ds) = (p.after cs).after ds := List.foldl_append

@[simp] theorem whole_nil : p.whole [] = [p.cell endChar] := rfl

@[simp] theorem whole_cons : p.whole (c :: cs) = p.cell c :: (p.step c).whole cs := rfl

@[simp] theorem length_whole : (p.whole cs).length = cs.length + 1 := by
  induction cs generalizing p with
  | nil => rfl
  | cons c cs ih => simp [ih]

@[simp] theorem headChar_whole : Cell.headChar (p.whole cs) = cs.headD endChar := by
  cases cs <;> rfl

/-- The cells of some characters from a place on. -/
def cells (p : Place) : List Char → List Cell
  | [] => []
  | c :: cs => p.cell c :: (p.step c).cells cs

theorem whole_append (p : Place) (cs ds : List Char) : p.whole (cs ++ ds) = p.cells cs ++ (p.after cs).whole ds := by
  induction cs generalizing p with
  | nil => rfl
  | cons c cs ih => rw [List.cons_append, whole_cons, ih]; rfl

@[simp] theorem map_char_cells (p : Place) (cs : List Char) : (p.cells cs).map Cell.char = cs := by
  induction cs generalizing p with
  | nil => rfl
  | cons c cs ih => rw [cells, List.map_cons, ih, char_cell]

@[simp] theorem length_cells (p : Place) (cs : List Char) : (p.cells cs).length = cs.length := by
  rw [← List.length_map (f := Cell.char), map_char_cells]

theorem drop_whole (p : Place) (cs ds : List Char) : (p.whole (cs ++ ds)).drop cs.length = (p.after cs).whole ds := by
  rw [whole_append, List.drop_left' (p.length_cells cs)]

/-- The longest run of characters of a kind. -/
theorem takeWhile_whole {f : Char → Bool} (h : ∀ c ∈ cs, f c) (hend : f (ds.headD endChar) = false) :
    (p.whole (cs ++ ds)).takeWhile (fun c => f c.char) = p.cells cs := by
  induction cs generalizing p with
  | nil => cases ds <;> exact List.takeWhile_cons_of_neg (by simpa using hend)
  | cons c cs ih =>
    have hc : f (p.cell c).char = true := h c List.mem_cons_self
    rw [List.cons_append, whole_cons, List.takeWhile_cons, if_pos hc, ih fun d hd => h d (List.mem_cons_of_mem c hd)]
    rfl

/-! ## Steps -/

theorem step_of_isBreak (h : isBreak c) : p.step c = ⟨p.offset + c.utf8Size, p.line + 1, 0⟩ := if_pos h

theorem step_of_not_isBreak (h : isBreak c = false) : p.step c = ⟨p.offset + c.utf8Size, p.line, p.column + 1⟩ := by
  rw [step, if_neg (by simp [h])]

theorem offset_after : (p.after cs).offset = p.offset + (cs.map Char.utf8Size).sum := by
  induction cs generalizing p with
  | nil => rfl
  | cons c cs ih =>
    rw [after_cons, ih, List.map_cons, List.sum_cons, step]
    split <;> simp only <;> omega

theorem line_le_step (p : Place) (c : Char) : p.line ≤ (p.step c).line := by
  rw [step]
  split
  · exact Nat.le_succ _
  · exact Nat.le_refl _

theorem line_le_after (p : Place) (cs : List Char) : p.line ≤ (p.after cs).line := by
  induction cs generalizing p with
  | nil => exact Nat.le_refl _
  | cons c cs ih => exact Nat.le_trans (p.line_le_step c) (ih _)

/-- Characters that end no line. -/
theorem after_of_not_isBreak (h : ∀ c ∈ cs, isBreak c = false) :
    p.after cs = ⟨p.offset + (cs.map Char.utf8Size).sum, p.line, p.column + cs.length⟩ := by
  induction cs generalizing p with
  | nil => rfl
  | cons c cs ih =>
    rw [after_cons, ih fun d hd => h d (List.mem_cons_of_mem c hd), step_of_not_isBreak (h c List.mem_cons_self),
      List.map_cons, List.sum_cons, List.length_cons]
    simp only [Nat.add_assoc, Nat.add_comm 1]

theorem line_after_of_not_isBreak (h : ∀ c ∈ cs, isBreak c = false) : (p.after cs).line = p.line := by
  rw [after_of_not_isBreak h]

theorem column_after_of_not_isBreak (h : ∀ c ∈ cs, isBreak c = false) :
    (p.after cs).column = p.column + cs.length := by
  rw [after_of_not_isBreak h]

end Place

/-! ## Cells of a text -/

theorem isAllowed_of_isPrintable {c : Char} (h : isPrintable c) : isAllowed c := by
  simp only [isPrintable, isAllowed, Bool.or_eq_true, Bool.and_eq_true, decide_eq_true_eq] at h ⊢
  tauto

/-- Signs that no printable text contains. -/
theorem ne_of_isPrintable {c d : Char} (h : isPrintable c) (hd : isPrintable d = false) : c ≠ d := by
  rintro rfl
  rw [h] at hd
  cases hd

theorem placed_eq {cs : List Char} (h : cs.all isPrintable) (done : List Cell) (p : Place) :
    Cell.placed done p.offset p.line p.column cs = done.reverse ++ p.whole cs := by
  induction cs generalizing done p with
  | nil => exact List.reverse_cons
  | cons c cs ih =>
    rw [List.all_cons, Bool.and_eq_true] at h
    have hr : c ≠ '\r' := ne_of_isPrintable h.1 (by decide)
    have hn : c ≠ '\u0085' := ne_of_isPrintable h.1 (by decide)
    have hchar : (if c = '\r' || c = '\u0085' then '\n' else c) = c := if_neg (by simp [hr, hn])
    rw [Cell.placed.eq_def]
    split
    next => contradiction
    next heq => exact absurd (List.cons.inj heq).1 hr
    next d ds _ heq =>
      obtain ⟨rfl, rfl⟩ := List.cons.inj heq
      simp only [hchar]
      have hdone : done.reverse ++ p.whole (c :: cs) = (p.cell c :: done).reverse ++ (p.step c).whole cs := by simp
      rw [hdone]
      by_cases hbreak : isBreak c
      · rw [if_pos hbreak, ← ih h.2, Place.step_of_isBreak hbreak]
        rfl
      · rw [if_neg hbreak, ← ih h.2, Place.step_of_not_isBreak (by simpa using hbreak)]
        rfl

/-- **The cells of a printable text.** -/
theorem Cell.ofText?_whole {s : String} (h : s.toList.all isPrintable) :
    ofText? s = some (Place.start.whole s.toList) := by
  have hallowed : s.toList.all isAllowed := by
    rw [List.all_eq_true] at h ⊢
    exact fun c hc => isAllowed_of_isPrintable (h c hc)
  rw [ofText?, if_pos hallowed]
  exact congrArg some (placed_eq h [] Place.start)

end BoundSql.Yaml
