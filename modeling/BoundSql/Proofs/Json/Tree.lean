import BoundSql.Proofs.Json.Lexical

/-!
# Trees are read back from their tokens

`Tree.tokens` puts a tree down as tokens. The reader takes them one at a time over a stack of open containers; a whole
value moves it from expecting a value to what follows the value, whatever the stack is (`Tree.foldlM_tokens`). So every
tree is read back from its tokens (`Tree.ofTokens?_tokens`), without a bound on its depth.

`Spells s t` says that the text `s` is made of the tokens of `t`; each way to write a value has its lemma, and a text
that spells a tree is read as that tree and no other (`Spells.read?`).
-/

namespace BoundSql.Json

open Expected (step? complete)

/-! ## Tokens of a tree -/

mutual

/-- Tokens of a tree. -/
def Tree.tokens : Tree → List Token
  | .null => [.null]
  | .bool b => [.bool b]
  | .number n => [.number n]
  | .text s => [.text s]
  | .array items => .openBracket :: ([.comma].intercalate (Tree.itemTokens items) ++ [.closeBracket])
  | .object members => .openBrace :: ([.comma].intercalate (Tree.memberTokens members) ++ [.closeBrace])

/-- Tokens of every item of an array. -/
def Tree.itemTokens : List Tree → List (List Token)
  | [] => []
  | t :: ts => t.tokens :: Tree.itemTokens ts

/-- Tokens of every member of an object. -/
def Tree.memberTokens : List Member → List (List Token)
  | [] => []
  | ⟨key, value⟩ :: ms => (.text key :: .colon :: value.tokens) :: Tree.memberTokens ms

end

/-- Where an array may end instead, a value is read as its first item. -/
theorem Tree.foldlM_valueOrEnd (t : Tree) (frames : List Frame) (us : List Token) :
    (t.tokens ++ us).foldlM step? (.valueOrEnd frames) =
      (t.tokens ++ us).foldlM step? (.value (.array [] :: frames)) := by
  cases t <;> rfl

theorem Expected.foldlM_step {e e' : Expected} {t : Token} (h : step? e t = some e') (ts : List Token) :
    (t :: ts).foldlM step? e = ts.foldlM step? e' := by
  rw [List.foldlM_cons, h, Option.bind_eq_bind, Option.bind_some]

mutual

/-- A value is read to its end, whatever containers are open around it. -/
theorem Tree.foldlM_tokens (t : Tree) (frames : List Frame) (us : List Token) :
    (t.tokens ++ us).foldlM step? (.value frames) = us.foldlM step? (complete t frames) := by
  match t with
  | .null => rfl
  | .bool _ => rfl
  | .number _ => rfl
  | .text _ => rfl
  | .array [] => rfl
  | .array (t :: ts) =>
    have hopen : step? (.value frames) .openBracket = some (.valueOrEnd frames) := rfl
    rw [Tree.tokens, List.cons_append, Expected.foldlM_step hopen, List.append_assoc, List.singleton_append]
    -- behind the bracket the array could still end, but its first item does not begin with a closing bracket
    refine Eq.trans ?_ (Tree.foldlM_items t ts frames [] us)
    cases ts with
    | nil =>
      rw [Tree.itemTokens, Tree.itemTokens, List.intercalate_singleton]
      exact Tree.foldlM_valueOrEnd t frames _
    | cons t' ts =>
      rw [Tree.itemTokens, Tree.itemTokens, List.intercalate_cons_cons, List.append_assoc, List.append_assoc]
      exact Tree.foldlM_valueOrEnd t frames _
  | .object [] => rfl
  | .object (⟨key, value⟩ :: ms) =>
    have hopen : step? (.value frames) .openBrace = some (.keyOrEnd frames) := rfl
    rw [Tree.tokens, List.cons_append, Expected.foldlM_step hopen, List.append_assoc, List.singleton_append]
    exact Tree.foldlM_members key value ms frames [] us rfl
termination_by sizeOf t

/-- Items are read to the end of their array, from where one of them is expected. -/
theorem Tree.foldlM_items (t : Tree) (ts : List Tree) (frames : List Frame) (done : List Tree) (us : List Token) :
    ([.comma].intercalate (Tree.itemTokens (t :: ts)) ++ .closeBracket :: us).foldlM step?
        (.value (.array done :: frames)) =
      us.foldlM step? (complete (.array (done.reverse ++ t :: ts)) frames) := by
  match ts with
  | [] =>
    have hclose : step? (.afterItem frames (t :: done)) .closeBracket =
        some (complete (.array (done.reverse ++ [t])) frames) := by simp [step?]
    rw [Tree.itemTokens, Tree.itemTokens, List.intercalate_singleton, Tree.foldlM_tokens t, complete,
      Expected.foldlM_step hclose]
  | t' :: ts =>
    have hcomma : step? (.afterItem frames (t :: done)) .comma = some (.value (.array (t :: done) :: frames)) := rfl
    rw [Tree.itemTokens, Tree.itemTokens, List.intercalate_cons_cons, List.append_assoc, List.append_assoc,
      Tree.foldlM_tokens t, complete, List.singleton_append, Expected.foldlM_step hcomma]
    simpa [Tree.itemTokens] using Tree.foldlM_items t' ts frames (t :: done) us
termination_by sizeOf t + sizeOf ts

/-- Members are read to the end of their object, from where the key of one of them is expected. -/
theorem Tree.foldlM_members (key : Option String) (value : Tree) (ms : List Member) (frames : List Frame)
    (done : List Member) (us : List Token) {e : Expected}
    (hkey : step? e (.text key) = some (.colon frames done key)) :
    ([.comma].intercalate (Tree.memberTokens (⟨key, value⟩ :: ms)) ++ .closeBrace :: us).foldlM step? e =
      us.foldlM step? (complete (.object (done.reverse ++ ⟨key, value⟩ :: ms)) frames) := by
  have hcolon : step? (.colon frames done key) .colon = some (.value (.object done key :: frames)) := rfl
  match ms with
  | [] =>
    have hclose : step? (.afterMember frames (⟨key, value⟩ :: done)) .closeBrace =
        some (complete (.object (done.reverse ++ [⟨key, value⟩])) frames) := by simp [step?]
    rw [Tree.memberTokens, Tree.memberTokens, List.intercalate_singleton, List.cons_append, List.cons_append,
      Expected.foldlM_step hkey, Expected.foldlM_step hcolon, Tree.foldlM_tokens value, complete,
      Expected.foldlM_step hclose]
  | ⟨key', value'⟩ :: ms =>
    have hcomma : step? (.afterMember frames (⟨key, value⟩ :: done)) .comma =
        some (.key frames (⟨key, value⟩ :: done)) := rfl
    rw [Tree.memberTokens, Tree.memberTokens, List.intercalate_cons_cons, List.append_assoc, List.append_assoc,
      List.cons_append, List.cons_append, Expected.foldlM_step hkey, Expected.foldlM_step hcolon,
      Tree.foldlM_tokens value, complete, List.singleton_append, Expected.foldlM_step hcomma]
    simpa [Tree.memberTokens] using Tree.foldlM_members key' value' ms frames (⟨key, value⟩ :: done) us rfl
termination_by sizeOf value + sizeOf ms

end

theorem Tree.ofTokens?_tokens (t : Tree) : Tree.ofTokens? t.tokens = some t := by
  have h := t.foldlM_tokens [] []
  rw [List.append_nil, List.foldlM_nil] at h
  rw [Tree.ofTokens?, h]
  rfl

/-! ## Texts that spell trees -/

/-- A text made of the tokens of a tree. -/
def Spells (s : String) (t : Tree) : Prop := Lexes s.toList t.tokens

/-- A text made of the tokens of a member. -/
def SpellsMember (s : String) (m : Member) : Prop := Lexes s.toList (.text m.key :: .colon :: m.value.tokens)

theorem spells_null : Spells "null" .null := .token fun _ => rfl

theorem spells_bool (b : Bool) : Spells (boolText b) (.bool b) := by
  cases b <;> exact .token fun _ => rfl

theorem spells_int (n : Int) : Spells (toString n) (.number (.ofInt n)) := .int n

theorem spells_quote (s : String) : Spells (quote s) (.text (some s)) := .token (next?_quote s)

theorem spells_array {ss : List String} {ts : List Tree} (h : List.Forall₂ Spells ss ts) :
    Spells (arrayText ss) (.array ts) := by
  have hitems : List.Forall₂ Lexes (ss.map String.toList) (Tree.itemTokens ts) := by
    induction h with
    | nil => exact .nil
    | cons hs _ ih => exact .cons hs ih
  have htext : (arrayText ss).toList = ['['] ++ ([','].intercalate (ss.map String.toList) ++ [']']) := by
    simp [arrayText, String.toList_intercalate]
  have hclose : Lexes [']'] [.closeBracket] := .token fun _ => rfl
  rw [Spells, htext]
  exact .cons (fun _ => rfl) (.separated hitems hclose fun c hc => by cases hc; decide)

theorem spellsMember {s : String} {t : Tree} (key : String) (h : Spells s t) :
    SpellsMember (memberText key s) ⟨some key, t⟩ := by
  have htext : (memberText key s).toList = (quote key).toList ++ ([':'] ++ s.toList) := by simp [memberText]
  rw [SpellsMember, htext]
  exact .cons (next?_quote key) (.cons (fun _ => rfl) h)

theorem spells_object {ss : List String} {ms : List Member} (h : List.Forall₂ SpellsMember ss ms) :
    Spells (objectText ss) (.object ms) := by
  have hmembers : List.Forall₂ Lexes (ss.map String.toList) (Tree.memberTokens ms) := by
    induction h with
    | nil => exact .nil
    | @cons _ m _ _ hs _ ih =>
      obtain ⟨key, value⟩ := m
      rw [List.map_cons, Tree.memberTokens]
      exact .cons hs ih
  have htext : (objectText ss).toList = ['\x7b'] ++ ([','].intercalate (ss.map String.toList) ++ ['\x7d']) := by
    simp [objectText, String.toList_intercalate]
  have hclose : Lexes ['\x7d'] [.closeBrace] := .token fun _ => rfl
  rw [Spells, htext]
  exact .cons (fun _ => rfl) (.separated hmembers hclose fun c hc => by cases hc; decide)

/-- A text is read as the tree that it spells. -/
theorem Spells.read? {s : String} {t : Tree} (h : Spells s t) : Tree.read? s = some t := by
  rw [Tree.read?, Lexes.scan? h, Option.bind_some, Tree.ofTokens?_tokens]

end BoundSql.Json
