import BoundSql.Proofs.Success
import BoundSql.Sql.Render

/-!
# Templates of statements

A template is a statement whose values are still in place: a list of pieces, each a token, a scalar of a condition or a
cell of a row. It is what the writer `template` writes, so it depends on the statement and on the field map, and on no
bindings.

Every writer factors through it: a statement is written as `us` iff it has a template, and `us` is that template with
every piece written in its place (`Fills`). This holds of conditions (`conditionUnits_fills`) by induction on the tree,
and so of the four statements (`Select.fills`, `Insert.fills`, `Update.fills`, `Delete.fills`).
-/

namespace BoundSql

open Sql (Token Writer)

variable {τ : Type}

namespace Sql

/-- A part of a statement whose values are not written yet. -/
inductive Piece where
  | token (t : Token)
  /-- A scalar of a condition. -/
  | scalar (v : Value)
  /-- A value of a row. -/
  | cell (v : Value)

/-- The writer that leaves values in place. -/
def template : Writer Piece := ⟨.token, fun v => .ok [.scalar v], fun v => .ok [.cell v]⟩

/-! ## What pieces hold -/

section

variable {α : Type} {g : Piece → List α} (hg : ∀ t, g (.token t) = [])

include hg

theorem held_fixed (ts : List Token) : (template.fixed ts).flatMap g = [] := by
  refine List.flatMap_eq_nil_iff.2 ?_
  intro p hp
  obtain ⟨t, _, rfl⟩ := List.mem_map.1 hp
  exact hg t

/-- Separators hold nothing. -/
theorem held_separated (t : Token) (parts : List (List Piece)) :
    (separated (.token t) parts).flatMap g = parts.flatMap (List.flatMap g) := by
  cases parts with
  | nil => rfl
  | cons part rest =>
    rw [separated, List.flatMap_append, List.flatMap_cons, List.flatMap_assoc]
    simp only [List.flatMap_cons, hg, List.nil_append]

end

namespace Writer

/-- Units of one piece. -/
def write (w : Writer τ) : Piece → Except Failure (List τ)
  | .token t => .ok [w.token t]
  | .scalar v => w.scalar v
  | .cell v => w.cell v

/-- `us` is `ps` with every piece written in its place. -/
def Filled (w : Writer τ) (ps : List Piece) (us : List τ) : Prop :=
  ∃ parts, List.Forall₂ (fun p part => w.write p = .ok part) ps parts ∧ parts.flatten = us

/-- What `w` has written is its way to fill what the writer of templates has written. -/
def Fills (w : Writer τ) (written : Except Failure (List τ)) (pieces : Except Failure (List Piece)) : Prop :=
  ∀ us, written = .ok us ↔ ∃ ps, pieces = .ok ps ∧ w.Filled ps us

variable {w : Writer τ}

/-! ## Filled pieces -/

theorem filled_nil {us : List τ} : w.Filled [] us ↔ us = [] := by
  constructor
  · rintro ⟨_, ⟨⟩, rfl⟩
    rfl
  · rintro rfl
    exact ⟨[], .nil, rfl⟩

theorem filled_cons {p : Piece} {ps : List Piece} {us : List τ} :
    w.Filled (p :: ps) us ↔ ∃ part rest, w.write p = .ok part ∧ w.Filled ps rest ∧ part ++ rest = us := by
  constructor
  · rintro ⟨_, _ | ⟨hp, hps⟩, rfl⟩
    exact ⟨_, _, hp, ⟨_, hps, rfl⟩, rfl⟩
  · rintro ⟨part, rest, hp, ⟨parts, hps, rfl⟩, rfl⟩
    exact ⟨part :: parts, .cons hp hps, rfl⟩

theorem filled_append {ps qs : List Piece} {us : List τ} :
    w.Filled (ps ++ qs) us ↔ ∃ vs rest, w.Filled ps vs ∧ w.Filled qs rest ∧ vs ++ rest = us := by
  induction ps generalizing us with
  | nil =>
    constructor
    · exact fun h => ⟨[], us, filled_nil.2 rfl, h, rfl⟩
    · rintro ⟨vs, rest, hvs, h, rfl⟩
      rw [filled_nil.1 hvs]
      exact h
  | cons p ps ih =>
    rw [List.cons_append, filled_cons]
    constructor
    · rintro ⟨part, rest, hp, h, rfl⟩
      obtain ⟨vs, rest, hvs, hrest, rfl⟩ := ih.1 h
      exact ⟨part ++ vs, rest, filled_cons.2 ⟨part, vs, hp, hvs, rfl⟩, hrest, List.append_assoc ..⟩
    · rintro ⟨_, rest, h, hrest, rfl⟩
      obtain ⟨part, vs, hp, hvs, rfl⟩ := filled_cons.1 h
      exact ⟨part, vs ++ rest, hp, ih.2 ⟨vs, rest, hvs, hrest, rfl⟩, (List.append_assoc ..).symm⟩

theorem filled_singleton {p : Piece} {us : List τ} : w.Filled [p] us ↔ w.write p = .ok us := by
  rw [filled_cons]
  constructor
  · rintro ⟨part, rest, hp, hrest, rfl⟩
    rw [filled_nil.1 hrest, List.append_nil]
    exact hp
  · exact fun h => ⟨us, [], h, filled_nil.2 rfl, List.append_nil us⟩

/-- Pieces can be filled iff each of them can be written. -/
theorem exists_filled_iff {ps : List Piece} : (∃ us, w.Filled ps us) ↔ ∀ p ∈ ps, Succeeds (w.write p) := by
  induction ps with
  | nil => exact ⟨fun _ => nofun, fun _ => ⟨[], filled_nil.2 rfl⟩⟩
  | cons p ps ih =>
    rw [List.forall_mem_cons, ← ih]
    constructor
    · rintro ⟨_, h⟩
      obtain ⟨part, rest, hp, hrest, rfl⟩ := filled_cons.1 h
      exact ⟨⟨part, hp⟩, rest, hrest⟩
    · rintro ⟨⟨part, hp⟩, rest, hrest⟩
      exact ⟨part ++ rest, filled_cons.2 ⟨part, rest, hp, hrest, rfl⟩⟩

theorem filled_fixed {ts : List Token} {us : List τ} : w.Filled (template.fixed ts) us ↔ us = w.fixed ts := by
  induction ts generalizing us with
  | nil => exact filled_nil
  | cons t ts ih =>
    rw [fixed, List.map_cons, filled_cons]
    constructor
    · rintro ⟨part, rest, hp, hrest, rfl⟩
      cases hp
      rw [ih.1 hrest]
      rfl
    · rintro rfl
      exact ⟨[w.token t], w.fixed ts, rfl, ih.2 rfl, rfl⟩

/-- Fixed tokens in front of a filled part. -/
theorem filled_prefixed (left : List Token) {ps : List Piece} {us : List τ} :
    w.Filled (template.fixed left ++ ps) us ↔ ∃ vs, w.Filled ps vs ∧ w.fixed left ++ vs = us := by
  rw [filled_append]
  constructor
  · rintro ⟨_, vs, hleft, hps, rfl⟩
    rw [filled_fixed.1 hleft]
    exact ⟨vs, hps, rfl⟩
  · rintro ⟨vs, hps, rfl⟩
    exact ⟨_, vs, filled_fixed.2 rfl, hps, rfl⟩

/-- Fixed tokens behind a filled part. -/
theorem filled_suffixed (right : List Token) {ps : List Piece} {us : List τ} :
    w.Filled (ps ++ template.fixed right) us ↔ ∃ vs, w.Filled ps vs ∧ vs ++ w.fixed right = us := by
  rw [filled_append]
  constructor
  · rintro ⟨vs, _, hps, hright, rfl⟩
    rw [filled_fixed.1 hright]
    exact ⟨vs, hps, rfl⟩
  · rintro ⟨vs, hps, rfl⟩
    exact ⟨vs, _, hps, filled_fixed.2 rfl, rfl⟩

/-- Fixed tokens on both sides of a filled part. -/
theorem filled_between (left right : List Token) {ps : List Piece} {us : List τ} :
    w.Filled (template.fixed left ++ ps ++ template.fixed right) us ↔
      ∃ vs, w.Filled ps vs ∧ w.fixed left ++ vs ++ w.fixed right = us := by
  rw [filled_suffixed]
  constructor
  · rintro ⟨_, h, rfl⟩
    obtain ⟨vs, hps, rfl⟩ := (filled_prefixed left).1 h
    exact ⟨vs, hps, rfl⟩
  · rintro ⟨vs, hps, rfl⟩
    exact ⟨_, (filled_prefixed left).2 ⟨vs, hps, rfl⟩, rfl⟩

/-- Parts behind one another, each with a token in front. -/
theorem filled_flatMap {t : Token} {pss : List (List Piece)} {us : List τ} :
    w.Filled (pss.flatMap (Piece.token t :: ·)) us ↔
      ∃ parts, List.Forall₂ w.Filled pss parts ∧ parts.flatMap (w.token t :: ·) = us := by
  induction pss generalizing us with
  | nil =>
    rw [List.flatMap_nil, filled_nil]
    constructor
    · rintro rfl
      exact ⟨[], .nil, rfl⟩
    · rintro ⟨_, ⟨⟩, rfl⟩
      rfl
  | cons ps pss ih =>
    rw [List.flatMap_cons, filled_append]
    constructor
    · rintro ⟨_, rest, h, hrest, rfl⟩
      obtain ⟨part, vs, hp, hvs, rfl⟩ := filled_cons.1 h
      obtain ⟨parts, hparts, rfl⟩ := ih.1 hrest
      cases hp
      exact ⟨vs :: parts, .cons hvs hparts, rfl⟩
    · rintro ⟨_, _ | ⟨hvs, hparts⟩, rfl⟩
      exact ⟨_, _, filled_cons.2 ⟨[w.token t], _, rfl, hvs, rfl⟩, ih.2 ⟨_, hparts, rfl⟩, rfl⟩

theorem filled_separated {t : Token} {pss : List (List Piece)} {us : List τ} :
    w.Filled (separated (Piece.token t) pss) us ↔
      ∃ parts, List.Forall₂ w.Filled pss parts ∧ separated (w.token t) parts = us := by
  cases pss with
  | nil =>
    rw [separated, filled_nil]
    constructor
    · rintro rfl
      exact ⟨[], .nil, rfl⟩
    · rintro ⟨_, ⟨⟩, rfl⟩
      rfl
  | cons ps pss =>
    rw [separated, filled_append]
    constructor
    · rintro ⟨vs, rest, hvs, h, rfl⟩
      obtain ⟨parts, hparts, rfl⟩ := filled_flatMap.1 h
      exact ⟨vs :: parts, .cons hvs hparts, rfl⟩
    · rintro ⟨_, _ | ⟨hvs, hparts⟩, rfl⟩
      exact ⟨_, _, hvs, filled_flatMap.2 ⟨_, hparts, rfl⟩, rfl⟩

theorem filled_flatten {pss : List (List Piece)} {us : List τ} :
    w.Filled pss.flatten us ↔ ∃ parts, List.Forall₂ w.Filled pss parts ∧ parts.flatten = us := by
  induction pss generalizing us with
  | nil =>
    rw [List.flatten_nil, filled_nil]
    constructor
    · rintro rfl
      exact ⟨[], .nil, rfl⟩
    · rintro ⟨_, ⟨⟩, rfl⟩
      rfl
  | cons ps pss ih =>
    rw [List.flatten_cons, filled_append]
    constructor
    · rintro ⟨vs, rest, hvs, hrest, rfl⟩
      obtain ⟨parts, hparts, rfl⟩ := ih.1 hrest
      exact ⟨vs :: parts, .cons hvs hparts, rfl⟩
    · rintro ⟨_, _ | ⟨hvs, hparts⟩, rfl⟩
      exact ⟨_, _, hvs, ih.2 ⟨_, hparts, rfl⟩, rfl⟩

theorem filled_parenthesized {ps : List Piece} {us : List τ} :
    w.Filled (template.parenthesized ps) us ↔ ∃ vs, w.Filled ps vs ∧ w.parenthesized vs = us :=
  filled_between [.openParen] [.closeParen]

/-! ## Ways to combine what is filled -/

theorem Fills.fixed (w : Writer τ) (ts : List Token) : w.Fills (.ok (w.fixed ts)) (.ok (template.fixed ts)) := by
  intro us
  constructor
  · rintro ⟨⟩
    exact ⟨_, rfl, filled_fixed.2 rfl⟩
  · rintro ⟨_, ⟨⟩, h⟩
    rw [filled_fixed.1 h]

theorem Fills.error (w : Writer τ) (f : Failure) : w.Fills (.error f) (.error f) :=
  fun _ => ⟨nofun, nofun⟩

theorem Fills.scalar (w : Writer τ) (v : Value) : w.Fills (w.scalar v) (template.scalar v) := by
  intro us
  constructor
  · exact fun h => ⟨_, rfl, filled_singleton.2 h⟩
  · rintro ⟨_, ⟨⟩, h⟩
    exact filled_singleton.1 h

theorem Fills.cell (w : Writer τ) (v : Value) : w.Fills (w.cell v) (template.cell v) := by
  intro us
  constructor
  · exact fun h => ⟨_, rfl, filled_singleton.2 h⟩
  · rintro ⟨_, ⟨⟩, h⟩
    exact filled_singleton.1 h

/-- A function on units and a function on pieces that agree on what is filled. -/
theorem Fills.map {written : Except Failure (List τ)} {pieces : Except Failure (List Piece)}
    (h : w.Fills written pieces) {f : List τ → List τ} {g : List Piece → List Piece}
    (hfg : ∀ ps us, w.Filled (g ps) us ↔ ∃ vs, w.Filled ps vs ∧ f vs = us) :
    w.Fills (f <$> written) (g <$> pieces) := by
  intro us
  rw [map_eq_ok]
  constructor
  · rintro ⟨vs, hvs, rfl⟩
    obtain ⟨ps, hps, hfilled⟩ := (h vs).1 hvs
    exact ⟨g ps, map_eq_ok.2 ⟨ps, hps, rfl⟩, (hfg ps _).2 ⟨vs, hfilled, rfl⟩⟩
  · rintro ⟨_, hqs, hfilled⟩
    obtain ⟨ps, hps, rfl⟩ := map_eq_ok.1 hqs
    obtain ⟨vs, hvs, rfl⟩ := (hfg ps us).1 hfilled
    exact ⟨vs, (h vs).2 ⟨ps, hps, hvs⟩, rfl⟩

theorem Fills.kept {written : Except Failure (List τ)} {pieces : Except Failure (List Piece)}
    (h : w.Fills written pieces) : w.Fills (written >>= pure) (pieces >>= pure) := by
  rwa [bind_pure, bind_pure]

/-- Functions of two parts that agree on what is filled. -/
theorem Fills.map₂ {a b : Except Failure (List τ)} {a' b' : Except Failure (List Piece)} (ha : w.Fills a a')
    (hb : w.Fills b b') {f : List τ → List τ → List τ} {g : List Piece → List Piece → List Piece}
    (hfg : ∀ ps qs us, w.Filled (g ps qs) us ↔ ∃ l r, w.Filled ps l ∧ w.Filled qs r ∧ f l r = us) :
    w.Fills (a >>= fun l => b >>= fun r => pure (f l r)) (a' >>= fun ps => b' >>= fun qs => pure (g ps qs)) := by
  intro us
  simp only [bind_eq_ok, pure_eq_ok]
  constructor
  · rintro ⟨l, hl, r, hr, rfl⟩
    obtain ⟨ps, hps, hl⟩ := (ha l).1 hl
    obtain ⟨qs, hqs, hr⟩ := (hb r).1 hr
    exact ⟨_, ⟨ps, hps, qs, hqs, rfl⟩, (hfg ps qs _).2 ⟨l, r, hl, hr, rfl⟩⟩
  · rintro ⟨_, ⟨ps, hps, qs, hqs, rfl⟩, h⟩
    obtain ⟨l, r, hl, hr, rfl⟩ := (hfg ps qs us).1 h
    exact ⟨l, (ha l).2 ⟨ps, hps, hl⟩, r, (hb r).2 ⟨qs, hqs, hr⟩, rfl⟩

/-- Two parts with fixed tokens between them. -/
theorem Fills.joined {a b : Except Failure (List τ)} {a' b' : Except Failure (List Piece)} (ha : w.Fills a a')
    (between : List Token) (hb : w.Fills b b') :
    w.Fills (a >>= fun l => b >>= fun r => pure (l ++ w.fixed between ++ r))
      (a' >>= fun ps => b' >>= fun qs => pure (ps ++ template.fixed between ++ qs)) := by
  refine ha.map₂ hb fun ps qs us => filled_append.trans ?_
  constructor
  · rintro ⟨_, r, h, hqs, rfl⟩
    obtain ⟨l, hps, rfl⟩ := (filled_suffixed _).1 h
    exact ⟨l, r, hps, hqs, rfl⟩
  · rintro ⟨l, r, hps, hqs, rfl⟩
    exact ⟨_, r, (filled_suffixed _).2 ⟨l, hps, rfl⟩, hqs, rfl⟩

/-- Two parts behind fixed tokens. -/
theorem Fills.headed (left : List Token) {a b : Except Failure (List τ)} {a' b' : Except Failure (List Piece)}
    (ha : w.Fills a a') (hb : w.Fills b b') :
    w.Fills (a >>= fun l => b >>= fun r => pure (w.fixed left ++ l ++ r))
      (a' >>= fun ps => b' >>= fun qs => pure (template.fixed left ++ ps ++ qs)) := by
  refine ha.map₂ hb fun ps qs us => filled_append.trans ?_
  constructor
  · rintro ⟨_, r, h, hqs, rfl⟩
    obtain ⟨l, hps, rfl⟩ := (filled_prefixed left).1 h
    exact ⟨l, r, hps, hqs, rfl⟩
  · rintro ⟨l, r, hps, hqs, rfl⟩
    exact ⟨_, r, (filled_prefixed left).2 ⟨l, hps, rfl⟩, hqs, rfl⟩

theorem mapM_fills {α β : Type} {f : α → Except Failure (List τ)} {g : β → Except Failure (List Piece)} {as : List α}
    {bs : List β} (h : List.Forall₂ (fun a b => w.Fills (f a) (g b)) as bs) {parts : List (List τ)} :
    as.mapM f = .ok parts ↔ ∃ pss, bs.mapM g = .ok pss ∧ List.Forall₂ w.Filled pss parts := by
  simp only [mapM_eq_ok]
  induction h generalizing parts with
  | nil =>
    constructor
    · rintro ⟨⟩
      exact ⟨[], .nil, .nil⟩
    · rintro ⟨_, ⟨⟩, ⟨⟩⟩
      exact .nil
  | cons hab _ ih =>
    constructor
    · rintro (_ | ⟨hus, hparts⟩)
      obtain ⟨ps, hps, hfilled⟩ := (hab _).1 hus
      obtain ⟨pss, hpss, hall⟩ := ih.1 hparts
      exact ⟨ps :: pss, .cons hps hpss, .cons hfilled hall⟩
    · rintro ⟨_, _ | ⟨hps, hpss⟩, _ | ⟨hfilled, hall⟩⟩
      exact .cons ((hab _).2 ⟨_, hps, hfilled⟩) (ih.2 ⟨_, hpss, hall⟩)

/-- Parts that are filled one by one and then put together. -/
theorem Fills.traverse {α β : Type} {f : α → Except Failure (List τ)} {g : β → Except Failure (List Piece)}
    {as : List α} {bs : List β} (h : List.Forall₂ (fun a b => w.Fills (f a) (g b)) as bs)
    {join : List (List τ) → List τ} {join' : List (List Piece) → List Piece}
    (hjoin : ∀ pss us, w.Filled (join' pss) us ↔ ∃ parts, List.Forall₂ w.Filled pss parts ∧ join parts = us) :
    w.Fills (as.mapM f >>= fun parts => pure (join parts)) (bs.mapM g >>= fun pss => pure (join' pss)) := by
  intro us
  simp only [bind_eq_ok, pure_eq_ok, mapM_fills h]
  constructor
  · rintro ⟨parts, ⟨pss, hpss, hparts⟩, rfl⟩
    exact ⟨_, ⟨pss, hpss, rfl⟩, (hjoin pss _).2 ⟨parts, hparts, rfl⟩⟩
  · rintro ⟨_, ⟨pss, hpss, rfl⟩, hfilled⟩
    obtain ⟨parts, hparts, rfl⟩ := (hjoin pss us).1 hfilled
    exact ⟨parts, ⟨pss, hpss, hparts⟩, rfl⟩

theorem filled_listed {pss : List (List Piece)} {us : List τ} :
    w.Filled (template.parenthesized (template.listed pss)) us ↔
      ∃ parts, List.Forall₂ w.Filled pss parts ∧ w.parenthesized (w.listed parts) = us := by
  rw [filled_parenthesized]
  constructor
  · rintro ⟨_, h, rfl⟩
    obtain ⟨parts, hparts, rfl⟩ := filled_separated.1 h
    exact ⟨parts, hparts, rfl⟩
  · rintro ⟨parts, hparts, rfl⟩
    exact ⟨_, filled_separated.2 ⟨parts, hparts, rfl⟩, rfl⟩

end Writer

open Writer

/-! ## Conditions -/

variable (w : Writer τ) (fields : FieldMap)

theorem literal_fills (v : Value) : w.Fills (w.literal v) (template.literal v) := by
  cases v with
  | list items => exact .traverse (List.forall₂_same.2 fun v _ => .scalar w v) fun _ _ => filled_listed
  | null => exact .scalar w _
  | bool b => exact .scalar w _
  | int n => exact .scalar w _
  | float x => exact .scalar w _
  | text s => exact .scalar w _

end Sql

namespace Condition

open Sql

variable {w : Writer τ}

/-- Operands of the same term, the second of which has pieces. -/
def Operand.Fills (w : Writer τ) (o : Operand τ) (p : Operand Piece) : Prop := o.1 = p.1 ∧ w.Fills o.2 p.2

theorem Operand.Fills.isNull {o : Operand τ} {p : Operand Piece} (h : o.Fills w p) : o.isNull = p.isNull := by
  simp only [Operand.isNull, h.1]

theorem Operand.Fills.isEmptyList {o : Operand τ} {p : Operand Piece} (h : o.Fills w p) :
    o.isEmptyList = p.isEmptyList := by
  simp only [Operand.isEmptyList, h.1]

variable {os : List (Operand τ)} {ps : List (Operand Piece)}

theorem junction_fills (h : List.Forall₂ (Operand.Fills w) os ps) (word : Keyword) (whenEmpty : Bool) :
    w.Fills (junction w word whenEmpty os) (junction template word whenEmpty ps) := by
  cases h with
  | nil => exact .fixed w _
  | cons ho hos =>
    exact .traverse (.cons ho.2 (hos.imp fun _ _ h => h.2)) fun _ _ => Writer.filled_separated

theorem binary_fills (h : List.Forall₂ (Operand.Fills w) os ps) (operator : Operator) (between : List Token) :
    w.Fills (binary w operator between os) (binary template operator between ps) := by
  have hlength := h.length_eq
  unfold binary
  rcases h with _ | ⟨hl, _ | ⟨hr, _ | _⟩⟩
  · exact .error w _
  · exact .error w _
  · exact hl.2.joined between hr.2
  · rw [hlength]
    exact .error w _

/-- A test of one operand for being missing. -/
theorem nullTest_fills {o : Operand τ} {p : Operand Piece} (h : o.Fills w p) (test : List Token) :
    w.Fills ((· ++ w.fixed test) <$> o.2) ((· ++ template.fixed test) <$> p.2) :=
  h.2.map fun _ _ => Writer.filled_suffixed _

theorem equality_fills (h : List.Forall₂ (Operand.Fills w) os ps) (operator : Operator) (sign : Sign)
    (nullTest : List Token) :
    w.Fills (equality w operator sign nullTest os) (equality template operator sign nullTest ps) := by
  have hlength := h.length_eq
  have hbinary := binary_fills h operator [.sign sign]
  unfold equality
  rcases h with _ | ⟨hl, _ | ⟨hr, _ | _⟩⟩
  · exact .error w _
  · exact .error w _
  · dsimp only
    rw [hl.isNull, hr.isNull]
    split
    · exact nullTest_fills hl nullTest
    · split
      · exact nullTest_fills hr nullTest
      · exact hbinary
  · rw [hlength]
    exact .error w _

theorem membership_fills (h : List.Forall₂ (Operand.Fills w) os ps) :
    w.Fills (membership w os) (membership template ps) := by
  have hbinary := binary_fills h .in [.keyword .in]
  unfold membership
  rcases h with _ | ⟨hl, _ | ⟨hr, _ | _⟩⟩
  · exact hbinary
  · exact hbinary
  · dsimp only
    rw [hr.isEmptyList]
    split
    · exact .fixed w _
    · exact hbinary
  · exact hbinary

theorem body_fills (h : List.Forall₂ (Operand.Fills w) os ps) (operator : Operator) :
    w.Fills (body w operator os) (body template operator ps) := by
  have hlength := h.length_eq
  cases operator with
  | and => exact junction_fills h _ _
  | or => exact junction_fills h _ _
  | equalTo => exact equality_fills h _ _ _
  | notEqualTo => exact equality_fills h _ _ _
  | lessThan => exact binary_fills h _ _
  | lessThanOrEqualTo => exact binary_fills h _ _
  | greaterThan => exact binary_fills h _ _
  | greaterThanOrEqualTo => exact binary_fills h _ _
  | like => exact binary_fills h _ _
  | «in» => exact membership_fills h
  | between =>
    simp only [body]
    rcases h with _ | ⟨hs, _ | ⟨hl, _ | ⟨hh, _ | _⟩⟩⟩
    · exact .error w _
    · exact .error w _
    · exact .error w _
    · have hbounds := hs.2.joined [.keyword .between] (hl.2.joined [.keyword .and] hh.2)
      simp only [bind_assoc, pure_bind, List.append_assoc] at hbounds ⊢
      exact hbounds
    · rw [hlength]
      exact .error w _
  | isNull =>
    simp only [body]
    rcases h with _ | ⟨hs, _ | _⟩
    · exact .error w _
    · exact nullTest_fills hs _
    · rw [hlength]
      exact .error w _

end Condition

namespace Sql

open Writer

variable (w : Writer τ) (fields : FieldMap)

mutual

theorem termUnits_fills : ∀ t : Term, w.Fills (termUnits w fields t) (termUnits template fields t)
  | .field _ => .fixed w _
  | .literal v => literal_fills w v
  | .condition c => (conditionUnits_fills c).map fun _ _ => filled_parenthesized

/-- **A condition is its template, filled.** -/
theorem conditionUnits_fills : ∀ c : Condition, w.Fills (conditionUnits w fields c) (conditionUnits template fields c)
  | ⟨operator, terms, negated⟩ => by
    have hbody := Condition.body_fills (operands_fills terms) operator
    cases negated with
    | false => exact hbody.kept
    | true => exact hbody.map fun ps us => filled_between [.keyword .not, .openParen] [.closeParen]

theorem operands_fills : ∀ ts : List Term,
    List.Forall₂ (Condition.Operand.Fills w) (operands w fields ts) (operands template fields ts)
  | [] => .nil
  | t :: ts => .cons ⟨rfl, termUnits_fills t⟩ (operands_fills ts)

end

/-! ## Statements -/

theorem whereUnits_fills (condition : Option Condition) :
    w.Fills (whereUnits w fields condition) (whereUnits template fields condition) := by
  cases condition with
  | none => exact .fixed w []
  | some c => exact (conditionUnits_fills w fields c).map fun _ _ => filled_prefixed [.keyword .where]

theorem joinUnits_fills (j : Join) : w.Fills (joinUnits w fields j) (joinUnits template fields j) :=
  (conditionUnits_fills w fields j.condition).map fun _ _ => filled_prefixed _

theorem scopeUnits_fills (table : String) (condition : Option Condition) (ordering : List OrderBy)
    (limit offset : Option Nat) :
    w.Fills (scopeUnits w fields table condition ordering limit offset)
      (scopeUnits template fields table condition ordering limit offset) := by
  have hrows := whereUnits_fills w fields condition
  unfold scopeUnits
  split
  · exact hrows.kept
  · cases orderTokens fields ordering with
    | error f => exact fun us => by simp [bind_eq_ok]
    | ok order =>
      refine hrows.map ?_
      intro ps us
      have h := @filled_between _ w ([.keyword .where, .keyword .rowid, .keyword .in, .openParen, .keyword .select,
        .keyword .rowid, .keyword .from] ++ nameTokens table) (order ++ limitTokens limit offset ++ [.closeParen]) ps us
      simpa [Writer.fixed, Writer.parenthesized] using h

end Sql

open Sql

variable (w : Writer τ) (fields : FieldMap)

theorem Select.fills (s : Select) : w.Fills (s.units w fields) (s.units template fields) := by
  unfold Select.units
  split
  · exact .error w _
  · cases orderTokens fields s.ordering with
    | error f => exact fun us => by simp [bind_eq_ok]
    | ok order =>
      have hjoins := Writer.Fills.traverse (List.forall₂_same.2 fun j (_ : j ∈ s.joins) => joinUnits_fills w fields j)
        fun _ _ => Writer.filled_flatten
      have h := (hjoins.headed s.head (whereUnits_fills w fields s.condition)).map fun _ _ =>
        Writer.filled_suffixed (order ++ limitTokens s.limit s.offset)
      simp only [bind_assoc, pure_bind, map_bind, map_pure] at h
      exact h

theorem Insert.rowUnits_fills (columns : List String) (row : Row) :
    w.Fills (Insert.rowUnits w columns row) (Insert.rowUnits template columns row) := by
  refine .traverse (List.forall₂_same.2 fun column _ => ?_) fun _ _ => Writer.filled_listed
  cases row.get? column with
  | none => exact .fixed w [.keyword .null]
  | some v => exact .cell w v

theorem Insert.filled_fills (s : Insert) (head : List Token) :
    w.Fills (Insert.units.filled s w head) (Insert.units.filled s template head) := by
  have hrows := Writer.Fills.traverse
      (List.forall₂_same.2 fun row (_ : row ∈ s.rows) => Insert.rowUnits_fills w s.columns row)
    fun _ _ => Writer.filled_separated (t := .comma)
  have h := hrows.map fun _ _ => Writer.filled_prefixed
    (head ++ (.openParen :: separated .comma (s.columns.map nameTokens) ++ [.closeParen]) ++ [.keyword .values])
  simp only [map_bind, map_pure] at h
  exact h

theorem Insert.fills (s : Insert) : w.Fills (s.units w) (s.units template) := by
  have hfilled := Insert.filled_fills w s ([.keyword .insert, .keyword .into] ++ nameTokens s.table)
  unfold Insert.units
  match s.rows with
  | [] => exact .error w _
  | [_] =>
    dsimp only
    split
    · exact .fixed w _
    · exact hfilled
  | _ :: _ :: _ =>
    dsimp only
    split
    · exact .error w _
    · exact hfilled

theorem Update.assignmentUnits_fills (change : String × Value) :
    w.Fills (Update.assignmentUnits w change) (Update.assignmentUnits template change) :=
  (Writer.Fills.cell w change.2).map fun _ _ => Writer.filled_prefixed _

theorem Update.fills (s : Update) : w.Fills (s.units w fields) (s.units template fields) := by
  unfold Update.units
  split
  · exact .error w _
  · have hassignments := Writer.Fills.traverse
        (List.forall₂_same.2 fun change (_ : change ∈ s.changes.entries) => Update.assignmentUnits_fills w change)
      fun _ _ => Writer.filled_separated (t := .comma)
    have h := hassignments.headed (.keyword .update :: nameTokens s.table ++ [.keyword .set])
      (scopeUnits_fills w fields s.table s.condition s.ordering s.limit none)
    simp only [bind_assoc, pure_bind] at h
    exact h

theorem Delete.fills (s : Delete) : w.Fills (s.units w fields) (s.units template fields) :=
  (scopeUnits_fills w fields s.table s.condition s.ordering s.limit s.offset).map fun _ _ => Writer.filled_prefixed _

end BoundSql
