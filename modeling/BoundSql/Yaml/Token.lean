import BoundSql.Yaml.Tag
/-!
# YAML tokens

A YAML text as a list of tokens, which say where collections begin and end.  A line that is indented further than the
collection around it begins a collection, and one that is indented less ends it.  That a scalar or a bracket began a
key is known only at the colon behind it: the tokens that begin the key are then put where it began.

* `Token.scan?` : the tokens of a text.
-/

namespace BoundSql.Yaml

/-- A token. -/
inductive Token where
  | directive (d : Directive)
  | documentStart
  | documentEnd
  | blockSequence
  | blockMapping
  | blockEnd
  | flowSequence
  | flowSequenceEnd
  | flowMapping
  | flowMappingEnd
  | entry
  | separator
  | key
  | value
  | reference (name : String)
  | anchor (name : String)
  | tag (t : WrittenTag)
  | scalar (style : Style) (text : String)
  deriving DecidableEq

/-- The place where a key has begun, if a colon comes. -/
structure KeyStart where
  /-- Count of the tokens in front of it. -/
  number : Nat
  cell : Cell
  /-- Whether nothing but a key can stand there. -/
  required : Bool

/-- A text that is part way through. -/
structure Scanner where
  /-- Tokens in reverse order. -/
  tokens : List Token
  /-- Count of the tokens. -/
  count : Nat
  /-- Columns of the open block collections, the innermost first. -/
  columns : List Nat
  /-- Where a key may have begun, within the innermost brackets. -/
  key : Option KeyStart
  /-- The same for the text around each pair of brackets that is open. -/
  outerKeys : List (Option KeyStart)
  /-- Whether a key may begin here. -/
  keyAllowed : Bool

namespace Scanner

/-- The beginning of a text. -/
def start : Scanner := ⟨[], 0, [], none, [], true⟩

/-- Whether brackets are open. -/
def inFlow (s : Scanner) : Bool := !s.outerKeys.isEmpty

/-- Column of the innermost block collection, `-1` if there is none. -/
def indent (s : Scanner) : Int := (s.columns.head?.map Int.ofNat).getD (-1)

/-- One more token. -/
def push (s : Scanner) (t : Token) : Scanner := { s with tokens := t :: s.tokens, count := s.count + 1 }

/-- A token behind the first `number` ones. -/
def insert (s : Scanner) (number : Nat) (t : Token) : Scanner :=
  { s with tokens := s.tokens.insertIdx (s.count - number) t, count := s.count + 1 }

/-- Ends the block collections that are indented further than a column. -/
def unroll (s : Scanner) (column : Int) : Scanner :=
  if s.inFlow then s
  else
    let ended := s.columns.takeWhile fun (c : Nat) => column < c
    { s with
      tokens := List.replicate ended.length .blockEnd ++ s.tokens
      count := s.count + ended.length
      columns := s.columns.drop ended.length }

/-- Begins a block collection at a column, unless the innermost one is indented as far. -/
def roll (s : Scanner) (column number : Nat) (t : Token) : Scanner :=
  if s.inFlow || (column : Int) ≤ s.indent then s else { s.insert number t with columns := column :: s.columns }

/-- Gives up the key that may have begun. -/
def dropKey? (s : Scanner) : Option Scanner :=
  if s.key.any KeyStart.required then none else some { s with key := none }

/-- Takes a cell for the beginning of a key if one may begin there; what follows begins none. -/
def saveKey? (s : Scanner) (c : Cell) : Option Scanner :=
  if s.keyAllowed then do
    let s ← s.dropKey?
    let key : KeyStart := ⟨s.count, c, !s.inFlow && s.indent = c.column⟩
    return { s with key := some key, keyAllowed := false }
  else some s

/-- Most bytes from the beginning of a key to its colon. -/
def keyLimit : Nat := 1024

/-- Whether a key that began at a place may end at a cell. -/
def mayEnd (k : KeyStart) (c : Cell) : Bool := k.cell.line = c.line && c.offset ≤ k.cell.offset + keyLimit

/-! ## Tokens one at a time -/

/-- Start or end of a document. -/
def document? (s : Scanner) (t : Token) : Option Scanner := do
  let s ← (s.unroll (-1)).dropKey?
  return { s.push t with keyAllowed := false }

/-- Opening bracket. -/
def openFlow? (s : Scanner) (c : Cell) (t : Token) : Option Scanner := do
  let s ← s.saveKey? c
  return { s.push t with key := none, outerKeys := s.key :: s.outerKeys, keyAllowed := true }

/-- Closing bracket. -/
def closeFlow? (s : Scanner) (t : Token) : Option Scanner := do
  let s ← s.dropKey?
  return { s.push t with key := s.outerKeys.head?.join, outerKeys := s.outerKeys.drop 1, keyAllowed := false }

/-- Comma. -/
def separator? (s : Scanner) : Option Scanner := do
  let s ← s.dropKey?
  return { s.push .separator with keyAllowed := true }

/-- Dash in front of an item. -/
def entry? (s : Scanner) (c : Cell) : Option Scanner := do
  if !s.inFlow && !s.keyAllowed then none
  else
    let s ← (s.roll c.column s.count .blockSequence).dropKey?
    return { s.push .entry with keyAllowed := true }

/-- Question mark in front of a key. -/
def key? (s : Scanner) (c : Cell) : Option Scanner := do
  if !s.inFlow && !s.keyAllowed then none
  else
    let s ← (s.roll c.column s.count .blockMapping).dropKey?
    return { s.push .key with keyAllowed := !s.inFlow }

/-- Colon behind a key that has no question mark. -/
def valueOf (s : Scanner) (k : KeyStart) : Scanner :=
  let s := (s.insert k.number .key).roll k.cell.column k.number .blockMapping
  { s.push .value with key := none, keyAllowed := false }

/-- Colon. -/
def value? (s : Scanner) (c : Cell) : Option Scanner := do
  match s.key with
  | some k => if mayEnd k c then some (s.valueOf k) else if k.required then none else standalone s
  | none => standalone s
where
  /-- Colon that no key stands in front of on its line. -/
  standalone (s : Scanner) : Option Scanner :=
    if !s.inFlow && !s.keyAllowed then none
    else
      let s := s.roll c.column s.count .blockMapping
      some { s.push .value with keyAllowed := !s.inFlow }

/-- Token that may begin a key, and where it ends. -/
def keyed? (s : Scanner) (c : Cell) (t : Option (Token × List Cell)) : Option (Scanner × List Cell) := do
  let s ← s.saveKey? c
  let (t, rest) ← t
  return (s.push t, rest)

/-- Plain scalar. -/
def plain? (s : Scanner) (c : Cell) (cs : List Cell) : Option (Scanner × List Cell) := do
  let s ← s.saveKey? c
  let scanned ← Scalar.plain? s.inFlow (s.indent + 1) (c :: cs)
  return ({ s.push (.scalar .plain (String.ofList scanned.text)) with keyAllowed := scanned.broken }, scanned.rest)

/-- Scalar that is a block of lines. -/
def block? (s : Scanner) (style : Style) (cs : List Cell) : Option (Scanner × List Cell) := do
  let s ← s.dropKey?
  let (text, rest) ← Scalar.block? (style = .literal) s.indent cs
  return ({ s.push (.scalar style (String.ofList text)) with keyAllowed := true }, rest)

/-- Quoted scalar behind its opening quote. -/
def quoted? (style : Style) (cs : List Cell) : Option (Token × List Cell) :=
  (Scalar.quoted? (style = .singleQuoted) cs).map fun (text, rest) => (.scalar style (String.ofList text), rest)

/-- Signs that no plain scalar begins with. -/
def reserved : List Char :=
  [',', '[', ']', '\x7b', '\x7d', '#', '&', '*', '!', '|', '>', '\x27', '\x22', '%', '@', '\x60']

/-- Whether a plain scalar may begin with a character in front of another. -/
def beginsPlain (flow : Bool) (c next : Char) : Bool :=
  if c = '-' then !isBlank next
  else if c = '?' || c = ':' then !flow && !isSeparator next
  else !isSeparator c && !reserved.contains c

/-- The token that begins at a cell. -/
def step? (s : Scanner) (c : Cell) (cs : List Cell) : Option (Scanner × List Cell) :=
  let next := Cell.headChar cs
  let alone := s.inFlow || isSeparator next
  if c.column = 0 && c.char = '%' then do
    let (directive, rest) ← Directive.read? cs
    return (← s.document? (.directive directive), rest)
  else if Cell.atMark '-' (c :: cs) then (s.document? .documentStart).map (·, cs.drop 2)
  else if Cell.atMark '.' (c :: cs) then (s.document? .documentEnd).map (·, cs.drop 2)
  else match c.char with
    | '[' => (s.openFlow? c .flowSequence).map (·, cs)
    | '\x7b' => (s.openFlow? c .flowMapping).map (·, cs)
    | ']' => (s.closeFlow? .flowSequenceEnd).map (·, cs)
    | '\x7d' => (s.closeFlow? .flowMappingEnd).map (·, cs)
    | ',' => s.separator?.map (·, cs)
    | '*' => s.keyed? c ((anchorName? cs).map fun (name, rest) => (.reference name, rest))
    | '&' => s.keyed? c ((anchorName? cs).map fun (name, rest) => (.anchor name, rest))
    | '!' => s.keyed? c ((WrittenTag.read? s.inFlow cs).map fun (tag, rest) => (.tag tag, rest))
    | '\x27' => s.keyed? c (quoted? .singleQuoted cs)
    | '\x22' => s.keyed? c (quoted? .doubleQuoted cs)
    | char =>
      if char = '-' && isSeparator next then (s.entry? c).map (·, cs)
      else if char = '?' && alone then (s.key? c).map (·, cs)
      else if char = ':' && alone then (s.value? c).map (·, cs)
      else if char = '|' && !s.inFlow then s.block? .literal cs
      else if char = '>' && !s.inFlow then s.block? .folded cs
      else if beginsPlain s.inFlow char next then s.plain? c cs
      else none

/-- Tokens once the text has ended. -/
def finish? (s : Scanner) : Option (List Token) := ((s.unroll (-1)).dropKey?).map (·.tokens.reverse)

/-! ## Between tokens -/

/-- Passes over blanks, comments and line ends: whether a key may begin behind them, and what follows.  A tab is no
blank where a key may begin. -/
def skip (flow comment keyAllowed : Bool) : List Cell → Bool × List Cell
  | [] => (keyAllowed, [])
  | c :: cs =>
    if isBreak c.char then skip flow false (keyAllowed || !flow) cs
    else if comment then if c.char = endChar then (keyAllowed, c :: cs) else skip flow true keyAllowed cs
    else if c.char = '#' then skip flow true keyAllowed cs
    else if c.char = ' ' || (c.char = '\t' && (flow || !keyAllowed)) || (c.char = '\ufeff' && c.column = 0) then
      skip flow false keyAllowed cs
    else (keyAllowed, c :: cs)

/-- Tokens of the cells from a place on. -/
def scan? : (fuel : Nat) → Scanner → List Cell → Option (List Token)
  | 0, _, _ => none
  | fuel + 1, s, cells =>
    let (keyAllowed, cells) := skip s.inFlow false s.keyAllowed cells
    match cells with
    | [] => s.finish?
    | c :: cs =>
      if c.char = endChar then s.finish?
      else
        match ({ s with keyAllowed }.unroll c.column).step? c cs with
        | some (s, rest) => scan? fuel s rest
        | none => none

end Scanner

/-- Tokens of a text; each takes one cell at least. -/
def Token.scan? (text : String) : Option (List Token) :=
  (Cell.ofText? text).bind fun cells => Scanner.scan? cells.length Scanner.start cells

end BoundSql.Yaml
