import BoundSql.Dict
import BoundSql.Yaml.Node
import BoundSql.Yaml.Token
/-!
# Nodes of tokens

The next node of a token list.  An anchor gives a number to the node behind it, and a reference has the number that its
name has at that place.  Several nodes may come to have one number.

* `Node.next?` : the next node, and the reader behind it.
-/

namespace BoundSql.Yaml.Node

/-- Tokens to come, and what is known of anchors. -/
structure Reader where
  tokens : List Token
  /-- Numbers of the names so far. -/
  numbers : Dict Nat
  /-- Anchored nodes under their numbers, the one that began last in front; a node that has not ended is missing. -/
  anchored : List (Nat × Option Node)

/-- What is written in front of a node. -/
structure Properties where
  anchor : Option String
  tag : Option Tag

namespace Reader

/-- Whether the next token is one of these. -/
def atAny (stops : List Token) (r : Reader) : Bool := r.tokens.head?.any stops.contains

/-- The reader behind its next token. -/
def next (r : Reader) : Reader := { r with tokens := r.tokens.drop 1 }

/-- The reader behind a token that must come next. -/
def expect? (t : Token) (r : Reader) : Option Reader := if r.atAny [t] then some r.next else none

/-- An empty node if one of these tokens comes next, else whatever `read` reads. -/
def orEmpty (stops : List Token) (read : Reader → Option (Node × Reader)) (r : Reader) : Option (Node × Reader) :=
  if r.atAny stops then some (Node.empty, r) else read r

/-- Value behind its sign, or an empty node if there is no sign, or if one of these tokens follows it. -/
def value? (stops : List Token) (read : Reader → Option (Node × Reader)) (r : Reader) : Option (Node × Reader) :=
  if r.atAny [.value] then r.next.orEmpty stops read else some (Node.empty, r)

/-- An anchor and a tag, in either order. -/
def properties? (handles : List (String × List UInt8)) (r : Reader) : Option (Properties × Reader) := do
  match r.tokens with
  | .anchor name :: .tag t :: ts => return (⟨some name, some (← t.expand? handles)⟩, { r with tokens := ts })
  | .anchor name :: ts => return (⟨some name, none⟩, { r with tokens := ts })
  | .tag t :: .anchor name :: ts => return (⟨some name, some (← t.expand? handles)⟩, { r with tokens := ts })
  | .tag t :: ts => return (⟨none, some (← t.expand? handles)⟩, { r with tokens := ts })
  | _ => return (⟨none, none⟩, r)

/-- The reader at the beginning of a node.  The number of an anchor is the count of the names before it, also if its
own name is one of them. -/
def begin (anchor : Option String) (r : Reader) : Reader :=
  match anchor with
  | some name =>
    let number := r.numbers.size
    { r with numbers := r.numbers.insert name number, anchored := (number, none) :: r.anchored }
  | none => r

/-- The reader at the end of a node that has begun where `first` stood. -/
def finish (r first : Reader) (anchor : Option String) (node : Node) : Reader :=
  if anchor.isSome then
    let place := r.anchored.length - (first.anchored.length + 1)
    { r with anchored := r.anchored.modify place fun (number, _) => (number, some node) }
  else r

/-- Item that is a single member without braces.  If its key is left out, the token behind it is passed over. -/
def pair? (read : Reader → Option (Node × Reader)) (r : Reader) : Option (Node × Reader) := do
  let (key, r) ←
    if r.atAny [.value, .separator, .flowSequenceEnd] then some (Node.empty, r.next) else read r
  let (value, r) ← r.value? [.separator, .flowSequenceEnd] read
  return (.mapping none [⟨key, value⟩], r)

end Reader

/-- An empty scalar, if a tag or an anchor stands for it. -/
def implied? (p : Properties) (r : Reader) : Option (Node × Reader) :=
  if p.anchor.isSome || p.tag.isSome then some (.scalar p.tag .plain "", r) else none

mutual

/-- The next node.  Block collections may begin only where `block` says so, and a sequence that is indented as its
key only where `unindented` says so. -/
def next? (handles : List (String × List UInt8)) :
    (fuel : Nat) → (block unindented : Bool) → Reader → Option (Node × Reader)
  | 0, _, _, _ => none
  | fuel + 1, block, unindented, r =>
    match r.tokens with
    | .reference name :: _ => (r.numbers.get? name).map fun number => (.reference number, r.next)
    | _ => do
      let (p, first) ← r.properties? handles
      let (node, r) ← content? handles fuel block unindented p (first.begin p.anchor)
      return (node, r.finish first p.anchor node)

/-- What follows the properties of a node. -/
def content? (handles : List (String × List UInt8)) :
    (fuel : Nat) → (block unindented : Bool) → Properties → Reader → Option (Node × Reader)
  | 0, _, _, _, _ => none
  | fuel + 1, block, unindented, p, r =>
    match r.tokens with
    | .scalar style text :: _ => some (.scalar p.tag style text, r.next)
    | .flowSequence :: _ => (flowItems? handles fuel true r.next).map fun (items, r) => (.sequence p.tag items, r)
    | .flowMapping :: _ => (flowMembers? handles fuel true r.next).map fun (members, r) => (.mapping p.tag members, r)
    | .blockSequence :: _ =>
      if block then (blockItems? handles fuel r.next).map fun (items, r) => (.sequence p.tag items, r)
      else implied? p r
    | .blockMapping :: _ =>
      if block then (blockMembers? handles fuel r.next).map fun (members, r) => (.mapping p.tag members, r)
      else implied? p r
    | .entry :: _ =>
      if unindented then (unindentedItems? handles fuel r).map fun (items, r) => (.sequence p.tag items, r)
      else implied? p r
    | _ => implied? p r

/-- Items of a block sequence. -/
def blockItems? (handles : List (String × List UInt8)) : (fuel : Nat) → Reader → Option (List Node × Reader)
  | 0, _ => none
  | fuel + 1, r =>
    match r.tokens with
    | .entry :: _ => do
      let (item, r) ← r.next.orEmpty [.entry, .blockEnd] (next? handles fuel true false)
      let (items, r) ← blockItems? handles fuel r
      return (item :: items, r)
    | .blockEnd :: _ => some ([], r.next)
    | _ => none

/-- Items of a block sequence that is indented as the key in front of it. -/
def unindentedItems? (handles : List (String × List UInt8)) : (fuel : Nat) → Reader → Option (List Node × Reader)
  | 0, _ => none
  | fuel + 1, r =>
    match r.tokens with
    | .entry :: _ => do
      let (item, r) ← r.next.orEmpty [.entry, .key, .value, .blockEnd] (next? handles fuel true false)
      let (items, r) ← unindentedItems? handles fuel r
      return (item :: items, r)
    | _ => some ([], r)

/-- Members of a block mapping. -/
def blockMembers? (handles : List (String × List UInt8)) : (fuel : Nat) → Reader → Option (List Member × Reader)
  | 0, _ => none
  | fuel + 1, r =>
    match r.tokens with
    | .key :: _ => do
      let stops := [.key, .value, .blockEnd]
      let (key, r) ← r.next.orEmpty stops (next? handles fuel true true)
      let (value, r) ← r.value? stops (next? handles fuel true true)
      let (members, r) ← blockMembers? handles fuel r
      return (⟨key, value⟩ :: members, r)
    | .blockEnd :: _ => some ([], r.next)
    | _ => none

/-- Items between brackets. -/
def flowItems? (handles : List (String × List UInt8)) :
    (fuel : Nat) → (first : Bool) → Reader → Option (List Node × Reader)
  | 0, _, _ => none
  | fuel + 1, first, r => do
    if r.atAny [.flowSequenceEnd] then return ([], r.next)
    let r ← if first then some r else r.expect? .separator
    if r.atAny [.flowSequenceEnd] then return ([], r.next)
    let (item, r) ←
      if r.atAny [.key] then r.next.pair? (next? handles fuel false false) else next? handles fuel false false r
    let (items, r) ← flowItems? handles fuel false r
    return (item :: items, r)

/-- Members between braces; a key may stand alone. -/
def flowMembers? (handles : List (String × List UInt8)) :
    (fuel : Nat) → (first : Bool) → Reader → Option (List Member × Reader)
  | 0, _, _ => none
  | fuel + 1, first, r => do
    if r.atAny [.flowMappingEnd] then return ([], r.next)
    let r ← if first then some r else r.expect? .separator
    if r.atAny [.flowMappingEnd] then return ([], r.next)
    let (member, r) ←
      if r.atAny [.key] then do
        let (key, r) ← r.next.orEmpty [.value, .separator, .flowMappingEnd] (next? handles fuel false false)
        let (value, r) ← r.value? [.separator, .flowMappingEnd] (next? handles fuel false false)
        pure (Member.mk key value, r)
      else do
        let (key, r) ← next? handles fuel false false r
        pure (Member.mk key Node.empty, r)
    let (members, r) ← flowMembers? handles fuel false r
    return (member :: members, r)

end

end BoundSql.Yaml.Node
