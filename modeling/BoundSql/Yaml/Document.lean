import BoundSql.Yaml.Node.Reader
/-!
# YAML documents

A document is a node with directives above it, and nothing but its end behind it.  Its anchored nodes are kept beside
it, since references stand for them.

* `Document.ofTokens?`, `Document.ofText?` : the one document of a token list or of a text.
* `Document.target?` : what a reference stands for.
-/

namespace BoundSql.Yaml

/-- A node, and the anchored nodes in it under their numbers, the one that began last in front. -/
structure Document where
  root : Node
  anchored : List (Nat × Option Node)

namespace Document

/-- Node that references with a number stand for: the last one that has it, wherever they are. -/
def target? (d : Document) (number : Nat) : Option Node := (d.anchored.lookup number).join

/-! ## Directives -/

/-- Directives that tokens begin with, and the tokens behind them. -/
def directives : List Token → List Directive × List Token
  | .directive d :: ts => (d :: (directives ts).1, (directives ts).2)
  | ts => ([], ts)

/-- Whether a version of the language is understood. -/
def isSupported : Directive → Bool
  | .version major minor => major = 1 && (minor = 1 || minor = 2)
  | .handle _ _ => true

/-- What a directive must not say twice. -/
def subject : Directive → Option String
  | .version _ _ => none
  | .handle name _ => some name

/-- Handles of a document with these directives. -/
def handles? (ds : List Directive) : Option (List (String × List UInt8)) :=
  if ds.all isSupported && decide (ds.map subject).Nodup then
    let own := ds.filterMap fun d => match d with
      | .handle name expansion => some (name, expansion)
      | .version _ _ => none
    some (own ++ WrittenTag.commonHandles)
  else none

/-! ## Reading -/

/-- Most calls that reading takes: three for each token. -/
def fuelFor (tokens : List Token) : Nat := 3 * tokens.length + 3

/-- Node of a document whose start is marked, or else of one that has a node at least. -/
def root? (handles : List (String × List UInt8)) (marked : Bool) (tokens : List Token) :
    Option (Node × Node.Reader) :=
  let r : Node.Reader := ⟨tokens, Dict.empty, []⟩
  let ends := tokens.isEmpty || r.atAny [.documentStart, .documentEnd]
  if marked && ends then some (Node.empty, r) else Node.next? handles (fuelFor tokens) true false r

/-- The one document of a token list. -/
def ofTokens? (tokens : List Token) : Option Document := do
  let (ds, rest) := directives tokens
  let handles ← handles? ds
  let marked := rest.head? = some .documentStart
  if !marked && !ds.isEmpty then none
  else
    let (root, r) ← root? handles marked (if marked then rest.drop 1 else rest)
    if r.tokens.all (· = .documentEnd) then some ⟨root, r.anchored⟩ else none

/-- The one document of a text. -/
def ofText? (text : String) : Option Document := (Token.scan? text).bind ofTokens?

end Document

end BoundSql.Yaml
