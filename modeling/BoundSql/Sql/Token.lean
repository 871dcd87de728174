/-!
# SQL tokens

The lexical units that statements are made of, and their layout as text: one blank between two tokens, except next to
a dot, behind an opening parenthesis, and in front of a comma or a closing one.

* `Token.text` : a quoted name writes each quote twice, so no name can end early.
* `render` : the text of a token list.
-/

namespace BoundSql.Sql

/-- Words of SQL that statements use, and the name of the hidden row number. -/
inductive Keyword where
  | select | as | from | where | order | by | asc | desc | limit | offset
  | insert | into | default | values | update | set | delete
  | and | or | not | in | is | null | between | like
  | inner | left | join | on | rowid
  deriving DecidableEq

/-- Spelling of a word. -/
def Keyword.text : Keyword → String
  | .select => "SELECT"
  | .as => "AS"
  | .from => "FROM"
  | .where => "WHERE"
  | .order => "ORDER"
  | .by => "BY"
  | .asc => "ASC"
  | .desc => "DESC"
  | .limit => "LIMIT"
  | .offset => "OFFSET"
  | .insert => "INSERT"
  | .into => "INTO"
  | .default => "DEFAULT"
  | .values => "VALUES"
  | .update => "UPDATE"
  | .set => "SET"
  | .delete => "DELETE"
  | .and => "AND"
  | .or => "OR"
  | .not => "NOT"
  | .in => "IN"
  | .is => "IS"
  | .null => "NULL"
  | .between => "BETWEEN"
  | .like => "LIKE"
  | .inner => "INNER"
  | .left => "LEFT"
  | .join => "JOIN"
  | .on => "ON"
  | .rowid => "rowid"

/-- Comparison signs. -/
inductive Sign where
  | equal
  | notEqual
  | less
  | lessOrEqual
  | greater
  | greaterOrEqual
  deriving DecidableEq

/-- Spelling of a sign. -/
def Sign.text : Sign → String
  | .equal => "="
  | .notEqual => "<>"
  | .less => "<"
  | .lessOrEqual => "<="
  | .greater => ">"
  | .greaterOrEqual => ">="

/-- A lexical unit of SQL. -/
inductive Token where
  /-- One part of a name, as it is without its quotes. -/
  | name (part : String)
  /-- A token that stands for a bound value. -/
  | placeholder (text : String)
  | integer (n : Int)
  | keyword (k : Keyword)
  | sign (s : Sign)
  | dot
  | comma
  | star
  | openParen
  | closeParen
  deriving DecidableEq

namespace Token

/-- A quote is written twice between quotes. -/
def quoteChar (c : Char) : List Char := if c = '\x22' then ['\x22', '\x22'] else [c]

/-- Part of a name between quotes. -/
def quoted (part : String) : String := String.ofList ('\x22' :: part.toList.flatMap quoteChar ++ ['\x22'])

/-- Spelling of a token. -/
def text : Token → String
  | .name part => quoted part
  | .placeholder t => t
  | .integer n => toString n
  | .keyword k => k.text
  | .sign s => s.text
  | .dot => "."
  | .comma => ","
  | .star => "*"
  | .openParen => "("
  | .closeParen => ")"

/-- Whether two tokens stand next to each other without a blank. -/
def glued : Token → Token → Bool
  | .openParen, _ | .dot, _ => true
  | _, .closeParen | _, .comma | _, .dot => true
  | _, _ => false

/-- Text of the tokens that follow `last`, behind `done`. -/
def renderFrom (done : String) (last : Token) : List Token → String
  | [] => done
  | t :: ts => renderFrom (done ++ (if glued last t then "" else " ") ++ t.text) t ts

end Token

/-- Text of a token list. -/
def render : List Token → String
  | [] => ""
  | t :: ts => Token.renderFrom t.text t ts

/-! ## Names and lists -/

/-- Parts of a name between its dots; there is always at least one. -/
def splitDots (cs : List Char) : List (List Char) :=
  cs.foldr (fun c parts => if c = '.' then [] :: parts else
    match parts with
    | [] => [[c]]
    | part :: rest => (c :: part) :: rest) [[]]

/-- Lists with a separator between every two of them. -/
def separated {α : Type} (separator : α) : List (List α) → List α
  | [] => []
  | first :: rest => first ++ rest.flatMap (separator :: ·)

/-- Tokens of a name: its parts, with dots between them. -/
def nameTokens (name : String) : List Token :=
  separated .dot ((splitDots name.toList).map fun part => [.name (String.ofList part)])

/-- Text of a name: every part between quotes. -/
def quoteName (name : String) : String := render (nameTokens name)

end BoundSql.Sql
