import BoundSql.Config.Yaml
import BoundSql.Placeholder.Parameter
import BoundSql.Record.Json
import BoundSql.Resource.Model
import BoundSql.Proofs.Bindings.Growth
import BoundSql.Proofs.Bindings.History
import BoundSql.Proofs.Sql.Template
import BoundSql.Proofs.Placeholder.Position
import BoundSql.Proofs.Bindings.Lookup
import BoundSql.Proofs.Resource.Drafts
import BoundSql.Proofs.Resource.Values
import BoundSql.Proofs.Bindings.Exchange
import BoundSql.Proofs.Sources
import BoundSql.Proofs.Resource.Exchange
import BoundSql.Proofs.Sql.Scan
import BoundSql.Proofs.Sql.Parse
import BoundSql.Proofs.Sql.Meaning
import BoundSql.Proofs.Sql.Faithful
import BoundSql.Proofs.Sql.Written
import BoundSql.Proofs.Bindings.Coverage
import BoundSql.Proofs.Sql.Writable
import BoundSql.Proofs.Sql.Placed
import BoundSql.Proofs.Resource.Walks
import BoundSql.Proofs.Resource.Placement
import BoundSql.Proofs.Bindings.Restyle
import BoundSql.Proofs.Resource.Restyle
import BoundSql.Proofs.FirstOccurrences
import BoundSql.Proofs.Bindings.Order
import BoundSql.Proofs.Sql.Command
import BoundSql.Proofs.Sql.ReadBack
import BoundSql.Proofs.Resource.Runs
import BoundSql.Proofs.Resource.Insertion
import BoundSql.Proofs.Resource.InsertionOrder
import BoundSql.Proofs.Resource.ByIdentifier
import BoundSql.Proofs.Resource.Refusals
import BoundSql.Proofs.Resource.Rejections
import BoundSql.Proofs.Sql.Scope
import BoundSql.Proofs.Resource.Limits
import BoundSql.Proofs.Sql.Selection
import BoundSql.Proofs.Resource.Modes
import BoundSql.Proofs.Condition.Identifiers
import BoundSql.Proofs.Resource.Repetition
import BoundSql.Proofs.Placeholder.Rewrite
import BoundSql.Proofs.Sql.Parameters
import BoundSql.Proofs.Sql.Names
import BoundSql.Proofs.Json.Lexical
import BoundSql.Proofs.Json.Tree
import BoundSql.Proofs.Condition.Json
import BoundSql.Proofs.Bindings.Recursion
import BoundSql.Proofs.Json.Literal
import BoundSql.Proofs.Json.Record
import BoundSql.Proofs.Resource.Containers
import BoundSql.Proofs.Number.Rounding
import BoundSql.Proofs.Number.Numeral
import BoundSql.Proofs.Number.Shortest
import BoundSql.Proofs.Number.Layout
import BoundSql.Proofs.Yaml.Word
import BoundSql.Proofs.Yaml.Place
import BoundSql.Proofs.Yaml.Plain
import BoundSql.Proofs.Yaml.Quoted
import BoundSql.Proofs.Yaml.Block
import BoundSql.Proofs.Yaml.Style
import BoundSql.Proofs.Yaml.Tag
import BoundSql.Proofs.Yaml.Scanner
import BoundSql.Proofs.Yaml.Signs
import BoundSql.Proofs.Yaml.Tree
import BoundSql.Proofs.Yaml.Reader
import BoundSql.Proofs.Yaml.Content
import BoundSql.Proofs.Condition.Yaml
import BoundSql.Proofs.Config.Yaml
import BoundSql.Proofs.Condition.Branches
import BoundSql.Proofs.Condition.Ranges
import BoundSql.Proofs.Number.Nearest
import BoundSql.Proofs.Number.Written
import BoundSql.Proofs.Value.Integer
import BoundSql.Proofs.Dict
import BoundSql.Proofs.Config.Fields
import BoundSql.Proofs.Resource.Rows
import BoundSql.Proofs.Bindings.Numbers
import BoundSql.Proofs.Sql.Parentheses
import BoundSql.Proofs.Placeholder.Parameter
import BoundSql.Proofs.Placeholder.Leftmost
