import PromptTags.CommandLine.Command
import PromptTags.CommandLine.Run
import PromptTags.CommandLine.Switch
import PromptTags.Decimal.Binary64
import PromptTags.Decimal.Shortest
import PromptTags.Dictionary.Document
import PromptTags.Dictionary.Store
import PromptTags.Directive.Repeat
import PromptTags.Directive.Scan
import PromptTags.Expansion.Expander
import PromptTags.Expansion.Request
import PromptTags.Files.Access
import PromptTags.Files.Disk
import PromptTags.Files.Fault
import PromptTags.Files.Path
import PromptTags.Files.Tree
import PromptTags.Log
import PromptTags.Main
import PromptTags.Proofs.Dictionary.Load
import PromptTags.Proofs.Dictionary.Ordered
import PromptTags.Proofs.Dictionary.Reported
import PromptTags.Proofs.Dictionary.Unchecked
import PromptTags.Proofs.Directive.Gap
import PromptTags.Proofs.Directive.Grammar
import PromptTags.Proofs.Directive.Mention
import PromptTags.Proofs.Directive.Pieces
import PromptTags.Proofs.Directive.Repeat
import PromptTags.Proofs.Directive.Written
import PromptTags.Proofs.Expansion.Barrier
import PromptTags.Proofs.Expansion.Batch
import PromptTags.Proofs.Expansion.Draws
import PromptTags.Proofs.Expansion.Footprint
import PromptTags.Proofs.Expansion.Nested
import PromptTags.Proofs.Expansion.OnePass
import PromptTags.Proofs.Expansion.PassCap
import PromptTags.Proofs.Expansion.Recursion
import PromptTags.Proofs.Expansion.Repeats
import PromptTags.Proofs.Expansion.SharedValues
import PromptTags.Proofs.Expansion.Substitution
import PromptTags.Proofs.Expansion.Template
import PromptTags.Proofs.Files.Ancestors
import PromptTags.Proofs.Files.Directories
import PromptTags.Proofs.Files.Disk
import PromptTags.Proofs.Files.Growth
import PromptTags.Proofs.Files.Path
import PromptTags.Proofs.Files.Tree
import PromptTags.Proofs.Random.Draw
import PromptTags.Proofs.Report.TagList
import PromptTags.Proofs.Tag.Blame
import PromptTags.Proofs.Tag.Conversion
import PromptTags.Proofs.Tag.Leaves
import PromptTags.Proofs.Tag.Listing
import PromptTags.Proofs.Tag.Omission
import PromptTags.Proofs.Tag.Outcome
import PromptTags.Proofs.Tag.Routes
import PromptTags.Proofs.Tag.Subtree
import PromptTags.Proofs.Tag.Walk
import PromptTags.Proofs.Text.Keyed
import PromptTags.Proofs.Text.Order
import PromptTags.Proofs.Text.Parts
import PromptTags.Proofs.Toml.Document
import PromptTags.Proofs.Toml.Number
import PromptTags.Proofs.Toml.Quoted
import PromptTags.Proofs.Toml.Range
import PromptTags.Proofs.Workspace.Cells
import PromptTags.Proofs.Workspace.Change
import PromptTags.Proofs.Workspace.Creation
import PromptTags.Proofs.Workspace.Discovery
import PromptTags.Proofs.Workspace.Namespaces
import PromptTags.Proofs.Workspace.Provision
import PromptTags.Proofs.Workspace.Storable
import PromptTags.Proofs.Workspace.Stored
import PromptTags.Proofs.Workspace.TagFiles
import PromptTags.Proofs.Workspace.TagPaths
import PromptTags.Proofs.Yaml.Node
import PromptTags.Proofs.Yaml.Vacant
import PromptTags.Proofs.Yaml.Value
import PromptTags.Random.ChaCha
import PromptTags.Random.Source
import PromptTags.Report
import PromptTags.Tag.Listing
import PromptTags.Tag.Lookup
import PromptTags.Tag.Namespace
import PromptTags.Tag.Node
import PromptTags.Tag.Pick
import PromptTags.Tag.Reading
import PromptTags.Text.Basic
import PromptTags.Text.Blank
import PromptTags.Text.Keyed
import PromptTags.Text.Numeral
import PromptTags.Toml.Document
import PromptTags.Toml.Entries
import PromptTags.Toml.Line
import PromptTags.Toml.Number
import PromptTags.Toml.Quoted
import PromptTags.Toml.Reader
import PromptTags.Toml.Value
import PromptTags.Workspace.Commands
import PromptTags.Workspace.Config
import PromptTags.Workspace.Failure
import PromptTags.Workspace.Root
import PromptTags.Workspace.Samples
import PromptTags.Workspace.Setting
import PromptTags.Workspace.Stored
import PromptTags.Workspace.TagFiles
import PromptTags.Yaml.Cursor
import PromptTags.Yaml.Event
import PromptTags.Yaml.Fault
import PromptTags.Yaml.Node
import PromptTags.Yaml.Scalar.Block
import PromptTags.Yaml.Scalar.Folding
import PromptTags.Yaml.Scalar.Plain
import PromptTags.Yaml.Scalar.Quoted
import PromptTags.Yaml.Tag
import PromptTags.Yaml.Token
import PromptTags.Yaml.Token.Lexer
import PromptTags.Yaml.Tree
import PromptTags.Yaml.Value
