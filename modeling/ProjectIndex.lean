import ProjectIndex.Bundled
import ProjectIndex.Choice
import ProjectIndex.Cursor
import ProjectIndex.Disk.Change
import ProjectIndex.Disk.Reader
import ProjectIndex.Disk.Resolve
import ProjectIndex.Disk.Tree
import ProjectIndex.Document
import ProjectIndex.Entry
import ProjectIndex.Forms
import ProjectIndex.Loader
import ProjectIndex.Log
import ProjectIndex.Names
import ProjectIndex.Number.Binary64
import ProjectIndex.Number.Shortest
import ProjectIndex.Path
import ProjectIndex.Search
import ProjectIndex.Session
import ProjectIndex.Settings
import ProjectIndex.Table
import ProjectIndex.Text.Blank
import ProjectIndex.Text.Hidden
import ProjectIndex.Text.Quoted
import ProjectIndex.Text.Utf8
import ProjectIndex.Yaml.Error
import ProjectIndex.Yaml.Event
import ProjectIndex.Yaml.Fault
import ProjectIndex.Yaml.Mark
import ProjectIndex.Yaml.Node
import ProjectIndex.Yaml.Plain
import ProjectIndex.Yaml.Reading
import ProjectIndex.Yaml.Source
import ProjectIndex.Yaml.Token
import ProjectIndex.Yaml.Token.Lexer
import ProjectIndex.Yaml.Token.Property
import ProjectIndex.Yaml.Token.Scalar
import ProjectIndex.Yaml.Value
import ProjectIndex.Yaml.Written
import ProjectIndex.Proofs.Cursor.Accounting
import ProjectIndex.Proofs.Cursor.Bookmark
import ProjectIndex.Proofs.Cursor.Growth
import ProjectIndex.Proofs.Cursor.Lines
import ProjectIndex.Proofs.Cursor.NextLine
import ProjectIndex.Proofs.Cursor.Run
import ProjectIndex.Proofs.Disk.Alike
import ProjectIndex.Proofs.Disk.Asked
import ProjectIndex.Proofs.Disk.Change
import ProjectIndex.Proofs.Disk.Resolve
import ProjectIndex.Proofs.Disk.Route
import ProjectIndex.Proofs.Disk.Straight
import ProjectIndex.Proofs.Document
import ProjectIndex.Proofs.Listing
import ProjectIndex.Proofs.Loader.Compiler
import ProjectIndex.Proofs.Loader.Configurations
import ProjectIndex.Proofs.Loader.Confined
import ProjectIndex.Proofs.Loader.Project
import ProjectIndex.Proofs.Loader.Sources
import ProjectIndex.Proofs.Loader.Spelling
import ProjectIndex.Proofs.Path.Names
import ProjectIndex.Proofs.Path.Order
import ProjectIndex.Proofs.Path.Parent
import ProjectIndex.Proofs.Results
import ProjectIndex.Proofs.Settings
import ProjectIndex.Proofs.Table
import ProjectIndex.Proofs.Text.Quiet
import ProjectIndex.Proofs.Text.Utf8
import ProjectIndex.Proofs.TraceOrder
import ProjectIndex.Proofs.Tree.Agrees
import ProjectIndex.Proofs.Tree.Proper
import ProjectIndex.Proofs.Tree.Walk
import ProjectIndex.Proofs.Yaml.QuietDocument
import ProjectIndex.Proofs.Yaml.QuietTokens
import ProjectIndex.Proofs.Yaml.Readings
import ProjectIndex.Proofs.SourceTrace
import ProjectIndex.Proofs.Cursor.Failures
import ProjectIndex.Proofs.Cursor.WholeText
import ProjectIndex.Proofs.Searches
import ProjectIndex.Proofs.Cursor.Lifecycle
import ProjectIndex.Proofs.Cursor.Rejections
import ProjectIndex.Proofs.Loader.Verdict
import ProjectIndex.Proofs.Yaml.Written.Input
import ProjectIndex.Proofs.Yaml.Written.Plain
import ProjectIndex.Proofs.Yaml.Written.Quoted
import ProjectIndex.Proofs.Yaml.Written.Literal
import ProjectIndex.Proofs.Yaml.Written.Scalar
import ProjectIndex.Proofs.Yaml.Written.Tokens
import ProjectIndex.Proofs.Yaml.Written.Document
import ProjectIndex.Proofs.Yaml.Written.Tagged
import ProjectIndex.Proofs.Documents.Collected
import ProjectIndex.Proofs.Documents.Picked
import ProjectIndex.Proofs.Documents.Present
import ProjectIndex.Proofs.Forms
import ProjectIndex.Proofs.Table.History
import ProjectIndex.Proofs.Documents.Empty
import ProjectIndex.Proofs.Loader.Reports
import ProjectIndex.Proofs.Path.Suffix
import ProjectIndex.Proofs.Suffixes
import ProjectIndex.Proofs.TraceOrder.Laws
