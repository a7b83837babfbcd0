import DocBlocks.Annotation.Attach
import DocBlocks.Annotation.Block
import DocBlocks.Annotation.Write
import DocBlocks.Command.Arguments
import DocBlocks.Command.Help
import DocBlocks.Command.Run
import DocBlocks.Controller.Describe
import DocBlocks.Controller.Descriptor
import DocBlocks.Error
import DocBlocks.Format.Data
import DocBlocks.Format.Fault
import DocBlocks.Format.Json.Decode
import DocBlocks.Format.Json.Error
import DocBlocks.Format.Json.Read
import DocBlocks.Format.Json.Write
import DocBlocks.Format.Schema
import DocBlocks.Format.Yaml.Character
import DocBlocks.Format.Yaml.Decode
import DocBlocks.Format.Yaml.Document
import DocBlocks.Format.Yaml.Event
import DocBlocks.Format.Yaml.Folding
import DocBlocks.Format.Yaml.Property
import DocBlocks.Format.Yaml.Scalar
import DocBlocks.Format.Yaml.Stream
import DocBlocks.Format.Yaml.Tag
import DocBlocks.Format.Yaml.Token
import DocBlocks.Format.Yaml.TokenReader
import DocBlocks.Format.Yaml.Write
import DocBlocks.Grammar.Production
import DocBlocks.Grammar.Rule
import DocBlocks.Grammar.RuleBook
import DocBlocks.Grammar.Rules.Declaration
import DocBlocks.Grammar.Rules.Expression
import DocBlocks.Grammar.Rules.Function
import DocBlocks.Grammar.Rules.Part
import DocBlocks.Grammar.Rules.Program
import DocBlocks.Grammar.Rules.Statement
import DocBlocks.Grammar.Rules.Text
import DocBlocks.Grammar.State
import DocBlocks.Literal.Quoted
import DocBlocks.Literal.Value
import DocBlocks.Main
import DocBlocks.Number.Binary64
import DocBlocks.Number.Shortest
import DocBlocks.Number.Text
import DocBlocks.Project.Docs
import DocBlocks.Project.Replace
import DocBlocks.Project.Scan
import DocBlocks.Project.Session
import DocBlocks.Project.Source
import DocBlocks.Proofs.Annotation.Attach
import DocBlocks.Proofs.Annotation.Block
import DocBlocks.Proofs.Annotation.Code
import DocBlocks.Proofs.Annotation.Edits
import DocBlocks.Proofs.Annotation.Indentation
import DocBlocks.Proofs.Annotation.LineBreaks
import DocBlocks.Proofs.Annotation.Override
import DocBlocks.Proofs.Annotation.Pass
import DocBlocks.Proofs.Annotation.Rerender
import DocBlocks.Proofs.Annotation.Steps
import DocBlocks.Proofs.Annotation.Terminator
import DocBlocks.Proofs.Annotation.Twice
import DocBlocks.Proofs.Command.Extract
import DocBlocks.Proofs.Command.Write
import DocBlocks.Proofs.Controller.Annotated
import DocBlocks.Proofs.Controller.Describe
import DocBlocks.Proofs.Controller.Extract
import DocBlocks.Proofs.Controller.Imports
import DocBlocks.Proofs.Controller.Numbers
import DocBlocks.Proofs.Controller.RoundTrip
import DocBlocks.Proofs.Controller.SourceOrder
import DocBlocks.Proofs.Controller.Space
import DocBlocks.Proofs.Format.Json.Decode
import DocBlocks.Proofs.Format.Json.Number
import DocBlocks.Proofs.Format.Json.Reader
import DocBlocks.Proofs.Format.Schema
import DocBlocks.Proofs.Format.Yaml.Decode
import DocBlocks.Proofs.Format.Yaml.Event
import DocBlocks.Proofs.Format.Yaml.Fetch
import DocBlocks.Proofs.Format.Yaml.HandOut
import DocBlocks.Proofs.Format.Yaml.Literal
import DocBlocks.Proofs.Format.Yaml.Plain
import DocBlocks.Proofs.Format.Yaml.Quoted
import DocBlocks.Proofs.Format.Yaml.Scalar
import DocBlocks.Proofs.Format.Yaml.Stream
import DocBlocks.Proofs.Format.Yaml.TokenReader
import DocBlocks.Proofs.Format.Yaml.Tokens
import DocBlocks.Proofs.Format.Yaml.Written
import DocBlocks.Proofs.Grammar.RuleBook
import DocBlocks.Proofs.Literal.Integer
import DocBlocks.Proofs.Literal.Malformed
import DocBlocks.Proofs.Literal.Quoted
import DocBlocks.Proofs.Literal.SingleQuoted
import DocBlocks.Proofs.Number.Binary64
import DocBlocks.Proofs.Number.Exact
import DocBlocks.Proofs.Number.Shortest
import DocBlocks.Proofs.Number.Text
import DocBlocks.Proofs.Project.AtomicWrite
import DocBlocks.Proofs.Project.Eligible
import DocBlocks.Proofs.Project.Replace
import DocBlocks.Proofs.Project.Scan
import DocBlocks.Proofs.Project.Session
import DocBlocks.Proofs.Query.Chain
import DocBlocks.Proofs.Query.Outermost
import DocBlocks.Proofs.Reading.Bundle
import DocBlocks.Proofs.Reading.Found
import DocBlocks.Proofs.Reading.Goal
import DocBlocks.Proofs.Reading.Pile
import DocBlocks.Proofs.Reading.Reader
import DocBlocks.Proofs.Reading.Rounds
import DocBlocks.Proofs.Source.Excerpt
import DocBlocks.Proofs.Source.LineIndex
import DocBlocks.Proofs.Store.Entry
import DocBlocks.Proofs.Store.Path
import DocBlocks.Proofs.Store.Resolve
import DocBlocks.Proofs.Syntax.Along
import DocBlocks.Proofs.Syntax.Ancestry
import DocBlocks.Proofs.Syntax.Build
import DocBlocks.Proofs.Syntax.Calm
import DocBlocks.Proofs.Syntax.Edge
import DocBlocks.Proofs.Syntax.Edit
import DocBlocks.Proofs.Syntax.Exchange
import DocBlocks.Proofs.Syntax.Extras
import DocBlocks.Proofs.Syntax.Frame
import DocBlocks.Proofs.Syntax.GrammarReader
import DocBlocks.Proofs.Syntax.Housing
import DocBlocks.Proofs.Syntax.Items
import DocBlocks.Proofs.Syntax.Lossless
import DocBlocks.Proofs.Syntax.Members
import DocBlocks.Proofs.Syntax.Node
import DocBlocks.Proofs.Syntax.Orderly
import DocBlocks.Proofs.Syntax.Origin
import DocBlocks.Proofs.Syntax.Place
import DocBlocks.Proofs.Syntax.Preorder
import DocBlocks.Proofs.Syntax.Ranges
import DocBlocks.Proofs.Syntax.Roles
import DocBlocks.Proofs.Syntax.SourceReader
import DocBlocks.Proofs.Text.Bytes
import DocBlocks.Proofs.Text.Lines
import DocBlocks.Proofs.Token.Extra
import DocBlocks.Proofs.Token.Lossless
import DocBlocks.Proofs.Token.Spelling
import DocBlocks.Query.Chain
import DocBlocks.Reading.Bundle
import DocBlocks.Reading.Concrete
import DocBlocks.Reading.Pile
import DocBlocks.Reading.Reader
import DocBlocks.Reading.Site
import DocBlocks.Repair.Part
import DocBlocks.Repair.Recover
import DocBlocks.Repair.Reduce
import DocBlocks.Repair.Search
import DocBlocks.Repair.Stack
import DocBlocks.Repair.Version
import DocBlocks.Source.Slice
import DocBlocks.Source.Span
import DocBlocks.Store.Change
import DocBlocks.Store.Entry
import DocBlocks.Store.Path
import DocBlocks.Store.Resolve
import DocBlocks.Syntax.Diagnostic
import DocBlocks.Syntax.Edit
import DocBlocks.Syntax.Kind
import DocBlocks.Syntax.Node
import DocBlocks.Syntax.Parse
import DocBlocks.Syntax.Ranged
import DocBlocks.Syntax.Ranges
import DocBlocks.Text.Blank
import DocBlocks.Text.Hidden
import DocBlocks.Text.Lines
import DocBlocks.Text.Lossy
import DocBlocks.Token.Character
import DocBlocks.Token.Comment
import DocBlocks.Token.Find
import DocBlocks.Token.Markup
import DocBlocks.Token.Number
import DocBlocks.Token.Template
import DocBlocks.Token.Terminal
import DocBlocks.Token.Word
