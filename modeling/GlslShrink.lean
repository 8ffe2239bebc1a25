import GlslShrink.Analysis.CallGraph
import GlslShrink.Analysis.Census
import GlslShrink.Analysis.Reachability
import GlslShrink.CommandLine
import GlslShrink.Document
import GlslShrink.Expectation
import GlslShrink.Main
import GlslShrink.Naming.Generator
import GlslShrink.Naming.NameSet
import GlslShrink.Naming.ShortName
import GlslShrink.Pass.Braces
import GlslShrink.Pass.DeadFunctions
import GlslShrink.Pass.Declarations
import GlslShrink.Pass.FunctionNames
import GlslShrink.Pass.VariableNames
import GlslShrink.Pipeline.Compile
import GlslShrink.Pipeline.Program
import GlslShrink.Pipeline.Schedule
import GlslShrink.Pipeline.Step
import GlslShrink.Printing.Piece
import GlslShrink.Printing.Render
import GlslShrink.Proofs.Analysis.CallGraph
import GlslShrink.Proofs.Analysis.Census
import GlslShrink.Proofs.Analysis.Reachability
import GlslShrink.Proofs.Document.Compiled
import GlslShrink.Proofs.Document.RoundTrip
import GlslShrink.Proofs.Naming.Generator
import GlslShrink.Proofs.Pass.BraceCount
import GlslShrink.Proofs.Pass.BraceMeaning
import GlslShrink.Proofs.Pass.Braces
import GlslShrink.Proofs.Pass.Counters
import GlslShrink.Proofs.Pass.DeadFunctions
import GlslShrink.Proofs.Pass.Declarations
import GlslShrink.Proofs.Pass.LivingFunctions
import GlslShrink.Proofs.Pass.NormalForms
import GlslShrink.Proofs.Pass.Rebuilt
import GlslShrink.Proofs.Pass.Renaming
import GlslShrink.Proofs.Pass.TrimmedBraces
import GlslShrink.Proofs.Pipeline.Course
import GlslShrink.Proofs.Pipeline.Cycles
import GlslShrink.Proofs.Pipeline.Idempotence
import GlslShrink.Proofs.Pipeline.ReadsBack
import GlslShrink.Proofs.Pipeline.Schedule
import GlslShrink.Proofs.Pipeline.Total
import GlslShrink.Proofs.Printing.Alike
import GlslShrink.Proofs.Printing.Lines
import GlslShrink.Proofs.Printing.Printable
import GlslShrink.Proofs.Printing.Rules
import GlslShrink.Proofs.Printing.Stripped
import GlslShrink.Proofs.Printing.Written
import GlslShrink.Proofs.Reading.Levels
import GlslShrink.Proofs.Reading.Lexical
import GlslShrink.Proofs.Reading.Literals
import GlslShrink.Proofs.Reading.Progress
import GlslShrink.Proofs.Reading.Recursion
import GlslShrink.Proofs.Reading.Scan
import GlslShrink.Proofs.Reading.Soundness
import GlslShrink.Proofs.Reading.Stripped
import GlslShrink.Proofs.Reading.Values
import GlslShrink.Proofs.Renaming.CaptureFree
import GlslShrink.Proofs.Renaming.CaptureFreeFunctions
import GlslShrink.Proofs.Renaming.Functions
import GlslShrink.Proofs.Renaming.InterfaceStructs
import GlslShrink.Proofs.Renaming.Linked
import GlslShrink.Proofs.Renaming.Numbering
import GlslShrink.Proofs.Renaming.Relabel
import GlslShrink.Proofs.Renaming.Requests
import GlslShrink.Proofs.Renaming.Stages
import GlslShrink.Proofs.Renaming.Unchanged
import GlslShrink.Proofs.Renaming.Variables
import GlslShrink.Proofs.RoundTrip.Declaration
import GlslShrink.Proofs.RoundTrip.Expression
import GlslShrink.Proofs.RoundTrip.Legible
import GlslShrink.Proofs.RoundTrip.Shader
import GlslShrink.Proofs.RoundTrip.Source
import GlslShrink.Proofs.RoundTrip.Statement
import GlslShrink.Proofs.RoundTrip.Stripped
import GlslShrink.Proofs.Traversal.Balance
import GlslShrink.Proofs.Traversal.Course
import GlslShrink.Proofs.Traversal.Handlers
import GlslShrink.Proofs.Traversal.Laws
import GlslShrink.Proofs.Traversal.Layouts
import GlslShrink.Proofs.Traversal.Record
import GlslShrink.Proofs.Traversal.Sharing
import GlslShrink.Proofs.Tree.Blocks
import GlslShrink.Proofs.Tree.Gather
import GlslShrink.Proofs.Tree.Shape
import GlslShrink.Proofs.Tree.Skeleton
import GlslShrink.Reading.Declaration
import GlslShrink.Reading.Expression
import GlslShrink.Reading.Reader
import GlslShrink.Reading.Source
import GlslShrink.Reading.Statement
import GlslShrink.Reading.Token
import GlslShrink.Text.Lines
import GlslShrink.Text.Space
import GlslShrink.Traversal.Editor
import GlslShrink.Traversal.Visitor
import GlslShrink.Traversal.Walk
import GlslShrink.Tree.Bench
import GlslShrink.Tree.Form
import GlslShrink.Tree.Node
import GlslShrink.Tree.Precedence
import GlslShrink.Tree.Tag
import GlslShrink.Tree.Word
import GlslShrink.Proofs.Pass.BraceNormalForm
import GlslShrink.Proofs.Traversal.Counting
import GlslShrink.Proofs.Pass.Regrouping
import GlslShrink.Proofs.Pipeline.Marks
import GlslShrink.Proofs.Naming.Pool
import GlslShrink.Proofs.Reading.Fence
import GlslShrink.Proofs.Reading.FencedTokens
import GlslShrink.Proofs.Reading.FencedGrammar
import GlslShrink.Proofs.Reading.Cut
import GlslShrink.Proofs.Reading.Termination
import GlslShrink.Proofs.Reading.Errors
import GlslShrink.Proofs.Document.Diagnostics
import GlslShrink.Proofs.Document.Expectations
import GlslShrink.Proofs.Naming.ShortName
import GlslShrink.Proofs.Reading.Climbing
