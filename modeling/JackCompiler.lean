import JackCompiler.CommandLine.FileTree
import JackCompiler.Main
import JackCompiler.Proofs.Output.Emission
import JackCompiler.Proofs.Output.Straight
import JackCompiler.Proofs.Output.Functions
import JackCompiler.Proofs.Output.Induction
import JackCompiler.Proofs.ControlFlow.Labels
import JackCompiler.Proofs.ControlFlow.Runs
import JackCompiler.Proofs.ControlFlow.Simulation
import JackCompiler.Proofs.ControlFlow.Numbers
import JackCompiler.Proofs.Stack.Statements
import JackCompiler.Proofs.Evaluation.Machine
import JackCompiler.Proofs.Evaluation.Reference
import JackCompiler.Proofs.Evaluation.Correctness
import JackCompiler.Proofs.Evaluation.Classes
import JackCompiler.Proofs.Syntax.Grammar
import JackCompiler.Proofs.Syntax.Phrases
import JackCompiler.Proofs.Syntax.Scanning
import JackCompiler.Proofs.Syntax.Views
import JackCompiler.Proofs.Syntax.Productions
import JackCompiler.Proofs.Syntax.Expressions
import JackCompiler.Proofs.Syntax.Statements
import JackCompiler.Proofs.Syntax.Declarations
import JackCompiler.Proofs.Syntax.Places
import JackCompiler.Proofs.Syntax.Sources
import JackCompiler.Proofs.Syntax.Acceptance
import JackCompiler.Proofs.Lexis.Fragments
import JackCompiler.Proofs.Lexis.Gaps
import JackCompiler.Proofs.Lexis.Lexemes
import JackCompiler.Proofs.Lexis.Decomposition
import JackCompiler.Proofs.Mentions.Tokens
import JackCompiler.Proofs.Mentions.Places
import JackCompiler.Proofs.Safety.Calls
import JackCompiler.Proofs.Declarations.Numbering
import JackCompiler.Proofs.Declarations.Scopes
import JackCompiler.Proofs.Output.Forms
import JackCompiler.Proofs.Safety.Ascii
import JackCompiler.Proofs.Output.Faults
import JackCompiler.Proofs.Delivery.Reuse
import JackCompiler.Proofs.Declarations.Offences
import JackCompiler.Proofs.Declarations.Outcomes
import JackCompiler.Proofs.Safety.Totality
import JackCompiler.Proofs.Mentions.Uses
import JackCompiler.Proofs.Output.Cells
import JackCompiler.Proofs.Output.WideClasses
import JackCompiler.Proofs.Declarations.Slots
import JackCompiler.Proofs.Stack.Depth
import JackCompiler.Proofs.Stack.Expressions
import JackCompiler.Proofs.Output.Lines
import JackCompiler.Proofs.Order.Grouping
import JackCompiler.Proofs.Order.Agreement
import JackCompiler.Proofs.Words.Feeds
import JackCompiler.Proofs.Words.Bytes
import JackCompiler.Proofs.Words.Walks
import JackCompiler.Proofs.Words.Reach
import JackCompiler.Proofs.Words.Programs
import JackCompiler.Proofs.Words.Beyond
import JackCompiler.Proofs.Delivery.Subroutines
import JackCompiler.Proofs.Delivery.Limited
import JackCompiler.Proofs.ControlFlow.Schemes
import JackCompiler.Proofs.Output.Reading
import JackCompiler.Proofs.Relabelling.Classes
import JackCompiler.Proofs.Layout.Sources
import JackCompiler.Proofs.Lexis.Spelling
import JackCompiler.Proofs.ControlFlow.Nesting
import JackCompiler.Proofs.Safety.Carets
import JackCompiler.Proofs.CommandLine.Directories
import JackCompiler.Proofs.CommandLine.Failures
import JackCompiler.Proofs.Lexis.Settling
import JackCompiler.Proofs.Declarations.Histories
import JackCompiler.Proofs.Tables.Reading
import JackCompiler.Proofs.Windows.Requests
import JackCompiler.Proofs.Mentions.Spans
import JackCompiler.Proofs.Journal.Reading
import JackCompiler.Proofs.Journal.Redefinitions
import JackCompiler.Proofs.Journal.Compilations
