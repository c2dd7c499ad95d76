import LineBasic.Text.Blank
import LineBasic.Condition
import LineBasic.Token.Basic
import LineBasic.Token.Keyword
import LineBasic.Token.Lexer
import LineBasic.Program.Line
import LineBasic.Number.Numeral
import LineBasic.Number.Decimal
import LineBasic.Value.Basic
import LineBasic.Value.Arithmetic
import LineBasic.Memory.Store
import LineBasic.Program.Listing
import LineBasic.Token.Cursor
import LineBasic.Machine.Stack
import LineBasic.Machine.Tape
import LineBasic.CommandLine
import LineBasic.Random.Cipher
import LineBasic.Random.Basic
import LineBasic.Program.Datum
import LineBasic.Expression.Workspace
import LineBasic.Expression.Builtin
import LineBasic.Expression.Evaluation
import LineBasic.Machine.State
import LineBasic.Statement.Variables
import LineBasic.Statement.Print
import LineBasic.Statement.Editing
import LineBasic.Statement.Input
import LineBasic.Statement.Jump
import LineBasic.Statement.Loop
import LineBasic.Statement.Trap
import LineBasic.Statement.Dispatch
import LineBasic.Machine.Step
import LineBasic.Machine.Session
import LineBasic.Main
import LineBasic.Proofs.Token.Keyword
import LineBasic.Proofs.Token.Scanner
import LineBasic.Proofs.Token.Grammar
import LineBasic.Proofs.Token.Reading
import LineBasic.Proofs.Program.TokensText
import LineBasic.Proofs.Program.RoundTrip
import LineBasic.Proofs.Program.Edits
import LineBasic.Proofs.Memory.Bindings
import LineBasic.Proofs.Memory.Shapes
import LineBasic.Proofs.Expression.Run
import LineBasic.Proofs.Expression.Tree
import LineBasic.Proofs.Expression.Precedence
import LineBasic.Proofs.Expression.Frame
import LineBasic.Proofs.Machine.Extension
import LineBasic.Proofs.Expression.Extension
import LineBasic.Proofs.Statement.Extension
import LineBasic.Proofs.Program.DataItems
import LineBasic.Proofs.Machine.Steps
import LineBasic.Proofs.Statement.Branches
import LineBasic.Proofs.Expression.Forward
import LineBasic.Proofs.Machine.Change
import LineBasic.Proofs.Statement.Change
import LineBasic.Proofs.Statement.Dispatch
import LineBasic.Proofs.Machine.Advance
import LineBasic.Proofs.Machine.Failure
import LineBasic.Proofs.Machine.Reachable
import LineBasic.Proofs.Machine.Background
import LineBasic.Proofs.Machine.Schedule
import LineBasic.Proofs.Machine.Continue
import LineBasic.Proofs.Memory.Cells
import LineBasic.Proofs.Memory.Failures
import LineBasic.Proofs.Machine.Loops
import LineBasic.Proofs.Statement.Footprint
import LineBasic.Proofs.Machine.Registers
import LineBasic.Proofs.Machine.Continuation
import LineBasic.Proofs.Machine.Subroutines
import LineBasic.Proofs.Program.DataPointer
import LineBasic.Proofs.Machine.Reading
import LineBasic.Proofs.Token.Lexemes
import LineBasic.Proofs.Expression.Faults
import LineBasic.Proofs.Expression.Recursion
import LineBasic.Proofs.Expression.Signs
import LineBasic.Proofs.Machine.ResumeNext
import LineBasic.Proofs.Machine.Takeover
import LineBasic.Proofs.Machine.Loading
import LineBasic.Proofs.Machine.Functions
import LineBasic.Proofs.Statement.Conditions
import LineBasic.Proofs.Machine.Trapping
import LineBasic.Proofs.Statement.Counting
import LineBasic.Proofs.Machine.Iteration
import LineBasic.Proofs.Statement.Answers
import LineBasic.Proofs.Machine.Inquiries
import LineBasic.Proofs.Number.Spelling
import LineBasic.Proofs.Number.Leading
import LineBasic.Proofs.Token.Literals
import LineBasic.Proofs.Number.Layout
import LineBasic.Proofs.Number.Pattern
import LineBasic.Proofs.Number.Printing
import LineBasic.Proofs.Program.DataText
