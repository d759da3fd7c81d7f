import LetIf.Cache.Builtin
import LetIf.Cache.Key
import LetIf.Cache.Store
import LetIf.Code.Instr
import LetIf.Code.Machine
import LetIf.Code.Validate
import LetIf.CommandLine.Command
import LetIf.CommandLine.Conversation
import LetIf.CommandLine.Flags
import LetIf.CommandLine.Line
import LetIf.CommandLine.Log
import LetIf.CommandLine.Script
import LetIf.Defect
import LetIf.Directory
import LetIf.Dump
import LetIf.Engine.Code
import LetIf.Engine.Run
import LetIf.Engine.Runtime
import LetIf.Engine.Typing
import LetIf.Eval
import LetIf.Expr.Basic
import LetIf.Expr.Print
import LetIf.Format
import LetIf.Ident
import LetIf.Json.Doc
import LetIf.Json.Module
import LetIf.Llvm.Builder
import LetIf.Llvm.Ir
import LetIf.Lowering
import LetIf.Main
import LetIf.Model
import LetIf.Path
import LetIf.Program
import LetIf.Proofs.Cache.Database
import LetIf.Proofs.Cache.History
import LetIf.Proofs.Cache.Key
import LetIf.Proofs.Cache.Material
import LetIf.Proofs.Code.Frame
import LetIf.Proofs.Code.Path
import LetIf.Proofs.Code.Run
import LetIf.Proofs.Code.Same
import LetIf.Proofs.Code.Validation
import LetIf.Proofs.Comparison
import LetIf.Proofs.Engine.Builtin
import LetIf.Proofs.Engine.Code
import LetIf.Proofs.Engine.Module
import LetIf.Proofs.Engine.Numbers
import LetIf.Proofs.Engine.Reading
import LetIf.Proofs.Engine.Standard
import LetIf.Proofs.Eval
import LetIf.Proofs.Except
import LetIf.Proofs.Expr.Alpha
import LetIf.Proofs.Expr.Basic
import LetIf.Proofs.Expr.Equal
import LetIf.Proofs.Expr.Naturality
import LetIf.Proofs.Expr.Substitution
import LetIf.Proofs.Expr.Word
import LetIf.Proofs.Json.Documents
import LetIf.Proofs.Json.RoundTrip
import LetIf.Proofs.Json.Strings
import LetIf.Proofs.Json.Trailing
import LetIf.Proofs.Llvm.Building
import LetIf.Proofs.Llvm.Closing
import LetIf.Proofs.Llvm.Draft
import LetIf.Proofs.Llvm.Execution
import LetIf.Proofs.Llvm.Graph
import LetIf.Proofs.Llvm.Parts
import LetIf.Proofs.Llvm.Translation
import LetIf.Proofs.Llvm.WellFormed
import LetIf.Proofs.Lowering.Correct
import LetIf.Proofs.Lowering.Derivation
import LetIf.Proofs.Lowering.Initialised
import LetIf.Proofs.Lowering.Slots
import LetIf.Proofs.Program
import LetIf.Proofs.Program.Run
import LetIf.Proofs.Scope
import LetIf.Proofs.Scope.Sharing
import LetIf.Proofs.Service.History
import LetIf.Proofs.Service.Payload
import LetIf.Proofs.Service.Status
import LetIf.Proofs.Session
import LetIf.Proofs.Source.Cutting
import LetIf.Proofs.Source.Derivation
import LetIf.Proofs.Source.Earliest
import LetIf.Proofs.Source.Lexing
import LetIf.Proofs.Source.Pieces
import LetIf.Proofs.Source.Positions
import LetIf.Proofs.Source.Printing
import LetIf.Proofs.Text.Decimal
import LetIf.Proofs.Text.Trimming
import LetIf.Proofs.Text.Utf8
import LetIf.Proofs.Typing.Annotation
import LetIf.Proofs.Typing.Offences
import LetIf.Proofs.Typing.Rules
import LetIf.Proofs.Typing.Soundness
import LetIf.Proofs.Wasm.Canonical
import LetIf.Proofs.Wasm.Decode
import LetIf.Proofs.Wasm.Exact
import LetIf.Proofs.Wasm.Faults
import LetIf.Proofs.Wasm.Grammar
import LetIf.Proofs.Wasm.Leb128
import LetIf.Proofs.Wasm.Offsets
import LetIf.Proofs.Wasm.RoundTrip
import LetIf.Proofs.Wasm.Sequence
import LetIf.Proofs.Wasm.Widths
import LetIf.Proofs.Wat.Grammar
import LetIf.Proofs.Wat.Layout
import LetIf.Proofs.Wat.Lexing
import LetIf.Proofs.Wat.Moving
import LetIf.Proofs.Wat.Quotes
import LetIf.Proofs.Wat.RoundTrip
import LetIf.Proofs.Wat.Spelling
import LetIf.Proofs.Wat.Tree
import LetIf.Read
import LetIf.Report
import LetIf.Scope
import LetIf.Service.Address
import LetIf.Service.Handler
import LetIf.Service.Message
import LetIf.Service.Payload
import LetIf.Session
import LetIf.Source.Grammar
import LetIf.Source.Token
import LetIf.Strategy
import LetIf.Text.Basic
import LetIf.Text.Printable
import LetIf.Text.Quoted
import LetIf.Text.Utf8
import LetIf.Typing.Elaborate
import LetIf.Typing.Error
import LetIf.Value
import LetIf.Wasm.Decode
import LetIf.Wasm.Format
import LetIf.Wasm.Leb128
import LetIf.Wat.Module
import LetIf.Wat.Sexp
import LetIf.Wat.Token
