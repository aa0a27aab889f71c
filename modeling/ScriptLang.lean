import ScriptLang.Token
import ScriptLang.Token.Lexer
import ScriptLang.Syntax
import ScriptLang.Syntax.Text
import ScriptLang.Syntax.Parser
import ScriptLang.Source
import ScriptLang.Bindings
import ScriptLang.Value
import ScriptLang.Value.Dictionary
import ScriptLang.Value.Element
import ScriptLang.Value.Equality
import ScriptLang.Value.Text
import ScriptLang.Builtin
import ScriptLang.Bytecode.Opcode
import ScriptLang.Bytecode.Instruction
import ScriptLang.Bytecode.Code
import ScriptLang.Bytecode.Emitter
import ScriptLang.Symbols
import ScriptLang.Compiler
import ScriptLang.Machine
import ScriptLang.Session
import ScriptLang.Evaluator
import ScriptLang.Engine
import ScriptLang.CommandLine.Report
import ScriptLang.CommandLine.Script
import ScriptLang.CommandLine.Repl
import ScriptLang.CommandLine.Benchmark
import ScriptLang.Main
import ScriptLang.Proofs.Bytecode.Stream
import ScriptLang.Proofs.Bytecode.Decoding
import ScriptLang.Proofs.Bytecode.Stack
import ScriptLang.Proofs.Compiler.Layout
import ScriptLang.Proofs.Compiler.Emission
import ScriptLang.Proofs.Symbols.Lookup
import ScriptLang.Proofs.Symbols.Soundness
import ScriptLang.Proofs.Symbols.Names
import ScriptLang.Proofs.Symbols.Coherence
import ScriptLang.Proofs.Compiler.Soundness
import ScriptLang.Proofs.Compiler.Transaction
import ScriptLang.Proofs.Compiler.WellFormed
import ScriptLang.Proofs.Compiler.Relocation
import ScriptLang.Proofs.Machine.Steps
import ScriptLang.Proofs.Machine.Values
import ScriptLang.Proofs.Machine.Frames
import ScriptLang.Proofs.Machine.Safety
import ScriptLang.Proofs.Machine.Runs
import ScriptLang.Proofs.Machine.Termination
import ScriptLang.Proofs.Session
import ScriptLang.Proofs.Session.Splitting
import ScriptLang.Proofs.Evaluator.Evaluation
import ScriptLang.Proofs.Evaluator.Scopes
import ScriptLang.Proofs.Evaluator.Failures
import ScriptLang.Proofs.Evaluator.Renumbering
import ScriptLang.Proofs.Evaluator.Pairing
import ScriptLang.Proofs.Evaluator.Release
import ScriptLang.Proofs.Evaluator.OpenScopes
import ScriptLang.Proofs.Evaluator.Depth
import ScriptLang.Proofs.Machine.Moves
import ScriptLang.Proofs.Machine.Transitions
import ScriptLang.Proofs.Machine.AnyCode
import ScriptLang.Proofs.Machine.Confinement
import ScriptLang.Proofs.Machine.Relocation
import ScriptLang.Proofs.Refinement.Binders
import ScriptLang.Proofs.Refinement.Tame
import ScriptLang.Proofs.Refinement.Correspondence
import ScriptLang.Proofs.Refinement.Mismatches
import ScriptLang.Proofs.Refinement.State
import ScriptLang.Proofs.Refinement.Progress
import ScriptLang.Proofs.Refinement.Literals
import ScriptLang.Proofs.Refinement.Calls
import ScriptLang.Proofs.Refinement.Operands
import ScriptLang.Proofs.Refinement.Reordering
import ScriptLang.Proofs.Refinement.Expressions
import ScriptLang.Proofs.Refinement.Simulation
import ScriptLang.Proofs.Syntax.Parser
import ScriptLang.Proofs.Refinement.Programs
import ScriptLang.Proofs.Refinement.Failures
import ScriptLang.Proofs.Compiler.Definitions
import ScriptLang.Proofs.Session.Bindings
import ScriptLang.Proofs.Session.WriteOnce
import ScriptLang.Proofs.Syntax.Grammar
import ScriptLang.Proofs.Syntax.Reading
import ScriptLang.Proofs.Syntax.Bounds
import ScriptLang.Proofs.Syntax.Rounds
import ScriptLang.Proofs.Syntax.Soundness
import ScriptLang.Proofs.Syntax.Completeness
import ScriptLang.Proofs.Syntax.Recovery
import ScriptLang.Proofs.Syntax.Rendering
import ScriptLang.Proofs.Syntax.Lexing
import ScriptLang.Proofs.Syntax.Lexemes
import ScriptLang.Proofs.Syntax.Printing
import ScriptLang.Proofs.Symbols.Resolution
import ScriptLang.Proofs.Session.StaleSlots
import ScriptLang.Proofs.Compiler.Uses
import ScriptLang.Proofs.Compiler.Captures
import ScriptLang.Proofs.Compiler.Locals
import ScriptLang.Proofs.Machine.Activations
import ScriptLang.Proofs.Session.StackDiscipline
import ScriptLang.Proofs.Bytecode.RoundTrip
import ScriptLang.Proofs.Value.Hashes
import ScriptLang.Proofs.Compiler.Scoping
import ScriptLang.Proofs.Compiler.Jobs
import ScriptLang.Proofs.Compiler.LastInstruction
import ScriptLang.Proofs.Evaluator.ErrorValues
import ScriptLang.Proofs.Evaluator.FirstFailure
import ScriptLang.Proofs.Value.Equality
