import GotoLang.Elf.Object
import GotoLang.Main
import GotoLang.Proofs.Optimize.Jumps
import GotoLang.X64.Encoder
import GotoLang.Proofs.Optimize.Fold
import GotoLang.Proofs.Optimize.Prune
import GotoLang.Proofs.Optimize.Renumber
import GotoLang.Proofs.Optimize.Passes
import GotoLang.Proofs.StackDiscipline
import GotoLang.Proofs.Source
import GotoLang.Proofs.SymbolTable
import GotoLang.Proofs.Lowering.Code
import GotoLang.Proofs.Lowering.Visit
import GotoLang.Proofs.Lowering.Resolve
import GotoLang.Proofs.Lowering.Meaning
import GotoLang.Proofs.Kinds
import GotoLang.Proofs.Optimize.Typing
import GotoLang.Proofs.Lowering.Typing
import GotoLang.Proofs.ReadingSize
import GotoLang.Proofs.Building
import GotoLang.Proofs.X64.Cpu
import GotoLang.Proofs.X64.Layout
import GotoLang.Proofs.X64.Placement
import GotoLang.Proofs.X64.Frame
import GotoLang.Proofs.X64.Compiled
import GotoLang.Proofs.X64.Operators
import GotoLang.Proofs.X64.Printing
import GotoLang.Proofs.X64.Activation
import GotoLang.Proofs.X64.Operations
import GotoLang.Proofs.X64.Simulation
import GotoLang.Proofs.X64.Agreement
import GotoLang.Proofs.Checking
import GotoLang.Proofs.Optimize.Checking
import GotoLang.Proofs.Lowering.Checking
import GotoLang.Proofs.TruthValues
import GotoLang.Proofs.Grammar
import GotoLang.Proofs.Parsing.Complete
import GotoLang.Proofs.Session.Failure
import GotoLang.Proofs.Lexing.Scan
import GotoLang.Proofs.Lowering.WellFormed
import GotoLang.Proofs.Lowering.Acceptance
import GotoLang.Proofs.Parsing.Tracing
import GotoLang.Proofs.GrammarGraph
import GotoLang.Proofs.GraphIndependence
import GotoLang.Proofs.Lowering.NextLabel
import GotoLang.Proofs.X64.LabelDiscipline
import GotoLang.Proofs.X64.Marks
import GotoLang.Proofs.X64.Tiling
import GotoLang.Proofs.X64.Naming
import GotoLang.Proofs.X64.AssemblyText
import GotoLang.Proofs.FailedCompilation
import GotoLang.Proofs.Optimize.Chains
import GotoLang.Proofs.Optimize.Rounds
import GotoLang.Proofs.Optimize.DeadCode
import GotoLang.Proofs.Optimize.FixedPoint
import GotoLang.Proofs.Optimize.Survivors
import GotoLang.Proofs.X64.Division
import GotoLang.Proofs.LimitedOutput
import GotoLang.Proofs.Session.Addresses
import GotoLang.Proofs.Session.Bindings
import GotoLang.Proofs.ListingText
import GotoLang.Proofs.Faults
import GotoLang.Proofs.LabelTable
import GotoLang.Proofs.X64.Description
import GotoLang.Proofs.Host
