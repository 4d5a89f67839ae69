import Moth.Borrow.State
import Moth.Borrow.Join
import Moth.Lib.HalfEven
import Moth.Lexical.Decimal
import Moth.Datatypes.Number
import Moth.Datatypes.NumberArithmetic
import Moth.Lexical.FixedScalar
import Moth.Lexical.Numeric
import Moth.Datatypes.NumberText
import Moth.Lexical.NumericGrammar
import Moth.Lib.Result
import Moth.Lib.DigitText
import Moth.Datatypes.NumberTextExact
import Moth.Hir.Syntax
import Moth.Analysis.NumericProofs
import Moth.Lib.Corners
import Moth.Analysis.NumericExecution
import Moth.Analysis.NumericProofsSound
import Moth.Hir.Flow
import Moth.Lib.Sweep
import Moth.Borrow.Layout
import Moth.Borrow.Metadata
import Moth.Borrow.Liveness
import Moth.Borrow.ScanFacts
import Moth.Borrow.FutureUse
import Moth.Borrow.MoveDecision
import Moth.Borrow.Conflicts
import Moth.Borrow.Exclusivity
import Moth.Borrow.StateOrder
import Moth.Lib.Worklist
import Moth.Borrow.Engine
import Moth.Borrow.EngineFixpoint
import Moth.Problem.Syntax
import Moth.Problem.Validation
import Moth.Problem.LastUse
import Moth.Problem.Validated
import Moth.Problem.LastUseExact
import Moth.Lib.Interner
import Moth.Symbols.StringInterning
import Moth.Symbols.StringInterningBijective
import Moth.Symbols.StringInterningRuns
import Moth.Lib.Trie
import Moth.Symbols.PathInterner
import Moth.Symbols.PathInternerTables
import Moth.Symbols.PathInternerInterning
import Moth.Symbols.PathInternerMerges
import Moth.Symbols.PathInternerRuns
import Moth.Lib.Wasm
import Moth.Wasm.Lir
import Moth.Lib.OverflowTests
import Moth.Wasm.RangeCandidate
import Moth.Js.RangeCandidate
import Moth.Backends.RangeCandidates
import Moth.ConstEval.IntegerFolding
import Moth.Wasm.CheckedInteger
import Moth.Wasm.IntegerDomain
import Moth.Wasm.CheckedIntegerExec
import Moth.Wasm.CheckedProduct
import Moth.Lib.SquareMultiply
import Moth.Wasm.CheckedPower
import Moth.Wasm.IntegerOperation
import Moth.Wasm.IntegerLowering
import Moth.Backends.IntegerOperations
import Moth.Borrow.PathFacts
import Moth.Borrow.RootWords
import Moth.Borrow.CarrierUse
import Moth.Borrow.RootWordsRead
import Moth.Borrow.RootWordsRuns
import Moth.Borrow.CallSummaries
import Moth.Borrow.CallSummariesStable
import Moth.Backends.JumpArguments
import Moth.Borrow.ValueFactMerge
import Moth.Hir.Definitions
import Moth.Hir.DefinitionsExact
import Moth.Datatypes.GenericBindings
import Moth.Datatypes.GenericInference
import Moth.ConstEval.FoldWalk
import Moth.ConstEval.FoldRecursion
import Moth.ConstEval.FoldOutcomes
import Moth.Ast.MatchExhaustiveness
import Moth.Ast.MatchCoverage
import Moth.Ast.OrderingExact
import Moth.Source.SpanRuns
import Moth.Source.LineLookup
import Moth.BuildSystem.CompileWaves
import Moth.Headers.HintOrder
import Moth.Hir.ReachabilityRoots
import Moth.ModuleCompilation.WitnessExact
import Moth.Wasm.FloatRemainderCall
import Moth.Wasm.Binary16RoundTrip
import Moth.Tokenizer.CursorRuns
import Moth.Templates.WhitespacePass
import Moth.Ast.NumericJoinReports
import Moth.Ast.OperatorTypingRuns
import Moth.Hir.ExpressionRewriteExact
import Moth.Ast.NumericReports
import Moth.Lexical.DecimalBinary16Exact
