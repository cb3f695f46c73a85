import P16.Main
import P16.Proofs.Machine
import P16.Proofs.Lines
import P16.Proofs.Actions
import P16.Proofs.LabelNames
import P16.Proofs.LoopCode
import P16.Proofs.LoopSimulation
import P16.Proofs.CallingConvention
import P16.Proofs.Lowers
import P16.Proofs.Symbols
import P16.Proofs.LabelOrigins
import P16.Proofs.HookEffects
import P16.Proofs.Frames
import P16.Proofs.ClosedOutput
import P16.Proofs.Course
import P16.Proofs.KeptFunctions
import P16.Proofs.ReturnCounts
import P16.Proofs.SavedLink
import P16.Proofs.FailedStatements
import P16.Proofs.ParsedNames
import P16.Proofs.SharedLabels
import P16.Proofs.LabelWords
import P16.Proofs.Rendering
import P16.Proofs.ImportedOnce
import P16.Proofs.Independence
import P16.Proofs.RootUntouched
import P16.Proofs.Entered
import P16.Proofs.Reach
import P16.Proofs.DepthBound
import P16.Proofs.Termination
import P16.Proofs.FooterBlocks
import P16.Proofs.FallThrough
import P16.Proofs.Subroutines
import P16.Proofs.ImportReports
import P16.Proofs.FailurePlaces
import P16.Proofs.Attribution
import P16.Proofs.LayoutBlocks
import P16.Proofs.LogicalLines
import P16.Proofs.Grammar
import P16.Proofs.ParserRuns
import P16.Proofs.GrammarSound
import P16.Proofs.GrammarComplete
import P16.Proofs.StmtGrammar
import P16.Proofs.StmtGrammarSound
import P16.Proofs.StmtGrammarComplete
import P16.Proofs.Leaves
import P16.Proofs.Spellings
import P16.Proofs.Written
import P16.Proofs.Precedence
import P16.Proofs.WrittenStmts
import P16.Proofs.SourceLines
import P16.Proofs.SourceText
import P16.Proofs.RoundTrip
import P16.Proofs.Lexemes
import P16.Proofs.Tiling
import P16.Proofs.TextLiterals
import P16.Proofs.TreeParts
import P16.Proofs.Nesting
import P16.Proofs.NumberLiterals
import P16.Proofs.ReadTokens
import P16.Proofs.ParserBounds
import P16.Proofs.ParserProgress
import P16.Proofs.ParseErrorPlaces
import P16.Proofs.MemoryWrites
import P16.Proofs.StaticText
import P16.Proofs.FailedHooks
import P16.Proofs.FoldedAddresses
import P16.Proofs.Hardware
import P16.Proofs.Interrupts
import P16.Proofs.MemoryImages
import P16.Proofs.Discovery
import P16.Proofs.LinePlaces
import P16.Proofs.ReachedFiles
import P16.Proofs.ImportedCalls
import P16.Proofs.LibraryModules
import P16.Proofs.Routines
import P16.Proofs.MathLibrary
import P16.Proofs.ScreenFill
