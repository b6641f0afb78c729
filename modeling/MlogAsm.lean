import MlogAsm.Text.DecimalDigit
import MlogAsm.Text.Printable
import MlogAsm.Text.Quoted
import MlogAsm.Text.LineEnd
import MlogAsm.Text.Utf8
import MlogAsm.Token
import MlogAsm.Token.Reserved
import MlogAsm.Token.Rule
import MlogAsm.Token.Segment
import MlogAsm.Token.Lexeme
import MlogAsm.Diagnostic
import MlogAsm.Fault
import MlogAsm.Cursor
import MlogAsm.Slot
import MlogAsm.Symbols
import MlogAsm.Instruction
import MlogAsm.Catalog
import MlogAsm.Survey
import MlogAsm.Code
import MlogAsm.Emission
import MlogAsm.Assembly
import MlogAsm.Command.Arguments
import MlogAsm.Command.FileStore
import MlogAsm.Command.Run
import MlogAsm.Main
import MlogAsm.Proofs.Outline
import MlogAsm.Proofs.Grammar
import MlogAsm.Proofs.Reading
import MlogAsm.Proofs.StatementCode
import MlogAsm.Proofs.Visits
import MlogAsm.Proofs.SurveyOutline
import MlogAsm.Proofs.Layout
import MlogAsm.Proofs.RuleLanguage
import MlogAsm.Proofs.Spacing
import MlogAsm.Proofs.LineBreak
import MlogAsm.Proofs.Lockstep
import MlogAsm.Proofs.Continuation
import MlogAsm.Proofs.Program
import MlogAsm.Proofs.ProgramCode
import MlogAsm.Proofs.Coupling
import MlogAsm.Proofs.CoupledWalks
import MlogAsm.Proofs.Language
import MlogAsm.Proofs.Spelling
import MlogAsm.Proofs.Translation
import MlogAsm.Proofs.Processor
import MlogAsm.Proofs.Words
import MlogAsm.Proofs.Simulation
import MlogAsm.Proofs.SurveyLines
import MlogAsm.Proofs.ProgramJoin
import MlogAsm.Proofs.Linking
import MlogAsm.Proofs.Leniency
import MlogAsm.Proofs.ReturnVariables
import MlogAsm.Proofs.DebugComments
import MlogAsm.Proofs.PlainOutput
import MlogAsm.Proofs.Recompilation
import MlogAsm.Proofs.CallGraph
import MlogAsm.Proofs.LargerTables
import MlogAsm.Proofs.Lossless
import MlogAsm.Proofs.Pulling
import MlogAsm.Proofs.Utf8
import MlogAsm.Proofs.FileSafety
import MlogAsm.Proofs.FaultPlaces
import MlogAsm.Proofs.LateDeclarations
import MlogAsm.Proofs.Redeclarations
import MlogAsm.Proofs.WriteTargets
import MlogAsm.Proofs.LastLine
import MlogAsm.Proofs.CarriageReturns
import MlogAsm.Proofs.StatementLines
import MlogAsm.Proofs.FaultLines
import MlogAsm.Proofs.ReachableLabels
import MlogAsm.Proofs.LabelNames
import MlogAsm.Proofs.RulePatterns
import MlogAsm.Proofs.WriteWalk
