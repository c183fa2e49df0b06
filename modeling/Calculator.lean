import Calculator.Completion
import Calculator.Grammar
import Calculator.History
import Calculator.Main
import Calculator.Proofs.ExprTree
import Calculator.Proofs.MachineRun
import Calculator.Proofs.PostfixCorrect
import Calculator.Proofs.MachineCorrect
import Calculator.Proofs.PostfixReading
import Calculator.Proofs.ExprSafety
import Calculator.Proofs.Parentheses
import Calculator.Proofs.CallArity
import Calculator.Proofs.NumeralRun
import Calculator.Proofs.ScanRun
import Calculator.Proofs.BitPattern
import Calculator.Proofs.NumberText
import Calculator.Proofs.ScanVerdict
import Calculator.Proofs.NumberScan
import Calculator.Proofs.ScanAppend
import Calculator.Proofs.ScanJoin
import Calculator.Proofs.Lexemes
import Calculator.Proofs.NameCompletion
import Calculator.Proofs.ShownTokens
import Calculator.Proofs.Stricter
import Calculator.Proofs.ParseVerdict
import Calculator.Proofs.WaitingOrder
import Calculator.Proofs.Writes
import Calculator.Proofs.WriteLog
import Calculator.Proofs.Footprint
import Calculator.Proofs.Faults
import Calculator.Proofs.OperandOrder
import Calculator.Proofs.Dependence
import Calculator.Proofs.Independence
import Calculator.Proofs.Tracing
import Calculator.Proofs.Inert
import Calculator.Proofs.StackDepth
import Calculator.Proofs.Startup
import Calculator.Proofs.Transcript
import Calculator.Proofs.Scripts
import Calculator.Proofs.CommandLine
import Calculator.Proofs.Dialogue
import Calculator.Proofs.Drivers
import Calculator.Proofs.NumberReading
import Calculator.Proofs.ResultText
import Calculator.Proofs.OneLine
import Calculator.Proofs.Listing
import Calculator.Proofs.JsonReports
