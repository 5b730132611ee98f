import Calculator.Grammar.Derivation
import Calculator.Main
import Calculator.Phrase
import Calculator.Session.History
import Calculator.Token.Spelling
import Calculator.Tree.Printer
import Calculator.Tree.Value
import Calculator.Proofs.CheckStates
import Calculator.Proofs.Recognition
import Calculator.Proofs.Strata
import Calculator.Proofs.Assembly
import Calculator.Proofs.Rearrangement
import Calculator.Proofs.Lexemes
import Calculator.Proofs.Places
import Calculator.Proofs.Scanning
import Calculator.Proofs.Agreement
import Calculator.Proofs.Exact
import Calculator.Proofs.Literals
import Calculator.Proofs.Doubles
import Calculator.Proofs.Rounding
import Calculator.Proofs.ReadBack
import Calculator.Proofs.Execution
import Calculator.Proofs.TreeExecution
import Calculator.Proofs.Reckoning
import Calculator.Proofs.Unplaced
import Calculator.Proofs.Reading
import Calculator.Proofs.Heights
import Calculator.Proofs.Faults
import Calculator.Proofs.Printing
import Calculator.Proofs.Respacing
import Calculator.Proofs.Derivations
import Calculator.Proofs.Sessions
import Calculator.Proofs.Continuations
import Calculator.Proofs.Reports
import Calculator.Proofs.WholeNumbers
import Calculator.Proofs.WholeTrees
import Calculator.Proofs.Contexts
import Calculator.Proofs.Extensions
import Calculator.Proofs.Conservation
import Calculator.Proofs.Listings
import Calculator.Proofs.SharedTraces
import Calculator.Proofs.TrailingBlanks
import Calculator.Proofs.Remainders
import Calculator.Proofs.Counters
import Calculator.Proofs.Ranges
import Calculator.Proofs.Waiting
import Calculator.Proofs.Members
