import Reckoner.Main
import Reckoner.Proofs.Reading
import Reckoner.Proofs.LineByLine
import Reckoner.Proofs.Calculation
import Reckoner.Proofs.Statement
import Reckoner.Proofs.Outcome
import Reckoner.Proofs.Sessions
import Reckoner.Proofs.WriteOnce
import Reckoner.Proofs.Written
import Reckoner.Proofs.Ending
import Reckoner.Proofs.Encoded
import Reckoner.Proofs.Skipping
import Reckoner.Proofs.Lockstep
import Reckoner.Proofs.SameLexemes
import Reckoner.Proofs.Answers
import Reckoner.Proofs.Evaluated
import Reckoner.Proofs.StartingOver
import Reckoner.Proofs.Nearest
import Reckoner.Proofs.WholeNumbers
import Reckoner.Proofs.Digits
import Reckoner.Proofs.Literals
import Reckoner.Proofs.ReadBack
import Reckoner.Proofs.Phases
import Reckoner.Proofs.Lookahead
import Reckoner.Proofs.Drafts
import Reckoner.Proofs.Worth
import Reckoner.Proofs.Blame
import Reckoner.Proofs.Noticed
import Reckoner.Proofs.Asked
import Reckoner.Proofs.Resuming
import Reckoner.Proofs.Shortest
import Reckoner.Proofs.Spellings
import Reckoner.Proofs.Agreement
import Reckoner.Proofs.Below
import Reckoner.Proofs.Composition
import Reckoner.Proofs.FailedReads
import Reckoner.Proofs.Powers
import Reckoner.Proofs.Significant
import Reckoner.Proofs.GeneralForm
import Reckoner.Proofs.Thrifty
import Reckoner.Proofs.Demand
import Reckoner.Proofs.Commands
import Reckoner.Proofs.Remainders
import Reckoner.Proofs.Delimiters
import Reckoner.Proofs.Patterns
import Reckoner.Proofs.Words
import Reckoner.Proofs.Tiling
import Reckoner.Proofs.TiesToEven
import Reckoner.Proofs.LiteralValues
import Reckoner.Proofs.Reprinted
import Reckoner.Proofs.OrderedMap
import Reckoner.Proofs.Exponents
import Reckoner.Proofs.Settling
