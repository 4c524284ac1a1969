import Abacus.Cursor.Script
import Abacus.Main
import Abacus.Proofs.Arithmetic.Exact
import Abacus.Proofs.Grammar.Exact
import Abacus.Proofs.RoundTrip
import Abacus.Proofs.Token.Layout
import Abacus.Proofs.Grammar.Limit
import Abacus.Proofs.Grammar.Sentences
import Abacus.Proofs.Grammar.ErrorLocation
import Abacus.Proofs.Cursor.Buffering
import Abacus.Proofs.Grammar.Substitution
import Abacus.Proofs.Cursor.Conservation
import Abacus.Proofs.Cursor.Invariant
import Abacus.Proofs.Grammar.TokenErrors
import Abacus.Proofs.TextErrors
import Abacus.Proofs.Conversation.RunLaws
import Abacus.Proofs.Conversation.Transcript
import Abacus.Proofs.Token.Concatenation
import Abacus.Proofs.Words
import Abacus.Proofs.Arithmetic.Powers
import Abacus.Proofs.Expr.Height
import Abacus.Proofs.Grammar.Height
import Abacus.Proofs.Grammar.Backtracking
import Abacus.Proofs.Cursor.Matching
import Abacus.Proofs.Expr.Readable
import Abacus.Proofs.Grammar.Fallbacks
import Abacus.Proofs.Token.Calls
import Abacus.Proofs.CalculationLog
import Abacus.Proofs.Conversation.BreakOff
import Abacus.Proofs.Conversation.OneLine
import Abacus.Proofs.HistoryLaws
import Abacus.Proofs.Conversation.Sessions
import Abacus.Proofs.Grammar.Reachable
import Abacus.Proofs.Grammar.Contract
