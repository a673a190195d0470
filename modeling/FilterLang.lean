import FilterLang.Session
import FilterLang.Main
import FilterLang.Proofs.Expr.Grammar
import FilterLang.Proofs.Token.Pattern
import FilterLang.Proofs.Token.Recognition
import FilterLang.Proofs.Token.Lexeme
import FilterLang.Proofs.Token.MaximalMunch
import FilterLang.Proofs.Expr.ShortCircuit
import FilterLang.Proofs.Binary64.Rounding
import FilterLang.Proofs.Binary64.Text
import FilterLang.Proofs.Text.Quoted
import FilterLang.Proofs.Token.Written
import FilterLang.Proofs.Expr.RoundTrip
import FilterLang.Proofs.Cache.Course
import FilterLang.Proofs.Expr.Inquiry
import FilterLang.Proofs.Cache.Attempts
import FilterLang.Proofs.Cache.Waiters
import FilterLang.Proofs.Cache.Freshness
import FilterLang.Proofs.Cache.Requests
import FilterLang.Proofs.Cache.Audit
import FilterLang.Proofs.Cache.Transparent
import FilterLang.Proofs.Cache.Wakeups
import FilterLang.Proofs.Cache.Crowd
import FilterLang.Proofs.Cache.Bookkeeping
import FilterLang.Proofs.Cache.Lasting
import FilterLang.Proofs.Expr.Earliest
import FilterLang.Proofs.Expr.Discovery
import FilterLang.Proofs.Expr.Relocation
import FilterLang.Proofs.Expr.Respacing
import FilterLang.Proofs.Expr.Joining
import FilterLang.Proofs.Cache.Retries
import FilterLang.Proofs.Cache.Renumbering
import FilterLang.Proofs.Cache.Crashes
import FilterLang.Proofs.Expr.Inlining
import FilterLang.Proofs.Expr.PassedOver
import FilterLang.Proofs.Expr.ErrorPlaces
import FilterLang.Proofs.Expr.Regrouping
import FilterLang.Proofs.Expr.FirstProblem
import FilterLang.Proofs.Json.Finite
import FilterLang.Proofs.CommandLine.Arguments
import FilterLang.Proofs.CommandLine.Consulted
import FilterLang.Proofs.Value.Coherence
import FilterLang.Proofs.Binary64.Number
import FilterLang.Proofs.Binary64.Nearest
import FilterLang.Proofs.Value.Promotion
import FilterLang.Proofs.Value.Chains
import FilterLang.Proofs.Text.ByteOrder
import FilterLang.Proofs.Cache.Schedule
import FilterLang.Proofs.Cache.Round
import FilterLang.Proofs.Cache.Together
import FilterLang.Proofs.Cache.Simultaneous
import FilterLang.Proofs.Binary64.Decimal
import FilterLang.Proofs.Token.Numerals
import FilterLang.Proofs.CommandLine.Items
import FilterLang.Proofs.CommandLine.Precedence
import FilterLang.Proofs.Cache.Isolation
import FilterLang.Proofs.Expr.Symbols
