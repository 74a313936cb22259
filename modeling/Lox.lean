import Lox.Main
import Lox.Proofs.CommandLine.Emitted
import Lox.Proofs.Parser.Program
import Lox.Proofs.Parser.Append
import Lox.Proofs.Session.Proper
import Lox.Proofs.Session.WellFormed
import Lox.Proofs.Eval.Encapsulated
import Lox.Proofs.Eval.ForLoop
import Lox.Proofs.Parser.FirstError
import Lox.Proofs.Session.Piecewise
import Lox.Proofs.Eval.Simulation
import Lox.Proofs.Eval.Limits
import Lox.Proofs.Eval.Ceiling
import Lox.Proofs.Session.Limits
import Lox.Proofs.Eval.LoopFree
import Lox.Proofs.Session.Levels
import Lox.Proofs.Token.LongestMatch
import Lox.Proofs.Node.Retraction
import Lox.Proofs.Eval.Returning
import Lox.Proofs.Parser.SourceOrder
import Lox.Proofs.Session.LatestCall
import Lox.Proofs.Parser.Resumption
import Lox.Proofs.Scope.Lexical
import Lox.Proofs.Eval.Names
import Lox.Proofs.Session.Brackets
import Lox.Proofs.Token.Respaced
import Lox.Proofs.Grammar.LongLists
import Lox.Proofs.Number.Display
import Lox.Proofs.Parser.LongLists
import Lox.Proofs.Parser.Surplus
