import Lox.Parser.Statement
import Lox.Token.Lexer

/-!
# Programs

Reading a program: from tokens to statements (`parse`), and from a text to statements
(`Program.ofSource`).  A program is accepted when nothing was reported; otherwise all diagnostics
are given, in the order in which they were found.
-/

namespace Lox

/-- Why a list of tokens is no program. -/
inductive SyntaxError where
  /-- There are diagnostics. -/
  | rejected (diagnostics : List Diagnostic)
  /-- The list has no token for its end. -/
  | offEnd
deriving DecidableEq, Inhabited

namespace SyntaxError

/-- One line for each diagnostic. -/
def message : SyntaxError → Text
  | .rejected diagnostics => Text.intercalate "\n" (diagnostics.map Diagnostic.message)
  | .offEnd => ""

end SyntaxError

/-- The end of reading a list of tokens: the statements or what is wrong, and how many tokens were
taken. -/
structure Parsed where
  result : Except SyntaxError (List Node)
  position : Nat

/-- How deep statements and expressions may be nested. -/
def nestingLimit : Nat := 1000

/-- Reads a list of tokens, nested at most so deep. -/
def parseWithin (depth : Nat) (tokens : List Token) : Parsed :=
  match Parser.program depth ⟨tokens, 0, []⟩ with
  | .done statements s =>
    match s.diagnostics with
    | [] => ⟨.ok statements, s.position⟩
    | d :: ds => ⟨.error (.rejected (d :: ds)), s.position⟩
  | .stop (.refused d) s => ⟨.error (.rejected (s.diagnostics ++ [d])), s.position⟩
  | .stop .tooDeep s => ⟨.error (.rejected s.diagnostics), s.position⟩
  | .stop .offEnd s => ⟨.error .offEnd, s.position⟩

/-- Reads a list of tokens. -/
def parse (tokens : List Token) : Parsed := parseWithin nestingLimit tokens

/-- Why a text is no program. -/
inductive SourceError where
  /-- It cannot be cut into tokens. -/
  | scanning (e : ScanError)
  /-- Its tokens are no program. -/
  | parsing (e : SyntaxError)
deriving Inhabited

namespace SourceError

/-- The whole message. -/
def message : SourceError → Text
  | .scanning e => e.message
  | .parsing e => e.message

end SourceError

namespace Program

/-- The statements of a program text. -/
def ofSource (source : String) : Except SourceError (List Node) :=
  match scan source with
  | .error e => .error (.scanning e)
  | .ok tokens =>
    match (parse tokens).result with
    | .error e => .error (.parsing e)
    | .ok statements => .ok statements

end Program

end Lox
