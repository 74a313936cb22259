import Lox.Diagnostic

/-!
# Parsers

A parser goes through a list of tokens from left to right.  Its state holds the tokens that are
left, the count of those taken, and the diagnostics so far.  A step is done with a value, or it
stops: the statement at hand is refused, the nesting is too deep, or the list ended without a token
for its end.  The state is kept on every way out.
-/

namespace Lox

namespace Parser

/-- How far a parser has come. -/
structure State where
  rest : List Token
  position : Nat
  diagnostics : List Diagnostic
deriving DecidableEq, Inhabited

/-- Why a step stops. -/
inductive Stop where
  /-- The statement at hand cannot go on. -/
  | refused (d : Diagnostic)
  /-- The nesting budget is used up. -/
  | tooDeep
  /-- The tokens ended without one for the end. -/
  | offEnd
deriving DecidableEq, Inhabited

/-- The end of a step. -/
inductive Outcome (α : Type) where
  | done (value : α) (state : State)
  | stop (why : Stop) (state : State)
deriving DecidableEq, Inhabited

end Parser

/-- A step of a parser. -/
def Parser (α : Type) : Type := Parser.State → Parser.Outcome α

namespace Parser

variable {α β : Type}

/-- Does nothing. -/
@[inline] def succeed (a : α) : Parser α := fun s => .done a s

/-- Goes on with the value of a step. -/
@[inline] def andThen (p : Parser α) (f : α → Parser β) : Parser β := fun s =>
  match p s with
  | .done a s' => f a s'
  | .stop why s' => .stop why s'

instance : Monad Parser where
  pure := succeed
  bind := andThen

/-! ### Single tokens -/

/-- Stops. -/
def fail (why : Stop) : Parser α := fun s => .stop why s

/-- The next token, which is left where it is. -/
def peek : Parser Token := fun s =>
  match s.rest with
  | [] => .stop .offEnd s
  | t :: _ => .done t s

/-- Whether the next token is of a kind; the end of the text is of none. -/
def check (kind : Kind) : Parser Bool := fun s =>
  match s.rest with
  | [] => .stop .offEnd s
  | t :: _ => .done (t.kind ≠ .eof && t.kind = kind) s

/-- Takes the next token if it is of one of these kinds. -/
def accept (kinds : List Kind) : Parser (Option Token) := fun s =>
  match s.rest with
  | [] => .stop .offEnd s
  | t :: rest =>
    if t.kind ≠ .eof && kinds.contains t.kind then
      .done (some t) { s with rest := rest, position := s.position + 1 }
    else .done none s

/-- Takes the next token, which must be of a kind. -/
def expect (kind : Kind) (cause : Cause) : Parser Token := fun s =>
  match s.rest with
  | [] => .stop .offEnd s
  | t :: rest =>
    if t.kind ≠ .eof && t.kind = kind then
      .done t { s with rest := rest, position := s.position + 1 }
    else .stop (.refused ⟨cause, t, s.position⟩) s

/-- Refuses the next token. -/
def refuse (cause : Cause) : Parser α := fun s =>
  match s.rest with
  | [] => .stop .offEnd s
  | t :: _ => .stop (.refused ⟨cause, t, s.position⟩) s

/-- Notes a diagnostic at a token and goes on. -/
def report (cause : Cause) (t : Token) : Parser Unit := fun s =>
  .done () { s with diagnostics := s.diagnostics ++ [⟨cause, t, s.position⟩] }

/-! ### Recovery -/

/-- The keywords with which a statement starts. -/
def startsStatement : Kind → Bool
  | .classWord | .funWord | .varWord | .forWord | .ifWord | .whileWord | .printWord
  | .returnWord => true
  | _ => false

/-- Skips tokens up to the end of a statement or the start of one, the last token taken being of
the given kind. -/
def skipFrom (last : Kind) : List Token → Nat → List Diagnostic → Outcome Unit
  | [], n, ds => .stop .offEnd ⟨[], n, ds⟩
  | t :: rest, n, ds =>
    if t.kind = .eof || last = .semicolon || startsStatement t.kind then .done () ⟨t :: rest, n, ds⟩
    else skipFrom t.kind rest (n + 1) ds

/-- Gives the statement at hand up: takes one token, and skips to a place where a statement may
start. -/
def synchronize : Parser Unit := fun s =>
  match s.rest with
  | [] => .stop .offEnd s
  | t :: rest =>
    if t.kind = .eof then .done () s else skipFrom t.kind rest (s.position + 1) s.diagnostics

/-- Turns a refusal into a diagnostic and goes on at the next statement. -/
def recover (p : Parser α) : Parser (Option α) := fun s =>
  match p s with
  | .done a s' => .done (some a) s'
  | .stop (.refused d) s' =>
    (do let _ ← synchronize; pure none : Parser (Option α))
      { s' with diagnostics := s'.diagnostics ++ [d] }
  | .stop .tooDeep s' =>
    (do let t ← peek
        report .nestingTooDeep t
        let _ ← synchronize
        pure none : Parser (Option α)) s'
  | .stop .offEnd s' => .stop .offEnd s'

/-! ### Repetition -/

/-- Goes on with operators of some kinds and operands, joining to the left.  A round takes a token
at least, so the tokens that were left at the start bound the rounds. -/
def joinLeft (kinds : List Kind) (operand : Parser α) (join : α → Token → α → α) :
    List Token → α → State → Outcome α
  | [], _, s => .stop .offEnd s
  | _ :: bound, left, s =>
    match accept kinds s with
    | .stop why s' => .stop why s'
    | .done none s' => .done left s'
    | .done (some operator) s' =>
      match operand s' with
      | .stop why s'' => .stop why s''
      | .done right s'' => joinLeft kinds operand join bound (join left operator right) s''

/-- Operands with operators of some kinds between them, joined to the left. -/
def leftAssoc (kinds : List Kind) (join : α → Token → α → α) (operand : Parser α) : Parser α :=
  fun s =>
    match operand s with
    | .stop why s' => .stop why s'
    | .done left s' => joinLeft kinds operand join s'.rest left s'

/-- Entries with commas between them, those read so far standing last one first; each entry beyond
the largest number is reported. -/
def entriesFrom (tooMany : Cause) (entry : Parser α) :
    List Token → List α → State → Outcome (List α)
  | [], _, s => .stop .offEnd s
  | _ :: bound, found, s =>
    match s.rest with
    | [] => .stop .offEnd s
    | t :: _ =>
      let noted := if maxArguments ≤ found.length
        then { s with diagnostics := s.diagnostics ++ [⟨tooMany, t, s.position⟩] } else s
      match entry noted with
      | .stop why s' => .stop why s'
      | .done a s' =>
        match accept [.comma] s' with
        | .stop why s'' => .stop why s''
        | .done none s'' => .done (a :: found).reverse s''
        | .done (some _) s'' => entriesFrom tooMany entry bound (a :: found) s''

/-- The entries between parentheses, the opening one being taken already; there may be none. -/
def entries (tooMany : Cause) (entry : Parser α) : Parser (List α) := do
  if ← check .rightParen then pure []
  else fun s => entriesFrom tooMany entry s.rest [] s

/-- Items up to a token that ends them, which is left; those that were given up are left out. -/
def itemsFrom (isLast : Token → Bool) (item : Parser (Option α)) :
    List Token → List α → State → Outcome (List α)
  | [], _, s => .stop .offEnd s
  | _ :: bound, found, s =>
    match s.rest with
    | [] => .stop .offEnd s
    | t :: _ =>
      if isLast t then .done found.reverse s
      else
        match item s with
        | .stop why s' => .stop why s'
        | .done none s' => itemsFrom isLast item bound found s'
        | .done (some a) s' => itemsFrom isLast item bound (a :: found) s'

/-- Items up to a token that ends them. -/
def itemsUntil (isLast : Token → Bool) (item : Parser (Option α)) : Parser (List α) := fun s =>
  itemsFrom isLast item s.rest [] s

end Parser

end Lox
