import Lox.Parser.Expression

/-!
# Parsing statements

Declarations and statements.  A declaration that cannot be read is reported and given up, and
reading goes on behind it, so that each broken statement is reported once.  A `for` statement is a
`while` loop with its clauses put around the body.
-/

namespace Lox

namespace Parser

/-! ### Statements over given parts -/

/-- The statements up to a closing brace, the opening one being taken already. -/
def blockOf (declaration : Parser (Option Node)) : Parser (List Node) := do
  let statements ← itemsUntil (fun t => t.kind = .rightBrace || t.kind = .eof) declaration
  let _ ← expect .rightBrace .expectBraceAfterBlock
  pure statements

/-- A function declaration behind its keyword. -/
def functionDeclaration (declaration : Parser (Option Node)) : Parser Node := do
  let name ← expect .identifier .expectFunctionName
  let _ ← expect .leftParen .expectParenAfterFunctionName
  let params ← entries .tooManyParameters (expect .identifier .expectParameterName)
  let _ ← expect .rightParen .expectParenAfterParameters
  let _ ← expect .leftBrace .expectBraceBeforeBody
  let body ← blockOf declaration
  pure (.function name params body)

/-- A variable declaration behind its keyword. -/
def variableDeclaration (expression : Parser Node) : Parser Node := do
  let name ← expect .identifier .expectVariableName
  let initializer ← match ← accept [.equal] with
    | some _ => expression
    | none => pure Node.null
  let _ ← expect .semicolon .expectSemicolonAfterDeclaration
  pure (.declare name initializer)

/-- An expression and its semicolon. -/
def expressionStatement (expression : Parser Node) : Parser Node := do
  let inner ← expression
  let _ ← expect .semicolon .expectSemicolonAfterExpression
  pure (.expression inner)

/-- The clause in front of a loop, up to and with its semicolon. -/
def loopInitializer (expression : Parser Node) : Parser (Option Node) := do
  match ← accept [.semicolon] with
  | some _ => pure none
  | none =>
    match ← accept [.varWord] with
    | some _ => some <$> variableDeclaration expression
    | none => some <$> expressionStatement expression

/-- An expression, unless a token of the given kind comes at once. -/
def expressionUnless (kind : Kind) (expression : Parser Node) : Parser (Option Node) := do
  if ← check kind then pure none else some <$> expression

/-- The loop that a `for` statement stands for: the increment goes behind the body, an absent
condition is true, and the initializer goes in front in a block of its own. -/
def forLoop (initializer condition increment : Option Node) (body : Node) : Node :=
  let body := match increment with
    | some step => .block [body, .expression step]
    | none => body
  let loop := Node.loop (condition.getD (.literal (.bool true))) body
  match initializer with
  | some first => .block [first, loop]
  | none => loop

/-- A `for` statement behind its keyword. -/
def forStatement (expression statement : Parser Node) : Parser Node := do
  let _ ← expect .leftParen .expectParenAfterFor
  let initializer ← loopInitializer expression
  let condition ← expressionUnless .semicolon expression
  let _ ← expect .semicolon .expectSemicolonAfterLoopCondition
  let increment ← expressionUnless .rightParen expression
  let _ ← expect .rightParen .expectParenAfterForClauses
  let body ← statement
  pure (forLoop initializer condition increment body)

/-- An `if` statement behind its keyword. -/
def ifStatement (expression statement : Parser Node) : Parser Node := do
  let _ ← expect .leftParen .expectParenAfterIf
  let condition ← expression
  let _ ← expect .rightParen .expectParenAfterIfCondition
  let thenBranch ← statement
  let elseBranch ← match ← accept [.elseWord] with
    | some _ => statement
    | none => pure Node.null
  pure (.branch condition thenBranch elseBranch)

/-- A `print` statement behind its keyword. -/
def printStatement (expression : Parser Node) : Parser Node := do
  let inner ← expression
  let _ ← expect .semicolon .expectSemicolonAfterValue
  pure (.print inner)

/-- A `return` statement behind its keyword; outside of functions it is reported. -/
def returnStatement (inFunction : Bool) (keyword : Token) (expression : Parser Node) :
    Parser Node := do
  if inFunction then pure () else report .returnAtTopLevel keyword
  let value ← expressionUnless .semicolon expression
  let _ ← expect .semicolon .expectSemicolonAfterReturnValue
  pure (.returns keyword (value.getD .null))

/-- A `while` statement behind its keyword. -/
def whileStatement (expression statement : Parser Node) : Parser Node := do
  let _ ← expect .leftParen .expectParenAfterWhile
  let condition ← expression
  let _ ← expect .rightParen .expectParenAfterCondition
  let body ← statement
  pure (.loop condition body)

/-! ### Declarations -/

/-- The keywords and the brace that a statement starts with. -/
def statementStarts : List Kind :=
  [.forWord, .ifWord, .printWord, .returnWord, .whileWord, .leftBrace]

mutual

/-- A statement, nested at most so deep. -/
def statement (inFunction : Bool) : Nat → Parser Node
  | 0 => fail .tooDeep
  | depth + 1 => do
    match ← accept statementStarts with
    | none => expressionStatement (assignment depth)
    | some start =>
      match start.kind with
      | .forWord => forStatement (assignment depth) (statement inFunction depth)
      | .ifWord => ifStatement (assignment depth) (statement inFunction depth)
      | .printWord => printStatement (assignment depth)
      | .returnWord => returnStatement inFunction start (assignment depth)
      | .whileWord => whileStatement (assignment depth) (statement inFunction depth)
      | _ => .block <$> blockOf (declaration inFunction depth)

/-- A declaration or a statement; one that cannot be read is given up. -/
def declaration (inFunction : Bool) : Nat → Parser (Option Node)
  | 0 => recover (fail .tooDeep)
  | depth + 1 => recover do
    match ← accept [.funWord, .varWord] with
    | none => statement inFunction depth
    | some start =>
      match start.kind with
      | .funWord => functionDeclaration (declaration true depth)
      | _ => variableDeclaration (assignment depth)

end

/-- All declarations up to the end. -/
def program (depth : Nat) : Parser (List Node) :=
  itemsUntil (fun t => t.kind = .eof) (declaration false depth)

end Parser

end Lox
