import Lox.Json

/-!
# Tokens

A token is a piece of program text together with its kind, the value that the text denotes and the
line on which it starts.  Kinds have the names under which they are stored and shown.  The other
parts are data: cutting a text gives a text and a number there (`Token.ofText`), but a token that
was loaded from a file may hold anything.
-/

namespace Lox

/-- The kinds of tokens. -/
inductive Kind where
  | leftParen | rightParen | leftBrace | rightBrace
  | comma | dot | minus | plus | semicolon | slash | star
  | bang | bangEqual | equal | equalEqual
  | greater | greaterEqual | less | lessEqual
  | identifier | string | number
  | andWord | classWord | elseWord | falseWord | funWord | forWord | ifWord | nilWord
  | orWord | printWord | returnWord | trueWord | varWord | whileWord
  | eof
deriving DecidableEq, Inhabited, Repr

namespace Kind

/-- Every kind, in the order of their declaration. -/
def all : List Kind :=
  [.leftParen, .rightParen, .leftBrace, .rightBrace,
    .comma, .dot, .minus, .plus, .semicolon, .slash, .star,
    .bang, .bangEqual, .equal, .equalEqual,
    .greater, .greaterEqual, .less, .lessEqual,
    .identifier, .string, .number,
    .andWord, .classWord, .elseWord, .falseWord, .funWord, .forWord, .ifWord, .nilWord,
    .orWord, .printWord, .returnWord, .trueWord, .varWord, .whileWord,
    .eof]

/-- The name of a kind. -/
def name : Kind → String
  | .leftParen => "LEFT_PAREN"
  | .rightParen => "RIGHT_PAREN"
  | .leftBrace => "LEFT_BRACE"
  | .rightBrace => "RIGHT_BRACE"
  | .comma => "COMMA"
  | .dot => "DOT"
  | .minus => "MINUS"
  | .plus => "PLUS"
  | .semicolon => "SEMICOLON"
  | .slash => "SLASH"
  | .star => "STAR"
  | .bang => "BANG"
  | .bangEqual => "BANG_EQUAL"
  | .equal => "EQUAL"
  | .equalEqual => "EQUAL_EQUAL"
  | .greater => "GREATER"
  | .greaterEqual => "GREATER_EQUAL"
  | .less => "LESS"
  | .lessEqual => "LESS_EQUAL"
  | .identifier => "IDENTIFIER"
  | .string => "STRING"
  | .number => "NUMBER"
  | .andWord => "AND"
  | .classWord => "CLASS"
  | .elseWord => "ELSE"
  | .falseWord => "FALSE"
  | .funWord => "FUN"
  | .forWord => "FOR"
  | .ifWord => "IF"
  | .nilWord => "NIL"
  | .orWord => "OR"
  | .printWord => "PRINT"
  | .returnWord => "RETURN"
  | .trueWord => "TRUE"
  | .varWord => "VAR"
  | .whileWord => "WHILE"
  | .eof => "EOF"

/-- The kind with a given name. -/
def ofName? (s : String) : Option Kind := all.find? fun k => k.name = s

/-- Every kind is found under its own name. -/
theorem ofName?_name (k : Kind) : ofName? k.name = some k := by
  cases k <;> rfl

end Kind

/-- A token.  The literal is the text of an identifier, the text between the quotes of a string,
the value of a number, and nothing otherwise. -/
structure Token where
  kind : Kind
  lexeme : Json
  literal : Json
  line : Json
deriving DecidableEq, Inhabited

namespace Token

/-- The token of a piece of program text on a line. -/
def ofText (kind : Kind) (text : String) (literal : Json) (line : Nat) : Token :=
  ⟨kind, .word text, literal, .int line⟩

/-- The text of a token in a message. -/
def lexemeText (t : Token) : Text := t.lexeme.subject

/-- The mark of a token's line in a message. -/
def lineMark (t : Token) : Text := "[line " ++ t.line.subject ++ "]"

/-- The spelling of a token as data. -/
def dataText (t : Token) : Text :=
  "Token(" ++ t.kind.name ++ ", " ++ t.lexeme.dataText ++ ", line=" ++ t.line.subject ++ ")"

end Token

end Lox
