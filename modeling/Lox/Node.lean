import Lox.Token

/-!
# Syntax trees

One type holds expressions, statements and what else a tree file may put in their place: plain
data, tokens and lists.  A tree that was read from a file is only known to be a tree of some shape,
and what stands where no statement or expression can stand is noticed when it is reached in a run.
An absent part of a statement is `Node.null`.  A literal takes its value from a token, and a loaded
token may hold a value that no tree file can (`Node.data`); a tree without one can be written
(`Node.isWritable`).
-/

namespace Lox

/-- A syntax tree. -/
inductive Node where
  /-- Nothing. -/
  | null
  | bool (b : Bool)
  | number (x : Number)
  | text (t : Text)
  /-- The value `nil` of the language. -/
  | nil
  | list (items : List Node)
  | token (t : Token)
  /-- A value of a token that has no place in a tree file. -/
  | data (v : Json)
  /-- An arithmetic operator, a comparison or an equality between two operands. -/
  | binary (left : Node) (operator : Token) (right : Node)
  /-- An expression in parentheses. -/
  | grouping (inner : Node)
  | literal (value : Node)
  /-- An operator in front of its operand. -/
  | unary (operator : Token) (right : Node)
  /-- The value of a variable. -/
  | reference (name : Token)
  | assign (name : Token) (value : Node)
  /-- `and` and `or`. -/
  | logical (left : Node) (operator : Token) (right : Node)
  /-- A call, with its closing parenthesis. -/
  | call (callee : Node) (paren : Token) (arguments : List Node)
  /-- An expression whose value is dropped. -/
  | expression (inner : Node)
  | print (inner : Node)
  /-- A variable declaration; the initializer may be absent. -/
  | declare (name : Token) (initializer : Node)
  | block (statements : List Node)
  /-- A choice; the second branch may be absent. -/
  | branch (condition thenBranch elseBranch : Node)
  | loop (condition body : Node)
  | function (name : Token) (params : List Token) (body : List Node)
  /-- A return statement; the value may be absent. -/
  | returns (keyword : Token) (value : Node)
deriving Inhabited

namespace Node

/-! ### Equality -/

mutual

/-- Whether two trees are the same, numbers compared by their patterns. -/
def same : Node → Node → Bool
  | .null, .null => true
  | .bool a, .bool b => a == b
  | .number a, .number b => a == b
  | .text a, .text b => a == b
  | .nil, .nil => true
  | .list as, .list bs => sameAll as bs
  | .token a, .token b => a == b
  | .data a, .data b => a == b
  | .binary l o r, .binary l' o' r' => same l l' && o == o' && same r r'
  | .grouping a, .grouping b => same a b
  | .literal a, .literal b => same a b
  | .unary o r, .unary o' r' => o == o' && same r r'
  | .reference n, .reference n' => n == n'
  | .assign n v, .assign n' v' => n == n' && same v v'
  | .logical l o r, .logical l' o' r' => same l l' && o == o' && same r r'
  | .call c p as, .call c' p' as' => same c c' && p == p' && sameAll as as'
  | .expression a, .expression b => same a b
  | .print a, .print b => same a b
  | .declare n v, .declare n' v' => n == n' && same v v'
  | .block as, .block bs => sameAll as bs
  | .branch c t e, .branch c' t' e' => same c c' && same t t' && same e e'
  | .loop c b, .loop c' b' => same c c' && same b b'
  | .function n ps b, .function n' ps' b' => n == n' && ps == ps' && sameAll b b'
  | .returns k v, .returns k' v' => k == k' && same v v'
  | _, _ => false

/-- Whether two lists of trees are the same. -/
def sameAll : List Node → List Node → Bool
  | [], [] => true
  | a :: as, b :: bs => same a b && sameAll as bs
  | _, _ => false

end

/-! ### Spelling as data -/

mutual

/-- The spelling of a tree as data: plain values as in quoted data, nodes by their labels with
every part named. -/
def dataText : Node → Text
  | .null => "None"
  | .bool true => "True"
  | .bool false => "False"
  | .number x => x.short Json.dataNames
  | .text t => quoted t
  | .nil => "nil"
  | .list items => "[" ++ dataItems items ++ "]"
  | .token t => t.dataText
  | .data v => v.dataText
  | .binary l o r =>
    "Binary(left=" ++ dataText l ++ ", operator=" ++ o.dataText ++ ", right=" ++ dataText r ++ ")"
  | .grouping a => "Grouping(expression=" ++ dataText a ++ ")"
  | .literal a => "Literal(value=" ++ dataText a ++ ")"
  | .unary o r => "Unary(operator=" ++ o.dataText ++ ", right=" ++ dataText r ++ ")"
  | .reference n => "Variable(name=" ++ n.dataText ++ ")"
  | .assign n v => "Assign(name=" ++ n.dataText ++ ", value=" ++ dataText v ++ ")"
  | .logical l o r =>
    "Logical(left=" ++ dataText l ++ ", operator=" ++ o.dataText ++ ", right=" ++ dataText r ++ ")"
  | .call c p as =>
    "Call(callee=" ++ dataText c ++ ", paren=" ++ p.dataText ++ ", arguments=[" ++
      dataItems as ++ "])"
  | .expression a => "Expression(expression=" ++ dataText a ++ ")"
  | .print a => "Print(expression=" ++ dataText a ++ ")"
  | .declare n v => "Var(name=" ++ n.dataText ++ ", initializer=" ++ dataText v ++ ")"
  | .block as => "Block(statements=[" ++ dataItems as ++ "])"
  | .branch c t e =>
    "If(condition=" ++ dataText c ++ ", then_branch=" ++ dataText t ++ ", else_branch=" ++
      dataText e ++ ")"
  | .loop c b => "While(condition=" ++ dataText c ++ ", body=" ++ dataText b ++ ")"
  | .function n ps b =>
    "Function(name=" ++ n.dataText ++ ", params=[" ++
      Text.intercalate ", " (ps.map Token.dataText) ++ "], body=[" ++ dataItems b ++ "])"
  | .returns k v => "Return(keyword=" ++ k.dataText ++ ", value=" ++ dataText v ++ ")"

/-- The items of a list, with commas between them. -/
def dataItems : List Node → Text
  | [] => ""
  | [a] => dataText a
  | a :: rest => dataText a ++ ", " ++ dataItems rest

end

/-! ### Literals -/

mutual

/-- The value that a token carries, as a tree. -/
def ofLiteral : Json → Node
  | .null => .null
  | .bool b => .bool b
  | .int n => .data (.int n)
  | .float x => .number x
  | .str t => .text t
  | .arr items => .list (ofLiterals items)
  | .obj members => .data (.obj members)

/-- A list of values that a token carries. -/
def ofLiterals : List Json → List Node
  | [] => []
  | v :: rest => ofLiteral v :: ofLiterals rest

end

/-! ### Writing -/

mutual

/-- Whether every part of a tree has a place in a tree file. -/
def isWritable : Node → Bool
  | .data _ => false
  | .list items => allWritable items
  | .binary l _ r => isWritable l && isWritable r
  | .grouping a => isWritable a
  | .literal a => isWritable a
  | .unary _ r => isWritable r
  | .assign _ v => isWritable v
  | .logical l _ r => isWritable l && isWritable r
  | .call c _ as => isWritable c && allWritable as
  | .expression a => isWritable a
  | .print a => isWritable a
  | .declare _ v => isWritable v
  | .block as => allWritable as
  | .branch c t e => isWritable c && isWritable t && isWritable e
  | .loop c b => isWritable c && isWritable b
  | .function _ _ b => allWritable b
  | .returns _ v => isWritable v
  | _ => true

/-- Whether every tree of a list can be written. -/
def allWritable : List Node → Bool
  | [] => true
  | a :: rest => isWritable a && allWritable rest

end

end Node

end Lox
