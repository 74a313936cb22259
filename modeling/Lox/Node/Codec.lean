import Lox.Node

/-!
# Trees as JSON

A node is an object whose member `type` names it, followed by its parts.  Tokens and the value
`nil` carry `__type__` instead, so that they cannot be taken for nodes.  Loading takes more than
what is written: integers stand for numbers, members that may be absent may be missing, unknown
members are passed over, and a text or an object stands for the list of its characters or names.
-/

namespace Lox

/-! ### Errors -/

/-- Why a JSON value is no tree. -/
inductive LoadError where
  /-- A member is missing. -/
  | missing (name : Text)
  /-- No kind of token has this name. -/
  | unknownKind (name : Text)
  /-- No node has this name. -/
  | unknownNode (name : Text)
  /-- An integer is beyond the range of numbers. -/
  | numberTooLarge
  /-- A value of another shape was needed. -/
  | wrongShape
deriving DecidableEq, Repr

namespace LoadError

/-- The wording of an error; a missing member is named by itself. -/
def message : LoadError → Text
  | .missing name => name
  | .unknownKind name => name
  | .unknownNode name => "Unknown AST node type: " ++ name
  | .numberTooLarge => "int too large to convert to float"
  | .wrongShape => ""

end LoadError

/-! ### Writing -/

namespace Token

/-- A token as a JSON value. -/
def toJson (t : Token) : Json :=
  .obj [("__type__", .word "Token"), ("type", .word t.kind.name), ("lexeme", t.lexeme),
    ("literal", t.literal), ("line", t.line)]

end Token

namespace Node

mutual

/-- A tree as a JSON value; it can be loaded again if the tree can be written. -/
def toJson : Node → Json
  | .null => .null
  | .bool b => .bool b
  | .number x => .float x
  | .text t => .str t
  | .nil => .obj [("__type__", .word "Nil")]
  | .list items => .arr (toJsonAll items)
  | .token t => t.toJson
  | .data v => v
  | .binary l o r =>
    .obj [("type", .word "Binary"), ("left", toJson l), ("operator", o.toJson),
      ("right", toJson r)]
  | .grouping a => .obj [("type", .word "Grouping"), ("expression", toJson a)]
  | .literal v => .obj [("type", .word "Literal"), ("value", toJson v)]
  | .unary o r => .obj [("type", .word "Unary"), ("operator", o.toJson), ("right", toJson r)]
  | .reference n => .obj [("type", .word "Variable"), ("name", n.toJson)]
  | .assign n v => .obj [("type", .word "Assign"), ("name", n.toJson), ("value", toJson v)]
  | .logical l o r =>
    .obj [("type", .word "Logical"), ("left", toJson l), ("operator", o.toJson),
      ("right", toJson r)]
  | .call c p as =>
    .obj [("type", .word "Call"), ("callee", toJson c), ("paren", p.toJson),
      ("arguments", .arr (toJsonAll as))]
  | .expression a => .obj [("type", .word "Expression"), ("expression", toJson a)]
  | .print a => .obj [("type", .word "Print"), ("expression", toJson a)]
  | .declare n v => .obj [("type", .word "Var"), ("name", n.toJson), ("initializer", toJson v)]
  | .block as => .obj [("type", .word "Block"), ("statements", .arr (toJsonAll as))]
  | .branch c t e =>
    .obj [("type", .word "If"), ("condition", toJson c), ("then_branch", toJson t),
      ("else_branch", toJson e)]
  | .loop c b => .obj [("type", .word "While"), ("condition", toJson c), ("body", toJson b)]
  | .function n ps b =>
    .obj [("type", .word "Function"), ("name", n.toJson), ("params", .arr (ps.map Token.toJson)),
      ("body", .arr (toJsonAll b))]
  | .returns k v => .obj [("type", .word "Return"), ("keyword", k.toJson), ("value", toJson v)]

/-- A list of trees as JSON values. -/
def toJsonAll : List Node → List Json
  | [] => []
  | a :: rest => toJson a :: toJsonAll rest

end

/-- A tree as a JSON value, if it can be written. -/
def toJson? (tree : Node) : Option Json :=
  if tree.isWritable then some tree.toJson else none

end Node

/-! ### Loading -/

namespace Token

/-- The kind with a stored name; only plain values can be looked up. -/
def kindOfJson : Json → Except LoadError Kind
  | .str t =>
    match t.string?.bind Kind.ofName? with
    | some k => .ok k
    | none => .error (.unknownKind t)
  | .arr _ => .error .wrongShape
  | .obj _ => .error .wrongShape
  | v => .error (.unknownKind v.subject)

/-- Reads a token; the literal may be missing, and what the other members hold is kept. -/
def ofJson : Json → Except LoadError Token
  | .obj members =>
    match Json.member? members "type" with
    | none => .error (.missing "type")
    | some name =>
      match kindOfJson name with
      | .error e => .error e
      | .ok kind =>
        match Json.member? members "lexeme", Json.member? members "line" with
        | none, _ => .error (.missing "lexeme")
        | some _, none => .error (.missing "line")
        | some lexeme, some line =>
          .ok ⟨kind, lexeme, (Json.member? members "literal").getD .null, line⟩
  | _ => .error .wrongShape

/-- Reads a list of tokens, up to the first error. -/
def ofJsonAll : List Json → Except LoadError (List Token)
  | [] => .ok []
  | v :: rest =>
    match ofJson v with
    | .error e => .error e
    | .ok t =>
      match ofJsonAll rest with
      | .error e => .error e
      | .ok ts => .ok (t :: ts)

/-- Reads tokens from what may stand for a list. -/
def listOfJson : Json → Except LoadError (List Token)
  | .arr items => ofJsonAll items
  | .str t => if t.isEmpty then .ok [] else .error .wrongShape
  | .obj members => if members.isEmpty then .ok [] else .error .wrongShape
  | _ => .error .wrongShape

end Token

namespace Node

/-- A member of an object: as it stands, and as a tree. -/
structure Field where
  name : Text
  value : Json
  tree : Except LoadError Node

namespace Field

/-- The member with a name. -/
def get (fields : List Field) (name : Text) : Except LoadError Field :=
  match fields.find? fun f => f.name = name with
  | some f => .ok f
  | none => .error (.missing name)

/-- The tree of a member that must be there. -/
def part (fields : List Field) (name : Text) : Except LoadError Node := do
  (← get fields name).tree

/-- The tree of a member that may be missing. -/
def partOrNull (fields : List Field) (name : Text) : Except LoadError Node :=
  match fields.find? fun f => f.name = name with
  | some f => f.tree
  | none => .ok .null

/-- The token of a member. -/
def token (fields : List Field) (name : Text) : Except LoadError Token := do
  Token.ofJson (← get fields name).value

/-- The tokens of a member. -/
def tokens (fields : List Field) (name : Text) : Except LoadError (List Token) := do
  Token.listOfJson (← get fields name).value

/-- The trees of a member: the items of a list, the characters of a text, the names of an object. -/
def parts (fields : List Field) (name : Text) : Except LoadError (List Node) := do
  let f ← get fields name
  match f.value with
  | .arr _ =>
    match ← f.tree with
    | .list items => pure items
    | _ => throw .wrongShape
  | .str t => pure (t.points.map fun point => .text (.ofPoints [point]))
  | .obj members => pure (members.map fun member => .text member.1)
  | _ => throw .wrongShape

end Field

/-- The node that an object with a given name stands for; its parts are read in a fixed order. -/
def ofFields (name : Option Json) (fields : List Field) : Except LoadError Node :=
  match name with
  | some (.word "Binary") => do
    let left ← Field.part fields "left"
    let operator ← Field.token fields "operator"
    let right ← Field.part fields "right"
    pure (.binary left operator right)
  | some (.word "Grouping") => do
    pure (.grouping (← Field.part fields "expression"))
  | some (.word "Literal") => do
    pure (.literal (← Field.part fields "value"))
  | some (.word "Unary") => do
    let operator ← Field.token fields "operator"
    let right ← Field.part fields "right"
    pure (.unary operator right)
  | some (.word "Variable") => do
    pure (.reference (← Field.token fields "name"))
  | some (.word "Assign") => do
    let target ← Field.token fields "name"
    let value ← Field.part fields "value"
    pure (.assign target value)
  | some (.word "Logical") => do
    let left ← Field.part fields "left"
    let operator ← Field.token fields "operator"
    let right ← Field.part fields "right"
    pure (.logical left operator right)
  | some (.word "Call") => do
    let callee ← Field.part fields "callee"
    let paren ← Field.token fields "paren"
    let arguments ← Field.parts fields "arguments"
    pure (.call callee paren arguments)
  | some (.word "Expression") => do
    pure (.expression (← Field.part fields "expression"))
  | some (.word "Print") => do
    pure (.print (← Field.part fields "expression"))
  | some (.word "Var") => do
    let target ← Field.token fields "name"
    let initializer ← Field.partOrNull fields "initializer"
    pure (.declare target initializer)
  | some (.word "Block") => do
    pure (.block (← Field.parts fields "statements"))
  | some (.word "If") => do
    let condition ← Field.part fields "condition"
    let thenBranch ← Field.part fields "then_branch"
    let elseBranch ← Field.partOrNull fields "else_branch"
    pure (.branch condition thenBranch elseBranch)
  | some (.word "While") => do
    let condition ← Field.part fields "condition"
    let body ← Field.part fields "body"
    pure (.loop condition body)
  | some (.word "Function") => do
    let target ← Field.token fields "name"
    let params ← Field.tokens fields "params"
    let body ← Field.parts fields "body"
    pure (.function target params body)
  | some (.word "Return") => do
    let keyword ← Field.token fields "keyword"
    let value ← Field.partOrNull fields "value"
    pure (.returns keyword value)
  | some other => .error (.unknownNode other.subject)
  | none => .error (.unknownNode Json.null.subject)

mutual

/-- Reads a tree. -/
def ofJson : Json → Except LoadError Node
  | .null => .ok .null
  | .bool b => .ok (.bool b)
  | .int n =>
    match Number.ofInt? n with
    | some x => .ok (.number x)
    | none => .error .numberTooLarge
  | .float x => .ok (.number x)
  | .str t => .ok (.text t)
  | .arr items =>
    match ofJsonAll items with
    | .ok nodes => .ok (.list nodes)
    | .error e => .error e
  | .obj members =>
    match Json.member? members "__type__" with
    | some (.word "Nil") => .ok .nil
    | some (.word "Token") =>
      match Token.ofJson (.obj members) with
      | .ok t => .ok (.token t)
      | .error e => .error e
    | _ => ofFields (Json.member? members "type") (fieldsOf members)

/-- Reads a list of trees, up to the first error. -/
def ofJsonAll : List Json → Except LoadError (List Node)
  | [] => .ok []
  | v :: rest =>
    match ofJson v with
    | .error e => .error e
    | .ok a =>
      match ofJsonAll rest with
      | .error e => .error e
      | .ok as => .ok (a :: as)

/-- Reads every member of an object; an error counts only for a member that is needed. -/
def fieldsOf : List (Text × Json) → List Field
  | [] => []
  | (name, v) :: rest => ⟨name, v, ofJson v⟩ :: fieldsOf rest

end

end Node

end Lox
