import Lox.Node
import Lox.Diagnostic

/-!
# The grammar of the language

What a program is, said without a parser.  A *phrase* is a set of token lists, each with the tree
it stands for; every rule of the grammar is a phrase over the phrases of its parts.

* `JoinedLeft`: operands with operators between them, joined to the left.  The six levels from
  `Factor` to `LogicOr` are this rule with their own operators.
* `Assignment`, `Prefixed`: the two rules that join to the right.
* `Call`: argument lists behind a callee; each call keeps its own closing parenthesis.
* `StatementOver`: the statements.  Its flag marks a statement that ends with an `if` without an
  `else`.  Such a statement never stands in front of an `else`, so an `else` belongs to the nearest
  `if` that is free.  A `for` statement stands for its `while` loop.
* `DeclarationOver`: functions, variables and statements.

`Expression n`, `Statement n` and `Declaration n` close the rules under nesting: their phrases hold
expressions and statements nested at most `n` deep.  `Derives` is the whole grammar, without a bound
on the nesting.
-/

namespace Lox.Grammar

/-- A set of token lists, each with what it stands for. -/
abbrev Phrase (α : Type) : Type := List Token → α → Prop

/-! ### Repetition -/

/-- Operands with operators of some kinds between them, joined to the left. -/
inductive JoinedLeft (kinds : List Kind) (join : Node → Token → Node → Node)
    (Operand : Phrase Node) : Phrase Node where
  | operand {ts : List Token} {e : Node} (h : Operand ts e) : JoinedLeft kinds join Operand ts e
  | operator {ts us : List Token} {t : Token} {l r : Node}
      (hl : JoinedLeft kinds join Operand ts l) (ht : t.kind ∈ kinds) (hr : Operand us r) :
      JoinedLeft kinds join Operand (ts ++ t :: us) (join l t r)

/-- One or more entries with commas between them. -/
inductive Listed {α : Type} (Entry : Phrase α) : Phrase (List α) where
  | one {ts : List Token} {a : α} (h : Entry ts a) : Listed Entry ts [a]
  | more {ts us : List Token} {a : α} {as : List α} {comma : Token} (h : Entry ts a)
      (hc : comma.kind = .comma) (hs : Listed Entry us as) :
      Listed Entry (ts ++ comma :: us) (a :: as)

/-- What stands between the parentheses of a call or of a function: nothing, or a list of entries
that is not too long. -/
inductive Entries {α : Type} (Entry : Phrase α) : Phrase (List α) where
  | none : Entries Entry [] []
  | some {ts : List Token} {as : List α} (h : Listed Entry ts as) (hn : as.length ≤ maxArguments) :
      Entries Entry ts as

/-- Items one after another. -/
inductive Sequence {α : Type} (Item : Phrase α) : Phrase (List α) where
  | nil : Sequence Item [] []
  | cons {ts us : List Token} {a : α} {as : List α} (h : Item ts a) (hs : Sequence Item us as) :
      Sequence Item (ts ++ us) (a :: as)

/-- An expression that may be absent. -/
inductive Optional (Expr : Phrase Node) : Phrase (Option Node) where
  | none : Optional Expr [] none
  | some {ts : List Token} {e : Node} (h : Expr ts e) : Optional Expr ts (some e)

/-! ### Expressions -/

/-- Literals, variables, and an expression in parentheses. -/
inductive Primary (Expr : Phrase Node) : Phrase Node where
  | falseWord {t : Token} (h : t.kind = .falseWord) : Primary Expr [t] (.literal (.bool false))
  | trueWord {t : Token} (h : t.kind = .trueWord) : Primary Expr [t] (.literal (.bool true))
  | nilWord {t : Token} (h : t.kind = .nilWord) : Primary Expr [t] (.literal .nil)
  | number {t : Token} (h : t.kind = .number) :
      Primary Expr [t] (.literal (Node.ofLiteral t.literal))
  | string {t : Token} (h : t.kind = .string) :
      Primary Expr [t] (.literal (Node.ofLiteral t.literal))
  | identifier {t : Token} (h : t.kind = .identifier) : Primary Expr [t] (.reference t)
  | grouping {left right : Token} {ts : List Token} {e : Node} (hl : left.kind = .leftParen)
      (h : Expr ts e) (hr : right.kind = .rightParen) :
      Primary Expr (left :: (ts ++ [right])) (.grouping e)

/-- A primary expression with any number of argument lists behind it. -/
inductive Call (Expr : Phrase Node) : Phrase Node where
  | primary {ts : List Token} {e : Node} (h : Primary Expr ts e) : Call Expr ts e
  | call {ts us : List Token} {left right : Token} {callee : Node} {arguments : List Node}
      (hc : Call Expr ts callee) (hl : left.kind = .leftParen) (ha : Entries Expr us arguments)
      (hr : right.kind = .rightParen) :
      Call Expr (ts ++ left :: (us ++ [right])) (.call callee right arguments)

/-- An operator in front of an operand, or a call. -/
inductive Prefixed (Operand Called : Phrase Node) : Phrase Node where
  | operator {t : Token} {ts : List Token} {e : Node} (ht : t.kind ∈ [Kind.bang, Kind.minus])
      (h : Operand ts e) : Prefixed Operand Called (t :: ts) (.unary t e)
  | call {ts : List Token} {e : Node} (h : Called ts e) : Prefixed Operand Called ts e

/-- Products. -/
abbrev Factor (Operand : Phrase Node) : Phrase Node :=
  JoinedLeft [.slash, .star] .binary Operand

/-- Sums. -/
abbrev Term (Operand : Phrase Node) : Phrase Node :=
  JoinedLeft [.minus, .plus] .binary (Factor Operand)

/-- Comparisons. -/
abbrev Comparison (Operand : Phrase Node) : Phrase Node :=
  JoinedLeft [.greater, .greaterEqual, .less, .lessEqual] .binary (Term Operand)

/-- Equalities. -/
abbrev Equality (Operand : Phrase Node) : Phrase Node :=
  JoinedLeft [.bangEqual, .equalEqual] .binary (Comparison Operand)

/-- Conjunctions. -/
abbrev LogicAnd (Operand : Phrase Node) : Phrase Node :=
  JoinedLeft [.andWord] .logical (Equality Operand)

/-- Disjunctions. -/
abbrev LogicOr (Operand : Phrase Node) : Phrase Node :=
  JoinedLeft [.orWord] .logical (LogicAnd Operand)

/-- An operand by itself is a disjunction. -/
theorem LogicOr.of_operand {Operand : Phrase Node} {ts : List Token} {e : Node} (h : Operand ts e) :
    LogicOr Operand ts e :=
  .operand (.operand (.operand (.operand (.operand (.operand h)))))

/-- An assignment to a variable, or an expression without one. -/
inductive Assignment (Plain Value : Phrase Node) : Phrase Node where
  | plain {ts : List Token} {e : Node} (h : Plain ts e) : Assignment Plain Value ts e
  | assign {name equals : Token} {ts : List Token} {e : Node} (hn : name.kind = .identifier)
      (he : equals.kind = .equal) (h : Value ts e) :
      Assignment Plain Value (name :: equals :: ts) (.assign name e)

mutual

/-- The expressions nested at most so deep. -/
def Expression : Nat → Phrase Node
  | 0 => fun _ _ => False
  | n + 1 => Assignment (LogicOr (Unary n)) (Expression n)

/-- The operands nested at most so deep. -/
def Unary : Nat → Phrase Node
  | 0 => fun _ _ => False
  | n + 1 => Prefixed (Unary n) (Call (Expression n))

end

/-! ### Statements -/

/-- The declaration of a variable. -/
inductive VariableDeclaration (Expr : Phrase Node) : Phrase Node where
  | plain {var name semicolon : Token} (hv : var.kind = .varWord) (hn : name.kind = .identifier)
      (hs : semicolon.kind = .semicolon) :
      VariableDeclaration Expr [var, name, semicolon] (.declare name .null)
  | initialized {var name equals semicolon : Token} {ts : List Token} {e : Node}
      (hv : var.kind = .varWord) (hn : name.kind = .identifier) (he : equals.kind = .equal)
      (h : Expr ts e) (hs : semicolon.kind = .semicolon) :
      VariableDeclaration Expr (var :: name :: equals :: (ts ++ [semicolon])) (.declare name e)

/-- The first clause of a `for` statement with its semicolon, and what it makes of the loop: an
initializer stands in front of the loop, in a block of its own. -/
inductive Initializer (Expr : Phrase Node) : Phrase (Node → Node) where
  | none {semicolon : Token} (hs : semicolon.kind = .semicolon) :
      Initializer Expr [semicolon] fun loop => loop
  | variable {ts : List Token} {d : Node} (h : VariableDeclaration Expr ts d) :
      Initializer Expr ts fun loop => .block [d, loop]
  | expression {ts : List Token} {semicolon : Token} {e : Node} (h : Expr ts e)
      (hs : semicolon.kind = .semicolon) :
      Initializer Expr (ts ++ [semicolon]) fun loop => .block [.expression e, loop]

/-- The second clause of a `for` statement; an absent condition is true. -/
inductive Condition (Expr : Phrase Node) : Phrase Node where
  | none : Condition Expr [] (.literal (.bool true))
  | some {ts : List Token} {e : Node} (h : Expr ts e) : Condition Expr ts e

/-- The third clause of a `for` statement, and what it makes of the body: an increment stands
behind the body. -/
inductive Increment (Expr : Phrase Node) : Phrase (Node → Node) where
  | none : Increment Expr [] fun body => body
  | some {ts : List Token} {e : Node} (h : Expr ts e) :
      Increment Expr ts fun body => .block [body, .expression e]

/-- The statements over given parts.  The flag is set for a statement that ends with an `if` without
an `else`. -/
inductive StatementOver (inFunction : Bool) (Expr : Phrase Node) (Stmt : Bool → Phrase Node)
    (Body : Phrase (List Node)) : Bool → Phrase Node where
  | expression {ts : List Token} {semicolon : Token} {e : Node} (h : Expr ts e)
      (hs : semicolon.kind = .semicolon) :
      StatementOver inFunction Expr Stmt Body false (ts ++ [semicolon]) (.expression e)
  | print {keyword semicolon : Token} {ts : List Token} {e : Node}
      (hk : keyword.kind = .printWord) (h : Expr ts e) (hs : semicolon.kind = .semicolon) :
      StatementOver inFunction Expr Stmt Body false (keyword :: (ts ++ [semicolon])) (.print e)
  | returns {keyword semicolon : Token} {ts : List Token} {value : Option Node}
      (hf : inFunction = true) (hk : keyword.kind = .returnWord) (h : Optional Expr ts value)
      (hs : semicolon.kind = .semicolon) :
      StatementOver inFunction Expr Stmt Body false (keyword :: (ts ++ [semicolon]))
        (.returns keyword (value.getD .null))
  | block {left right : Token} {ts : List Token} {statements : List Node}
      (hl : left.kind = .leftBrace) (h : Body ts statements) (hr : right.kind = .rightBrace) :
      StatementOver inFunction Expr Stmt Body false (left :: (ts ++ [right])) (.block statements)
  | branch {keyword left right : Token} {ts us : List Token} {c s : Node} {dangling : Bool}
      (hk : keyword.kind = .ifWord) (hl : left.kind = .leftParen) (hc : Expr ts c)
      (hr : right.kind = .rightParen) (hs : Stmt dangling us s) :
      StatementOver inFunction Expr Stmt Body true (keyword :: left :: (ts ++ right :: us))
        (.branch c s .null)
  | branchElse {keyword left right other : Token} {ts us vs : List Token} {c s s' : Node}
      {dangling : Bool} (hk : keyword.kind = .ifWord) (hl : left.kind = .leftParen)
      (hc : Expr ts c) (hr : right.kind = .rightParen) (hs : Stmt false us s)
      (ho : other.kind = .elseWord) (hs' : Stmt dangling vs s') :
      StatementOver inFunction Expr Stmt Body dangling
        (keyword :: left :: (ts ++ right :: (us ++ other :: vs))) (.branch c s s')
  | loop {keyword left right : Token} {ts us : List Token} {c s : Node} {dangling : Bool}
      (hk : keyword.kind = .whileWord) (hl : left.kind = .leftParen) (hc : Expr ts c)
      (hr : right.kind = .rightParen) (hs : Stmt dangling us s) :
      StatementOver inFunction Expr Stmt Body dangling (keyword :: left :: (ts ++ right :: us))
        (.loop c s)
  | forLoop {keyword left semicolon right : Token} {ts us vs ws : List Token} {c s : Node}
      {around behind : Node → Node} {dangling : Bool} (hk : keyword.kind = .forWord)
      (hl : left.kind = .leftParen) (hi : Initializer Expr ts around) (hc : Condition Expr us c)
      (hsc : semicolon.kind = .semicolon) (hn : Increment Expr vs behind)
      (hr : right.kind = .rightParen) (hs : Stmt dangling ws s) :
      StatementOver inFunction Expr Stmt Body dangling
        (keyword :: left :: (ts ++ (us ++ semicolon :: (vs ++ right :: ws))))
        (around (.loop c (behind s)))

/-- The name of a parameter. -/
inductive Parameter : Phrase Token where
  | name {t : Token} (h : t.kind = .identifier) : Parameter [t] t

/-- The declarations over given parts. -/
inductive DeclarationOver (Expr : Phrase Node) (Stmt : Bool → Phrase Node)
    (Body : Phrase (List Node)) : Phrase Node where
  | function {keyword name left right open' close : Token} {ts us : List Token}
      {params : List Token} {body : List Node} (hk : keyword.kind = .funWord)
      (hn : name.kind = .identifier) (hl : left.kind = .leftParen)
      (hp : Entries Parameter ts params) (hr : right.kind = .rightParen)
      (ho : open'.kind = .leftBrace) (hb : Body us body) (hc : close.kind = .rightBrace) :
      DeclarationOver Expr Stmt Body
        (keyword :: name :: left :: (ts ++ right :: open' :: (us ++ [close])))
        (.function name params body)
  | variable {ts : List Token} {d : Node} (h : VariableDeclaration Expr ts d) :
      DeclarationOver Expr Stmt Body ts d
  | statement {ts : List Token} {s : Node} {dangling : Bool} (h : Stmt dangling ts s) :
      DeclarationOver Expr Stmt Body ts s

mutual

/-- The statements nested at most so deep. -/
def Statement (inFunction : Bool) : Nat → Bool → Phrase Node
  | 0 => fun _ _ _ => False
  | n + 1 =>
    StatementOver inFunction (Expression n) (Statement inFunction n)
      (Sequence (Declaration inFunction n))

/-- The declarations nested at most so deep. -/
def Declaration (inFunction : Bool) : Nat → Phrase Node
  | 0 => fun _ _ => False
  | n + 1 =>
    DeclarationOver (Expression n) (Statement inFunction n) (Sequence (Declaration true n))

end

/-- The programs nested at most so deep. -/
def Program (n : Nat) : Phrase (List Node) := Sequence (Declaration false n)

/-- The tokens are a program and the statements are its tree. -/
def Derives (ts : List Token) (statements : List Node) : Prop := ∃ n, Program n ts statements

/-- Read as a program in any way, the tokens are nested at most so deep. -/
def NestedWithin (n : Nat) (ts : List Token) : Prop :=
  ∀ statements, Derives ts statements → Program n ts statements

end Lox.Grammar
