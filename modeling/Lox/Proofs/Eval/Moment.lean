import Lox.Session

/-!
# The moments of a run

A run is made of tasks inside tasks: a statement evaluates an expression, which calls a function,
which executes a block.  A *moment* is a task that is about to start, with the frames left for it
and the machine it starts on.

* `Enters config a b`: the task of `a` starts the task of `b`, on the machine that what it did before
  has left.  There is a rule for every place where one task starts another.
* `During config frames statements m n b`: the moment `b` is reached in a run of the statements, and
  then `n` calls are entered and not yet left.
* `Moment.Gives config b v`: the task of `b` ends with the value `v`.
-/

namespace Lox

/-- Something that a run is busy with. -/
inductive Task where
  | evaluate (e : Node)
  /-- The arguments of a call. -/
  | arguments (es : List Node)
  | invoke (callee : Value) (arguments : List Value) (paren : Token)
  /-- A call that is entered and not left: it is told, and then made. -/
  | body (callee : Value) (arguments : List Value)
  | block (scope : Nat) (statements : List Node)
  | execute (s : Node)

/-- How many calls a task enters by itself. -/
def Task.calls : Task → Nat
  | .body .. => 1
  | _ => 0

/-- A task that is about to start. -/
structure Moment where
  /-- How many frames are left. -/
  frames : Nat
  task : Task
  machine : Machine

/-- From one machine to another by whole rounds of a loop. -/
inductive Rounds {α : Type} (condition : Run Bool) (body : Run (Option α)) :
    Machine → Machine → Prop where
  | none (m : Machine) : Rounds condition body m m
  | round {m m₁ m₂ m₃ : Machine} (h : Rounds condition body m m₁)
      (hc : condition m₁ = .ok true m₂) (hb : body m₂ = .ok none m₃) : Rounds condition body m m₃

section Enters

variable (config : Config)

/-- The first task starts the second. -/
inductive Enters : Moment → Moment → Prop where
  | grouping {n : Nat} {e : Node} {m : Machine} :
      Enters ⟨n + 1, .evaluate (.grouping e), m⟩ ⟨n, .evaluate e, m⟩
  | assign {n : Nat} {name : Token} {e : Node} {m : Machine} :
      Enters ⟨n + 1, .evaluate (.assign name e), m⟩ ⟨n, .evaluate e, m⟩
  | logicalLeft {n : Nat} {l r : Node} {o : Token} {m : Machine} :
      Enters ⟨n + 1, .evaluate (.logical l o r), m⟩ ⟨n, .evaluate l, m⟩
  | logicalRight {n : Nat} {l r : Node} {o : Token} {v : Value} {m m₁ : Machine}
      (hl : evaluate config n l m = .ok v m₁) (hv : decidesAlone o v = false) :
      Enters ⟨n + 1, .evaluate (.logical l o r), m⟩ ⟨n, .evaluate r, m₁⟩
  | unary {n : Nat} {o : Token} {e : Node} {m : Machine} :
      Enters ⟨n + 1, .evaluate (.unary o e), m⟩ ⟨n, .evaluate e, m⟩
  | binaryLeft {n : Nat} {l r : Node} {o : Token} {m : Machine} :
      Enters ⟨n + 1, .evaluate (.binary l o r), m⟩ ⟨n, .evaluate l, m⟩
  | binaryRight {n : Nat} {l r : Node} {o : Token} {v : Value} {m m₁ : Machine}
      (hl : evaluate config n l m = .ok v m₁) :
      Enters ⟨n + 1, .evaluate (.binary l o r), m⟩ ⟨n, .evaluate r, m₁⟩
  | callee {n : Nat} {e : Node} {paren : Token} {es : List Node} {m : Machine} :
      Enters ⟨n + 1, .evaluate (.call e paren es), m⟩ ⟨n, .evaluate e, m⟩
  | arguments {n : Nat} {e : Node} {paren : Token} {es : List Node} {f : Value} {m m₁ : Machine}
      (hc : evaluate config n e m = .ok f m₁) :
      Enters ⟨n + 1, .evaluate (.call e paren es), m⟩ ⟨n, .arguments es, m₁⟩
  | invoke {n : Nat} {e : Node} {paren : Token} {es : List Node} {f : Value} {vs : List Value}
      {m m₁ m₂ : Machine} (hc : evaluate config n e m = .ok f m₁)
      (ha : evaluateAll config n es m₁ = .ok vs m₂) :
      Enters ⟨n + 1, .evaluate (.call e paren es), m⟩ ⟨n, .invoke f vs paren, m₂⟩
  | argument {n : Nat} {before behind : List Node} {e : Node} {vs : List Value} {m m₁ : Machine}
      (hb : Run.collect (evaluate config n) before m = .ok vs m₁) :
      Enters ⟨n + 1, .arguments (before ++ e :: behind), m⟩ ⟨n, .evaluate e, m₁⟩
  | body {n : Nat} {f : Value} {vs : List Value} {paren : Token} {m : Machine}
      (hc : checkCall config f vs.length m.depth paren = .ok ()) :
      Enters ⟨n + 2, .invoke f vs paren, m⟩
        ⟨n, .body f vs, { m with depth := m.depth + 1, lastCall := some paren }⟩
  | function {n closure id : Nat} {name : Json} {params : List Json} {body : List Node}
      {vs : List Value} {names : List Name} {m m₁ m₂ : Machine}
      (hf : (Value.function name params body closure).spellingFrames ≤ n)
      (ht : Run.tell config (.called (.function name params body closure) m.depth) m = .ok () m₁)
      (hn : Name.ofJsonAll? params = some names)
      (hs : Run.newScope closure (names.zip vs) m₁ = .ok id m₂) :
      Enters ⟨n, .body (.function name params body closure) vs, m⟩ ⟨n, .block id body, m₂⟩
  | statement {n id : Nat} {before behind : List Node} {s : Node} {m m₁ : Machine}
      (hb : Run.firstOf (execute config n) before { m with current := id } = .ok none m₁) :
      Enters ⟨n + 1, .block id (before ++ s :: behind), m⟩ ⟨n, .execute s, m₁⟩
  | expression {n : Nat} {e : Node} {m : Machine} :
      Enters ⟨n + 1, .execute (.expression e), m⟩ ⟨n, .evaluate e, m⟩
  | print {n : Nat} {e : Node} {m : Machine} :
      Enters ⟨n + 1, .execute (.print e), m⟩ ⟨n, .evaluate e, m⟩
  | declare {n : Nat} {name : Token} {e : Node} {m : Machine} (he : e ≠ .null) :
      Enters ⟨n + 1, .execute (.declare name e), m⟩ ⟨n, .evaluate e, m⟩
  | block {n id : Nat} {statements : List Node} {m m₁ : Machine}
      (hs : Run.newScope m.current [] m = .ok id m₁) :
      Enters ⟨n + 1, .execute (.block statements), m⟩ ⟨n, .block id statements, m₁⟩
  | condition {n : Nat} {c s s' : Node} {m : Machine} :
      Enters ⟨n + 1, .execute (.branch c s s'), m⟩ ⟨n, .evaluate c, m⟩
  | thenBranch {n : Nat} {c s s' : Node} {v : Value} {m m₁ m₂ : Machine}
      (hc : evaluate config n c m = .ok v m₁) (hv : v.isTruthy = true)
      (ht : Run.tell config (.decided v.isTruthy) m₁ = .ok () m₂) :
      Enters ⟨n + 1, .execute (.branch c s s'), m⟩ ⟨n, .execute s, m₂⟩
  | elseBranch {n : Nat} {c s s' : Node} {v : Value} {m m₁ m₂ : Machine}
      (hc : evaluate config n c m = .ok v m₁) (hv : v.isTruthy = false)
      (ht : Run.tell config (.decided v.isTruthy) m₁ = .ok () m₂) (hs : s' ≠ .null) :
      Enters ⟨n + 1, .execute (.branch c s s'), m⟩ ⟨n, .execute s', m₂⟩
  | loopCondition {n : Nat} {c s : Node} {m m₁ : Machine}
      (hr : Rounds (Value.isTruthy <$> evaluate config n c) (execute config n s) m m₁) :
      Enters ⟨n + 1, .execute (.loop c s), m⟩ ⟨n, .evaluate c, m₁⟩
  | loopBody {n : Nat} {c s : Node} {v : Value} {m m₁ m₂ : Machine}
      (hr : Rounds (Value.isTruthy <$> evaluate config n c) (execute config n s) m m₁)
      (hc : evaluate config n c m₁ = .ok v m₂) (hv : v.isTruthy = true) :
      Enters ⟨n + 1, .execute (.loop c s), m⟩ ⟨n, .execute s, m₂⟩
  | returns {n : Nat} {keyword : Token} {e : Node} {m : Machine} (he : e ≠ .null) :
      Enters ⟨n + 1, .execute (.returns keyword e), m⟩ ⟨n, .evaluate e, m⟩

/-- A moment that is reached in a run of statements, and how many calls are entered and not yet
left then. -/
inductive During (frames : Nat) (statements : List Node) (m : Machine) : Nat → Moment → Prop where
  | statement {before behind : List Node} {s : Node} {m₁ m₂ : Machine}
      (hs : statements = before ++ s :: behind)
      (ht : Run.tell config (.started statements.length) m = .ok () m₁)
      (hb : Run.firstOf (execute config frames) before m₁ = .ok none m₂) :
      During frames statements m 0 ⟨frames, .execute s, m₂⟩
  | inner {calls : Nat} {a b : Moment} (ha : During frames statements m calls a)
      (h : Enters config a b) : During frames statements m (calls + b.task.calls) b

/-- The task ends with a value: that of an expression, of a call, or of a `return`. -/
inductive Moment.Gives : Moment → Value → Prop where
  | evaluate {n : Nat} {e : Node} {v : Value} {m m₁ : Machine}
      (h : Lox.evaluate config n e m = .ok v m₁) : Gives ⟨n, .evaluate e, m⟩ v
  | argument {n : Nat} {es : List Node} {v : Value} {vs : List Value} {m m₁ : Machine}
      (h : evaluateAll config n es m = .ok vs m₁) (hv : v ∈ vs) : Gives ⟨n, .arguments es, m⟩ v
  | invoke {n : Nat} {f v : Value} {vs : List Value} {paren : Token} {m m₁ : Machine}
      (h : Lox.invoke config n f vs paren m = .ok v m₁) : Gives ⟨n, .invoke f vs paren, m⟩ v
  | block {n id : Nat} {statements : List Node} {v : Value} {m m₁ : Machine}
      (h : Lox.block config n id statements m = .ok (some v) m₁) :
      Gives ⟨n, .block id statements, m⟩ v
  | execute {n : Nat} {s : Node} {v : Value} {m m₁ : Machine}
      (h : Lox.execute config n s m = .ok (some v) m₁) : Gives ⟨n, .execute s, m⟩ v

end Enters

end Lox
