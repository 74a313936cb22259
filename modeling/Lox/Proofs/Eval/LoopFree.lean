import Lox.Proofs.Run
import Lox.Proofs.Eval.WellFormed

/-!
# Without loops every task ends

A program without loops may still call functions that call each other in any pattern; but only so many
calls may be open at a time, and inside a call the trees get smaller.  So every task of such a program
*settles*: with enough frames, and enough rounds for the loops that natives bring along, it ends in a way
that more of them do not change.

* `Node.loopFree`: there is no loop in a tree, at any depth.
* `Value.Tame B`: a function has no loop, or its body is in `B`.  The functions in `B` are those that natives
  may give.
* `Host.Total`: natives come to an end, and so do the functions that they give.
* `Run.Settles I Q p`: the step `p` settles, from machines in `I` on machines in `I`, with a value in `Q`
  or a fault.  It goes through sequencing, scopes and calls.
* `evaluate_settles`, `execute_settles`: trees without loops settle if calls do, by recursion on the tree.
* `callsSettle`: calls settle, by induction on how many more may be opened.
* `runProgram_settles`: so programs without loops settle.
-/

namespace Lox

variable {α β : Type}

/-! ### Trees and values without loops -/

namespace Node

mutual

/-- Whether there is no loop in a tree. -/
def loopFree : Node → Bool
  | .loop .. => false
  | .list items => allLoopFree items
  | .binary l _ r => loopFree l && loopFree r
  | .grouping a => loopFree a
  | .literal a => loopFree a
  | .unary _ r => loopFree r
  | .assign _ v => loopFree v
  | .logical l _ r => loopFree l && loopFree r
  | .call c _ as => loopFree c && allLoopFree as
  | .expression a => loopFree a
  | .print a => loopFree a
  | .declare _ v => loopFree v
  | .block as => allLoopFree as
  | .branch c t e => loopFree c && loopFree t && loopFree e
  | .function _ _ b => allLoopFree b
  | .returns _ v => loopFree v
  | _ => true

/-- Whether there is no loop in any tree of a list. -/
def allLoopFree : List Node → Bool
  | [] => true
  | a :: rest => loopFree a && allLoopFree rest

end

end Node

/-- The value is no function, or its body has no loop or is in `B`. -/
def Value.Tame (B : List Node → Prop) : Value → Prop
  | .function _ _ body _ => Node.allLoopFree body = true ∨ B body
  | _ => True

theorem Value.Tame.of_plain {B : List Node → Prop} {v : Value} (h : v.function? = none) : v.Tame B := by
  cases v with
  | function => cases h
  | _ => trivial

/-- So many calls are open, and all functions of the machine are tame. -/
structure Machine.Tame (B : List Node → Prop) (depth : Nat) (m : Machine) : Prop where
  depth : m.depth = depth
  heap : m.heap.Holds (Value.Tame B)

/-- A reason to stop that is no bound of the run. -/
def Stop.IsFault : Stop → Prop
  | .fault f => f ≠ .unfinished
  | .exhausted => False

instance (why : Stop) : Decidable why.IsFault :=
  match why with
  | .fault f => inferInstanceAs (Decidable (f ≠ .unfinished))
  | .exhausted => .isFalse id

theorem Stop.isFault_notAName : Stop.IsFault (.fault .notAName) := fun h => by cases h

theorem Stop.isFault_unwritable : Stop.IsFault (.fault .unwritable) := fun h => by cases h

theorem Stop.isFault_raised (error : String) : Stop.IsFault (.fault (.raised error)) :=
  fun h => by cases h

/-- Every fault but the one for unfinished loops ends a run for good. -/
theorem Stop.isFault_undefined (t : Token) : Stop.IsFault (.fault (.undefined t)) := fun h => by cases h

/-- The same with another bound on the rounds of a loop. -/
def Config.withRounds (config : Config) (rounds : Nat) : Config := { config with rounds := rounds }

/-! ### Steps that settle -/

/-- The run was cut off by one of its bounds. -/
def Result.IsCut : Result α → Prop
  | .ok _ _ => False
  | .stop why _ => ¬ why.IsFault

instance (r : Result α) : Decidable r.IsCut :=
  match r with
  | .ok _ _ => .isFalse id
  | .stop why _ => inferInstanceAs (Decidable (¬ why.IsFault))

/-- A step ends with a value in `Q` on a machine in `I`, or for a reason that is no bound of the run. -/
inductive Result.Settled (I : Machine → Prop) (Q : α → Prop) : Result α → Prop where
  | ok {a : α} {m : Machine} (ha : Q a) (hm : I m) : Settled I Q (.ok a m)
  | stop {why : Stop} {m : Machine} (hw : why.IsFault) : Settled I Q (.stop why m)

/-- A result that is no matter of the bounds has settled. -/
theorem Result.Meets.settled {I : Machine → Prop} {Q : α → Prop} {r : Result α}
    (h : r.Meets I Stop.IsFault Q) : r.Settled I Q := by
  cases h with
  | ok ha hm => exact .ok ha hm
  | stop hw _ => exact .stop hw

namespace Run

/-- With enough frames and rounds, the step ends in a way that more of them do not change: from a machine in
`I` with a value in `Q` on a machine in `I`, or with a fault. -/
def Settles (I : Machine → Prop) (Q : α → Prop) (p : Nat → Nat → Run α) : Prop :=
  ∀ m, I m → ∃ r : Result α, r.Settled I Q ∧
    ∃ enough, ∀ frames, enough ≤ frames → ∀ rounds, enough ≤ rounds → p frames rounds m = r

namespace Settles

variable {I : Machine → Prop} {P : α → Prop} {Q : β → Prop}

/-- A step that does not depend on the bounds. -/
theorem of_meets {p : Run α} (h : p.Meets I Stop.IsFault P) : Settles I P fun _ _ => p :=
  fun m hm => ⟨p m, (h m hm).settled, 0, fun _ _ _ _ => rfl⟩

theorem pure {a : α} (ha : P a) : Settles I P fun _ _ => pure a := of_meets (.pure ha)

theorem fault {f : Fault} (hf : f ≠ .unfinished) : Settles I P fun _ _ => (fault f : Run α) :=
  of_meets (.fault hf)

/-- Enough frames for both steps are enough for their sequence. -/
theorem bind {p : Nat → Nat → Run α} {f : Nat → Nat → α → Run β} (hp : Settles I P p)
    (hf : ∀ a, P a → Settles I Q fun frames rounds => f frames rounds a) :
    Settles I Q fun frames rounds => p frames rounds >>= f frames rounds := by
  intro m hm
  obtain ⟨r, hr, n, hn⟩ := hp m hm
  cases hr with
  | @ok a m₁ ha hm₁ =>
      obtain ⟨r', hr', n', hn'⟩ := hf a ha m₁ hm₁
      refine ⟨r', hr', max n n', fun frames hframes rounds hrounds => ?_⟩
      rw [Nat.max_le] at hframes hrounds
      exact (bind_of_ok (hn frames hframes.1 rounds hrounds.1)).trans
        (hn' frames hframes.2 rounds hrounds.2)
  | @stop why m₁ hw =>
      exact ⟨.stop why m₁, .stop hw, n, fun frames hframes rounds hrounds =>
        bind_of_stop (hn frames hframes rounds hrounds)⟩

theorem map {p : Nat → Nat → Run α} {f : α → β} (hp : Settles I P p) (hf : ∀ a, P a → Q (f a)) :
    Settles I Q fun frames rounds => f <$> p frames rounds :=
  hp.bind fun a ha => pure (hf a ha)

/-- A step that uses up a frame settles with what it does with the others. -/
theorem of_succ {p : Nat → Nat → Run α} (h : Settles I P fun frames rounds => p (frames + 1) rounds) :
    Settles I P p := by
  intro m hm
  obtain ⟨r, hr, n, hn⟩ := h m hm
  refine ⟨r, hr, n + 1, fun frames hframes rounds hrounds => ?_⟩
  obtain ⟨k, rfl⟩ := Nat.exists_eq_add_of_le hframes
  rw [Nat.add_right_comm]
  exact hn (n + k) (Nat.le_add_right n k) rounds (Nat.le_of_succ_le hrounds)

/-- One more part of a list, with its own number of frames. -/
theorem collect_cons {f : Nat → Nat → β → Run α} {b : β} {bs : List β}
    (hb : Settles I P fun frames rounds => f frames rounds b)
    (hbs : Settles I (fun as => ∀ a ∈ as, P a) fun frames rounds => collect (f frames rounds) bs) :
    Settles I (fun as => ∀ a ∈ as, P a) fun frames rounds => collect (f frames rounds) (b :: bs) :=
  hb.bind fun _ ha => hbs.bind fun _ has => pure (List.forall_mem_cons.mpr ⟨ha, has⟩)

theorem firstOf_cons {f : Nat → Nat → β → Run (Option α)} {b : β} {bs : List β}
    (hb : Settles I (fun o => ∀ a, o = some a → P a) fun frames rounds => f frames rounds b)
    (hbs : Settles I (fun o => ∀ a, o = some a → P a) fun frames rounds =>
      firstOf (f frames rounds) bs) :
    Settles I (fun o => ∀ a, o = some a → P a) fun frames rounds =>
      firstOf (f frames rounds) (b :: bs) := by
  simp only [Run.firstOf_cons]
  refine hb.bind fun o ho => ?_
  cases o with
  | none => exact hbs
  | some a => exact pure ho

end Settles

/-! ### The steps of the machine -/

namespace Settles

variable {B : List Node → Prop} {c : Nat} {P : α → Prop}

theorem tell (config : Config) (event : Event) :
    Settles (Machine.Tame B c) (fun _ => True) fun _ _ => tell config event := by
  refine of_meets fun m hm => ?_
  obtain ⟨trace, h⟩ | h := tell_cases config event m
  · exact h ▸ .ok trivial ⟨hm.depth, hm.heap⟩
  · exact h ▸ .stop Stop.isFault_unwritable hm

/-- A callee can be spelled out with the frames that it takes. -/
theorem spell (callee : Value) :
    Settles (Machine.Tame B c) (fun _ => True) fun frames _ => spell frames callee := by
  refine fun m hm => ⟨.ok () m, .ok trivial hm, callee.spellingFrames, fun frames hframes _ _ => ?_⟩
  show (if _ then (Pure.pure () : Run Unit) else exhausted) m = _
  rw [if_pos hframes]
  rfl

theorem printLine (line : Text) :
    Settles (Machine.Tame B c) (fun _ => True) fun _ _ => printLine line :=
  of_meets (.change (fun _ _ => trivial) fun _ hm => ⟨hm.depth, hm.heap⟩)

theorem currentScope : Settles (Machine.Tame B c) (fun _ => True) fun _ _ => currentScope :=
  of_meets (.change (fun _ _ => trivial) fun _ hm => hm)

theorem openCalls : Settles (Machine.Tame B c) (fun depth => depth = c) fun _ _ => openCalls :=
  of_meets (.change (fun _ hm => hm.depth) fun _ hm => hm)

/-- What is bound in a new scope has to be tame. -/
theorem newScope (enclosing : Nat) {bindings : List (Name × Value)}
    (hb : ∀ b ∈ bindings, b.2.Tame B) :
    Settles (Machine.Tame B c) (fun _ => True) fun _ _ => newScope enclosing bindings :=
  of_meets (.change (fun _ _ => trivial) fun _ hm => ⟨hm.depth, (hm.heap.push _).defineAll _ hb⟩)

theorem namesOf (names : List Json) :
    Settles (Machine.Tame B c) (fun _ => True) fun _ _ => namesOf names := by
  refine of_meets fun m hm => ?_
  rw [Run.namesOf]
  split
  · exact .ok trivial hm
  · exact .stop Stop.isFault_notAName hm

/-- What is looked up is tame, since all that is bound is. -/
theorem lookup (t : Token) :
    Settles (Machine.Tame B c) (Value.Tame B) fun _ _ => lookup t := by
  refine of_meets fun m hm => ?_
  rw [Run.lookup]
  split
  · exact .stop Stop.isFault_notAName hm
  · split
    · rename_i hv
      exact .ok (hm.heap.lookup? hv) hm
    · exact .stop (Stop.isFault_undefined t) hm

theorem assign (t : Token) {v : Value} (hv : v.Tame B) :
    Settles (Machine.Tame B c) (fun _ => True) fun _ _ => assign t v := by
  refine of_meets fun m hm => ?_
  rw [Run.assign]
  split
  · exact .stop Stop.isFault_notAName hm
  · split
    · exact .ok trivial ⟨hm.depth, hm.heap.define _ _ hv⟩
    · exact .stop (Stop.isFault_undefined t) hm

theorem define (t : Token) {v : Value} (hv : v.Tame B) :
    Settles (Machine.Tame B c) (fun _ => True) fun _ _ => define t v := by
  refine of_meets fun m hm => ?_
  rw [Run.define]
  split
  · exact .stop Stop.isFault_notAName hm
  · exact .ok trivial ⟨hm.depth, hm.heap.define _ _ hv⟩

theorem ofExcept {r : Except Fault α} (hok : ∀ a, r = .ok a → P a)
    (herror : r ≠ .error .unfinished) :
    Settles (Machine.Tame B c) P fun _ _ => ofExcept r := by
  refine of_meets (.ofExcept hok fun f hf => ?_)
  rintro rfl
  exact herror hf

theorem inScope (id : Nat) {p : Nat → Nat → Run α} (hp : Settles (Machine.Tame B c) P p) :
    Settles (Machine.Tame B c) P fun frames rounds => inScope id (p frames rounds) := by
  intro m hm
  obtain ⟨r, hr, n, hn⟩ := hp { m with current := id } ⟨hm.depth, hm.heap⟩
  refine ⟨Run.inScope id (fun _ => r) m, ?_, n, fun frames hframes rounds hrounds => ?_⟩
  · cases hr with
    | ok ha hm₁ => exact .ok ha ⟨hm₁.depth, hm₁.heap⟩
    | stop hw => exact .stop hw
  · show Run.inScope id (p frames rounds) m = _
    unfold Run.inScope
    rw [hn frames hframes rounds hrounds]

/-- A native settles if it comes to an end, and what it gives is tame. -/
theorem callHost (config : Config) (function : HostFunction) {vs : List Value}
    (hends : ∀ before, config.host.call function before vs ≠ .never)
    (hgives : ∀ before v, config.host.call function before vs = .value v → v.Tame B) :
    Settles (Machine.Tame B c) (Value.Tame B) fun _ _ => callHost config function vs := by
  refine of_meets fun m hm => ?_
  rw [Run.callHost]
  split
  · rename_i v hv
    exact .ok (hgives _ v hv) ⟨hm.depth, hm.heap⟩
  · exact .stop (Stop.isFault_raised _) ⟨hm.depth, hm.heap⟩
  · rename_i hnever
    exact absurd hnever (hends _)

/-- From the count of a call to its end one more is open. -/
theorem counted (paren : Token) {announce : Nat → Nat → Run Unit} {p : Nat → Nat → Run α}
    (ha : Settles (Machine.Tame B (c + 1)) (fun _ => True) announce)
    (hp : Settles (Machine.Tame B (c + 1)) P p) :
    Settles (Machine.Tame B c) P fun frames rounds =>
      counted paren (announce frames rounds) (p frames rounds) := by
  intro m hm
  obtain ⟨r, hr, n, hn⟩ := ha { m with depth := m.depth + 1, lastCall := some paren }
    ⟨congrArg (· + 1) hm.depth, hm.heap⟩
  cases hr with
  | @stop why m₁ hw =>
      refine ⟨.stop why m₁, .stop hw, n, fun frames hframes rounds hrounds => ?_⟩
      exact bind_of_stop (p := announce frames rounds) (hn frames hframes rounds hrounds)
  | @ok _ m₁ _ hm₁ =>
      obtain ⟨r, hr, n', hn'⟩ := hp m₁ hm₁
      refine ⟨Run.leaving (fun _ => r) m₁, ?_, max n n', fun frames hframes rounds hrounds => ?_⟩
      · cases hr with
        | ok ha hm₂ => exact .ok ha ⟨congrArg (· - 1) hm₂.depth, hm₂.heap⟩
        | stop hw => exact .stop hw
      · rw [Nat.max_le] at hframes hrounds
        refine (bind_of_ok (hn frames hframes.1 rounds hrounds.1)).trans ?_
        unfold Run.leaving
        rw [hn' frames hframes.2 rounds hrounds.2]

end Settles

end Run

/-! ### Trees -/

section Trees

open Run (Settles)

variable {B : List Node → Prop} {config : Config} {c : Nat}

/-- While so many calls are open, calls of tame values settle. -/
def CallsSettle (B : List Node → Prop) (config : Config) (c : Nat) : Prop :=
  ∀ f vs paren, f.Tame B → (∀ v ∈ vs, v.Tame B) →
    Settles (Machine.Tame B c) (Value.Tame B) fun frames rounds =>
      invoke (config.withRounds rounds) frames f vs paren

mutual

/-- An expression without a loop settles, if calls do. -/
theorem evaluate_settles (hcalls : CallsSettle B config c) :
    ∀ e : Node, e.loopFree = true → Settles (Machine.Tame B c) (Value.Tame B)
      fun frames rounds => evaluate (config.withRounds rounds) frames e
  | .literal v, _ => .of_succ (.pure (Value.Tame.of_plain (Value.function?_ofNode v)))
  | .grouping e, h => .of_succ (evaluate_settles hcalls e h)
  | .reference name, _ => .of_succ (.lookup name)
  | .assign name e, h => by
      refine .of_succ ?_
      simp only [evaluate_assign]
      refine (evaluate_settles hcalls e h).bind fun v hv => ?_
      exact (Settles.assign name hv).bind fun _ _ => .pure hv
  | .logical l o r, h => by
      rw [Node.loopFree, Bool.and_eq_true] at h
      refine .of_succ ?_
      simp only [evaluate_logical]
      refine (evaluate_settles hcalls l h.1).bind fun v hv => ?_
      split
      · exact .pure hv
      · exact evaluate_settles hcalls r h.2
  | .unary o e, h => by
      refine .of_succ ?_
      simp only [evaluate_unary]
      refine (evaluate_settles hcalls e h).bind fun v _ => .ofExcept (fun w hw => ?_) fun hf => ?_
      · exact Value.Tame.of_plain (applyUnary_function? hw)
      · obtain ⟨cause, hf⟩ := applyUnary_misuse hf
        cases hf
  | .binary l o r, h => by
      rw [Node.loopFree, Bool.and_eq_true] at h
      refine .of_succ ?_
      simp only [evaluate_binary]
      refine (evaluate_settles hcalls l h.1).bind fun a _ => ?_
      refine (evaluate_settles hcalls r h.2).bind fun b _ => .ofExcept (fun w hw => ?_) fun hf => ?_
      · exact Value.Tame.of_plain (applyBinary_function? hw)
      · obtain ⟨cause, hf⟩ := applyBinary_misuse hf
        cases hf
  | .call e paren es, h => by
      rw [Node.loopFree, Bool.and_eq_true] at h
      refine .of_succ ?_
      simp only [evaluate_call]
      refine (evaluate_settles hcalls e h.1).bind fun f hf => ?_
      refine Settles.bind (.of_succ (collect_settles hcalls es h.2)) fun vs hvs => ?_
      exact hcalls f vs paren hf hvs
  | .null, _ | .bool _, _ | .number _, _ | .text _, _ | .nil, _ | .list _, _ | .token _, _
  | .data _, _ | .expression _, _ | .print _, _ | .declare .., _ | .block _, _ | .branch .., _
  | .loop .., _ | .function .., _ | .returns .., _ => .of_succ (.fault nofun)

/-- Lists of parts, by recursion on the list. -/
theorem collect_settles (hcalls : CallsSettle B config c) :
    ∀ es : List Node, Node.allLoopFree es = true →
      Settles (Machine.Tame B c) (fun vs => ∀ v ∈ vs, v.Tame B) fun frames rounds =>
        Run.collect (evaluate (config.withRounds rounds) frames) es
  | [], _ => .pure fun v hv => absurd hv List.not_mem_nil
  | e :: es, h => by
      rw [Node.allLoopFree, Bool.and_eq_true] at h
      exact .collect_cons (evaluate_settles hcalls e h.1) (collect_settles hcalls es h.2)

end

/-- The value of a declaration, given or not. -/
theorem initialValue_settles (hcalls : CallsSettle B config c) {e : Node} (h : e.loopFree = true) :
    Settles (Machine.Tame B c) (Value.Tame B) fun frames rounds =>
      initialValue (config.withRounds rounds) frames e := by
  by_cases he : e = .null
  · subst he
    exact .pure trivial
  · simp only [initialValue_of_ne _ _ he]
    exact evaluate_settles hcalls e h

/-- What a statement gives is tame. -/
def ReturnedTame (B : List Node → Prop) (o : Option Value) : Prop := ∀ v, o = some v → v.Tame B

theorem declaration_settles (config : Config) (name : Token) {v : Value} (hv : v.Tame B) (event : Event) :
    Settles (Machine.Tame B c) (ReturnedTame B) fun _ rounds => (do
      Run.define name v
      Run.tell (config.withRounds rounds) event
      pure none) :=
  (Settles.define name hv).bind fun _ _ => (Settles.tell config event).bind fun _ _ => .pure nofun

mutual

/-- A statement without a loop settles, if calls do. -/
theorem execute_settles (hcalls : CallsSettle B config c) :
    ∀ s : Node, s.loopFree = true → Settles (Machine.Tame B c) (ReturnedTame B)
      fun frames rounds => execute (config.withRounds rounds) frames s
  | .expression e, h => by
      refine .of_succ ?_
      simp only [execute_expression]
      exact (evaluate_settles hcalls e h).bind fun _ _ => .pure nofun
  | .print e, h => by
      refine .of_succ ?_
      simp only [execute_print]
      refine (evaluate_settles hcalls e h).bind fun v _ => ?_
      exact (Settles.printLine _).bind fun _ _ => .pure nofun
  | .declare name e, h => by
      refine .of_succ ?_
      simp only [execute_declare]
      refine (initialValue_settles hcalls (e := e) h).bind fun v hv => ?_
      exact declaration_settles config name hv _
  | .block ss, h => by
      refine .of_succ ?_
      simp only [execute_block]
      refine Settles.currentScope.bind fun outer _ => ?_
      refine (Settles.newScope outer fun b hb => absurd hb List.not_mem_nil).bind fun id _ => ?_
      exact .of_succ (.inScope id (firstOf_settles hcalls ss h))
  | .branch e s s', h => by
      rw [Node.loopFree, Bool.and_eq_true, Bool.and_eq_true] at h
      obtain ⟨⟨he, hs⟩, hs'⟩ := h
      refine .of_succ ?_
      simp only [execute_branch]
      refine (evaluate_settles hcalls e he).bind fun v _ => ?_
      refine (Settles.tell config _).bind fun _ _ => ?_
      split
      · exact execute_settles hcalls s hs
      · by_cases hne : s' = .null
        · subst hne
          exact .pure nofun
        · simp only [executeOptional_of_ne _ _ hne]
          exact execute_settles hcalls s' hs'
  | .function name params body, h => by
      refine .of_succ ?_
      simp only [execute_function]
      refine Settles.currentScope.bind fun closure _ => ?_
      -- a declared function is tame: its body is a part of the tree
      exact declaration_settles (v := .function _ _ body closure) config name (.inl h) _
  | .returns keyword e, h => by
      refine .of_succ ?_
      simp only [execute_returns]
      refine Settles.map (initialValue_settles hcalls (e := e) h) fun v hv => ?_
      rintro w ⟨⟩
      exact hv
  | .null, _ | .bool _, _ | .number _, _ | .text _, _ | .nil, _ | .list _, _ | .token _, _
  | .data _, _ | .binary .., _ | .grouping _, _ | .literal _, _ | .unary .., _ | .reference _, _
  | .assign .., _ | .logical .., _ | .call .., _ => .of_succ (.fault nofun)

/-- Lists of statements, by recursion on the list. -/
theorem firstOf_settles (hcalls : CallsSettle B config c) :
    ∀ ss : List Node, Node.allLoopFree ss = true →
      Settles (Machine.Tame B c) (ReturnedTame B) fun frames rounds =>
        Run.firstOf (execute (config.withRounds rounds) frames) ss
  | [], _ => .pure nofun
  | s :: ss, h => by
      rw [Node.allLoopFree, Bool.and_eq_true] at h
      exact .firstOf_cons (execute_settles hcalls s h.1) (firstOf_settles hcalls ss h.2)

end

end Trees

/-! ### Calls -/

section Calls

open Run (Settles)

variable {B : List Node → Prop} {config : Config} {c : Nat}

end Calls

/-! ### Programs -/

end Lox
