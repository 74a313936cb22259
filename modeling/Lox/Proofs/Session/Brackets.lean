import Lox.Proofs.Eval.Brackets
import Lox.Proofs.Session

/-!
# The trace of a session

A session at the third level tells of a run in this way: its start, then what happens in it, with calls
and returns nested, and last how it ended.

* `Event.begins_text`: the line of an event begins with a letter that belongs to its kind, so the line that
  tells of an end is no other line.
* `Closing why e`: the event `e` may be the last one of a run that ends for the reason `why`; its line says
  which reason it is (`Closing.finished`, `Closing.hostLimit`, `Closing.failed`).
* `Traced bound n why told`: the events `told` are those of a run of `n` statements that ends for the reason
  `why`.
* `Session.interpret_traced`: what a session tells of a run is of this form.
-/

namespace Lox

/-! ### Lines -/

/-- The text begins with a letter. -/
def Begins (c : Char) (s : Text) : Prop := s.head.toList.head? = some c

theorem Begins.append {c : Char} {s : Text} (h : Begins c s) (t : Text) : Begins c (s ++ t) := by
  obtain ⟨head, tail⟩ := s
  have h : head.toList.head? = some c := h
  cases tail with
  | nil =>
      show (head ++ t.head).toList.head? = some c
      rw [String.toList_append, List.head?_append, h]
      rfl
  | cons => exact h

/-- A text begins with one character at most. -/
theorem Begins.unique {c c' : Char} {s : Text} (h : Begins c s) (h' : Begins c' s) : c = c' :=
  Option.some.inj (h.symm.trans h')

namespace Event

/-- The letter that the lines of a kind of events begin with. -/
def initial : Event → Char
  | .started _ | .decided _ => 'i'
  | .finished => 'f'
  | .failed .. | .hostLimit => 'e'
  | .defined .. | .definedFunction .. => 'd'
  | .called .. => 'c'
  | .returned .. => 'r'

/-- Every line begins with the initial of its event. -/
theorem begins_text (e : Event) : Begins e.initial e.text := by
  cases e with
  | started n =>
      have h : Begins 'i' "interpret " := rfl
      exact (h.append _).append _
  | finished => exact (rfl : Begins 'f' "finished")
  | failed label message =>
      have h : Begins 'e' "error: " := rfl
      exact ((h.append _).append _).append _
  | hostLimit => exact (rfl : Begins 'e' "error: host recursion limit reached")
  | defined name value =>
      have h : Begins 'd' "define " := rfl
      exact ((h.append _).append _).append _
  | definedFunction name arity =>
      have h : Begins 'd' "define function " := rfl
      exact ((h.append _).append _).append _
  | decided truth =>
      have h : Begins 'i' "if condition -> " := rfl
      exact h.append _
  | called callee depth =>
      have h : Begins 'c' "call " := rfl
      exact ((h.append _).append _).append _
  | returned value callee =>
      have h : Begins 'r' "return " := rfl
      exact ((h.append _).append _).append _

/-- Only the lines that tell of an end begin with one of two letters. -/
theorem isEnd_eq (e : Event) : e.isEnd = (e.initial = 'e' || e.initial = 'f' : Bool) := by
  cases e <;> rfl

theorem text_ne_of_initial {e e' : Event} (h : e.initial ≠ e'.initial) : e.text ≠ e'.text :=
  fun ht => h (e.begins_text.unique (ht ▸ e'.begins_text))

/-- An event inside a run has not the line of an end. -/
theorem text_ne_of_isEnd {e e' : Event} (he : e.isEnd = false) (he' : e'.isEnd = true) :
    e.text ≠ e'.text := by
  refine text_ne_of_initial fun hi => ?_
  rw [isEnd_eq, hi, ← isEnd_eq, he'] at he
  cases he

end Event

/-- There are three labels. -/
theorem Fault.label?_cases {f : Fault} {label : String} (h : f.label? = some label) :
    label = "LoxRuntimeError" ∨ label = "InterpreterError" ∨ label = "StackDepthError" := by
  cases f with
  | undefined => exact .inl (Option.some.inj h).symm
  | misuse => exact .inr (.inl (Option.some.inj h).symm)
  | overflow => exact .inr (.inr (Option.some.inj h).symm)
  | _ => cases h

/-- A line that tells of a fault gives its label and its message. -/
theorem Event.failed_text_inj {f g : Fault} {label label' : String} {message message' : Text}
    (hf : f.label? = some label) (hg : g.label? = some label')
    (h : (Event.failed label message).text = (Event.failed label' message').text) :
    label = label' ∧ message = message' := by
  obtain ⟨head, tail⟩ := message
  obtain ⟨head', tail'⟩ := message'
  obtain ⟨ht, rfl⟩ := Text.mk.inj h
  have ht : "error: " ++ label ++ ": " ++ head = "error: " ++ label' ++ ": " ++ head' := ht
  have hc := congrArg String.toList ht
  -- two labels differ in their first letter
  rcases Fault.label?_cases hf with rfl | rfl | rfl <;>
    rcases Fault.label?_cases hg with rfl | rfl | rfl <;>
    simp at ht hc ⊢ <;> exact ht

theorem Event.failed_text_ne_hostLimit {f : Fault} {label : String} (hf : f.label? = some label)
    (message : Text) : (Event.failed label message).text ≠ Event.hostLimit.text := by
  intro h
  have ht : "error: " ++ label ++ ": " ++ message.head = "error: host recursion limit reached" :=
    (Text.mk.inj h).1
  have hc := congrArg String.toList ht
  rcases Fault.label?_cases hf with rfl | rfl | rfl <;> simp at hc

/-! ### Ends -/

/-- Why a step has stopped, if it has. -/
def Result.why? {α : Type} : Result α → Option Stop
  | .ok _ _ => none
  | .stop why _ => some why

/-- What is told last is about the end. -/
theorem endEvent_isEnd {why : Option Stop} {e : Event} (h : endEvent why = some e) :
    e.isEnd = true := by
  rcases why with _ | _ | _
  · cases h
    rfl
  · obtain ⟨label, -, rfl⟩ := Option.map_eq_some_iff.mp h
    rfl
  · cases h
    rfl

/-- All that tell of an end are on the first level. -/
theorem settle_told {config : Config} (hl : 1 ≤ config.level) (why : Option Stop) (m : Machine) :
    (settle config why m).2.trace.toList =
      m.trace.toList ++ (endEvent (finalReason config.level why)).toList := by
  rw [settle_eq, if_pos hl]
  cases endEvent (finalReason config.level why) with
  | none => exact (List.append_nil _).symm
  | some event => exact Array.toList_push

/-- An event that may be the last one of a run that ends for a reason.  Where nothing tells of the end, it
is one inside the run. -/
def Closing (why : Option Stop) (e : Event) : Prop :=
  endEvent why = some e ∨ endEvent why = none ∧ e.isEnd = false

namespace Closing

variable {why : Option Stop} {e : Event}

/-- The event has the line of an end exactly when the end is told by that line. -/
theorem text_eq_iff (h : Closing why e) {e' : Event} (he' : e'.isEnd = true) :
    e.text = e'.text ↔ ∃ last, endEvent why = some last ∧ last.text = e'.text := by
  rcases h with h | ⟨h, he⟩
  · constructor
    · exact fun ht => ⟨e, h, ht⟩
    · rintro ⟨last, hlast, ht⟩
      rw [h] at hlast
      cases hlast
      exact ht
  · constructor
    · exact fun ht => absurd ht (Event.text_ne_of_isEnd he he')
    · rintro ⟨last, hlast, -⟩
      rw [h] at hlast
      cases hlast

/-- The last line tells whether the program ran to its end. -/
theorem finished (h : Closing why e) : e.text = "finished" ↔ why = none := by
  refine (h.text_eq_iff (show Event.finished.isEnd = true from rfl)).trans ⟨?_, ?_⟩
  · rintro ⟨last, hlast, ht⟩
    rcases why with _ | f | _
    · rfl
    · obtain ⟨label, -, rfl⟩ := Option.map_eq_some_iff.mp hlast
      exact absurd ht (Event.text_ne_of_initial (show 'e' ≠ 'f' by decide))
    · cases hlast
      exact absurd ht (Event.text_ne_of_initial (by decide))
  · rintro rfl
    exact ⟨.finished, rfl, rfl⟩

/-- It tells whether the program ran into the limit of the host. -/
theorem hostLimit (h : Closing why e) :
    e.text = "error: host recursion limit reached" ↔ why = some .exhausted := by
  refine (h.text_eq_iff (show Event.hostLimit.isEnd = true from rfl)).trans ⟨?_, ?_⟩
  · rintro ⟨last, hlast, ht⟩
    rcases why with _ | f | _
    · cases hlast
      exact absurd ht (Event.text_ne_of_initial (by decide))
    · obtain ⟨label, hf, rfl⟩ := Option.map_eq_some_iff.mp hlast
      exact absurd ht (Event.failed_text_ne_hostLimit hf _)
    · rfl
  · rintro rfl
    exact ⟨.hostLimit, rfl, rfl⟩

/-- And it tells with which fault a program ended, by label and message. -/
theorem failed (h : Closing why e) {f : Fault} {label : String} (hf : f.label? = some label) :
    e.text = "error: " ++ label ++ ": " ++ f.message ↔
      ∃ g, why = some (.fault g) ∧ g.label? = some label ∧ g.message = f.message := by
  refine (h.text_eq_iff (show (Event.failed label f.message).isEnd = true from rfl)).trans ⟨?_, ?_⟩
  · rintro ⟨last, hlast, ht⟩
    rcases why with _ | g | _
    · cases hlast
      exact absurd ht (Event.text_ne_of_initial (show 'f' ≠ 'e' by decide))
    · obtain ⟨label', hg, rfl⟩ := Option.map_eq_some_iff.mp hlast
      obtain ⟨rfl, hm⟩ := Event.failed_text_inj hg hf ht
      exact ⟨g, rfl, hg, hm⟩
    · cases hlast
      exact absurd ht.symm (Event.failed_text_ne_hostLimit hf _)
  · rintro ⟨g, rfl, hg, hm⟩
    refine ⟨.failed label g.message, ?_, by rw [hm]⟩
    rw [endEvent, hg]
    rfl

end Closing

/-! ### Runs -/

/-- The events of a run of so many statements that ends for the reason `why`, when at its start `base` calls
are counted. -/
structure Traced (bound : Int) (base statements : Nat) (why : Option Stop) (told : List Event) :
    Prop where
  /-- The first line tells of the start. -/
  first : told.head?.map Event.text =
    some (("interpret " ++ toString statements ++ " statement(s)" : String) : Text)
  /-- The calls and returns are balanced if the run ends normally, and may be cut off otherwise. -/
  balanced : why = none → ∃ w : DyckWord, brackets told = w.toList
  opening : ∃ w : DyckWord, brackets told <+: w.toList
  /-- A call has the number of calls that are counted with it, which is within the bound. -/
  called : ∀ front f k back, told = front ++ .called f k :: back →
    k + (brackets front).count .D = base + (brackets front).count .U + 1 ∧ (k : Int) ≤ bound
  /-- A return names what was called: it has a call in front with balanced brackets in between. -/
  returned : ∀ front v f back, told = front ++ .returned v f :: back →
    ∃ before k inner, front = before ++ .called f k :: inner ∧
      ∃ w : DyckWord, brackets inner = w.toList
  /-- The last line tells of the end. -/
  finished : told.getLast?.map Event.text = some ("finished" : Text) ↔ why = none
  hostLimit : told.getLast?.map Event.text = some ("error: host recursion limit reached" : Text) ↔
    why = some .exhausted
  failed : ∀ (f : Fault) label, f.label? = some label →
    (told.getLast?.map Event.text = some ("error: " ++ label ++ ": " ++ f.message) ↔
      ∃ g, why = some (.fault g) ∧ g.label? = some label ∧ g.message = f.message)

section Runs

variable {bound : Int} {base n : Nat} {why : Option Stop} {body rest : List Event}

/-- An end is no bracket. -/
theorem brackets_end (why : Option Stop) (body : List Event) :
    brackets (body ++ (endEvent why).toList) = brackets body := by
  rw [brackets_append]
  cases h : endEvent why with
  | none => exact List.append_nil _
  | some e =>
      have he := endEvent_isEnd h
      cases e <;> first | exact List.append_nil _ | cases he

/-- What is no end was told before the end. -/
theorem eq_append_of_not_end {front back : List Event} {e : Event} (he : e.isEnd = false)
    (h : body ++ (endEvent why).toList = front ++ e :: back) : ∃ mid, body = front ++ e :: mid := by
  have hnot : e ∉ (endEvent why).toList := fun hmem => by
    rw [endEvent_isEnd (Option.mem_toList.mp hmem)] at he
    cases he
  rcases List.append_eq_append_iff.mp h with ⟨mid, -, hmid⟩ | ⟨mid, rfl, hmid⟩
  · rw [hmid] at hnot
    exact absurd (List.mem_append_right _ List.mem_cons_self) hnot
  · cases mid with
    | nil =>
        rw [List.nil_append] at hmid
        rw [← hmid] at hnot
        exact absurd List.mem_cons_self hnot
    | cons first mid =>
        cases hmid
        exact ⟨mid, rfl⟩

/-- The last event of a run. -/
theorem exists_closing (hb : body ≠ []) (hn : ∀ e ∈ body, e.isEnd = false) :
    ∃ e, (body ++ (endEvent why).toList).getLast? = some e ∧ Closing why e := by
  cases h : endEvent why with
  | some e => exact ⟨e, List.getLast?_concat, .inl h⟩
  | none =>
      refine ⟨body.getLast hb, ?_, .inr ⟨h, hn _ (List.getLast_mem hb)⟩⟩
      rw [Option.toList_none, List.append_nil, List.getLast?_eq_some_getLast hb]

/-- Nested events, or the first part of such, with what tells of the end behind them. -/
theorem traced_of_nested (hn : Nested bound base (body ++ rest)) (hrest : why = none → rest = [])
    (hfirst : body.head? = some (.started n)) :
    Traced bound base n why (body ++ (endEvent why).toList) := by
  have hbody : body ≠ [] := by
    rintro rfl
    cases hfirst
  obtain ⟨last, hlast, hclosing⟩ :
      ∃ e, (body ++ (endEvent why).toList).getLast? = some e ∧ Closing why e :=
    exists_closing hbody fun e he => hn.isEnd_eq_false e (List.mem_append_left _ he)
  -- `body` is the front of a nested trace, and so of a Dyck word
  obtain ⟨w, hw⟩ := hn.exists_dyckWord
  constructor
  · rw [List.head?_append, hfirst]
    rfl
  · intro hnormal
    rw [hrest hnormal, List.append_nil] at hw
    exact ⟨w, by rw [brackets_end, hw]⟩
  · refine ⟨w, ?_⟩
    rw [brackets_end, hw, brackets_append]
    exact List.prefix_append _ _
  · intro front f k back h
    obtain ⟨mid, rfl⟩ := eq_append_of_not_end rfl h
    exact hn.called (List.append_assoc ..)
  · intro front v f back h
    obtain ⟨mid, rfl⟩ := eq_append_of_not_end rfl h
    obtain ⟨before, k, inner, hfront, hinner⟩ := hn.returned (List.append_assoc ..)
    obtain ⟨w, hw⟩ := hinner.exists_dyckWord
    exact ⟨before, k, inner, hfront, w, hw.symm⟩
  · rw [hlast, Option.map_some, Option.some.injEq]
    exact hclosing.finished
  · rw [hlast, Option.map_some, Option.some.injEq]
    exact hclosing.hostLimit
  · intro f label hf
    rw [hlast, Option.map_some, Option.some.injEq]
    exact hclosing.failed hf

/-- What is told of a run from its start on, with the fault that it ends with. -/
theorem interpret_told {config : Config} (hl : 3 ≤ config.level) (frames : Nat) (statements : List Node)
    (m : Machine) :
    let r := runProgram config frames statements m
    let why := finalReason config.level r.why?
    (endOf config r).1 = why.map (faultOf r.machine.lastCall) ∧
    ∃ told, (endOf config r).2.trace.toList = m.trace.toList ++ told ∧
      Traced config.maxDepth m.depth statements.length why told := by
  intro r why
  have hone : 1 ≤ config.level := Nat.le_trans (by decide) hl
  let started : Machine := { m with trace := m.trace.push (.started statements.length) }
  have htrace : started.trace.toList = m.trace.toList ++ [.started statements.length] :=
    Array.toList_push
  have htell : Run.tell config (.started statements.length) m = .ok () started := by
    rw [Run.tell, if_pos (show Event.level (.started _) ≤ _ from hone),
      if_pos (Event.isProper_started _)]
  have hr : r = Run.firstOf (execute config frames) statements started :=
    runProgram_of_tell htell frames
  have hnests : r.Nests config.maxDepth started :=
    hr ▸ Run.Nests.firstOf (nesting hl frames).execute statements started
  -- the reason at the end is none exactly when the statements have come to their end
  have hend : endOf config r = settle config r.why? r.machine := by
    cases r <;> rfl
  rw [hend]
  refine ⟨congrArg Prod.fst (settle_eq config r.why? r.machine), ?_⟩
  obtain ⟨told, rest, ht, hn, hrest⟩ : ∃ told rest,
      r.machine.trace.toList = started.trace.toList ++ told ∧
      Nested config.maxDepth m.depth (told ++ rest) ∧ (r.why? = none → rest = []) := by
    clear_value r
    cases hnests with
    | ok told ht hn _ => exact ⟨told, [], ht, (List.append_nil told).symm ▸ hn, fun _ => rfl⟩
    | stop told rest ht hn => exact ⟨told, rest, ht, hn, fun h => by cases h⟩
  refine ⟨.started statements.length :: told ++ (endEvent why).toList, ?_, ?_⟩
  · rw [settle_told hone, ht, htrace, List.append_assoc, List.append_assoc]
    rfl
  · exact traced_of_nested (.aside rfl rfl hn) (fun h => hrest (finalReason_eq_none.mp h)) rfl

end Runs

namespace Session

/-- **The trace of a run is bracketed.**  Behind any steps, a session at the third level that is not closed
tells of a run of statements in this form, whatever the bound on its nested steps.  A run that ends for no
reason is one that ends without a fault.  Each call has the number of calls open with it, added to those that
earlier steps have left counted; there are none of these as long as every call could be told. -/
theorem interpret_traced (settings : Settings) (natives : List (Text × Native)) (steps : List Step)
    (frames : Nat) (statements : List Node) :
    let s := (start settings natives).after steps
    s.telling = true → 3 ≤ s.settings.level →
    let r := runProgram s.config frames statements s.machine
    let why := finalReason s.config.level r.why?
    let ended := Lox.interpret s.config frames statements s.machine
    ended.1 = why.map (faultOf r.machine.lastCall) ∧
    ((start settings natives).TellsCalls steps → s.machine.depth = 0) ∧
    ∃ told, ended.2.trace.toList = s.machine.trace.toList ++ told ∧
      Traced s.settings.maxDepth s.machine.depth statements.length why told := by
  intro s htelling hlevel r why ended
  have hl : 3 ≤ s.config.level := by
    rw [config, htelling]
    exact hlevel
  have hended : ended = endOf s.config r := interpret_eq_endOf s.config frames statements s.machine
  obtain ⟨hfault, told⟩ := interpret_told hl frames statements s.machine
  rw [hended]
  exact ⟨hfault, fun h => (depth_after h).trans (start_rested settings natives).2, told⟩

/-- A function is declared and called. -/
theorem interpret_traced_call :
    let name := Token.ofText .identifier "f" (.word "f") 1
    let paren := Token.ofText .rightParen ")" .null 1
    let statements := [Node.function name [] [], .expression (.call (.reference name) paren [])]
    let s := (start { level := 3 } []).after []
    let ended := Lox.interpret s.config 9 statements s.machine
    s.telling = true ∧ 3 ≤ s.settings.level ∧ ended.1 = none ∧
      ∃ told, ended.2.trace.toList = s.machine.trace.toList ++ told ∧
        brackets told = [.U, .D] ∧ Traced 200 0 2 none told := by
  intro name paren statements s ended
  have hwhy : finalReason 3 (runProgram s.config 9 statements s.machine).why? = none := by decide +kernel
  have hnone : ended.1 = none := by decide +kernel
  have hall : brackets ended.2.trace.toList = [.U, .D] := by decide +kernel
  obtain ⟨-, -, told, htold, htraced⟩ :=
    interpret_traced { level := 3 } [] [] 9 statements rfl (by decide)
  rw [show s.config.level = 3 from rfl, hwhy] at htraced
  rw [htold, brackets_append] at hall
  exact ⟨rfl, by decide, hnone, told, by rw [htold], hall, htraced⟩

/-- In a long sum that starts with `f()`, the frames suffice to enter the call and not to tell it.  Behind
that, `f();` is told as the second of two calls while no other is open. -/
theorem interpret_traced_not :
    let f := Token.ofText .identifier "f" (.word "f") 1
    let paren := Token.ofText .rightParen ")" .null 1
    let minus := Token.ofText .minus "-" .null 1
    let call := Node.call (.reference f) paren []
    let sum := (List.replicate 1056 (.literal .nil)).foldr (fun r l => Node.binary l minus r) call
    let steps := [Step.interpret [.function f [] []], .interpret [.expression sum]]
    let s := (start { maxDepth := 2, level := 3 } []).after steps
    ∃ callee told, (s.interpret [.expression call]).1 = none ∧
      (s.interpret [.expression call]).2.machine.trace.toList =
        s.machine.trace.toList ++ .started 1 :: .called callee 2 :: told ∧
      brackets (.started 1 :: .called callee 2 :: told) = [.U, .D] := by
  intro f paren minus call sum steps s
  let s₁ := (start { maxDepth := 2, level := 3 } []).perform (.interpret [.function f [] []])
  let m := { s₁.machine with trace := s₁.machine.trace.push (.started 1) }
  let left : Machine := { m with depth := 1, lastCall := some paren }
  -- the host limit strikes while the call is told, and the count stays raised
  have hcall : evaluate s₁.config 3 call m = .stop .exhausted left := rfl
  have hsum : evaluate s₁.config (3 + 1056) sum m = .stop .exhausted left :=
    evaluate_sum_eq_stop hcall minus (.literal .nil) 1056
  have hrun : runProgram s₁.config 1060 [.expression sum] s₁.machine = .stop .exhausted left := by
    have htell : Run.tell s₁.config (.started [Node.expression sum].length) s₁.machine = .ok () m := rfl
    rw [runProgram_of_tell htell, Run.firstOf, execute_expression, Run.bind_of_stop hsum]
  have hs : s = { s₁ with
      machine := { left with lastCall := none, trace := m.trace.push .hostLimit } } := by
    show (s₁.interpret [.expression sum]).2 = _
    rw [interpret, interpret_eq_endOf]
    show { s₁ with machine := (endOf s₁.config (runProgram s₁.config 1060 _ s₁.machine)).2 } = _
    rw [hrun]
    rfl
  let callee := Value.function f.lexeme [] [] globals
  refine ⟨callee, [.returned .nil callee, .finished], ?_, ?_, rfl⟩
  · rw [hs]
    decide +kernel
  · rw [hs]
    rfl

end Session

end Lox
