import Lox.CommandLine
import Lox.Proofs.CommandLine.Options
import Lox.Proofs.Eval.Proper
import Lox.Proofs.Session

/-!
# Sessions of program texts

A session that runs program texts only, with natives that give proper values, stays proper: every
value bound in one of its scopes is.

* `Session.interpret_faults`: running another program text ends without a fault or with a user-facing
  one, no `return` arrives at the top, and every value that is bound, given or printed on the way is
  proper.
* `CommandLine.promptLines_crash`: so no line at the prompt ends it, as long as there is a bound on
  open calls.  Without one, every line that is a program does (`CommandLine.promptLines_noBound`).
-/

namespace Lox

open Node (IsStatement)

/-- The statements are those of a program text. -/
def Program.IsText (statements : List Node) : Prop :=
  ∃ source, Program.ofSource source = .ok statements

/-- The statements of a text are statements of the language. -/
theorem Program.IsText.isStatement {statements : List Node} (h : Program.IsText statements) :
    ∀ s ∈ statements, IsStatement Token.IsCut false s := by
  obtain ⟨source, h⟩ := h
  exact Program.ofSource_eq_ok (fun t ht => ⟨_, ht⟩) (fun t ht => ht) h

namespace Session

variable {known : Natives}

/-- A step that runs program texts only and binds only natives that are known. -/
inductive Step.OfText (known : Natives) : Step → Prop where
  | interpret {statements : List Node} (h : Program.IsText statements) :
      OfText known (.interpret statements)
  | run {statements : List Node} (h : Program.IsText statements) : OfText known (.run statements)
  | defineNative {native : Native} (h : native.Known known) : OfText known (.defineNative native)
  | setMaxDepth (maxDepth : Int) : OfText known (.setMaxDepth maxDepth)
  | close : OfText known .close

/-! ### Steps -/

theorem bindNative_proper {s : Session} (hs : s.machine.Proper known) (name : Text) {native : Native}
    (hn : native.Known known) : (s.bindNative name native).machine.Proper known :=
  hs.define _ _ hn

/-- A session starts with the natives as its only values. -/
theorem start_proper (settings : Settings) {natives : List (Text × Native)}
    (hn : ∀ native ∈ natives, native.2.Known known) :
    (start settings natives).machine.Proper known := by
  have hfresh : freshMachine.Proper known := Heap.Holds.empty.push none
  refine List.foldlRecOn (motive := fun s : Session => s.machine.Proper known) natives _ ?_
    fun s hs native hm => ?_
  · exact hfresh.define _ _ .clock
  · exact bindNative_proper hs native.1 (hn native hm)

section Interpret

variable {s : Session} {statements : List Node}

/-- A program text is run within the language. -/
theorem runProgram_runs (hh : s.settings.host.Returns known) (hp : Program.IsText statements)
    (frames : Nat) :
    (runProgram s.config frames statements).Runs known (Returned known false) :=
  Run.Meets.bind (Run.Runs.tell _ (Event.isProper_started _)) fun _ _ =>
    firstOf_runs (running (show s.config.host.Returns known from hh) frames) hp.isStatement

/-- The fault of a program is told, so it is the one that the run ends with. -/
theorem settle_of_program (why : Option Stop) (hw : ∀ w, why = some w → w.OfProgram) (config : Config)
    (m : Machine) : ∃ trace, settle config why m =
      (why.map (faultOf m.lastCall), { m with lastCall := none, trace := trace }) := by
  obtain h | ⟨f, rfl, -, hlabel, hmessage, -⟩ := settle_cases config why m
  · exact h
  · rcases hw _ rfl with ⟨hf, hplace⟩ | rfl
    · rw [hf.message hplace] at hmessage
      cases hmessage
    · cases hlabel

/-- How a program text ends: with a user-facing fault or an unfinished loop, if with any. -/
theorem interpret_proper (hh : s.settings.host.Returns known) (hs : s.machine.Proper known)
    (hp : Program.IsText statements) :
    (s.interpret statements).2.machine.Proper known ∧
      ∀ f, (s.interpret statements).1 = some f → f.UserFacing ∨ f = .unfinished := by
  have h := runProgram_runs hh hp (framesFor s.settings.maxDepth) s.machine hs
  rw [interpret, interpret_eq_endOf]
  generalize runProgram s.config _ statements s.machine = r at h ⊢
  cases h with
  | @ok _ m _ hm =>
      obtain ⟨trace, he⟩ := settle_of_program none (fun _ h => by cases h) s.config m
      rw [endOf, he]
      exact ⟨hm, fun _ h => by cases h⟩
  | @stop why m hw hm =>
      obtain ⟨trace, he⟩ := settle_of_program (some why)
        (fun w h => Option.some.inj h ▸ hw) s.config m
      rw [endOf, he]
      refine ⟨hm, fun f hf => ?_⟩
      cases hf
      cases why with
      | fault f => exact hw.imp And.left id
      | exhausted => exact .inl (.overflow _)

/-- No `return` arrives at the top. -/
theorem runProgram_ne_some (hh : s.settings.host.Returns known) (hs : s.machine.Proper known)
    (hp : Program.IsText statements) (frames : Nat) {v : Value} {m : Machine} :
    runProgram s.config frames statements s.machine ≠ .ok (some v) m := by
  intro h
  obtain ⟨hv, -⟩ := (runProgram_runs hh hp frames).ok hs h
  cases (hv v rfl).1

end Interpret

/-- To announce a program changes what was told and nothing else. -/
theorem announce_eq (s : Session) (statements : Nat) :
    ∃ trace, s.announce statements = { s with machine := { s.machine with trace := trace } } := by
  obtain ⟨trace, ht⟩ := Run.tell_of_isProper s.config (Event.isProper_started statements) s.machine
  refine ⟨trace, ?_⟩
  rw [announce, ht]

/-- A step with program texts keeps a session proper. -/
theorem perform_proper {s : Session} (hh : s.settings.host.Returns known)
    (hs : s.machine.Proper known) {step : Step} (h : step.OfText known) :
    (s.perform step).machine.Proper known := by
  cases h with
  | interpret hp => exact (interpret_proper hh hs hp).1
  | run hp => exact (interpret_proper hh hs hp).1
  | defineNative hn => exact bindNative_proper hs _ hn
  | setMaxDepth | close => exact hs

/-- So do any number of steps. -/
theorem after_proper {s : Session} (hh : s.settings.host.Returns known) (hs : s.machine.Proper known)
    {steps : List Step} (h : ∀ step ∈ steps, step.OfText known) :
    (s.after steps).machine.Proper known := by
  induction steps generalizing s with
  | nil => exact hs
  | cons step steps ih =>
      rw [List.forall_mem_cons] at h
      exact ih ((s.host_perform step).symm ▸ hh) (perform_proper hh hs h.1) h.2

end Session

/-! ### The prompt -/

namespace CommandLine

variable {known : Natives}

/-- A line at the prompt leaves a proper session proper, and ends the prompt only where there is no
bound on open calls or a loop is unfinished. -/
theorem promptLine_proper (options : Options) {s : Session} (hh : s.settings.host.Returns known)
    (hs : s.machine.Proper known) (line : String) :
    (promptLine options s line).session.machine.Proper known ∧
      (promptLine options s line).session.settings.host = s.settings.host ∧
      ∀ why, (promptLine options s line).crash = some why →
        options.maxDepth = none ∨ why = .fault .unfinished := by
  let silent : Session := { s with machine := { s.machine with output := #[] } }
  have hsilent : silent.machine.Proper known := hs
  rw [promptLine]
  dsimp only
  split
  · exact ⟨hsilent, rfl, fun _ h => by cases h⟩
  · rename_i statements hline
    rw [interpret]
    cases hd : options.maxDepth with
    | none =>
        -- without a bound the run ends as soon as it was announced
        obtain ⟨trace, ha⟩ := silent.announce_eq statements.length
        dsimp only
        rw [ha]
        exact ⟨hsilent, rfl, fun _ _ => .inl rfl⟩
    | some bound =>
        obtain ⟨hm, hf⟩ := Session.interpret_proper (s := silent) hh hsilent ⟨line, hline⟩
        have hhost : (silent.interpret statements).2.settings.host = s.settings.host :=
          silent.host_perform (.interpret statements)
        dsimp only
        generalize Session.interpret _ statements = r at hm hf hhost ⊢
        obtain ⟨fault, next⟩ := r
        cases fault with
        | none => exact ⟨hm, hhost, fun _ h => by cases h⟩
        | some f =>
            -- a user-facing fault has a label and is reported; only a loop that was cut off is left
            rcases hf f rfl with hu | rfl
            · rw [Outcome.ofFault, if_pos hu.label]
              exact ⟨hm, hhost, fun _ h => by cases h⟩
            · refine ⟨hm, hhost, fun why h => .inr ?_⟩
              cases h
              rfl

/-- With a bound on open calls, only a loop without an end ends the prompt too soon. -/
theorem promptLines_crash (options : Options) {s : Session} (hh : s.settings.host.Returns known)
    (hs : s.machine.Proper known) (lines : List String) (why : Crash)
    (h : (promptLines options s lines).ending = .crashed why) :
    options.maxDepth = none ∨ why = .fault .unfinished := by
  induction lines generalizing s with
  | nil => cases h
  | cons line lines ih =>
      obtain ⟨hm, hhost, hc⟩ := promptLine_proper options hh hs line
      rw [promptLines] at h
      dsimp only at h
      split at h
      · rename_i why' hwhy
        cases h
        exact hc _ hwhy
      · exact ih (hhost.symm ▸ hh) hm h

/-- Without a bound on open calls, every line that is a program ends the prompt. -/
theorem promptLines_noBound {options : Options} (ho : options.maxDepth = none) (s : Session)
    {line : String} {statements : List Node} (hline : Program.ofSource line = .ok statements)
    (lines : List String) : (promptLines options s (line :: lines)).ending = .crashed .noBound := by
  rw [promptLines, promptLine, hline]
  dsimp only
  rw [interpret, ho]

end CommandLine

/-! ### Reached sessions -/

/-- **Program texts run into user-facing faults only.**  Behind any steps that run program texts, a
program text ends without a fault, with a user-facing one, or not at all.  No `return` arrives at its
top; whatever is bound in a scope at any moment of the run, and whatever an expression, an argument,
a call or a statement gives, is a value of the language.

So at a prompt with a bound on open calls no line leads to a crash, unless it does not end.  The bound is
left out only by the option for it with two dashes behind the equals sign, and then every line that is a
program leads to one. -/
theorem Session.interpret_faults (known : Natives) (settings : Settings)
    (natives : List (Text × Native)) (steps : List Step) (source : String) (statements : List Node)
    (hh : settings.host.Returns known) (hn : ∀ native ∈ natives, native.2.Known known)
    (hs : ∀ step ∈ steps, step.OfText known) (hp : Program.ofSource source = .ok statements) :
    let s := (start settings natives).after steps
    (∀ f, (s.interpret statements).1 = some f → f ≠ .unfinished → f.UserFacing) ∧
    (∀ v m, runProgram s.config (framesFor s.settings.maxDepth) statements s.machine ≠
      .ok (some v) m) ∧
    (s.interpret statements).2.machine.Proper known ∧
    (∀ calls b, s.During statements calls b →
      b.machine.Proper known ∧ ∀ v, b.Gives s.config v → v.Proper known) ∧
    (∀ options : CommandLine.Options, options.maxDepth ≠ none → ∀ lines why,
      (CommandLine.promptLines options s lines).ending = .crashed why →
        why = .fault .unfinished) ∧
    (∀ arguments options, CommandLine.parse arguments = .ok options →
      (∀ text ∈ arguments, CommandLine.wordOf text ≠ some (.long .maxDepth (some "--"))) →
        options.maxDepth ≠ none) ∧
    ∀ options : CommandLine.Options, options.maxDepth = none → ∀ lines,
      (CommandLine.promptLines options s (source :: lines)).ending = .crashed .noBound := by
  intro s
  have hhost : s.settings.host.Returns known := by
    rw [host_after, settings_start]
    exact hh
  have hstart : (start settings natives).settings.host.Returns known := by
    rw [settings_start]
    exact hh
  -- every earlier step has left the machine proper
  have hproper : s.machine.Proper known := after_proper hstart (start_proper settings hn) hs
  have htext : Program.IsText statements := ⟨source, hp⟩
  obtain ⟨hm, hf⟩ := interpret_proper hhost hproper htext
  refine ⟨fun f h hne => ?_, fun v m => runProgram_ne_some hhost hproper htext _, hm, ?_, ?_, ?_, ?_⟩
  · exact (hf f h).resolve_right hne
  · intro calls b h
    have hconfig : s.config.host.Returns known := hhost
    have hb := During.proper hconfig htext.isStatement hproper h
    exact ⟨hb.machine, fun v hv => hb.gives hconfig hv⟩
  · intro options ho lines why h
    exact (CommandLine.promptLines_crash options hhost hproper lines why h).resolve_left ho
  · exact fun arguments options => CommandLine.parse_maxDepth
  · exact fun options ho lines => CommandLine.promptLines_noBound ho s hp lines

/-- After `var a;` has bound `nil`, `-a;` ends with a user-facing fault, when there is a native that gives
its last argument. -/
theorem Session.interpret_faults_negated_nil :
    let host : Host := ⟨fun _ => ⟨0⟩, fun _ _ vs => .value (vs.getLastD .nil)⟩
    let known : Natives := fun arity number => arity = 2 ∧ number = 0
    let native : Native := ⟨"last", 2, .given 0⟩
    let name := Token.ofText .identifier "a" (.word "a") 1
    let minus := Token.ofText .minus "-" .null 1
    let declared := [Node.declare name .null]
    let negated := [Node.expression (.unary minus (.reference name))]
    let s := (start { host := host } [("pick", native)]).after [.interpret declared]
    host.Returns known ∧ native.Known known ∧ Program.ofSource "var a;" = .ok declared ∧
    Program.ofSource "-a;" = .ok negated ∧
    ∃ f, (s.interpret negated).1 = some f ∧ f ≠ .unfinished ∧ f.UserFacing := by
  intro host known native name minus declared negated s
  have hh : host.Returns known := by
    rintro arity number ⟨rfl, rfl⟩ before vs hl hvs
    refine ⟨nofun, fun v hv => ?_⟩
    cases hv
    have hne : vs ≠ [] := by
      rintro rfl
      cases hl
    rw [List.getLastD_eq_getLast?, List.getLast?_eq_some_getLast hne]
    exact hvs _ (List.getLast_mem hne)
  have hn : native.Known known := .native ⟨rfl, rfl⟩
  have hd : Program.ofSource "var a;" = .ok declared := by
    have ht : scan "var a;" = .ok [.ofText .varWord "var" .null 1, name,
      .ofText .semicolon ";" .null 1, .ofText .eof "" .null 1] := rfl
    rw [Program.ofSource, ht]
    rfl
  have hp : Program.ofSource "-a;" = .ok negated := by
    have ht : scan "-a;" = .ok [minus, name, .ofText .semicolon ";" .null 1,
      .ofText .eof "" .null 1] := rfl
    rw [Program.ofSource, ht]
    rfl
  have hs : ∀ step ∈ [Step.interpret declared], step.OfText known :=
    List.forall_mem_singleton.mpr (.interpret ⟨_, hd⟩)
  have hf : (s.interpret negated).1 = some (.misuse minus (.operand "nil")) := rfl
  have hne : Fault.misuse minus (.operand "nil") ≠ .unfinished := Fault.noConfusion
  refine ⟨hh, hn, hd, hp, _, hf, hne, ?_⟩
  exact (interpret_faults known { host := host } [("pick", native)] _ "-a;" negated hh
    (List.forall_mem_singleton.mpr hn) hs hp).1 _ hf hne

/-- The prompt that a command line starts without a bound on open calls ends at the first line. -/
theorem CommandLine.promptLines_without_bound :
    let options : Options := { maxDepth := none }
    parse ["--max-depth=--"] = .ok options ∧
      (promptLines options (sessionFor options fun _ => ⟨0⟩) ["nil;"]).ending = .crashed .noBound := by
  intro options
  have hoptions : parse ["--max-depth=--"] = .ok options := rfl
  have hline : Program.ofSource "nil;" = .ok [.expression (.literal .nil)] := by
    have ht : scan "nil;" = .ok [.ofText .nilWord "nil" .null 1, .ofText .semicolon ";" .null 1,
      .ofText .eof "" .null 1] := rfl
    rw [Program.ofSource, ht]
    rfl
  exact ⟨hoptions, promptLines_noBound rfl _ hline []⟩

end Lox
