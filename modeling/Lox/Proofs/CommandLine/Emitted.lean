import Lox.CommandLine
import Lox.Proofs.CommandLine.Options
import Lox.Proofs.Files
import Lox.Proofs.Node.Codec

/-!
# Emitted trees

Running the tree that was emitted for a program is running the program.

* `emitTree_eq`: what emitting does with a program file.
* `readTree_written`: the statements of the program are read back from the file that was written.
* `run_emitted`: behind the same settings, the emitted tree and the program are reported alike, and
  a text that is no program is reported alike whether it is to be emitted or to be run.
-/

namespace Lox

namespace CommandLine

/-! ### Commands behind settings -/

/-- A command line that is understood is acted on. -/
theorem run_of_parse {arguments : List String} {options : Options}
    (h : parse arguments = .ok options) (view : View) (clock : Nat → Number) (input : String) :
    run arguments view clock input = act options view clock input := by
  rw [run, h]

/-- A file that is named by a text is at its path. -/
theorem named?_some {text : String} (h : text ≠ "") : named? (some text) = some (Path.ofText text) := by
  rw [named?, if_neg]
  simpa using h

section

variable {f : String} (hf : f ≠ "") {options : Options} {view : View}

include hf

/-- Emitting comes before all other commands. -/
theorem act_emitTree (h : options.emitTree = some f) (clock : Nat → Number) (input : String) :
    act options view clock input = emitTree view (Path.ofText f) := by
  rw [act, commandOf, h, named?_some hf]

/-- A tree that was loaded is run, and the end of the run is reported. -/
theorem act_runTree (he : options.emitTree = none) (h : options.runTree = some f) {tree : Node}
    (htree : readTree view (Path.ofText f) = .ok tree) (clock : Nat → Number) (input : String) :
    act options view clock input = runAndReport view options clock tree := by
  rw [act, commandOf, he, h, named?_some hf]
  simp only [named?, htree]

/-- A program is run and reported in the same way. -/
theorem act_program_ok (he : options.emitTree = none) (hr : options.runTree = none)
    (h : options.program = some f) {statements : List Node}
    (hread : readProgram view (Path.ofText f) = .ok statements) (clock : Nat → Number) (input : String) :
    act options view clock input = runAndReport view options clock (.list statements) := by
  rw [act, commandOf, he, hr, h, named?_some hf]
  simp only [named?, hread]

theorem act_program_error (he : options.emitTree = none) (hr : options.runTree = none)
    (h : options.program = some f) {report : Report}
    (hread : readProgram view (Path.ofText f) = .error report) (clock : Nat → Number) (input : String) :
    act options view clock input = report := by
  rw [act, commandOf, he, hr, h, named?_some hf]
  simp only [named?, hread]

end

/-- Of the settings only the detail and the bound on open calls count for a run, and of the files
only whether events can be told. -/
theorem runAndReport_congr {view view' : View} {options options' : Options}
    (hverbosity : options.verbosity = options'.verbosity)
    (hdepth : options.maxDepth = options'.maxDepth)
    (hblocked : blocked? view traceFile = blocked? view' traceFile) (clock : Nat → Number) (tree : Node) :
    runAndReport view options clock tree = runAndReport view' options' clock tree := by
  unfold runAndReport traceBlocked? sessionFor runTree interpret
  rw [hverbosity, hdepth, hblocked]

/-- Words for settings are refused in front of every command, or every command is run with the same
settings. -/
theorem run_settingWords (verbosity : Nat) (depth : DepthRequest) :
    (∀ tail words view clock input, wordsOf tail = some words →
      run (settingWords verbosity depth ++ tail) view clock input = { ending := .refused .usage }) ∨
    ∃ maxDepth, ∀ f view clock input, f.toList.head? ≠ some '-' →
      run (settingWords verbosity depth ++ ["--emit-ast", f]) view clock input =
        act { verbosity := verbosity, maxDepth := maxDepth, emitTree := some f } view clock input ∧
      run (settingWords verbosity depth ++ ["--ast", f]) view clock input =
        act { verbosity := verbosity, maxDepth := maxDepth, runTree := some f } view clock input ∧
      run (settingWords verbosity depth ++ [f]) view clock input =
        act { verbosity := verbosity, maxDepth := maxDepth, program := some f } view clock input := by
  rcases settles_settingWords verbosity depth with h | ⟨maxDepth, h⟩
  · refine .inl fun tail words view clock input hwords => ?_
    rw [run, h tail words hwords]
  · refine .inr ⟨maxDepth, fun f view clock input hf => ⟨?_, ?_, ?_⟩⟩
    · exact run_of_parse (h _ _ (wordsOf_emitTree hf)) view clock input
    · exact run_of_parse (h _ _ (wordsOf_runTree hf)) view clock input
    · exact run_of_parse (h _ _ (wordsOf_value hf)) view clock input

/-! ### Program files -/

section

variable {view : View} {path : Path} {bytes : ByteArray} {source : String}
  (hfile : view path = .file bytes) (hsource : textOfBytes? bytes = some source)

include hfile hsource

theorem readFile_ok : readFile view path = .ok source := by
  rw [readFile, hfile]
  simp only [hsource]

/-- A text that is a program is read as one. -/
theorem readProgram_ok {statements : List Node} (h : Program.ofSource source = .ok statements) :
    readProgram view path = .ok statements := by
  rw [readProgram, readFile_ok hfile hsource]
  simp only [h]

theorem readProgram_error {e : SourceError} (h : Program.ofSource source = .error e) :
    readProgram view path =
      .error { ending := .exit dataStatus, stderr := e.message ++ "\n" } := by
  rw [readProgram, readFile_ok hfile hsource]
  simp only [h]

/-- A text that is a tree is loaded. -/
theorem readTree_ok {json : Json} {tree : Node} (hjson : Json.parse source = .ok json)
    (htree : Node.ofJson json = .ok tree) : readTree view path = .ok tree := by
  rw [readTree, readFile_ok hfile hsource]
  simp only [hjson, htree]

end

/-- The text of the tree file of a program. -/
def treeText (statements : List Node) : String :=
  (Node.list statements).toJson.render (.indented 0)

/-- Emitting writes the tree of a program beside it, if nothing is in the way. -/
theorem emitTree_ok {view : View} {path : Path} {statements : List Node}
    (h : readProgram view path = .ok statements) (hfree : blocked? view (treeFile path) = none) :
    emitTree view path =
      { ending := .exit 0, stdout := (treeFile path).display ++ "\n",
        written := [(treeFile path, treeText statements)] } := by
  rw [emitTree, h]
  simp only [hfree]
  rfl

theorem emitTree_error {view : View} {path : Path} {report : Report}
    (h : readProgram view path = .error report) : emitTree view path = report := by
  rw [emitTree, h]

/-! ### The place of the tree -/

section

variable {d : Disk} {path : Path} {bytes : ByteArray} (text : String)
  (hs : d.Standing) (hfile : d.entry path = .file bytes)
  (hfree : blocked? d.entry (treeFile path) = none)

include hs hfile hfree

/-- The tree of a program file has a place of its own. -/
theorem resolve_treeFile : ∃ names beside, d.resolve path = .place names ∧ beside ≠ names ∧
    d.resolve (treeFile path) = .place beside ∧ d.isDirectory beside = false := by
  obtain ⟨hparts, names, hnames⟩ := Disk.resolve_of_entry_file hs hfile
  have hending : 2 < ".ast.json".length := by decide
  rcases Disk.resolve_extend hnames hparts hending (by decide) with
    hlong | ⟨beside, hne, hbeside⟩
  · have hentry : d.entry (treeFile path) = .tooLong := by rw [Disk.entry, treeFile, hlong]
    rw [blocked?, hentry] at hfree
    cases hfree
  · refine ⟨names, beside, hnames, hne, hbeside, ?_⟩
    have hentry : d.entry (treeFile path) = d.entryAt beside := by
      rw [Disk.entry, treeFile, hbeside]
    rw [Bool.eq_false_iff, Ne, Disk.isDirectory_iff_entryAt]
    intro hdir
    rw [blocked?, hentry, hdir] at hfree
    cases hfree

/-- When the tree was written, it is found there. -/
theorem entry_write_treeFile : (d.write (treeFile path) text).entry (treeFile path) =
    .file text.toUTF8 := by
  obtain ⟨names, beside, -, -, hbeside, hdir⟩ := resolve_treeFile hs hfile hfree
  rw [Disk.entry_write hs hbeside hdir, if_pos hbeside]

/-- When the tree was written, the program is where it was. -/
theorem entry_write_program : (d.write (treeFile path) text).entry path = .file bytes := by
  obtain ⟨names, beside, hnames, hne, hbeside, hdir⟩ := resolve_treeFile hs hfile hfree
  rw [Disk.entry_write hs hbeside hdir, hnames, if_neg, hfile]
  intro heq
  exact hne (Disk.Target.place.inj heq).symm

/-- A tree that was written is in no other file's way. -/
theorem blocked?_write_treeFile (other : Path) :
    blocked? (d.write (treeFile path) text).entry other = blocked? d.entry other := by
  obtain ⟨names, beside, -, -, hbeside, hdir⟩ := resolve_treeFile hs hfile hfree
  have hentry := @Disk.entry_write d beside text _ hs hbeside hdir other
  -- another name for the tree file is free as the first one was
  by_cases hother : d.resolve other = .place beside
  · have hsame : blocked? d.entry other = blocked? d.entry (treeFile path) := by
      unfold blocked? Disk.entry
      rw [hother, hbeside]
    rw [hsame, hfree, blocked?, hentry, if_pos hother]
  · rw [blocked?, hentry, if_neg hother, blocked?]

end

/-- The directory after the tree of a program file was written. -/
def withTree (d : Disk) (path : Path) (statements : List Node) : Disk :=
  d.write (treeFile path) (treeText statements)

/-- The statements of a program are read back from the tree that was written for it. -/
theorem readTree_withTree {d : Disk} {path : Path} {bytes : ByteArray} {source : String}
    {statements : List Node} (hs : d.Standing) (hfile : d.entry path = .file bytes)
    (hfree : blocked? d.entry (treeFile path) = none)
    (hsize : source.length + 1 < 10 ^ integerDigitLimit)
    (h : Program.ofSource source = .ok statements) :
    readTree (withTree d path statements).entry (treeFile path) = .ok (.list statements) := by
  obtain ⟨hjson, htree⟩ := Program.ofSource_loaded hsize h (.indented 0)
  have htext : textOfBytes? (treeText statements).toUTF8 = some (treeText statements) := by
    refine textOfBytes?_toUTF8 ?_
    rw [treeText, Json.render, String.toList_ofList]
    exact Json.not_mem_write _ _
  exact readTree_ok (entry_write_treeFile _ hs hfile hfree) htext hjson htree

/-! ### Trees in place of programs -/

/-- Behind the same settings a tree is run as the program with the same statements is. -/
theorem run_tree_eq_run_program {view view' : View} {f g : String} {statements : List Node}
    (hf : f.toList.head? ≠ some '-') (hf₀ : f ≠ "") (hg : g.toList.head? ≠ some '-') (hg₀ : g ≠ "")
    (hprogram : readProgram view (Path.ofText f) = .ok statements)
    (htree : readTree view' (Path.ofText g) = .ok (.list statements))
    (hblocked : blocked? view' traceFile = blocked? view traceFile) (verbosity : Nat)
    (depth : DepthRequest) (clock : Nat → Number) (input : String) :
    run (settingWords verbosity depth ++ ["--ast", g]) view' clock input =
      run (settingWords verbosity depth ++ [f]) view clock input := by
  rcases run_settingWords verbosity depth with h | ⟨maxDepth, h⟩
  · rw [h _ _ _ _ _ (wordsOf_runTree hg), h _ _ _ _ _ (wordsOf_value hf)]
  · rw [(h g view' clock input hg).2.1, (h f view clock input hf).2.2,
      act_runTree hg₀ rfl rfl htree, act_program_ok hf₀ rfl rfl rfl hprogram]
    exact runAndReport_congr rfl rfl hblocked clock _

/-- Behind the same settings a file that is no program is reported alike whether it is to be emitted
or to be run. -/
theorem run_emit_eq_run_program {view : View} {f : String} {report : Report}
    (hf : f.toList.head? ≠ some '-') (hf₀ : f ≠ "")
    (hprogram : readProgram view (Path.ofText f) = .error report) (verbosity : Nat)
    (depth : DepthRequest) (clock : Nat → Number) (input : String) :
    run (settingWords verbosity depth ++ ["--emit-ast", f]) view clock input =
      run (settingWords verbosity depth ++ [f]) view clock input := by
  rcases run_settingWords verbosity depth with h | ⟨maxDepth, h⟩
  · rw [h _ _ _ _ _ (wordsOf_emitTree hf), h _ _ _ _ _ (wordsOf_value hf)]
  · obtain ⟨hemit, -, hrun⟩ := h f view clock input hf
    rw [hemit, hrun, act_emitTree hf₀ rfl, emitTree_error hprogram,
      act_program_error hf₀ rfl rfl rfl hprogram]

/-- **Running an emitted tree is running the program**, with any settings and before or after the
tree was written, and a text that is no program is reported alike whether it is to be emitted or to
be run.  Names of files do not start with a dash here, and nothing is in the way of the tree. -/
theorem run_emitted {d : Disk} (hs : d.Standing) {f g : String}
    (hf : f.toList.head? ≠ some '-') (hg : g.toList.head? ≠ some '-')
    (hpath : Path.ofText g = treeFile (Path.ofText f)) {bytes : ByteArray}
    (hfile : d.entry (Path.ofText f) = .file bytes) {source : String}
    (hsource : textOfBytes? bytes = some source)
    (hsize : source.length + 1 < 10 ^ integerDigitLimit) :
    (∀ statements, Program.ofSource source = .ok statements →
      blocked? d.entry (treeFile (Path.ofText f)) = none →
      (∀ clock input, run ["--emit-ast", f] d.entry clock input =
        { ending := .exit 0, stdout := (treeFile (Path.ofText f)).display ++ "\n",
          written := [(treeFile (Path.ofText f), treeText statements)] }) ∧
      Json.parse (treeText statements) = .ok (Node.list statements).toJson ∧
      Node.ofJson (Node.list statements).toJson = .ok (.list statements) ∧
      ∀ verbosity depth clock input, ∀ d' ∈ [d, withTree d (Path.ofText f) statements],
        run (settingWords verbosity depth ++ ["--ast", g])
            (withTree d (Path.ofText f) statements).entry clock input =
          run (settingWords verbosity depth ++ [f]) d'.entry clock input) ∧
    ∀ e, Program.ofSource source = .error e → ∀ clock input,
      run ["--emit-ast", f] d.entry clock input =
        { ending := .exit dataStatus, stderr := e.message ++ "\n" } ∧
      run [f] d.entry clock input = { ending := .exit dataStatus, stderr := e.message ++ "\n" } ∧
      ∀ verbosity depth, run (settingWords verbosity depth ++ ["--emit-ast", f]) d.entry clock input =
        run (settingWords verbosity depth ++ [f]) d.entry clock input := by
  have hparts := (Disk.resolve_of_entry_file hs hfile).1
  -- an empty name would ask for the prompt
  have hf₀ : f ≠ "" := by
    rintro rfl
    exact hparts rfl
  have hg₀ : g ≠ "" := by
    rintro rfl
    have hparts' := Path.parts_extend_ne_nil hparts ".ast.json"
    rw [← treeFile, ← hpath] at hparts'
    exact hparts' rfl
  have hemit : ∀ clock input, run ["--emit-ast", f] d.entry clock input =
      emitTree d.entry (Path.ofText f) := by
    intro clock input
    rw [run_of_parse (parse_of_wordsOf (wordsOf_emitTree hf))]
    exact act_emitTree hf₀ rfl clock input
  refine ⟨fun statements h hfree => ?_, fun e h clock input => ?_⟩
  · have hprogram := readProgram_ok hfile hsource h
    obtain ⟨hjson, htree⟩ := Program.ofSource_loaded hsize h (.indented 0)
    refine ⟨fun clock input => ?_, hjson, htree, ?_⟩
    · rw [hemit, emitTree_ok hprogram hfree]
    · intro verbosity depth clock input d' hd'
      have hread := readTree_withTree hs hfile hfree hsize h
      rw [← hpath] at hread
      rw [List.mem_cons, List.mem_singleton] at hd'
      -- the tree is in the way of nothing, so the program can be run before or after it was written
      rcases hd' with rfl | rfl
      · exact run_tree_eq_run_program hf hf₀ hg hg₀ hprogram hread
          (blocked?_write_treeFile _ hs hfile hfree traceFile) verbosity depth clock input
      · have hprogram' := readProgram_ok
          (entry_write_program (treeText statements) hs hfile hfree) hsource h
        exact run_tree_eq_run_program hf hf₀ hg hg₀ hprogram' hread rfl verbosity depth clock input
  · have hprogram := readProgram_error hfile hsource h
    refine ⟨?_, ?_, fun verbosity depth => ?_⟩
    · rw [hemit, emitTree_error hprogram]
    · rw [run_of_parse (parse_of_wordsOf (wordsOf_value hf))]
      exact act_program_error hf₀ rfl rfl rfl hprogram clock input
    · exact run_emit_eq_run_program hf hf₀ hprogram verbosity depth clock input

/-- A program with a text that is escaped in its tree, found from the root and run with events told. -/
theorem run_emitted_escaped :
    let source := "print \"\\é\";"
    let statements : List Node := [.print (.literal (.text "\\é"))]
    let d : Disk := { files := [(["tmp", "f"], source.toUTF8)], here := ["home"] }
    let clock : Nat → Number := fun _ => ⟨0⟩
    d.Standing ∧ Path.ofText "/tmp/f.ast.json" = treeFile (Path.ofText "/tmp/f") ∧
      d.entry (Path.ofText "/tmp/f") = .file source.toUTF8 ∧
      textOfBytes? source.toUTF8 = some source ∧ source.length + 1 < 10 ^ integerDigitLimit ∧
      Program.ofSource source = .ok statements ∧
      blocked? d.entry (treeFile (Path.ofText "/tmp/f")) = none ∧
      run ["-v", "--ast", "/tmp/f.ast.json"] (withTree d (Path.ofText "/tmp/f") statements).entry clock
          "" =
        run ["-v", "/tmp/f"] d.entry clock "" := by
  intro source statements d clock
  have hs : d.Standing := by
    intro dir hdir
    rcases List.prefix_cons_iff.mp hdir with rfl | ⟨rest, rfl, hrest⟩
    · rfl
    · rw [List.prefix_nil.mp hrest]
      rfl
  have hpath : Path.ofText "/tmp/f.ast.json" = treeFile (Path.ofText "/tmp/f") := by decide
  have hfile : d.entry (Path.ofText "/tmp/f") = .file source.toUTF8 := rfl
  have htext : textOfBytes? source.toUTF8 = some source := textOfBytes?_toUTF8 (by decide)
  have hsize : source.length + 1 < 10 ^ integerDigitLimit :=
    calc source.length + 1 < 10 ^ 2 := by decide
      _ ≤ 10 ^ integerDigitLimit := Nat.pow_le_pow_right (by decide) (by decide)
  have hstatements : Program.ofSource "print \"\\é\";" = .ok statements := by
    have htokens : scan "print \"\\é\";" = .ok [.ofText .printWord "print" .null 1,
      .ofText .string "\"\\é\"" (.word "\\é") 1, .ofText .semicolon ";" .null 1,
      .ofText .eof "" .null 1] := rfl
    rw [Program.ofSource, htokens]
    rfl
  have hfree : blocked? d.entry (treeFile (Path.ofText "/tmp/f")) = none := rfl
  refine ⟨hs, hpath, hfile, htext, hsize, hstatements, hfree, ?_⟩
  have hrun := (run_emitted hs (f := "/tmp/f") (g := "/tmp/f.ast.json") (by decide) (by decide) hpath
    hfile htext hsize).1 statements hstatements hfree
  exact hrun.2.2.2 1 .absent clock "" d (by simp)

/-- A program whose name starts with a dash is not emitted, nor is one where a directory has the name
of its tree. -/
theorem run_not_emitted :
    let source := "nil;"
    let dashed : Disk := { files := [(["-f"], source.toUTF8)] }
    let covered : Disk := { files := [(["f"], source.toUTF8), (["f.ast.json", "g"], source.toUTF8)] }
    let clock : Nat → Number := fun _ => ⟨0⟩
    Program.ofSource source = .ok [.expression (.literal .nil)] ∧
      textOfBytes? source.toUTF8 = some source ∧
      dashed.entry (Path.ofText "-f") = .file source.toUTF8 ∧
      (run ["--emit-ast", "-f"] dashed.entry clock "").ending = .refused .usage ∧
      covered.entry (Path.ofText "f") = .file source.toUTF8 ∧
      (run ["--emit-ast", "f"] covered.entry clock "").ending = .crashed .isDirectory := by
  intro source dashed covered clock
  have hstatements : Program.ofSource "nil;" = .ok [.expression (.literal .nil)] := by
    have htokens : scan "nil;" = .ok [.ofText .nilWord "nil" .null 1, .ofText .semicolon ";" .null 1,
      .ofText .eof "" .null 1] := rfl
    rw [Program.ofSource, htokens]
    rfl
  have htext : textOfBytes? source.toUTF8 = some source := textOfBytes?_toUTF8 (by decide)
  have hfile : covered.entry (Path.ofText "f") = .file source.toUTF8 := rfl
  refine ⟨hstatements, htext, rfl, rfl, hfile, ?_⟩
  have hrun : run ["--emit-ast", "f"] covered.entry clock "" =
      emitTree covered.entry (Path.ofText "f") := rfl
  rw [hrun, emitTree, readProgram_ok hfile htext hstatements]
  rfl

end CommandLine

end Lox
