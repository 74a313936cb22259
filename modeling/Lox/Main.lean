import Lox.CommandLine

/-!
# The program

Reads the command line, the file it names and the input stream, and writes what the run reports.
The prompt reads and answers one line at a time.
-/

namespace Lox

namespace Terminal

/-- What a path leads to on disk. -/
def entryOnDisk (path : Path) : IO Entry := do
  try
    let bytes ← IO.FS.readBinFile path.display
    pure (.file bytes)
  catch
    | .inappropriateType .. => pure .directory
    | .invalidArgument .. => pure .tooLong
    | _ => pure .missing

/-- The path that a command reads. -/
def pathOf? : CommandLine.Command → Option Path
  | .emitTree path => some path
  | .runTree path => some path
  | .runProgram path => some path
  | .prompt => none

/-- What the clock shows, in seconds since the epoch: the time at which a file was last written that is
made for this and removed. -/
def clockReading : IO Number := do
  let (handle, path) ← IO.FS.createTempFile
  handle.putStr "."
  handle.flush
  let now := (← path.metadata).modified
  IO.FS.removeFile path
  let seconds := Number.ofNat now.sec.toNat
  pure (seconds.add ((Number.ofNat now.nsec.toNat).div (Number.ofNat 1000000000)))

/-- A text as it is shown on a terminal, every half by its escape. -/
def shown (t : Text) : String :=
  t.tail.foldl (fun s (h, behind) => s ++ "\\u" ++ hexadecimal 4 h.code ++ behind) t.head

/-- Writes what a run reports, and gives the status. -/
def writeReport (report : CommandLine.Report) : IO UInt32 := do
  (← IO.getStdout).putStr (shown report.stdout)
  (← IO.getStderr).putStr (shown report.stderr)
  for (path, text) in report.written do
    IO.FS.writeFile path.display text
  match report.ending with
  | .exit status => pure status.toUInt32
  | .refused .help => do
    (← IO.getStdout).putStr CommandLine.usageText
    pure 0
  | .refused .usage => do
    (← IO.getStderr).putStr CommandLine.usageText
    pure CommandLine.usageStatus.toUInt32
  | .crashed _ => do
    (← IO.getStderr).putStr "error: the run was given up\n"
    pure 1

/-- Writes what a line at the prompt leads to. -/
def writeAnswer (answer : CommandLine.Answer) : IO Unit := do
  (← IO.getStdout).putStr (shown answer.session.outputText)
  (← IO.getStderr).putStr (shown answer.complaint)

/-- A session whose clock shows the same time from now on. -/
def atTime (s : Session) (now : Number) : Session :=
  { s with settings := { s.settings with host := .ofClock fun _ => now } }

/-- Reads and answers lines until the input ends or a line ends the prompt; some lines may have
been read already.  The clock is read before each line. -/
partial def promptLoop (options : CommandLine.Options) (s : Session) (pending : List String) :
    IO CommandLine.Report := do
  let stdout ← IO.getStdout
  stdout.putStr CommandLine.promptMark
  stdout.flush
  let lines ← match pending with
    | [] => do
      let text ← (← IO.getStdin).getLine
      pure (CommandLine.linesOf (String.ofList (unifyLines text.toList)))
    | _ => pure pending
  match lines with
  | [] =>
    stdout.putStr "\n"
    pure { ending := .exit 0, written := CommandLine.traceWritten s }
  | line :: rest =>
    let answer := CommandLine.promptLine options (atTime s (← clockReading)) line
    writeAnswer answer
    match answer.crash with
    | some why =>
      pure { ending := .crashed why, written := CommandLine.traceWritten answer.session }
    | none => promptLoop options answer.session rest

/-- Runs the command line. -/
def run (arguments : List String) : IO UInt32 := do
  let now ← clockReading
  let clock := fun _ => now
  match CommandLine.parse arguments with
  | .error refusal => writeReport { ending := .refused refusal }
  | .ok options =>
    match pathOf? (CommandLine.commandOf options) with
    | some path =>
      let entry ← entryOnDisk path
      let view : CommandLine.View := fun p => if p = path then entry else .missing
      writeReport (CommandLine.act options view clock "")
    | none =>
      writeReport (← promptLoop options (CommandLine.sessionFor options clock) [])

end Terminal

end Lox

/-- Runs the command line. -/
def main (arguments : List String) : IO UInt32 := Lox.Terminal.run arguments
