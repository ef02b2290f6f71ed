/-
  LoxSyntax.Main — the command. It reads the file or the lines that a request asks for,
  writes what the run or the prompt answers, and exits with the run's code.
-/

import LoxSyntax.CommandLine.Run

namespace LoxSyntax.CommandLine

/-- The number of a system error, which may be given as its negation in 32 bits. -/
def errorNumber (code : UInt32) : Nat :=
  if code.toNat < Nat.pow 2 31 then code.toNat else Nat.pow 2 32 - code.toNat

/-- The number and the words of a failed reading. -/
def fileError : IO.Error → FileError
  | .noFileOrDirectory _ code words | .permissionDenied _ code words | .inappropriateType _ code words
  | .invalidArgument _ code words | .resourceExhausted _ code words => .ofNumber (errorNumber code) words
  | e => ⟨0, toString e⟩

def readFile (name : String) : IO (Except ReadFailure ByteArray) := do
  try
    return .ok (← IO.FS.readBinFile name)
  catch e => return .error (.unreadable (fileError e))

def failureText : Failure → String
  | .notUtf8 => "the file is not text in UTF-8\n"
  | .badName => "the name of the file holds a zero character\n"
  | .tooHigh => "the tree is too high to be written\n"

/-- Writes what a run wrote; a run without a code of its own ends with 1. -/
def Run.finish (r : Run) : IO UInt32 := do
  IO.print r.stdout
  IO.eprint r.stderr
  match r.ending with
  | .exited code => return code.toUInt32
  | .returned => return 0
  | .failed f =>
    IO.eprint (failureText f)
    return 1

def writeNow (s : String) : IO Unit := do
  IO.print s
  (← IO.getStdout).flush

/-- Asks for entries line by line and answers each, and tells how the conversation ended. -/
partial def converse (k : Stack) (input : IO.FS.Stream) (s : Prompt.Shell) (p : Prompt.Pending) : IO Ending := do
  writeNow p.prompt
  let line ← input.getLine
  if line.isEmpty then
    writeNow Prompt.farewell
    return .returned
  else
    match p.feed (Prompt.content line.toList) with
    | .leave =>
      writeNow Prompt.farewell
      return .returned
    | .more p => converse k input s p
    | .entry text =>
      let r := Prompt.respond k s text
      writeNow r.output
      if r.broken then return .failed .tooHigh
      converse k input r.shell .start

def answer (k : Stack) : Request → IO UInt32
  | .help => Run.finish ⟨help, "", .exited exitOk⟩
  | .usage e => Run.finish ⟨"", usage e, .exited exitUsage⟩
  | .text source display => (runSource k display source).finish
  | .file name display => do (runFile k display name (← readFile name)).finish
  | .prompt showTokens => do
    writeNow Prompt.banner
    Run.finish ⟨"", "", ← converse k (← IO.getStdin) (.start showTokens) .start⟩

end LoxSyntax.CommandLine

def main (arguments : List String) : IO UInt32 :=
  LoxSyntax.CommandLine.answer LoxSyntax.Stack.ample (LoxSyntax.CommandLine.parse arguments)
