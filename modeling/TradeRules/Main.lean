import TradeRules.CommandLine.Outcome

/-!
# The program

Reads the words of the command line and the data file, and prints and writes what the command comes
to.
-/

namespace TradeRules

/-- The text of a file, if it can be read. -/
def readFile? (path : String) : IO (Option String) := do
  try
    return some (← IO.FS.readFile path)
  catch _ =>
    return none

/-- The outcome of the words of a command line. -/
def outcomeOf (words : List String) : IO Outcome := do
  match Command.read words with
  | .error e => return .usage e
  | .ok command =>
    let data ←
      match command.dataFile? with
      | some path => readFile? path
      | none => pure none
    let seed ← IO.rand 0 (Nat.pow 2 62)
    return command.run data seed

/-- Prints and writes what an outcome holds, and answers the exit code. -/
def carryOut (o : Outcome) : IO UInt32 := do
  for line in o.output do
    IO.println line
  for line in o.errors do
    IO.eprintln line
  if let some crash := o.crash then
    IO.eprintln crash.message
  if let some (path, text) := o.written then
    IO.FS.writeFile path text
  return UInt32.ofNat o.exitCode

end TradeRules

/-- The program. -/
def main (words : List String) : IO UInt32 := do
  TradeRules.carryOut (← TradeRules.outcomeOf words)
