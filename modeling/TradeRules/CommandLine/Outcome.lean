import TradeRules.Breeding.Programme
import TradeRules.CommandLine.Command
import TradeRules.Market.DataFile
import TradeRules.Rule.Parser
import TradeRules.Text.Escaped

/-!
# What a command does

The outcome of a command is its exit code, the lines it prints, and the file it writes.  What the
user can mend is reported in a line of its own, with exit code 1.  What no command expects is a
`Crash`: quotes that are not valid, a number with no whole part, a day without a date.  Wrong usage
has exit code 2.

`Command.run` is a function of the text of the data file, if there is one, and of the seed that is
taken when none is given.
-/

namespace TradeRules

/-- What no command expects. -/
inductive Crash where
  /-- The number of days held is beyond all doubles. -/
  | heldRange
  | load (e : LoadError)
  | calendar (e : MissingQuote)
  | build (e : BuildError)
  /-- A result that should be whole is infinite or NaN. -/
  | notWhole (x : Float)
  | programme (e : ProgrammeError)

/-- The message of a crash. -/
def Crash.message : Crash → String
  | .heldRange => "int too large to convert to float"
  | .load _ => "the quotes are not valid"
  | .calendar e => e.message
  | .build e => e.message
  | .notWhole x =>
    if x.isNaN then OrderError.sharesNaN.message else OrderError.sharesInfinite.message
  | .programme _ => "breeding failed"

/-- What a command comes to. -/
structure Outcome where
  /-- The exit code. -/
  exitCode : Nat := 0
  /-- The lines of the output. -/
  output : List String := []
  /-- The lines of the error output. -/
  errors : List String := []
  /-- What was not expected, if it came to that. -/
  crash : Option Crash := none
  /-- The file that is written, by name and text. -/
  written : Option (String × String) := none

namespace Outcome

/-- The outcome of printing some lines. -/
def success (lines : List String) : Outcome :=
  { output := lines }

/-- The outcome of wrong usage. -/
def usage (e : UsageError) : Outcome :=
  { exitCode := 2, errors := [e.message] }

end Outcome

/-- Why a command stops early. -/
inductive Stop where
  /-- With a line on the error output. -/
  | report (line : String)
  | crash (c : Crash)

/-- The outcome of stopping after some lines. -/
def Stop.outcome (lines : List String) : Stop → Outcome
  | .report line => { exitCode := 1, output := lines, errors := [line] }
  | .crash c => { exitCode := 1, output := lines, crash := some c }

namespace Command

/-! ## Checking -/

/-- A rule, or the line that says why it is none. -/
def rule (text : String) (bindings : Variables) : Except Stop (Expr × Kind) :=
  (Expr.parseKind text bindings).mapError fun e => .report ("Rejected: " ++ e.message)

/-- The lines of a check. -/
def checkLines (expression : String) : Except Stop (List String) := do
  let (e, kind) ← rule expression (Variables.ofRule 0.0 0.0)
  let simplified ← e.simplify.mapError fun e => .crash (.build e)
  return ["Type: " ++ kind.name, "Simplified: " ++ simplified.text]

/-! ## Evaluation -/

/-- A value as text, by its kind. -/
def valueText (kind : Kind) (x : Float) : Except Stop String :=
  match kind with
  | .boolean => .ok (if Truth.holds x then "true" else "false")
  | .integer =>
    if x.isFinite then .ok (toString (Double.truncate x)) else .error (.crash (.notWhole x))
  | _ => .ok (NumberForm.general.write x)

/-- A report of an error in what the user gave. -/
def mistake (message : String) : Stop :=
  .report ("Error: " ++ message)

/-- The trading day of a date, or a given day when there is no date. -/
def dayOf (source : Source) (date : Option String) (default : Int) : Except Stop Int :=
  match date with
  | none => .ok default
  | some text => do
    let d ← (Date.parse text).mapError fun e => mistake e.message
    (source.dayOf d).mapError fun e => mistake e.message

/-- The date of a day. -/
def dateText (source : Source) (day : Int) : Except Stop String :=
  match source.date day with
  | .ok d => .ok d.text
  | .error e => .error (.crash (.calendar e))

/-- The source in the text of a data file. -/
def load (data : String) : Except Stop Source :=
  (Source.ofText data).mapError fun e => .crash (.load e)

/-- The line of an evaluation. -/
def evaluateLine (o : EvaluateOptions) (data : String) : Except Stop String := do
  let held := Double.ofInt o.held
  if !held.isFinite then throw (.crash .heldRange)
  let bindings := Variables.ofRule held 0.0
  let (e, kind) ← rule o.expression bindings
  let symbol ← (Symbol.parse o.symbol).mapError fun e => .report ("Rejected: " ++ e.message)
  let source ← load data
  let day ← dayOf source o.date source.lastDay
  let env : Environment := { bindings, source := some source, symbol := some symbol, day }
  let x ← (e.evaluate env).mapError fun e => .report ("Evaluation failed: " ++ e.message)
  let date ← dateText source day
  let value ← valueText kind x
  return e.text ++ " on " ++ date ++ " for " ++ symbol.code ++ ": " ++ value

/-! ## Breeding -/

/-- The trader and the settings of breeding that options ask for. -/
def prepare (o : EvolveOptions) (source : Source) : Except Stop (Trader × BreedingSettings) := do
  let startDay ← dayOf source o.start source.firstDay
  let endDay ← dayOf source o.finish source.lastDay
  let how : TraderSettings :=
    { startDay, endDay, initialCapital := o.capital, stockValue := o.stockValue
      numberStocks := o.numberStocks, tradeCost := o.tradeCost }
  let settings : BreedingSettings := { populationSize := o.population, seed := o.seed }
  let trader ← (Trader.make source how).mapError fun e => mistake e.message
  let settings ← settings.validate.mapError fun e => mistake e.message
  return (trader, settings)

/-- The line of a finished generation. -/
def generationLine (r : GenerationReport) : String :=
  let best := match r.best with
    | some value => NumberForm.money.write value
    | none => "none"
  "Generation " ++ toString r.generation ++ ": " ++ toString r.survivors ++ " breeders, best "
    ++ best

/-- The fields that are saved of the fittest strategy. -/
def savedFields (o : EvolveOptions) (s : Strategy) (value : Float) :
    List (String × JsonValue) :=
  [("buy_rule", .text s.rules.buy.text), ("sell_rule", .text s.rules.sell.text),
    ("value", .real value), ("generations", .whole o.generations),
    ("seed", match o.seed with
      | some n => .whole n
      | none => .null)]

/-- What is printed and written at the end of breeding. -/
def evolved (o : EvolveOptions) (lines : List String) : Option Strategy → Outcome
  | none => .success (lines ++ ["No rules beat the initial capital"])
  | some s =>
    let value := s.value.getD 0.0
    let lines := lines ++
      ["Buy rule:  " ++ s.rules.buy.text, "Sell rule: " ++ s.rules.sell.text,
        "Value:     " ++ NumberForm.money.write value]
    match o.output with
    | none | some "" => .success lines
    | some path =>
      { output := lines ++ ["Results saved to " ++ path]
        written := some (path, JsonValue.writeObject (savedFields o s value)) }

/-- Why a programme stops, as the reason why breeding does. -/
def stopOf : ProgrammeError → Stop
  | .exhausted attempts generation =>
    mistake (ProgrammeError.exhaustedMessage attempts generation)
  | e => .crash (.programme e)

/-- The outcome of breeding. -/
def evolveOutcome (o : EvolveOptions) (seed : Int) (data : String) : Outcome :=
  let prepared : Except Stop (Trader × BreedingSettings × String) := do
    let source ← load data
    let (trader, settings) ← prepare o source
    let first ← dateText source trader.settings.startDay
    let last ← dateText source trader.settings.endDay
    return (trader, settings, "Evolving rules over " ++ first ++ " to " ++ last ++ "...")
  match prepared with
  | .error stop => stop.outcome []
  | .ok (trader, settings, title) =>
    let programme : Programme Unit :=
      Programme.make settings {} o.capital true trader.source.symbols
        fun rules testing => ((trader.run rules).1, testing)
    let start := programme.start (Draws.ofSeed (settings.seed.getD seed)) ()
    let run := programme.run o.individuals.toNat o.generations.toNat start
    let lines := title :: run.reports.map generationLine
    match run.result with
    | .ok fittest => evolved o lines fittest
    | .error e => (stopOf e).outcome lines

/-! ## All commands -/

/-- The name and version of the program. -/
def versionLine : String :=
  "gondola, version 0.1.0"

/-- A summary of the commands. -/
def helpLines : List String :=
  ["Usage: gondola [--version] [-v] COMMAND ...", "",
    "  check EXPRESSION", "  evaluate EXPRESSION -q FILE -s SYMBOL [-d DATE] [--held N]",
    "  evolve -q FILE [-s DATE] [-e DATE] [-g N] [-i N] [-p N] [--seed N] [--capital X]",
    "         [--stock-value X] [--number-stocks N] [--trade-cost X] [-o FILE]"]

/-- The outcome of printing lines, unless something stops it. -/
def printed (lines : Except Stop (List String)) : Outcome :=
  match lines with
  | .ok lines => .success lines
  | .error stop => stop.outcome []

/-- The outcome of a command that reads a file, given the text of the file if it exists. -/
def withFile (path : String) (data : Option String) (run : String → Outcome) : Outcome :=
  match data with
  | some text => run text
  | none => .usage (.noFile path)

/-- The outcome of a command. -/
def run (data : Option String) (seed : Int) : Command → Outcome
  | .version => .success [versionLine]
  | .help => .success helpLines
  | .check expression => printed (checkLines expression)
  | .evaluate o => withFile o.quotes data fun text =>
    printed ((evaluateLine o text).map fun line => [line])
  | .evolve o => withFile o.quotes data (evolveOutcome o seed)

end Command

end TradeRules
