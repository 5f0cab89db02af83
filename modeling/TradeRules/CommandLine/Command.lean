import TradeRules.CommandLine.Options

/-!
# Commands

The program has three commands: to check an expression, to evaluate one on quotes, and to breed
rules.  `Command.read` reads a command with its options from the words of a command line.  Options
before the name of the command are those of the program itself.
-/

namespace TradeRules

/-- What is evaluated. -/
structure EvaluateOptions where
  /-- The expression. -/
  expression : String
  /-- The file of quotes. -/
  quotes : String
  /-- The symbol. -/
  symbol : String
  /-- The date; the last trading day without one. -/
  date : Option String
  /-- How many days the stock has been held. -/
  held : Int

/-- How rules are bred. -/
structure EvolveOptions where
  /-- The file of quotes. -/
  quotes : String
  /-- The first date of trading; the first trading day without one. -/
  start : Option String
  /-- The last date of trading; the last trading day without one. -/
  finish : Option String
  /-- The number of generations. -/
  generations : Int
  /-- The number of strategies scored in each generation. -/
  individuals : Int
  /-- The most strategies kept for breeding. -/
  population : Int
  /-- Where the random numbers start. -/
  seed : Option Int
  /-- The cash at the start. -/
  capital : Float
  /-- The amount spent on each purchase. -/
  stockValue : Float
  /-- The most positions held at once. -/
  numberStocks : Int
  /-- The fee of each trade. -/
  tradeCost : Float
  /-- The file the fittest rules are saved to. -/
  output : Option String

/-- A command. -/
inductive Command where
  | version
  | help
  | check (expression : String)
  | evaluate (o : EvaluateOptions)
  | evolve (o : EvolveOptions)

namespace Command

/-- The request for help, which every command takes. -/
def helpForm : OptionForm :=
  { name := "help", words := ["--help"], takesValue := false }

/-- The options of the program. -/
def programForms : List OptionForm :=
  [{ name := "version", words := ["--version"], takesValue := false },
    { name := "verbose", words := ["--verbose", "-v"], takesValue := false }, helpForm]

/-- The options of evaluation. -/
def evaluateForms : List OptionForm :=
  [{ name := "quotes", words := ["--quotes", "-q"] },
    { name := "symbol", words := ["--symbol", "-s"] },
    { name := "date", words := ["--date", "-d"] },
    { name := "held", words := ["--held"] }, helpForm]

/-- The options of breeding. -/
def evolveForms : List OptionForm :=
  [{ name := "quotes", words := ["--quotes", "-q"] },
    { name := "start", words := ["--start", "-s"] },
    { name := "end", words := ["--end", "-e"] },
    { name := "generations", words := ["--generations", "-g"] },
    { name := "individuals", words := ["--individuals", "-i"] },
    { name := "population", words := ["--population", "-p"] },
    { name := "seed", words := ["--seed"] },
    { name := "capital", words := ["--capital"] },
    { name := "stock-value", words := ["--stock-value"] },
    { name := "number-stocks", words := ["--number-stocks"] },
    { name := "trade-cost", words := ["--trade-cost"] },
    { name := "output", words := ["--output", "-o"] }, helpForm]

/-- The command of given options, unless help is asked for. -/
def unlessHelp (o : Options) (command : Except UsageError Command) : Except UsageError Command :=
  if o.has helpForm.name then .ok .help else command

/-- The check that some words ask for. -/
def readCheck (words : List String) : Except UsageError Command := do
  let o ← Options.scan [helpForm] true words
  unlessHelp o do
    return .check (← o.onlyArgument "expression")

/-- The evaluation that some words ask for. -/
def readEvaluate (words : List String) : Except UsageError Command := do
  let o ← Options.scan evaluateForms true words
  unlessHelp o do
    return .evaluate
      { expression := ← o.onlyArgument "expression"
        quotes := ← o.required "quotes"
        symbol := ← o.required "symbol"
        date := o.value? "date"
        held := ← o.whole "held" 0 }

/-- The breeding that some words ask for. -/
def readEvolve (words : List String) : Except UsageError Command := do
  let o ← Options.scan evolveForms true words
  unlessHelp o do
    o.noArguments
    return .evolve
      { quotes := ← o.required "quotes"
        start := o.value? "start"
        finish := o.value? "end"
        generations := ← o.whole "generations" 10
        individuals := ← o.whole "individuals" 100
        population := ← o.whole "population" 10
        seed := ← o.read? "seed" Reading.whole?
        capital := ← o.real "capital" 10000.0
        stockValue := ← o.real "stock-value" 1000.0
        numberStocks := ← o.whole "number-stocks" 5
        tradeCost := ← o.real "trade-cost" 10.0
        output := o.value? "output" }

/-- The command that the words of a command line ask for. -/
def read (words : List String) : Except UsageError Command := do
  let o ← Options.scan programForms false words
  match o.given.find? fun entry => entry.1 == "version" || entry.1 == helpForm.name with
  | some (name, _) => return if name == helpForm.name then .help else .version
  | none =>
    match o.arguments with
    | [] => throw .missingCommand
    | name :: rest =>
      match name with
      | "check" => readCheck rest
      | "evaluate" => readEvaluate rest
      | "evolve" => readEvolve rest
      | _ => throw (.unknownCommand name)

/-- The file that a command reads, if it reads one. -/
def dataFile? : Command → Option String
  | .evaluate o => some o.quotes
  | .evolve o => some o.quotes
  | _ => none

end Command

end TradeRules
