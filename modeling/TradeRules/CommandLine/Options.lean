import TradeRules.Number.Reading

/-!
# Options and arguments

The words of a command line are options with their values and arguments.  An option has long words,
which start with two dashes, and short ones of a dash and a letter.  Its value is the next word,
whatever it looks like.  It may also be attached, to a long word after an equals sign and to a short
one as it is, and short options without a value may share a word.  After two dashes on their own all
words are arguments.

`Options.scan` takes the words apart.  The values of options are read afterwards, where of several
values of one option the last counts.
-/

namespace TradeRules

/-- An option. -/
structure OptionForm where
  /-- The name it is known by. -/
  name : String
  /-- The words it is given by. -/
  words : List String
  /-- Whether a value follows. -/
  takesValue : Bool := true

/-- What is wrong with a command line. -/
inductive UsageError where
  | unknownOption (word : String)
  | missingValue (name : String)
  | superfluousValue (name : String)
  | badValue (name value : String)
  | missingOption (name : String)
  | missingArgument (name : String)
  | extraArguments
  | missingCommand
  | unknownCommand (name : String)
  | noFile (path : String)
deriving DecidableEq, Repr

/-- The message of a usage error. -/
def UsageError.message : UsageError → String
  | .unknownOption word => "no such option: " ++ word
  | .missingValue name => "option --" ++ name ++ " requires a value"
  | .superfluousValue name => "option --" ++ name ++ " does not take a value"
  | .badValue name value => "invalid value for --" ++ name ++ ": " ++ value
  | .missingOption name => "missing option --" ++ name
  | .missingArgument name => "missing argument " ++ name
  | .extraArguments => "unexpected extra arguments"
  | .missingCommand => "missing command"
  | .unknownCommand name => "no such command: " ++ name
  | .noFile path => "no such file: " ++ path

/-- The words of a command line taken apart. -/
structure Options where
  /-- The options that were given with their values, in order; an option without a value has the
  empty one. -/
  given : List (String × String) := []
  /-- The arguments. -/
  arguments : List String := []
deriving DecidableEq, Repr

/-- What one word with a dash says: options without a value, and at most one with a value at the
end, which may be attached. -/
structure OptionWord where
  /-- The options without a value. -/
  flags : List String := []
  /-- The option with a value, and its value if it is attached. -/
  last : Option (String × Option String) := none
deriving DecidableEq, Repr

namespace OptionWord

/-- The option that a word gives. -/
def form? (forms : List OptionForm) (word : String) : Option OptionForm :=
  forms.find? fun form => form.words.contains word

/-- What the letters after a single dash say. -/
def ofLetters (forms : List OptionForm) : List Char → Except UsageError OptionWord
  | [] => .ok {}
  | c :: rest =>
    let word := String.ofList ['-', c]
    match form? forms word with
    | none => .error (.unknownOption word)
    | some form =>
      if form.takesValue then
        let attached := if rest.isEmpty then none else some (String.ofList rest)
        .ok { last := some (form.name, attached) }
      else do
        let more ← ofLetters forms rest
        return { more with flags := form.name :: more.flags }

/-- What a word with two dashes says. -/
def ofLong (forms : List OptionForm) (word : List Char) : Except UsageError OptionWord :=
  let name := String.ofList (word.takeWhile (· != '='))
  let attached :=
    match word.dropWhile (· != '=') with
    | [] => none
    | _ :: value => some (String.ofList value)
  match form? forms name with
  | none => .error (.unknownOption name)
  | some form =>
    if form.takesValue then .ok { last := some (form.name, attached) }
    else if attached.isSome then .error (.superfluousValue form.name)
    else .ok { flags := [form.name] }

/-- What a word that starts with a dash says. -/
def read (forms : List OptionForm) (word : String) : Except UsageError OptionWord :=
  match word.toList with
  | '-' :: '-' :: _ => ofLong forms word.toList
  | cs => ofLetters forms (cs.drop 1)

end OptionWord

namespace Options

/-- Whether a word gives options. -/
def isOption (word : String) : Bool :=
  match word.toList with
  | '-' :: _ :: _ => true
  | _ => false

/-- The options and arguments with some options given before them. -/
def after (given : List (String × String)) (o : Options) : Options :=
  { o with given := given ++ o.given }

/-- The options without a value that a word gives. -/
def flagsOf (word : OptionWord) : List (String × String) :=
  word.flags.map fun name => (name, "")

/-- The words taken apart.  Unless arguments may stand between options, the first argument ends the
options. -/
def scan (forms : List OptionForm) (mixed : Bool) : List String → Except UsageError Options
  | [] => .ok {}
  | word :: rest =>
    if word = "--" then .ok { arguments := rest }
    else if isOption word then do
      let w ← OptionWord.read forms word
      match w.last, rest with
      | none, rest => return (← scan forms mixed rest).after (flagsOf w)
      | some (name, some value), rest =>
        return (← scan forms mixed rest).after (flagsOf w ++ [(name, value)])
      | some (name, none), value :: rest =>
        return (← scan forms mixed rest).after (flagsOf w ++ [(name, value)])
      | some (name, none), [] => throw (.missingValue name)
    else if mixed then do
      let o ← scan forms mixed rest
      return { o with arguments := word :: o.arguments }
    else .ok { arguments := word :: rest }

/-! ## Values -/

/-- Whether an option was given. -/
def has (o : Options) (name : String) : Bool :=
  o.given.any fun entry => entry.1 == name

/-- The value of an option, if it was given. -/
def value? (o : Options) (name : String) : Option String :=
  o.given.reverse.lookup name

/-- The value of an option that has to be given. -/
def required (o : Options) (name : String) : Except UsageError String :=
  match o.value? name with
  | some value => .ok value
  | none => .error (.missingOption name)

/-- The value of an option read in some way, if it was given. -/
def read? {α : Type} (o : Options) (name : String) (reading : String → Option α) :
    Except UsageError (Option α) :=
  match o.value? name with
  | none => .ok none
  | some text =>
    match reading text with
    | some value => .ok (some value)
    | none => .error (.badValue name text)

/-- The whole number of an option. -/
def whole (o : Options) (name : String) (default : Int) : Except UsageError Int :=
  (o.read? name Reading.whole?).map fun value => value.getD default

/-- The number of an option. -/
def real (o : Options) (name : String) (default : Float) : Except UsageError Float :=
  (o.read? name Reading.double?).map fun value => value.getD default

/-- The only argument. -/
def onlyArgument (o : Options) (name : String) : Except UsageError String :=
  match o.arguments with
  | [argument] => .ok argument
  | [] => .error (.missingArgument name)
  | _ => .error .extraArguments

/-- Passes when there are no arguments. -/
def noArguments (o : Options) : Except UsageError Unit :=
  if o.arguments.isEmpty then .ok () else .error .extraArguments

end Options

end TradeRules
