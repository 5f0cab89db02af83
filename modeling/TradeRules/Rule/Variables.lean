import TradeRules.Number.Form
import TradeRules.Rule.Kind

/-!
# Variables

The variables a rule may refer to, in the order of their declaration.  A variable has a value kind,
a current value, and may be constant.  A name is declared at most once.
-/

namespace TradeRules

/-- A declared variable. -/
structure Variable where
  /-- The name in rules. -/
  name : String
  /-- The declared kind. -/
  kind : ValueKind
  /-- Whether its value can no longer change. -/
  constant : Bool
  /-- The current value. -/
  value : Float

/-- Why an operation on variables fails. -/
inductive VariableError where
  | redeclared (name : String)
  | quoteKind (name : String)
  | undefined (name : String)
  | constant (name : String)
deriving DecidableEq, Repr

/-- The message of an error about variables. -/
def VariableError.message : VariableError → String
  | .redeclared name => "Variable already declared: " ++ name
  | .quoteKind name => "Variable " ++ name ++ " cannot have quote type"
  | .undefined name => "Undefined variable: " ++ name
  | .constant name => "Cannot assign to constant variable: " ++ name

/-- The declared variables, oldest first. -/
structure Variables where
  /-- The variables. -/
  toList : List Variable := []

namespace Variables

/-- No variables. -/
def empty : Variables :=
  {}

/-- The variable with a name. -/
def get? (vs : Variables) (name : String) : Option Variable :=
  vs.toList.find? fun v => v.name == name

/-- Whether a name is declared. -/
def contains (vs : Variables) (name : String) : Bool :=
  (vs.get? name).isSome

/-- The declared names. -/
def names (vs : Variables) : List String :=
  vs.toList.map Variable.name

/-- The variables with one more declared last. -/
def declare (vs : Variables) (name : String) (kind : Kind) (constant : Bool) (value : Float) :
    Except VariableError (Variable × Variables) :=
  if vs.contains name then .error (.redeclared name)
  else
    match kind.toValueKind? with
    | none => .error (.quoteKind name)
    | some k =>
      let v : Variable := { name, kind := k, constant, value }
      .ok (v, ⟨vs.toList ++ [v]⟩)

/-- The value of a variable. -/
def value (vs : Variables) (name : String) : Except VariableError Float :=
  match vs.get? name with
  | some v => .ok v.value
  | none => .error (.undefined name)

/-- The variables with the value of one replaced, whether it may change or not. -/
def put (vs : Variables) (name : String) (value : Float) : Variables :=
  ⟨vs.toList.map fun v => if v.name == name then { v with value } else v⟩

/-- The variables after an assignment. -/
def assign (vs : Variables) (name : String) (value : Float) : Except VariableError Variables :=
  match vs.get? name with
  | none => .error (.undefined name)
  | some v => if v.constant then .error (.constant name) else .ok (vs.put name value)

/-- The names in parentheses. -/
def text (vs : Variables) : String :=
  "Variables(" ++ ", ".intercalate vs.names ++ ")"

/-- The name of the variable that counts the days a stock has been held. -/
def heldName : String :=
  "held"

/-- The name of the variable that counts the symbols considered before on the same day. -/
def orderName : String :=
  "order"

/-- The variables of trading rules. -/
def ofRule (held order : Float) : Variables :=
  ⟨[{ name := heldName, kind := .integer, constant := false, value := held },
    { name := orderName, kind := .integer, constant := false, value := order }]⟩

end Variables

end TradeRules
