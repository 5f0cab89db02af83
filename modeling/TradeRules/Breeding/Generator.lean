import TradeRules.Breeding.Choice
import TradeRules.Breeding.Settings

/-!
# Random rules

A generator makes random trees of a given kind.  The level of a node is its distance from the root,
counted from where the caller says.  A tree at a level branches with a chance that falls with the
level, and below the last level there are only leaves.  A BOOLEAN tree always branches, since a
truth value on its own is worth nothing: below the last level it is a comparison of two leaves.

The operands of a new node are new trees one level deeper.  A node may instead be made after a
model, whose operands are then taken over where their kinds fit.  A number made after a number is
most often that number moved by some step, of any order of magnitude.

`Generator.operandsAt` recurs on the number of levels that are left, so every tree is finite and its
depth is bounded.
-/

namespace TradeRules

/-- What random rules are made of. -/
structure Generator where
  /-- The weights of leaves and operations. -/
  weights : Weights := {}
  /-- The last level and the chances of mutations. -/
  settings : BreedingSettings := {}
  /-- Whether rules may read how long a stock has been held. -/
  allowHeld : Bool := false
  /-- Whether rules may read how many symbols were considered before. -/
  allowOrder : Bool := false
  /-- The partners of correlations; there are no correlations without any. -/
  symbols : List Symbol := []

/-! ## What the names in the tables stand for -/

/-- The INTEGER leaves. -/
inductive IntegerLeaf where
  | number
  | held
  | order
  | date (part : DatePart)
deriving DecidableEq, Repr

/-- The INTEGER leaf of a name. -/
def IntegerLeaf.ofName? (name : String) : Option IntegerLeaf :=
  if name = "number" then some .number
  else if name = Variables.heldName then some .held
  else if name = Variables.orderName then some .order
  else
    ([DatePart.day, .dayOfWeek, .dayOfYear, .month].find? fun part => part.word == name).map .date

/-- The BOOLEAN operations. -/
inductive BooleanOperation where
  | not
  | connective (op : Connective)
  | comparison (op : Comparison)
deriving DecidableEq, Repr

/-- The comparison of a name. -/
def Comparison.ofName? (name : String) : Option Comparison :=
  [Comparison.equal, .greaterEqual, .greater, .lessEqual, .less, .notEqual].find? fun op =>
    op.sign == name

/-- The BOOLEAN operation of a name. -/
def BooleanOperation.ofName? (name : String) : Option BooleanOperation :=
  if name = Unary.not.word then some .not
  else if name = Connective.and.word then some (.connective .and)
  else if name = Connective.or.word then some (.connective .or)
  else (Comparison.ofName? name).map .comparison

/-- The numeric operations. -/
inductive NumericOperation where
  /-- No operation but a leaf. -/
  | leaf
  | unary (op : Unary)
  | arithmetic (op : Arithmetic)
  | percent
  | choice
  | lag
  | statistic (s : Statistic)
  | ema
  | rsi
  | correlation
deriving DecidableEq, Repr

/-- The numeric operations with their names. -/
def NumericOperation.named : List (String × NumericOperation) :=
  [("terminal", .leaf)]
    ++ [Arithmetic.add, .subtract, .multiply, .divide].map (fun op => (op.sign, .arithmetic op))
    ++ [Unary.sqrt, .abs].map (fun op => (op.word, .unary op))
    ++ [("percent", .percent), ("if", .choice), ("lag", .lag)]
    ++ [Statistic.average, .minimum, .maximum, .total, .deviation, .lowerBand, .upperBand].map
      (fun s => (s.word, .statistic s))
    ++ [("ema", .ema), ("rsi", .rsi), ("corr", .correlation)]

/-- The numeric operation of a name. -/
def NumericOperation.ofName? (name : String) : Option NumericOperation :=
  named.lookup name

/-! ## Operands -/

/-- Where the operands of a new node come from. -/
structure Supply where
  /-- A tree whose operands are taken over where they fit. -/
  model : Option Expr
  /-- A new operand of a kind. -/
  grow : Kind → Draw Expr

namespace Supply

/-- The operand of the model at an index with its kind, if it has one. -/
def modelled (s : Supply) (index : Nat) : Draw (Option (Expr × Kind)) :=
  match s.model.bind fun m => m.operands[index]? with
  | none => return none
  | some a => do return some (a, ← Draw.built a.declaredKind)

/-- The operand at an index, of a given kind. -/
def operand (s : Supply) (index : Nat) (kind : Kind) : Draw Expr := do
  match ← s.modelled index with
  | some (a, k) => if k = kind then return a else s.grow kind
  | none => s.grow kind

end Supply

namespace Generator

/-! ## Leaves -/

/-- Half of the range that random numbers come from. -/
def reach : Nat :=
  50

/-- The weights of the INTEGER leaves that may be generated. -/
def integerTable (g : Generator) : WeightTable :=
  let table := g.weights.integerLeaves
  let table := if g.allowHeld then table else table.without [Variables.heldName]
  if g.allowOrder then table else table.without [Variables.orderName]

/-- A variable of trading rules. -/
def countVariable (name : String) : Expr :=
  .leaf (.variable name .integer)

/-- A number as an expression of a kind. -/
def literal (kind : Kind) (value : Numeral) : Draw Expr := do
  return .number (← Draw.built (Literal.build kind value))

/-- A random leaf of a kind. -/
def leaf (g : Generator) : Kind → Draw Expr
  | .boolean => do return .truth ((← Draw.below 2) == 0)
  | .float => do
    let x ← Draw.unit
    literal .float (.real (Double.ofNat reach - x * Double.ofNat (2 * reach)))
  | .integer => do
    let name ← Draw.choose g.integerTable
    match IntegerLeaf.ofName? name with
    | some .number =>
      let n ← Draw.below (2 * reach)
      literal .integer (.whole ((reach : Int) - n))
    | some .held => return countVariable Variables.heldName
    | some .order => return countVariable Variables.orderName
    | some (.date part) => return .leaf (.date part)
    | none => throw (.unknownName name)
  | .floatQuote => do Draw.built (Expr.buildQuote (← Draw.choose g.weights.floatQuotes))
  | .integerQuote => return .quote .volume

/-- The quote that a statistic of a kind reads. -/
def quote (g : Generator) (kind : Kind) : Draw Expr :=
  g.leaf (if kind = .float then .floatQuote else .integerQuote)

/-- A random kind of numbers. -/
def numericKind (g : Generator) : Draw Kind := do
  return if (← Draw.choose g.weights.numericOperands) = "float" then .float else .integer

/-- The operand at an index, of any numeric kind. -/
def numericOperand (g : Generator) (s : Supply) (index : Nat) : Draw Expr := do
  match ← s.modelled index with
  | some (a, k) => if k.isNumeric then return a else s.grow (← g.numericKind)
  | none => s.grow (← g.numericKind)

/-! ## BOOLEAN operations -/

/-- A comparison of two leaves. -/
def leafComparison (g : Generator) : Draw Expr := do
  let table : WeightTable := g.weights.booleanOperations.filter fun entry =>
    (Comparison.ofName? entry.1).isSome
  let op ←
    if table.positive.isEmpty then pure .greater
    else do
      let name ← Draw.choose table
      pure ((Comparison.ofName? name).getD .greater)
  let kind ← g.numericKind
  let a ← g.leaf kind
  let b ← g.leaf kind
  return .comparison op a b

/-- Two operands of one numeric kind. -/
def compared (g : Generator) (s : Supply) : Draw (Expr × Expr) := do
  let a ← g.numericOperand s 0
  let b ← s.operand 1 (← Draw.built a.declaredKind)
  return (a, b)

/-- A random BOOLEAN operation. -/
def booleanNode (g : Generator) (s : Supply) : Draw Expr := do
  let name ← Draw.choose g.weights.booleanOperations
  match BooleanOperation.ofName? name with
  | some .not => return .not (← s.operand 0 .boolean)
  | some (.connective op) =>
    let a ← s.operand 0 .boolean
    let b ← s.operand 1 .boolean
    return .connective op a b
  | some (.comparison op) =>
    let (a, b) ← g.compared s
    return .comparison op a b
  | none =>
    let _ ← g.compared s
    throw (.unknownName name)

/-! ## Numeric operations -/

/-- The chance in percent that a number made after a number is moved from it. -/
def favourPercent : Nat :=
  85

/-- The steps by which numbers are moved are powers of ten below this exponent. -/
def stepExponent : Float :=
  6.0

/-- A number moved by a random step. -/
def nudge (l : Literal) (kind : Kind) : Draw Expr := do
  let size := Float.pow 10.0 ((← Draw.unit) * stepExponent)
  let way ← Draw.unit
  let x := l.toDouble + (if way < 0.5 then -size else size)
  if kind = .integer && x.isFinite then literal kind (.whole (Double.roundHalfEven x))
  else literal kind (.real x)

/-- A random smoothing constant. -/
def smoothing : Draw Expr := do
  let x ← Draw.unit
  literal .float (.real (Smoothing.least + (Smoothing.greatest - Smoothing.least) * x))

/-- The names of the operations that are FLOAT only. -/
def floatOnly : List String :=
  ["rsi", "corr"]

/-- The weights of the operations with results of a kind. -/
def numericTable (g : Generator) (kind : Kind) : WeightTable :=
  let table := g.weights.numericOperations
  let table := if kind = .integer then table.without floatOnly else table
  if g.symbols.isEmpty then table.without ["corr"] else table

/-- A random partner of a correlation. -/
def partner (g : Generator) : Draw String :=
  match g.symbols with
  | [] => throw .noPartner
  | symbol :: rest => do return (← Draw.pick symbol rest).code

/-- A numeric operation with random operands and a result of the given kind. -/
def operation (g : Generator) (kind : Kind) (s : Supply) : NumericOperation → Draw Expr
  | .leaf => g.leaf kind
  | .unary op => do return .unary op (← s.operand 0 kind)
  | .arithmetic op => do
    let a ← s.operand 0 kind
    let b ← s.operand 1 kind
    return .arithmetic op a b
  | .percent => do
    let a ← s.operand 0 kind
    let b ← g.numericOperand s 1
    return .binary .percent a b
  | .choice => do
    let condition ← s.operand 0 .boolean
    let a ← s.operand 1 kind
    let b ← s.operand 2 kind
    return .choice condition a b
  | .lag => do
    let q ← g.quote kind
    let offset ← s.operand 1 .integer
    return .binary .lag q offset
  | .statistic statistic => do
    let q ← g.quote kind
    let period ← s.operand 1 .integer
    let offset ← s.operand 2 .integer
    return .ternary (.statistic statistic) q period offset
  | .ema => do
    let q ← g.quote kind
    let period ← s.operand 1 .integer
    let offset ← s.operand 2 .integer
    return .quaternary .ema q period offset (← smoothing)
  | .rsi => do
    let period ← s.operand 0 .integer
    let offset ← s.operand 1 .integer
    return .binary .rsi period offset
  | .correlation => do
    let partner ← g.partner
    let q ← g.quote kind
    let period ← s.operand 1 .integer
    let offset ← s.operand 2 .integer
    return .ternary (.correlation partner) q period offset

/-- A random numeric operation with a result of the given kind. -/
def numericNode (g : Generator) (kind : Kind) (s : Supply) : Draw Expr := do
  let name ← Draw.choose (g.numericTable kind)
  match NumericOperation.ofName? name with
  | some op => g.operation kind s op
  | none => throw (.unknownOperation name)

/-! ## Trees -/

/-- A number moved from the model, if the model is a number and the dice favour it. -/
def nudged (model : Option Expr) (kind : Kind) : Draw (Option Expr) :=
  match model with
  | some (.number l) => do
    if (← Draw.below 100) < favourPercent then return some (← nudge l kind) else return none
  | _ => return none

/-- A tree that branches if it can, made after a model if there is one.  Without new operands it
has only leaves. -/
def branchWith (g : Generator) (kind : Kind) (model : Option Expr)
    (grow : Option (Kind → Draw Expr)) : Draw Expr :=
  if kind = .boolean then
    match grow with
    | none => g.leafComparison
    | some grow => g.booleanNode { model, grow }
  else if kind.isNumeric then do
    match ← nudged model kind with
    | some e => return e
    | none =>
      match grow with
      | none => g.leaf kind
      | some grow => g.numericNode kind { model, grow }
  else g.leaf kind

/-- The chance in percent that a tree at level 1 branches. -/
def branchPercent : Float :=
  80.0

/-- Whether a tree at a level branches.  Above level 1 it always does. -/
def branches (level : Int) : Draw Bool :=
  if level < 1 then return true
  else do return (← Draw.unit) * 100.0 < branchPercent / Double.ofInt level

/-- A tree at a level, made after a model if there is one. -/
def treeWith (g : Generator) (kind : Kind) (level : Int) (model : Option Expr)
    (grow : Option (Kind → Draw Expr)) : Draw Expr := do
  if (← branches level) || kind = .boolean then g.branchWith kind model grow else g.leaf kind

/-- New operands at a level, given the number of levels left from it on; none below the last
level. -/
def operandsAt (g : Generator) : Nat → Int → Option (Kind → Draw Expr)
  | 0, _ => none
  | room + 1, level =>
    some fun kind => g.treeWith kind level none (g.operandsAt room (level + 1))

/-- The number of levels from a level to the last. -/
def room (g : Generator) (level : Int) : Nat :=
  (g.settings.maxLevel + 1 - level).toNat

/-- A random tree of a kind that branches if it can, with its operands at a level. -/
def branch (g : Generator) (kind : Kind) (level : Int) (model : Option Expr) : Draw Expr :=
  g.branchWith kind model (g.operandsAt (g.room level) level)

/-- A random tree of a kind at a level. -/
def tree (g : Generator) (kind : Kind) (level : Int) (model : Option Expr) : Draw Expr :=
  g.treeWith kind level model (g.operandsAt (g.room (level + 1)) (level + 1))

end Generator

end TradeRules
