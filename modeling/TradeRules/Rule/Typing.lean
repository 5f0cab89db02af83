import TradeRules.Rule.Construction

/-!
# Typing

Each operation has a rule that says which kinds of operands fit and which kind the result has.
`Expr.check` applies the rules from the leaves up, left to right, and stops at the first node whose
own rule is broken.  A broken rule is reported as a `Mismatch`: the node, and how its operands fail
to fit.
-/

namespace TradeRules

/-- How the operands of a node fail to fit. -/
inductive MismatchCause where
  | needsBoolean (got : Kind)
  | needsNumber (got : Kind)
  | operandsDiffer (left right : Kind)
  | needsNumbers (got : Kind)
  | needsTwoNumbers (left right : Kind)
  | needsBooleans (left right : Kind)
  | conditionKind (got : Kind)
  | branchesDiffer (left right : Kind)
  | branchesQuote (got : Kind)
  | needsQuote (got : Kind)
  | needsInteger (position : Nat) (got : Kind)
  | smoothingKind (got : Kind)
deriving DecidableEq, Repr

/-- The wording of a cause. -/
def MismatchCause.message : MismatchCause → String
  | .needsBoolean k => "expected BOOLEAN, got " ++ k.name
  | .needsNumber k => "expected a number, got " ++ k.name
  | .operandsDiffer j k => "operands have different types " ++ j.name ++ " and " ++ k.name
  | .needsNumbers k => "expected numbers, got " ++ k.name
  | .needsTwoNumbers j k => "expected numbers, got " ++ j.name ++ " and " ++ k.name
  | .needsBooleans j k => "expected BOOLEAN operands, got " ++ j.name ++ " and " ++ k.name
  | .conditionKind k => "condition must be BOOLEAN, got " ++ k.name
  | .branchesDiffer j k => "branches have different types " ++ j.name ++ " and " ++ k.name
  | .branchesQuote k => "branches cannot have quote type " ++ k.name
  | .needsQuote k => "first argument must be a quote, got " ++ k.name
  | .needsInteger position k =>
    "argument " ++ toString position ++ " must be INTEGER, got " ++ k.name
  | .smoothingKind k => "smoothing must be FLOAT, got " ++ k.name

/-- A node whose rule is broken, and how. -/
structure Mismatch where
  /-- The node. -/
  node : Expr
  /-- How its operands fail to fit. -/
  cause : MismatchCause
deriving DecidableEq

/-- The message of a mismatch. -/
def Mismatch.message (m : Mismatch) : String :=
  "Type mismatch in '" ++ m.node.text ++ "': " ++ m.cause.message

/-! ## The rules -/

/-- The kind of an operation on one operand. -/
def Unary.rule : Unary → Kind → Except MismatchCause Kind
  | .not, k => if k = .boolean then .ok .boolean else .error (.needsBoolean k)
  | .sqrt, k | .abs, k => if k.isNumeric then .ok k else .error (.needsNumber k)

/-- The common numeric kind of two operands. -/
def commonNumber (j k : Kind) : Except MismatchCause Kind :=
  if j ≠ k then .error (.operandsDiffer j k)
  else if j.isNumeric then .ok j
  else .error (.needsNumbers j)

/-- Passes when the argument at a position is a whole number. -/
def integerAt (position : Nat) (k : Kind) : Except MismatchCause Unit :=
  if k = .integer then .ok () else .error (.needsInteger position k)

/-- The kind of a statistic of the first argument, which has to be a quote.  The rest of the rule
is checked before the kind is given. -/
def quoteRule (k : Kind) (rest : Except MismatchCause Unit) : Except MismatchCause Kind :=
  match k.ofQuote? with
  | some number => rest.map fun _ => number
  | none => .error (.needsQuote k)

/-- The kind of an operation on two operands. -/
def Binary.rule : Binary → Kind → Kind → Except MismatchCause Kind
  | .arithmetic _, j, k => commonNumber j k
  | .comparison _, j, k => (commonNumber j k).map fun _ => .boolean
  | .connective _, j, k =>
    if j = .boolean ∧ k = .boolean then .ok .boolean else .error (.needsBooleans j k)
  | .percent, j, k =>
    if j.isNumeric && k.isNumeric then .ok j else .error (.needsTwoNumbers j k)
  | .lag, j, k => quoteRule j (integerAt 2 k)
  | .rsi, j, k => do
    integerAt 1 j
    integerAt 2 k
    return .float

/-- The kind of an operation on three operands. -/
def Ternary.rule : Ternary → Kind → Kind → Kind → Except MismatchCause Kind
  | .choice, c, j, k =>
    if c ≠ .boolean then .error (.conditionKind c)
    else if j ≠ k then .error (.branchesDiffer j k)
    else if j.isQuote then .error (.branchesQuote j)
    else .ok j
  | .statistic _, j, p, o => quoteRule j (do integerAt 2 p; integerAt 3 o)
  | .correlation _, j, p, o =>
    (quoteRule j (do integerAt 2 p; integerAt 3 o)).map fun _ => .float

/-- The kind of an operation on four operands. -/
def Quaternary.rule : Quaternary → Kind → Kind → Kind → Kind → Except MismatchCause Kind
  | .ema, j, p, o, s =>
    quoteRule j do
      integerAt 2 p
      integerAt 3 o
      if s = .float then .ok () else .error (.smoothingKind s)

/-! ## Checking -/

namespace Expr

/-- The kind of an expression, or the first node whose rule is broken. -/
def check : Expr → Except Mismatch Kind
  | .leaf l => .ok l.kind
  | .unary op a => do
    let j ← a.check
    (op.rule j).mapError (⟨.unary op a, ·⟩)
  | .binary op a b => do
    let j ← a.check
    let k ← b.check
    (op.rule j k).mapError (⟨.binary op a b, ·⟩)
  | .ternary op a b c => do
    let j ← a.check
    let k ← b.check
    let l ← c.check
    (op.rule j k l).mapError (⟨.ternary op a b c, ·⟩)
  | .quaternary op a b c d => do
    let j ← a.check
    let k ← b.check
    let l ← c.check
    let m ← d.check
    (op.rule j k l m).mapError (⟨.quaternary op a b c d, ·⟩)

/-- Whether an expression is well typed with the given kind. -/
def HasKind (e : Expr) (k : Kind) : Prop :=
  e.check = .ok k

end Expr

end TradeRules
