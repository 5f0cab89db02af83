import TradeRules.Proofs.Double.Number
import TradeRules.Proofs.Trading.Run

/-!
# Orders change all or nothing

An order looks up a price, may be given up, and then changes cash, positions and log one after the
other.  `Portfolio.openSteps` and `Portfolio.closeSteps` are these steps, each on the portfolio that the
step before left, so what is changed before a failure stays changed (`Steps`).  `Trader.turnSteps` are
the steps of a turn.  It passes over an order without an opening price and goes on with the portfolio as
it was left.

The steps are what `Portfolio.buy`, `Portfolio.sell` and `Trader.step` say: nothing is changed before the
last failure that is possible (`outcome_openSteps`, `outcome_closeSteps`, `outcome_turnSteps`).  So an
order either fills or leaves the portfolio as it was (`Trader.orders_are_atomic`).
-/

namespace TradeRules

/-! ## Steps on a portfolio -/

/-- Steps that change a portfolio and may fail, with the changes up to the failure. -/
abbrev Steps (ε α : Type) : Type :=
  ExceptT ε (StateM Portfolio) α

namespace Steps

variable {ε α β : Type} {p : Portfolio}

/-- How steps end, and the portfolio they leave. -/
def outcome (m : Steps ε α) (p : Portfolio) : Except ε α × Portfolio :=
  m.run p

/-- A computation that reads no portfolio and changes none, as a step. -/
def of (x : Except ε α) : Steps ε α :=
  ExceptT.mk (pure x)

@[simp] theorem outcome_mk (f : Portfolio → Except ε α × Portfolio) :
    outcome (ExceptT.mk f) p = f p :=
  rfl

@[simp] theorem outcome_of (x : Except ε α) : (of x).outcome p = (x, p) :=
  rfl

@[simp] theorem outcome_get : (get : Steps ε Portfolio).outcome p = (.ok p, p) :=
  rfl

theorem outcome_bind (m : Steps ε α) (f : α → Steps ε β) :
    (m >>= f).outcome p =
      match m.outcome p with
      | (.ok a, p') => (f a).outcome p'
      | (.error e, p') => (.error e, p') := by
  show (ExceptT.bind m f).run p = _
  unfold outcome ExceptT.bind ExceptT.run ExceptT.mk
  simp only [bind, StateT.bind]
  cases m p with
  | mk result next => cases result <;> rfl

end Steps

/-! ## The steps of an order -/

namespace Portfolio

/-- The steps of a purchase at the open of a day. -/
def openSteps (source : Source) (amount fee : Float) (symbol : Symbol) (day : Int) :
    Steps OrderError (Option Position) := do
  let price ← Steps.of ((source.quote symbol .opening day).mapError .missing)
  if price ≤ 0.0 then return none
  let shares ← Steps.of (affordable amount price)
  let spent := cost shares price fee
  let p ← get
  if shares = 0 ∨ p.cash < spent then return none
  modify fun p => { p with cash := p.cash - spent }
  let x : Position := { symbol, shares, entryPrice := price, entryDay := day }
  modify fun p => { p with positions := putPosition p.positions x }
  modify fun p => { p with trades := p.trades ++ [{ symbol, day, shares, price, side := .buy }] }
  return some x

/-- The steps of the sale of a position at the open of a day. -/
def closeSteps (source : Source) (fee : Float) (symbol : Symbol) (day : Int) :
    Steps OrderError (Option Trade) := do
  let p ← get
  match p.position? symbol with
  | none => return none
  | some x =>
    let price ← Steps.of ((source.quote symbol .opening day).mapError .missing)
    modify fun p => { p with cash := p.cash + proceeds x.shares price fee }
    modify fun p => { p with positions := p.positions.filter fun y => y.symbol != symbol }
    let t : Trade := { symbol, day, shares := x.shares, price, side := .sell }
    modify fun p => { p with trades := p.trades ++ [t] }
    return some t

/-- What an order comes to when a failure leaves the portfolio as it was. -/
def settled {ε α : Type} (p : Portfolio) (order : Except ε (α × Portfolio)) :
    Except ε α × Portfolio :=
  match order with
  | .ok (a, p') => (.ok a, p')
  | .error e => (.error e, p)

variable {p p' : Portfolio} {source : Source} {amount fee price : Float} {symbol : Symbol}
  {day shares : Int}

/-- A purchase is its steps. -/
theorem outcome_openSteps :
    (openSteps source amount fee symbol day).outcome p =
      settled p (p.buy source amount fee symbol day) := by
  unfold openSteps buy
  rw [Steps.outcome_bind, Steps.outcome_of]
  cases hprice : (source.quote symbol .opening day).mapError OrderError.missing with
  | error e => rfl
  | ok price =>
    rw [bind_of_ok rfl]
    dsimp only
    split_ifs with hfree
    · rfl
    · rw [Steps.outcome_bind, Steps.outcome_of]
      cases hshares : affordable amount price with
      | error e => rfl
      | ok shares =>
        rw [bind_of_ok rfl]
        dsimp only
        rw [Steps.outcome_bind, Steps.outcome_get]
        dsimp only
        split_ifs with hnone
        · rfl
        · rfl

/-- A sale is its steps. -/
theorem outcome_closeSteps :
    (closeSteps source fee symbol day).outcome p = settled p (p.sell source fee symbol day) := by
  unfold closeSteps sell
  rw [Steps.outcome_bind, Steps.outcome_get]
  dsimp only
  cases p.position? symbol with
  | none => rfl
  | some x =>
    dsimp only
    rw [Steps.outcome_bind, Steps.outcome_of]
    cases (source.quote symbol .opening day).mapError OrderError.missing with
    | error e => rfl
    | ok price => rfl

/-! ## Orders that are filled -/

/-- A price at which shares are counted is a number, and so is their number. -/
theorem affordable_eq_ok (h : affordable amount price = .ok shares) :
    price.isNaN = false ∧ (Double.ofInt shares).isFinite = true := by
  unfold affordable at h
  dsimp only at h
  split_ifs at h with hnan hinf
  cases h
  rw [Bool.not_eq_true] at hnan hinf
  exact ⟨Double.isNaN_of_floorQuotient hnan,
    (Double.ofInt_truncate (Double.isFinite_of_not hnan hinf)).1⟩

/-- A purchase that is filled from finite cash for a finite fee leaves cash that is not negative. -/
theorem Purchased.cash_nonneg {b : Trade} (h : Purchased source amount fee b p p')
    (hcash : p.cash.isFinite = true) (hfee : fee.isFinite = true) : 0.0 ≤ p'.cash := by
  obtain ⟨hprice, hshares⟩ := affordable_eq_ok h.counted
  have hvalue : (Double.ofInt b.shares * b.price).isNaN = false :=
    Double.isNaN_mul hshares (Double.ofInt_exact_ne_zero h.shares hshares) hprice
  have hcost : (cost b.shares b.price fee).isNaN = false := Double.isNaN_add hvalue hfee
  have hleft : (p.cash - cost b.shares b.price fee).isNaN = false := Double.isNaN_sub hcash hcost
  rw [h.result]
  exact Double.le_of_not_lt hleft (by decide +kernel) (Double.not_sub_lt_zero h.paid)

/-- When no symbol is held twice, a sale takes one position out. -/
theorem filter_symbol_ne {front back : List Position} {x : Position}
    (h : ((front ++ x :: back).map Position.symbol).Nodup) :
    ((front ++ x :: back).filter fun y => y.symbol != x.symbol) = front ++ back := by
  rw [List.map_append, List.map_cons, List.nodup_middle, List.nodup_cons, List.mem_append, not_or] at h
  have hfront : ∀ y ∈ front, y.symbol ≠ x.symbol := fun y hy hsame =>
    h.1.1 (hsame ▸ List.mem_map_of_mem hy)
  have hback : ∀ y ∈ back, y.symbol ≠ x.symbol := fun y hy hsame =>
    h.1.2 (hsame ▸ List.mem_map_of_mem hy)
  rw [List.filter_append, List.filter_cons_of_neg (by simp),
    List.filter_eq_self.mpr fun y hy => bne_iff_ne.mpr (hfront y hy),
    List.filter_eq_self.mpr fun y hy => bne_iff_ne.mpr (hback y hy)]

/-! ## All or nothing -/

/-- How a purchase may change a portfolio. -/
structure PurchaseIsAtomic (source : Source) (fee : Float) (symbol : Symbol) (day : Int) (p : Portfolio)
    (result : Except OrderError (Option Position)) (p' : Portfolio) : Prop where
  failed : ∀ e, result = .error e → p' = p
  declined : result = .ok none → p' = p
  /-- When the symbol is not held, one position and one trade are added, and the cash pays for it. -/
  filled : ∀ x, result = .ok (some x) → p.position? symbol = none →
    ∃ b : Trade, b.symbol = symbol ∧ b.day = day ∧ b.side = .buy ∧
      source.quote symbol .opening day = .ok b.price ∧ x = b.opened ∧
      p' =
        { cash := b.settle fee p.cash
          positions := p.positions ++ [x]
          trades := p.trades ++ [b] }
  solvent : ∀ x, result = .ok (some x) → p.cash.isFinite = true → fee.isFinite = true →
    0.0 ≤ p'.cash

/-- How a sale may change a portfolio. -/
structure SaleIsAtomic (source : Source) (fee : Float) (symbol : Symbol) (day : Int) (p : Portfolio)
    (result : Except OrderError (Option Trade)) (p' : Portfolio) : Prop where
  failed : ∀ e, result = .error e → p' = p
  declined : result = .ok none → p' = p
  /-- One position is taken out, one trade is added, and the cash is paid. -/
  filled : ∀ b, result = .ok (some b) → (p.positions.map Position.symbol).Nodup →
    ∃ x front back, p.positions = front ++ x :: back ∧ x.symbol = symbol ∧
      b.symbol = symbol ∧ b.day = day ∧ b.shares = x.shares ∧ b.side = .sell ∧
      source.quote symbol .opening day = .ok b.price ∧
      p' =
        { cash := b.settle fee p.cash
          positions := front ++ back
          trades := p.trades ++ [b] }

theorem openSteps_isAtomic {result : Except OrderError (Option Position)}
    (h : (openSteps source amount fee symbol day).outcome p = (result, p')) :
    PurchaseIsAtomic source fee symbol day p result p' := by
  rw [outcome_openSteps] at h
  cases hbuy : p.buy source amount fee symbol day with
  | error e =>
    rw [hbuy] at h
    cases h
    exact { failed := fun _ _ => rfl, declined := nofun, filled := nofun, solvent := nofun }
  | ok order =>
    obtain ⟨found, next⟩ := order
    rw [hbuy] at h
    cases h
    rcases buy_eq_ok hbuy with ⟨rfl, rfl⟩ | ⟨b, rfl, rfl, rfl, hfilled⟩
    · exact { failed := nofun, declined := fun _ => rfl, filled := nofun, solvent := nofun }
    · refine
        { failed := nofun
          declined := nofun
          filled := fun x hx hfree => ?_
          solvent := fun _ _ hcash hfee => hfilled.cash_nonneg hcash hfee }
      cases hx
      refine ⟨b, rfl, rfl, hfilled.side, hfilled.quoted, rfl, ?_⟩
      rw [hfilled.result, putPosition_free (x := b.opened) (free_of_position? hfree), Trade.settle,
        hfilled.side]
      rfl

theorem closeSteps_isAtomic {result : Except OrderError (Option Trade)}
    (h : (closeSteps source fee symbol day).outcome p = (result, p')) :
    SaleIsAtomic source fee symbol day p result p' := by
  rw [outcome_closeSteps] at h
  cases hsell : p.sell source fee symbol day with
  | error e =>
    rw [hsell] at h
    cases h
    exact { failed := fun _ _ => rfl, declined := nofun, filled := nofun }
  | ok order =>
    obtain ⟨found, next⟩ := order
    rw [hsell] at h
    cases h
    rcases sell_eq_ok hsell with ⟨rfl, rfl⟩ | ⟨x, price, rfl, hsold⟩
    · exact { failed := nofun, declined := fun _ => rfl, filled := nofun }
    · refine { failed := nofun, declined := nofun, filled := fun b hb hdistinct => ?_ }
      cases hb
      obtain ⟨hmem, rfl⟩ := mem_of_position? hsold.held
      obtain ⟨front, back, hsplit⟩ := List.append_of_mem hmem
      rw [hsplit] at hdistinct
      refine ⟨x, front, back, hsplit, rfl, rfl, rfl, rfl, rfl, hsold.quoted, ?_⟩
      rw [hsold.result, hsplit, filter_symbol_ne hdistinct]
      rfl

end Portfolio

/-! ## The steps of a run -/

/-- The steps of an order in a turn.  An order without an opening price is passed over, and the turn goes
on with the portfolio as the order left it. -/
def Steps.passOver {α : Type} (order : Steps OrderError α) : Steps TradeError Unit :=
  ExceptT.mk fun p =>
    match order.outcome p with
    | (.ok _, p') => (.ok (), p')
    | (.error (.missing _), p') => (.ok (), p')
    | (.error e, p') => (.error (.order e), p')

namespace Trader

variable {t : Trader} {rules : Rules} {turn : Turn} {turns : List Turn} {p : Portfolio}

/-- The steps of a turn. -/
def turnSteps (t : Trader) (rules : Rules) (turn : Turn) : Steps TradeError Unit := do
  let p ← get
  match p.position? turn.symbol with
  | some x =>
    let held := turn.day - x.entryDay
    let sell ← Steps.of (t.signal rules.sell turn held)
    if sell then
      let buy ← Steps.of (t.signal rules.buy turn held)
      if buy then return ()
      else
        Steps.passOver
          (Portfolio.closeSteps t.source t.settings.tradeCost turn.symbol (turn.day + 1))
    else return ()
  | none =>
    if t.hasRoom p then
      let buy ← Steps.of (t.signal rules.buy turn 0)
      if buy then
        Steps.passOver
          (Portfolio.openSteps t.source t.settings.stockValue t.settings.tradeCost turn.symbol
            (turn.day + 1))
      else return ()
    else return ()

/-- The steps of some turns. -/
def followSteps (t : Trader) (rules : Rules) : List Turn → Steps TradeError Unit
  | [] => return ()
  | turn :: rest => do
    t.turnSteps rules turn
    t.followSteps rules rest

/-- What a turn comes to, in the form in which steps end. -/
def ended (p : Portfolio) (next : Except TradeError Portfolio) : Except TradeError Unit × Portfolio :=
  Portfolio.settled p (next.map fun p' => ((), p'))

/-- What some turns come to, in that form. -/
def followed : Portfolio × Option TradeError → Except TradeError Unit × Portfolio
  | (p, none) => (.ok (), p)
  | (p, some e) => (.error e, p)

theorem outcome_passOver {α : Type} {order : Except OrderError (α × Portfolio)}
    {m : Steps OrderError α} (h : m.outcome p = Portfolio.settled p order) :
    m.passOver.outcome p = ended p (fill p order) := by
  unfold Steps.passOver
  rw [Steps.outcome_mk, h]
  cases order with
  | ok order => rfl
  | error e => cases e <;> rfl

/-- A turn is its steps. -/
theorem outcome_turnSteps : (t.turnSteps rules turn).outcome p = ended p (t.step rules p turn) := by
  unfold turnSteps step
  rw [Steps.outcome_bind, Steps.outcome_get]
  dsimp only
  cases p.position? turn.symbol with
  | some x =>
    dsimp only
    rw [Steps.outcome_bind, Steps.outcome_of]
    cases t.signal rules.sell turn (turn.day - x.entryDay) with
    | error e => rfl
    | ok sell =>
      cases sell with
      | false => rfl
      | true =>
        rw [bind_of_ok rfl]
        simp only [if_true]
        rw [Steps.outcome_bind, Steps.outcome_of]
        cases t.signal rules.buy turn (turn.day - x.entryDay) with
        | error e => rfl
        | ok buy =>
          cases buy with
          | true => rfl
          | false => exact outcome_passOver Portfolio.outcome_closeSteps
  | none =>
    dsimp only
    cases t.hasRoom p with
    | false => rfl
    | true =>
      simp only [if_true]
      rw [Steps.outcome_bind, Steps.outcome_of]
      cases t.signal rules.buy turn 0 with
      | error e => rfl
      | ok buy =>
        cases buy with
        | false => rfl
        | true => exact outcome_passOver Portfolio.outcome_openSteps

/-- Turns are their steps. -/
theorem outcome_followSteps :
    (t.followSteps rules turns).outcome p = followed (t.follow rules turns p) := by
  induction turns generalizing p with
  | nil => rfl
  | cons turn rest ih =>
    unfold followSteps follow
    rw [Steps.outcome_bind, outcome_turnSteps]
    cases t.step rules p turn with
    | error e => rfl
    | ok p' => exact ih

/-! ## Turns that fail -/

/-- A rule that is not evaluated is why a signal fails. -/
theorem signal_eq_error {rule : Expr} {held : Int} {e : TradeError}
    (h : t.signal rule turn held = .error e) :
    ∃ e', e = .evaluation e' ∧
      rule.evaluate
        { bindings := Variables.ofRule (Double.ofInt held) (Double.ofNat turn.order)
          source := some t.source
          symbol := some turn.symbol
          day := turn.day } = .error e' := by
  rcases bind_eq_error.mp h with hvalue | ⟨x, -, hx⟩
  · obtain ⟨e', he, rfl⟩ := mapError_eq_error.mp hvalue
    exact ⟨e', rfl, he⟩
  · cases hx

/-! ## Turns without an opening price -/

/-- Rules that are never true. -/
def silent : Rules :=
  { buy := .truth false, sell := .truth false }

theorem step_silent : t.step silent p turn = .ok p := by
  unfold step
  cases p.position? turn.symbol with
  | some x => rfl
  | none =>
    cases t.hasRoom p with
    | false => rfl
    | true => rfl

theorem fill_buy_unquoted (h : t.source.quote? turn.symbol .opening (turn.day + 1) = none) :
    fill p (t.buy p turn.symbol (turn.day + 1)) = .ok p := by
  unfold buy Portfolio.buy Source.quote
  rw [h]
  rfl

theorem fill_sell_unquoted (h : t.source.quote? turn.symbol .opening (turn.day + 1) = none) :
    fill p (t.sell p turn.symbol (turn.day + 1)) = .ok p := by
  unfold sell Portfolio.sell Source.quote
  rw [h]
  cases p.position? turn.symbol with
  | none => rfl
  | some x => rfl

/-- A turn whose order would find no opening price changes nothing.  It can only fail to evaluate a
rule. -/
theorem step_unquoted (h : t.source.quote? turn.symbol .opening (turn.day + 1) = none) :
    t.step rules p turn = .ok p ∨ ∃ e, t.step rules p turn = .error (.evaluation e) := by
  cases t.stepForm rules p turn with
  | failed _ hsignal hstep =>
    obtain ⟨e', rfl, -⟩ := signal_eq_error hsignal
    exact .inr ⟨e', hstep⟩
  | kept hstep => exact .inl hstep
  | sold hstep => exact .inl (hstep.trans (fill_sell_unquoted h))
  | bought _ _ hstep => exact .inl (hstep.trans (fill_buy_unquoted h))

/-! ## Atomicity -/

/-- How a turn whose order would find no opening price ends. -/
structure TurnIsDropped (t : Trader) (rules : Rules) (turn : Turn) (p : Portfolio)
    (result : Except TradeError Unit) (p' : Portfolio) : Prop where
  kept : p' = p
  /-- Only a rule can fail. -/
  evaluation : ∀ e, result = .error e → ∃ e', e = .evaluation e'
  /-- Rules that are never true leave the same portfolio. -/
  silent : (t.turnSteps silent turn).outcome p = (.ok (), p')
  /-- The turns after it run as if it had not been. -/
  rest : result = .ok () → ∀ rest, (t.followSteps rules (turn :: rest)).outcome p =
    (t.followSteps rules rest).outcome p

/-- Orders are atomic, in whatever portfolio they are made.  The steps of a purchase or a sale that fails
or finds nothing to do leave the portfolio as it was, and one that is filled changes it by one position
and one trade.  They are what the trader's orders come to, and the steps of turns are what the trader's turns
come to.  So a turn whose order finds no opening price leaves a portfolio that does not tell whether a rule
was true. -/
theorem orders_are_atomic (t : Trader) (p : Portfolio) (symbol : Symbol) (day : Int) :
    (∃ result p',
      (Portfolio.openSteps t.source t.settings.stockValue t.settings.tradeCost symbol day).outcome p =
          (result, p') ∧
        (result, p') = Portfolio.settled p (t.buy p symbol day) ∧
        Portfolio.PurchaseIsAtomic t.source t.settings.tradeCost symbol day p result p') ∧
      (∃ result p',
        (Portfolio.closeSteps t.source t.settings.tradeCost symbol day).outcome p = (result, p') ∧
          (result, p') = Portfolio.settled p (t.sell p symbol day) ∧
          Portfolio.SaleIsAtomic t.source t.settings.tradeCost symbol day p result p') ∧
      (∀ rules turns, (t.followSteps rules turns).outcome p = followed (t.follow rules turns p)) ∧
      ∀ rules turn, t.source.quote? turn.symbol .opening (turn.day + 1) = none →
        ∃ result p', (t.turnSteps rules turn).outcome p = (result, p') ∧
          (result, p') = ended p (t.step rules p turn) ∧
          TurnIsDropped t rules turn p result p' := by
  refine ⟨⟨_, _, rfl, Portfolio.outcome_openSteps, Portfolio.openSteps_isAtomic rfl⟩,
    ⟨_, _, rfl, Portfolio.outcome_closeSteps, Portfolio.closeSteps_isAtomic rfl⟩,
    fun rules turns => outcome_followSteps, ?_⟩
  intro rules turn hquote
  have hsilent : (t.turnSteps silent turn).outcome p = (.ok (), p) := by
    rw [outcome_turnSteps, step_silent]
    rfl
  have hstep : t.step rules p turn = .ok p ∨ ∃ e, t.step rules p turn = .error (.evaluation e) :=
    step_unquoted hquote
  rcases hstep with hstep | ⟨e, hstep⟩
  · have houtcome : (t.turnSteps rules turn).outcome p = (.ok (), p) := by
      rw [outcome_turnSteps, hstep]
      rfl
    refine ⟨_, _, houtcome, houtcome ▸ outcome_turnSteps,
      { kept := rfl, evaluation := nofun, silent := hsilent, rest := fun _ rest => ?_ }⟩
    rw [followSteps, Steps.outcome_bind, houtcome]
  · have houtcome : (t.turnSteps rules turn).outcome p = (.error (.evaluation e), p) := by
      rw [outcome_turnSteps, hstep]
      rfl
    refine ⟨_, _, houtcome, houtcome ▸ outcome_turnSteps,
      { kept := rfl, evaluation := fun _ he => ?_, silent := hsilent, rest := nofun }⟩
    cases he
    exact ⟨e, rfl⟩

/-- A trader on a source of one symbol. -/
def sampleTrader : Trader :=
  { source := sampleSource, settings := { startDay := 0, endDay := 1 } }

/-- A purchase on the second day is filled and leaves cash.  There is no third day, so a turn on the second
is dropped by whatever rules order. -/
theorem orders_are_atomic_sample :
    (∃ x p', sampleTrader.buy sampleTrader.initial ⟨"A"⟩ 1 = .ok (some x, p') ∧
      p'.trades.map Trade.shares = [90] ∧ p'.positions = [x] ∧ 0.0 ≤ p'.cash) ∧
      sampleTrader.source.quote? ⟨"A"⟩ .opening 2 = none ∧
      ∀ rules, ((sampleTrader.turnSteps rules ⟨1, 0, ⟨"A"⟩⟩).outcome sampleTrader.initial).2 =
        sampleTrader.initial := by
  have hnone : sampleTrader.source.quote? ⟨"A"⟩ .opening 2 = none := by decide +kernel
  obtain ⟨⟨result, p', -, hbuy, hatomic⟩, -, -, hdropped⟩ :=
    orders_are_atomic sampleTrader sampleTrader.initial ⟨"A"⟩ 1
  refine ⟨?_, hnone, fun rules => ?_⟩
  · have hshares : (sampleTrader.buy sampleTrader.initial ⟨"A"⟩ 1).toOption.map
        (fun order => (order.1.isSome, order.2.trades.map Trade.shares)) = some (true, [90]) := by
      decide +kernel
    cases horder : sampleTrader.buy sampleTrader.initial ⟨"A"⟩ 1 with
    | error e =>
      rw [horder] at hshares
      cases hshares
    | ok order =>
      obtain ⟨found, next⟩ := order
      rw [horder] at hshares hbuy
      cases hbuy
      cases found with
      | none => cases hshares
      | some x =>
        obtain ⟨b, -, -, -, -, rfl, hresult⟩ := hatomic.filled x rfl rfl
        have hcash := hatomic.solvent _ rfl (by decide +kernel) (by decide +kernel)
        refine ⟨_, _, rfl, congrArg Prod.snd (Option.some.inj hshares), ?_, hcash⟩
        rw [hresult]
        rfl
  · obtain ⟨_, _, houtcome, -, hturn⟩ := hdropped rules ⟨1, 0, ⟨"A"⟩⟩ hnone
    rw [houtcome]
    exact hturn.kept

end Trader

end TradeRules
