import Mathlib.Data.List.DropRight
import TradeRules.Proofs.Breeding.Cross
import TradeRules.Proofs.Market.Records
import TradeRules.Proofs.Trading.Run

/-!
# How far paper trading overdraws

A purchase is made only with the cash for it, its fee and the fee of the later sale.  Cash for that fee
is not set aside.  The next purchase may count on the same cash, and a sale is filled at any price, so
several sales near zero, each bringing in less than its fee, leave negative cash
(`Trader.run_overdraws`).

`IsSolvent` says how negative.  Only the sales since the last purchase count, at most one for each
position, and of these only the ones that do not bring in their fee (`Trade.losses`).  They take the fee
from what the purchase left, which is not negative, and is the fee of one sale but for rounding when the
shares cost no more than the amount for a stock (`TraderSettings.reserve`).  A turn keeps this
(`IsSolvent.step`), whatever the rules are.

Cash is compared as the trader compares it, by `¬cash < bound`.  Cash that has overflowed to NaN is not
below any bound.
-/

namespace TradeRules

/-! ## The sales since the last purchase -/

/-- What a purchase leaves for the fee of a sale. -/
def TraderSettings.reserve (s : TraderSettings) : Float :=
  (s.stockValue + 2.0 * s.tradeCost) - (s.stockValue + s.tradeCost)

namespace Trade

/-- What the shares cost or bring in, without the fee. -/
def value (t : Trade) : Float :=
  Double.ofInt t.shares * t.price

/-- The last purchase of a log. -/
def lastPurchase? (trades : List Trade) : Option Trade :=
  (trades.filter fun t => t.side = .buy).getLast?

/-- The sales since the last purchase. -/
def closing (trades : List Trade) : List Trade :=
  trades.rtakeWhile fun t => t.side = .sell

/-- The number of sales since the last purchase that bring in less than the fee. -/
def losses (fee : Float) (trades : List Trade) : Nat :=
  (closing trades).countP fun t => t.value < fee

/-- What is left of an amount when the fee is paid from it a number of times. -/
def owing (fee amount : Float) : Nat → Float
  | 0 => amount
  | n + 1 => owing fee amount n - fee

variable {t : Trade} {trades : List Trade} {fee : Float}

theorem closing_buy (h : t.side = .buy) : closing (trades ++ [t]) = [] :=
  List.rtakeWhile_concat_neg _ _ _ (by simp [h])

theorem closing_sell (h : t.side = .sell) : closing (trades ++ [t]) = closing trades ++ [t] :=
  List.rtakeWhile_concat_pos _ _ _ (by simp [h])

theorem losses_buy (h : t.side = .buy) : losses fee (trades ++ [t]) = 0 := by
  rw [losses, closing_buy h, List.countP_nil]

/-- A sale that does not bring in its fee is counted. -/
theorem losses_sell_below (h : t.side = .sell) (hvalue : t.value < fee) :
    losses fee (trades ++ [t]) = losses fee trades + 1 := by
  simp [losses, closing_sell h, hvalue]

/-- A sale that brings in its fee is not counted. -/
theorem losses_sell_above (h : t.side = .sell) (hvalue : ¬t.value < fee) :
    losses fee (trades ++ [t]) = losses fee trades := by
  simp [losses, closing_sell h, hvalue]

theorem lastPurchase?_buy (h : t.side = .buy) : lastPurchase? (trades ++ [t]) = some t := by
  simp [lastPurchase?, h]

theorem lastPurchase?_sell (h : t.side = .sell) :
    lastPurchase? (trades ++ [t]) = lastPurchase? trades := by
  simp [lastPurchase?, h]

end Trade

/-! ## Orders -/

/-- Whether cash is overdrawn by no more than the sales since the last purchase explain. -/
structure IsSolvent (s : TraderSettings) (p : Portfolio) : Prop where
  /-- Each sale since the last purchase that does not bring in its fee takes at most the fee. -/
  cash : ¬p.cash < Trade.owing s.tradeCost 0.0 (Trade.losses s.tradeCost p.trades)
  /-- They take it from the reserve when the shares bought last cost no more than the amount for a
  stock. -/
  reserved : ∀ t, Trade.lastPurchase? p.trades = some t → ¬s.stockValue < t.value →
    ¬p.cash < Trade.owing s.tradeCost s.reserve (Trade.losses s.tradeCost p.trades)
  /-- No position is of a negative number of shares. -/
  shares : ∀ x ∈ p.positions, ¬Double.ofInt x.shares < 0.0
  /-- The sales since the last purchase are of positions for which there was room. -/
  room : ((Trade.closing p.trades).length + p.positions.length : ℤ) ≤ s.numberStocks

namespace Portfolio

variable {p p' : Portfolio} {source : Source} {price fee bound : Float} {symbol : Symbol} {day : ℤ}
  {x : Position} {b : Trade}

/-- A sale takes no more than the fee, and nothing when it brings in the fee. -/
theorem Sold.keeps (h : Sold source fee symbol day x price p p')
    (hshares : ¬Double.ofInt x.shares < 0.0) (hprice : ¬price < 0.0)
    (hcash : ¬p.cash < Trade.owing fee bound (Trade.losses fee p.trades)) :
    ¬p'.cash < Trade.owing fee bound (Trade.losses fee p'.trades) := by
  rw [h.result]
  set t : Trade := { symbol, day, shares := x.shares, price, side := .sell }
  show ¬p.cash + (t.value - fee) < Trade.owing fee bound (Trade.losses fee (p.trades ++ [t]))
  by_cases hvalue : t.value < fee
  · rw [Trade.losses_sell_below rfl hvalue]
    exact Double.not_add_sub_lt hcash (Double.not_mul_lt_zero hshares hprice)
  · rw [Trade.losses_sell_above rfl hvalue]
    exact Double.not_add_lt_of_nonneg hcash (Double.not_sub_lt_zero hvalue)

/-- A sale closes a position. -/
theorem Sold.length_lt (h : Sold source fee symbol day x price p p') :
    p'.positions.length < p.positions.length := by
  obtain ⟨hmem, hsymbol⟩ := mem_of_position? h.held
  rw [h.result]
  exact List.length_filter_lt_length_iff_exists.mpr ⟨x, hmem, by simp [hsymbol]⟩

/-- A purchase leaves the reserve when its shares cost no more than the amount for a stock. -/
theorem Bought.leaves_reserve {s : TraderSettings} (h : Bought s.tradeCost b p p')
    (hcash : s.stockValue + 2.0 * s.tradeCost ≤ p.cash) (hvalue : ¬s.stockValue < b.value) :
    ¬p'.cash < s.reserve := by
  rw [h.result]
  exact Double.not_sub_lt (Double.not_lt_of_le hcash)
    (Double.not_add_lt hvalue (Double.not_lt_self s.tradeCost))

end Portfolio

/-! ## Runs -/

namespace IsSolvent

variable {s : TraderSettings} {t : Trader} {rules : Rules} {p p' : Portfolio}

theorem initial (hcapital : 0.0 ≤ s.initialCapital) (hcount : 0 ≤ s.numberStocks) :
    IsSolvent s { cash := s.initialCapital } where
  cash := Double.not_lt_of_le hcapital
  reserved := nofun
  shares := nofun
  room := hcount

/-- No more sales lost money than positions may be open. -/
theorem losses_le (h : IsSolvent s p) : (Trade.losses s.tradeCost p.trades : ℤ) ≤ s.numberStocks := by
  have hcount : Trade.losses s.tradeCost p.trades ≤ (Trade.closing p.trades).length :=
    List.countP_le_length
  have hroom := h.room
  omega

theorem buy {b : Trade} (h : IsSolvent s p) (hroom : (p.positions.length : ℤ) < s.numberStocks)
    (hcash : s.stockValue + 2.0 * s.tradeCost ≤ p.cash) (hfree : p.position? b.symbol = none)
    (hbought : Portfolio.Bought s.tradeCost b p p') : IsSolvent s p' := by
  have hpositions : p'.positions = p.positions ++ [b.opened] := by
    rw [hbought.result]
    exact Portfolio.putPosition_free (Portfolio.free_of_position? hfree)
  have htrades : p'.trades = p.trades ++ [b] := by rw [hbought.result]
  constructor
  case cash =>
    rw [htrades, Trade.losses_buy hbought.side, hbought.result]
    exact Double.not_sub_lt_zero hbought.paid
  case reserved =>
    intro last hlast hvalue
    rw [htrades, Trade.lastPurchase?_buy hbought.side] at hlast
    cases hlast
    rw [htrades, Trade.losses_buy hbought.side]
    exact hbought.leaves_reserve hcash hvalue
  case shares =>
    intro x hx
    rw [hpositions, List.mem_append, List.mem_singleton] at hx
    rcases hx with hx | rfl
    · exact h.shares x hx
    · have hpos : 0 ≤ b.shares := by
        have hone := hbought.shares
        omega
      exact Double.not_ofInt_lt_zero hbought.finite hpos
  case room =>
    rw [htrades, Trade.closing_buy hbought.side, hpositions, List.length_append]
    simpa using hroom

theorem sell {source : Source} {symbol : Symbol} {day : ℤ} {x : Position} {price : Float}
    (h : IsSolvent s p) (hprice : ¬price < 0.0)
    (hsold : Portfolio.Sold source s.tradeCost symbol day x price p p') : IsSolvent s p' := by
  have hshares := h.shares x (Portfolio.mem_of_position? hsold.held).1
  constructor
  case cash => exact hsold.keeps hshares hprice h.cash
  case reserved =>
    intro last hlast hvalue
    rw [hsold.result, Trade.lastPurchase?_sell rfl] at hlast
    exact hsold.keeps hshares hprice (h.reserved last hlast hvalue)
  case shares =>
    intro y hy
    rw [hsold.result] at hy
    exact h.shares y (List.mem_filter.mp hy).1
  case room =>
    have hclosing : (Trade.closing p'.trades).length = (Trade.closing p.trades).length + 1 := by
      rw [hsold.result, Trade.closing_sell rfl, List.length_append, List.length_singleton]
    have hlength := hsold.length_lt
    have hroom := h.room
    omega

/-- A turn keeps cash from being overdrawn by more. -/
theorem step {entries : List (List (String × Entry))} (hsource : Source.ofEntries entries = .ok t.source)
    (hvalue : 0.0 ≤ t.settings.stockValue) {turn : Turn} (h : IsSolvent t.settings p)
    (hstep : t.step rules p turn = .ok p') : IsSolvent t.settings p' := by
  rcases Trader.step_cases hvalue hstep with rfl | ⟨b, hsymbol, -, hfree, hroom, hbought⟩ |
    ⟨x, price, hsold⟩
  · exact h
  · obtain ⟨hlength, hcash⟩ := Trader.hasRoom_spec hroom
    exact h.buy hlength hcash (by rw [hsymbol]; exact hfree) hbought
  · exact h.sell (Source.quote_nonneg hsource hsold.quoted) hsold

theorem follow {entries : List (List (String × Entry))}
    (hsource : Source.ofEntries entries = .ok t.source) (hvalue : 0.0 ≤ t.settings.stockValue)
    {turns : List Turn} (h : IsSolvent t.settings p) :
    IsSolvent t.settings (t.follow rules turns p).1 :=
  Trader.follow_induction (fun _ _ _ _ hkept => hkept.step hsource hvalue) h

end IsSolvent

namespace Trader

/-- At every point of a run on a source of records, and where the run stops, cash is overdrawn by no more
than the fees of sales that did not bring them in. -/
theorem run_keeps_solvent {entries : List (List (String × Entry))} {source : Source}
    {settings : TraderSettings} {t : Trader} (hsource : Source.ofEntries entries = .ok source)
    (ht : Trader.make source settings = .ok t) (hcapital : 0.0 ≤ settings.initialCapital)
    (hvalue : 0.0 ≤ settings.stockValue) (hcount : 0 ≤ settings.numberStocks) (rules : Rules) :
    (∀ past, past <+: t.turns → IsSolvent settings (t.follow rules past t.initial).1) ∧
      IsSolvent settings (t.run rules).2 := by
  obtain ⟨rfl, rfl⟩ := parts_of_make ht
  have hstart := IsSolvent.initial hcapital hcount
  refine ⟨fun past _ => hstart.follow hsource hvalue, ?_⟩
  rw [run_portfolio]
  exact hstart.follow hsource hvalue

/-! ## A crash -/

/-- The entries of a symbol at ten on two days, and at nothing on the third. -/
def crashEntries (symbol : String) : List (List (String × Entry)) :=
  [Source.stillEntries symbol "2024-05-03" 10.0 7, Source.stillEntries symbol "2024-05-06" 10.0 7,
    Source.stillEntries symbol "2024-05-07" 0.0 7]

/-- The records of these entries. -/
def crashRecords (symbol : Symbol) : List Record :=
  [Source.stillRecord symbol ⟨2024, 5, 3, by decide⟩ 10.0 7,
    Source.stillRecord symbol ⟨2024, 5, 6, by decide⟩ 10.0 7,
    Source.stillRecord symbol ⟨2024, 5, 7, by decide⟩ 0.0 7]

/-- The quotes of these records. -/
def crashFrame : Frame :=
  (crashRecords ⟨"AAA"⟩).map fun r => (r.date, r.bar)

/-- The source of two such symbols. -/
def crashSource : Source :=
  { calendar := (crashFrame.map Prod.fst).toArray
    series := [⟨"AAA"⟩, ⟨"BBB"⟩].map fun symbol => (symbol, (crashFrame.map Prod.snd).toArray) }

theorem sorted_crash : crashFrame.sorted = crashFrame := by
  have hdays : crashFrame.days.Pairwise fun a b => (!b.before a) = true := by decide +kernel
  exact List.mergeSort_of_pairwise (List.pairwise_map.mp hdays)

theorem ofFrames_crash :
    Source.ofFrames [(⟨"AAA"⟩, crashFrame), (⟨"BBB"⟩, crashFrame)] = .ok crashSource := by
  have hunion : Frame.union crashFrame.days crashFrame.days = crashFrame.days := by
    simp [Frame.days, crashFrame, crashRecords, Source.stillRecord, Frame.union, Date.before]
  have hsymbols : crashSource.series.mergeSort (fun a b => !b.1.before a.1) = crashSource.series :=
    List.mergeSort_of_pairwise (by simp [crashSource]; decide)
  simp [Source.ofFrames, Source.putFrame, sorted_crash, hunion, Frame.align]
  exact congrArg (fun series => Except.ok (Source.mk _ series)) hsymbols

theorem ofEntries_crash :
    Source.ofEntries (crashEntries "AAA" ++ crashEntries "BBB") = .ok crashSource := by
  have hvalid : (crashEntries "AAA" ++ crashEntries "BBB").mapM Record.validate =
      .ok (crashRecords ⟨"AAA"⟩ ++ crashRecords ⟨"BBB"⟩) := by
    rfl
  have hseven : (Double.ofInt 7).isFinite = true := by decide +kernel
  rw [Source.ofEntries_eq hvalid (by simpa [crashRecords, Source.stillRecord] using hseven)]
  exact congrArg (Except.mapError RecordsError.frames) ofFrames_crash

/-- A trader with the cash for two purchases that leave the fee of one sale. -/
def crashTrader : Trader :=
  { source := crashSource, settings := { startDay := 0, endDay := 2, initialCapital := 2030.0 } }

/-- Rules that buy on a Friday and sell on any other day. -/
def fridayRules : Rules :=
  { buy := .comparison .equal (.leaf (.date .dayOfWeek)) (.number (.whole 5 (by decide +kernel)))
    sell := .truth true }

/-- Both positions are sold for nothing, and the cash left covers the fee of one sale. -/
theorem run_overdraws :
    Source.ofEntries (crashEntries "AAA" ++ crashEntries "BBB") = .ok crashSource ∧
      Trader.make crashSource crashTrader.settings = .ok crashTrader ∧
      fridayRules.AreBoolean ∧ (crashTrader.run fridayRules).2.cash < 0.0 :=
  ⟨ofEntries_crash, rfl, ⟨rfl, rfl⟩, by decide +kernel⟩

/-- It is overdrawn by all that two such sales may take from the reserve. -/
theorem run_keeps_solvent_crash :
    0.0 ≤ crashTrader.settings.initialCapital ∧ 0.0 ≤ crashTrader.settings.stockValue ∧
      (∀ past, past <+: crashTrader.turns → IsSolvent crashTrader.settings
        (crashTrader.follow fridayRules past crashTrader.initial).1) ∧
      IsSolvent crashTrader.settings (crashTrader.run fridayRules).2 ∧
      (crashTrader.run fridayRules).2.cash ≤ Trade.owing 10.0 crashTrader.settings.reserve 2 := by
  have hcapital : 0.0 ≤ crashTrader.settings.initialCapital := by decide +kernel
  have hvalue : 0.0 ≤ crashTrader.settings.stockValue := by decide +kernel
  have hmake : Trader.make crashSource crashTrader.settings = .ok crashTrader := rfl
  obtain ⟨hpast, hrun⟩ :=
    run_keeps_solvent ofEntries_crash hmake hcapital hvalue (by decide) fridayRules
  exact ⟨hcapital, hvalue, hpast, hrun, by decide +kernel⟩

end Trader

end TradeRules
