import Mathlib.Data.List.Nodup
import Mathlib.Tactic.Common
import TradeRules.Trading.Trader

/-!
# The log of trades as a ledger

A portfolio keeps cash, positions and log apart.  `IsLedger` says that the log determines the other
two: replayed from the initial capital it gives the cash, and the open positions are those of the
symbols that were bought last.  It also says what a log looks like.  The trades of one symbol are
purchases and sales in turn, a sale closes the whole position on a later day, and days, numbers of
shares and positions keep within their bounds.

An order changes all three together.  `IsLedger.buy` and `IsLedger.sell` say that the ledger is kept
when it does.
-/

namespace TradeRules

/-! ## What a log amounts to -/

/-- The cash after a trade with the given fee. -/
def Trade.settle (fee cash : Float) (t : Trade) : Float :=
  match t.side with
  | .buy => cash - (Double.ofInt t.shares * t.price + fee)
  | .sell => cash + (Double.ofInt t.shares * t.price - fee)

/-- The cash that is left of a capital after some trades. -/
def Trade.replay (fee capital : Float) (trades : List Trade) : Float :=
  trades.foldl (settle fee) capital

/-- The position that a purchase opens. -/
def Trade.opened (t : Trade) : Position :=
  { symbol := t.symbol, shares := t.shares, entryPrice := t.price, entryDay := t.day }

/-- The trades of one symbol. -/
def Trade.of (symbol : Symbol) (trades : List Trade) : List Trade :=
  trades.filter fun t => t.symbol == symbol

/-- Whether trades are a purchase, its sale, a purchase, its sale, and so on. -/
def Trade.Alternate : List Trade → Prop
  | [] => True
  | [bought] => bought.side = .buy
  | bought :: sold :: rest =>
    bought.side = .buy ∧ sold.side = .sell ∧ sold.shares = bought.shares ∧
      bought.day < sold.day ∧ Alternate rest

/-- Whether the log of a portfolio accounts for all of it. -/
structure IsLedger (s : TraderSettings) (p : Portfolio) : Prop where
  /-- The log explains the cash. -/
  cash : p.cash = Trade.replay s.tradeCost s.initialCapital p.trades
  /-- No symbol is held twice. -/
  distinct : (p.positions.map Position.symbol).Nodup
  /-- The open positions are the last purchases that were not sold. -/
  held : ∀ x, x ∈ p.positions ↔
    ∃ t, (Trade.of x.symbol p.trades).getLast? = some t ∧ t.side = .buy ∧ x = t.opened
  /-- Each symbol is bought and sold in turn. -/
  alternate : ∀ symbol, Trade.Alternate (Trade.of symbol p.trades)
  /-- Trades are logged in the order of their days. -/
  ordered : p.trades.Pairwise fun a b => a.day ≤ b.day
  /-- Each trade is on a day after the first and not after the last. -/
  within : ∀ t ∈ p.trades, s.startDay + 1 ≤ t.day ∧ t.day ≤ s.endDay
  /-- No trade is empty. -/
  shares : ∀ t ∈ p.trades, 1 ≤ t.shares
  /-- No more positions are open than allowed. -/
  room : (p.positions.length : Int) ≤ s.numberStocks

/-! ## A log that grows -/

namespace Trade

variable {t b : Trade} {trades : List Trade} {symbol : Symbol} {fee capital : Float}

theorem replay_append : replay fee capital (trades ++ [t]) =
    settle fee (replay fee capital trades) t := by
  rw [replay, List.foldl_append]
  rfl

theorem of_append_self : of t.symbol (trades ++ [t]) = of t.symbol trades ++ [t] := by
  simp [of]

theorem of_append_other (h : t.symbol ≠ symbol) : of symbol (trades ++ [t]) = of symbol trades := by
  simp [of, h]

/-- After nothing or a sale there may be a purchase. -/
theorem Alternate.buy : ∀ {trades : List Trade}, Alternate trades →
    (∀ last, trades.getLast? = some last → last.side = .sell) → t.side = .buy →
    Alternate (trades ++ [t])
  | [], _, _, ht => ht
  | [bought], h, hlast, _ => by
    have hsell := hlast bought rfl
    rw [show bought.side = .buy from h] at hsell
    cases hsell
  | [_, _], ⟨hb, hs, hshares, hday, _⟩, _, ht => ⟨hb, hs, hshares, hday, ht⟩
  | _ :: _ :: x :: rest, ⟨hb, hs, hshares, hday, h⟩, hlast, ht =>
    have hrest : Alternate (x :: rest ++ [t]) := Alternate.buy h hlast ht
    ⟨hb, hs, hshares, hday, hrest⟩

/-- After a purchase there may be its sale. -/
theorem Alternate.sell : ∀ {trades : List Trade}, Alternate trades → trades.getLast? = some b →
    b.side = .buy → t.side = .sell → t.shares = b.shares → b.day < t.day →
    Alternate (trades ++ [t])
  | [], _, hlast, _, _, _, _ => by cases hlast
  | [_], h, hlast, _, ht, hshares, hday => by
    cases hlast
    exact ⟨h, ht, hshares, hday, trivial⟩
  | [_, sold], ⟨_, hs, _, _, _⟩, hlast, hb, _, _, _ => by
    obtain rfl : sold = b := Option.some.inj hlast
    rw [hs] at hb
    cases hb
  | _ :: _ :: x :: rest, ⟨hb, hs, hsame, hlater, h⟩, hlast, hbuy, ht, hshares, hday =>
    have hrest : Alternate (x :: rest ++ [t]) := Alternate.sell h hlast hbuy ht hshares hday
    ⟨hb, hs, hsame, hlater, hrest⟩

end Trade

/-! ## Orders that keep the ledger -/

namespace IsLedger

variable {s : TraderSettings} {p : Portfolio} {t : Trade} {x : Position} {symbol : Symbol}

/-- The ledger before any trade. -/
theorem initial (h : 0 ≤ s.numberStocks) : IsLedger s { cash := s.initialCapital } where
  cash := rfl
  distinct := List.nodup_nil
  held := by simp [Trade.of]
  alternate := fun _ => trivial
  ordered := List.Pairwise.nil
  within := by simp
  shares := by simp
  room := h

/-- The last trade of a symbol that is not held was a sale. -/
theorem last_sell (h : IsLedger s p) (hfree : ∀ x ∈ p.positions, x.symbol ≠ symbol) :
    ∀ last, (Trade.of symbol p.trades).getLast? = some last → last.side = .sell := by
  intro last hlast
  cases hside : last.side with
  | sell => rfl
  | buy =>
    have hmem := List.mem_of_getLast? hlast
    have hsymbol : last.symbol = symbol := by simpa using (List.mem_filter.mp hmem).2
    refine absurd hsymbol (hfree last.opened ((h.held _).mpr ⟨last, ?_, hside, rfl⟩))
    rw [← hsymbol] at hlast
    exact hlast

/-- What holds of the trades still holds with one more, if it holds of that. -/
theorem forall_trades {P : Trade → Prop} (h : ∀ a ∈ p.trades, P a) (ht : P t) :
    ∀ a ∈ p.trades ++ [t], P a := by
  intro a ha
  rcases List.mem_append.mp ha with ha | ha
  · exact h a ha
  · exact List.mem_singleton.mp ha ▸ ht

/-- A log in the order of days, with a trade on a later day. -/
theorem ordered_append (h : IsLedger s p) (hlast : ∀ a ∈ p.trades, a.day ≤ t.day) :
    (p.trades ++ [t]).Pairwise fun a b => a.day ≤ b.day := by
  refine List.pairwise_append.mpr ⟨h.ordered, List.pairwise_singleton _ _, ?_⟩
  intro a ha b hb
  exact List.mem_singleton.mp hb ▸ hlast a ha

/-- A purchase of a symbol that is not held keeps the ledger. -/
theorem buy (h : IsLedger s p) (hfree : ∀ x ∈ p.positions, x.symbol ≠ t.symbol)
    (hside : t.side = .buy) (hshares : 1 ≤ t.shares)
    (hday : s.startDay + 1 ≤ t.day ∧ t.day ≤ s.endDay) (hlast : ∀ a ∈ p.trades, a.day ≤ t.day)
    (hroom : (p.positions.length : Int) < s.numberStocks) :
    IsLedger s
      { cash := p.cash - (Double.ofInt t.shares * t.price + s.tradeCost)
        positions := p.positions ++ [t.opened]
        trades := p.trades ++ [t] } where
  cash := by
    rw [Trade.replay_append, ← h.cash, Trade.settle, hside]
  distinct := by
    rw [List.map_append, List.map_singleton]
    refine List.nodup_append.mpr ⟨h.distinct, List.nodup_singleton _, ?_⟩
    rintro a ha b hb rfl
    obtain ⟨x, hx, rfl⟩ := List.mem_map.mp ha
    exact hfree x hx (List.mem_singleton.mp hb)
  held := by
    intro x
    rw [List.mem_append, List.mem_singleton, h.held]
    by_cases hsymbol : t.symbol = x.symbol
    · rw [← hsymbol, Trade.of_append_self, List.getLast?_concat]
      constructor
      · rintro (⟨last, hgot, hbuy, rfl⟩ | rfl)
        · have hsell := h.last_sell hfree last hgot
          rw [hbuy] at hsell
          cases hsell
        · exact ⟨t, rfl, hside, rfl⟩
      · rintro ⟨last, hgot, -, rfl⟩
        cases hgot
        exact .inr rfl
    · rw [Trade.of_append_other hsymbol]
      constructor
      · rintro (hold | rfl)
        · exact hold
        · exact absurd rfl hsymbol
      · exact .inl
  alternate := by
    intro symbol
    by_cases hsymbol : t.symbol = symbol
    · subst hsymbol
      rw [Trade.of_append_self]
      exact (h.alternate _).buy (h.last_sell hfree) hside
    · rw [Trade.of_append_other hsymbol]
      exact h.alternate symbol
  ordered := h.ordered_append hlast
  within := forall_trades h.within hday
  shares := forall_trades h.shares hshares
  room := by
    rw [List.length_append, List.length_singleton]
    omega

/-- The sale of a whole position on a later day keeps the ledger. -/
theorem sell (h : IsLedger s p) (hx : x ∈ p.positions) (hsymbol : t.symbol = x.symbol)
    (hside : t.side = .sell) (hshares : t.shares = x.shares) (hlater : x.entryDay < t.day)
    (hday : s.startDay + 1 ≤ t.day ∧ t.day ≤ s.endDay) (hlast : ∀ a ∈ p.trades, a.day ≤ t.day) :
    IsLedger s
      { cash := p.cash + (Double.ofInt t.shares * t.price - s.tradeCost)
        positions := p.positions.filter fun y => y.symbol != t.symbol
        trades := p.trades ++ [t] } := by
  obtain ⟨bought, hgot, hbuy, hopened⟩ := (h.held x).mp hx
  rw [← hsymbol] at hgot
  refine
    { cash := ?_
      distinct := h.distinct.sublist (List.filter_sublist.map _)
      held := fun y => ?_
      alternate := fun symbol => ?_
      ordered := h.ordered_append hlast
      within := forall_trades h.within hday
      shares := forall_trades h.shares ?_
      room := ?_ }
  · rw [Trade.replay_append, ← h.cash, Trade.settle, hside]
  · rw [List.mem_filter, h.held, bne_iff_ne]
    by_cases hy : t.symbol = y.symbol
    · rw [← hy, Trade.of_append_self, List.getLast?_concat]
      constructor
      · exact fun hne => absurd rfl hne.2
      · rintro ⟨last, hlast, hlastbuy, -⟩
        cases hlast
        rw [hside] at hlastbuy
        cases hlastbuy
    · rw [Trade.of_append_other hy]
      exact ⟨And.left, fun hold => ⟨hold, Ne.symm hy⟩⟩
  · by_cases hy : t.symbol = symbol
    · subst hy
      rw [Trade.of_append_self]
      have hsame : t.shares = bought.shares := by rw [hshares, hopened]; rfl
      have hbefore : bought.day < t.day := by rw [hopened] at hlater; exact hlater
      exact (h.alternate _).sell hgot hbuy hside hsame hbefore
    · rw [Trade.of_append_other hy]
      exact h.alternate symbol
  · rw [hshares, hopened]
    exact h.shares bought (List.mem_filter.mp (List.mem_of_getLast? hgot)).1
  · have hlen := List.length_filter_le (fun y => y.symbol != t.symbol) p.positions
    have hroom := h.room
    simp only
    omega

end IsLedger

end TradeRules
