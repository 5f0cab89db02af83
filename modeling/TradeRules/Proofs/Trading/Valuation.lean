import TradeRules.Proofs.Trading.LookBack
import TradeRules.Proofs.Trading.Orders

/-!
# What a portfolio is worth

A run that is not stopped answers the cash and, for each open position in the order of purchase, its shares
at their last close (`Trader.run_value`).  The last close of a position is that of the latest day with one,
from its purchase to the last day of the run, or the price paid when there is none (`IsLastClose`).

Every position is bought on a day of the run, the last one included, and positions are in the order of
their purchases (`Trader.Holdings`).  A turn adds a position at the end or takes one out, so it keeps both.
-/

namespace TradeRules

/-! ## The last close -/

/-- Whether a price is the last close of a position on a day. -/
inductive IsLastClose (source : Source) (day : Int) (x : Position) : Float → Prop
  | closed {d : Int} {price : Float} (after : x.entryDay ≤ d) (before : d ≤ day)
    (quoted : source.quote? x.symbol .closing d = some price)
    (latest : ∀ d', d < d' → d' ≤ day → source.quote? x.symbol .closing d' = none) :
    IsLastClose source day x price
  | entered (unquoted : ∀ d, x.entryDay ≤ d → d ≤ day → source.quote? x.symbol .closing d = none) :
    IsLastClose source day x x.entryPrice

namespace Portfolio

variable {source source' : Source} {x : Position} {day : Int}

/-- A position is valued at its last close. -/
theorem lastClose_spec (hday : day ≤ source.lastDay) :
    IsLastClose source day x (lastClose source x day) := by
  unfold lastClose
  have hmem : ∀ {d}, x.entryDay ≤ d → d ≤ day → 0 ≤ d →
      d ∈ (source.daysBetween x.entryDay day).reverse := fun hafter hbefore hpos =>
    List.mem_reverse.mpr (Source.mem_daysBetween.mpr ⟨⟨hafter, hbefore⟩, hpos, hbefore.trans hday⟩)
  have hdown : (source.daysBetween x.entryDay day).reverse.Pairwise (· > ·) :=
    List.pairwise_reverse.mpr (source.daysBetween_pairwise x.entryDay day)
  have hin : ∀ {d}, d ∈ (source.daysBetween x.entryDay day).reverse → x.entryDay ≤ d ∧ d ≤ day :=
    fun hd => (Source.mem_daysBetween.mp (List.mem_reverse.mp hd)).1
  generalize (source.daysBetween x.entryDay day).reverse = days at hmem hdown hin
  cases hfound : days.findSome? fun d => source.quote? x.symbol .closing d with
  | none =>
    refine .entered fun d hafter hbefore => ?_
    rcases lt_or_ge d 0 with hneg | hpos
    · exact Source.quote?_of_neg hneg
    · exact List.findSome?_eq_none_iff.mp hfound d (hmem hafter hbefore hpos)
  | some price =>
    obtain ⟨later, d, earlier, rfl, hquoted, hlater⟩ := List.findSome?_eq_some_iff.mp hfound
    obtain ⟨hafter, hbefore⟩ := hin (List.mem_append_right later List.mem_cons_self)
    refine .closed hafter hbefore hquoted fun d' hlt hle => ?_
    rcases lt_or_ge d' 0 with hneg | hpos
    · exact Source.quote?_of_neg hneg
    -- The days are searched backwards, so a later day comes before the one that was found.
    · rcases List.mem_append.mp (hmem (hafter.trans hlt.le) hle hpos) with hd | hd
      · exact hlater d' hd
      · have hrest := (List.pairwise_append.mp hdown).2.1
        rcases List.mem_cons.mp hd with rfl | hd
        · omega
        · have := (List.pairwise_cons.mp hrest).1 d' hd
          omega

end Portfolio

/-- A position has one last close. -/
theorem IsLastClose.unique {source source' : Source} {day : Int} {x : Position} {price price' : Float}
    (h : IsLastClose source day x price) (h' : IsLastClose source' day x price')
    (hsame : ∀ d, x.entryDay ≤ d → d ≤ day →
      source'.quote? x.symbol .closing d = source.quote? x.symbol .closing d) : price = price' := by
  cases h with
  | @closed d price hafter hbefore hquoted hlatest =>
    cases h' with
    | @closed d' price' hafter' hbefore' hquoted' hlatest' =>
      rw [hsame _ hafter' hbefore'] at hquoted'
      rcases lt_trichotomy d d' with hlt | rfl | hgt
      · rw [hlatest d' hlt hbefore'] at hquoted'
        cases hquoted'
      · exact Option.some.inj (hquoted.symm.trans hquoted')
      · rw [← hsame _ hafter hbefore, hlatest' d hgt hbefore] at hquoted
        cases hquoted
    | entered hnone =>
      rw [← hsame _ hafter hbefore, hnone _ hafter hbefore] at hquoted
      cases hquoted
  | entered hnone =>
    cases h' with
    | closed hafter' hbefore' hquoted' _ =>
      rw [hsame _ hafter' hbefore', hnone _ hafter' hbefore'] at hquoted'
      cases hquoted'
    | entered _ => rfl

/-! ## The value of a portfolio -/

/-- Cash and the shares of some positions at some prices, added in order. -/
def Portfolio.valueAt (cash : Float) (positions : List Position) (prices : List Float) : Float :=
  (positions.zipWith (fun x price => Double.ofInt x.shares * price) prices).foldl (· + ·) cash

/-- Whether a value is the cash of a portfolio and its positions at their last closes. -/
def Portfolio.IsValue (p : Portfolio) (source : Source) (day : Int) (v : Float) : Prop :=
  ∃ closes, List.Forall₂ (IsLastClose source day) p.positions closes ∧
    v = valueAt p.cash p.positions closes

namespace Portfolio

variable {p : Portfolio} {source source' : Source} {day : Int}

theorem value_eq : p.value source day =
    valueAt p.cash p.positions (p.positions.map fun x => lastClose source x day) := by
  unfold value valueAt
  rw [List.zipWith_map_right, List.zipWith_self, List.foldl_map]

/-- A portfolio has the value it is given. -/
theorem value_spec (hday : day ≤ source.lastDay) : p.IsValue source day (p.value source day) :=
  ⟨_, List.forall₂_map_right_iff.mpr (List.forall₂_same.mpr fun _ _ => lastClose_spec hday), value_eq⟩

/-- The value only depends on the closes from each purchase to the day. -/
theorem value_congr (hday : day ≤ source.lastDay) (hday' : day ≤ source'.lastDay)
    (hsame : ∀ x ∈ p.positions, ∀ d, x.entryDay ≤ d → d ≤ day →
      source'.quote? x.symbol .closing d = source.quote? x.symbol .closing d) :
    p.value source' day = p.value source day := by
  have hcloses : (p.positions.map fun x => lastClose source x day) =
      p.positions.map fun x => lastClose source' x day := by
    refine List.map_congr_left fun x hx => ?_
    exact (lastClose_spec hday).unique (lastClose_spec hday') (hsame x hx)
  rw [value_eq, value_eq, hcloses]

end Portfolio

/-! ## Positions in the order of purchase -/

/-- The positions that the purchases of a log opened, oldest first. -/
def Trade.allOpened (trades : List Trade) : List Position :=
  (trades.filter fun t => t.side = .buy).map opened

namespace Trader

variable {t : Trader} {rules : Rules} {p p' : Portfolio} {turn : Turn} {turns : List Turn}

/-- Whether the open positions of a portfolio are in the order of their purchases, on days of the run. -/
structure Holdings (s : TraderSettings) (p : Portfolio) : Prop where
  ordered : p.positions.Sublist (Trade.allOpened p.trades)
  within : ∀ x ∈ p.positions, s.startDay + 1 ≤ x.entryDay ∧ x.entryDay ≤ s.endDay

/-- A turn keeps the order of positions. -/
theorem Holdings.step (h : Holdings t.settings p) (hturn : turn ∈ t.turns)
    (hstep : t.step rules p turn = .ok p') : Holdings t.settings p' := by
  rcases step_eq_ok hstep with rfl | ⟨x, price, hsold⟩ | ⟨b, hsymbol, hday, hfree, -, hbought⟩
  · exact h
  · rw [hsold.result]
    have hkept := List.filter_sublist (l := p.positions) (p := fun y => y.symbol != turn.symbol)
    refine ⟨hkept.trans ?_, fun y hy => h.within y (hkept.subset hy)⟩
    simpa [Trade.allOpened] using h.ordered
  · have hfree' : ∀ y ∈ p.positions, y.symbol ≠ b.opened.symbol := by
      show ∀ y ∈ p.positions, y.symbol ≠ b.symbol
      rw [hsymbol]
      exact Portfolio.free_of_position? hfree
    have hwithin : t.settings.startDay + 1 ≤ b.day ∧ b.day ≤ t.settings.endDay := by
      have := mem_turns hturn
      omega
    rw [hbought.result, Portfolio.putPosition_free hfree']
    constructor
    case ordered =>
      have hopened : Trade.allOpened (p.trades ++ [b]) = Trade.allOpened p.trades ++ [b.opened] := by
        simp [Trade.allOpened, hbought.side]
      rw [hopened]
      exact h.ordered.append (List.Sublist.refl _)
    case within =>
      intro y hy
      rcases List.mem_append.mp hy with hy | hy
      · exact h.within y hy
      · rw [List.mem_singleton.mp hy]
        exact hwithin

theorem Holdings.follow (h : Holdings t.settings p) (hturns : ∀ turn ∈ turns, turn ∈ t.turns) :
    Holdings t.settings (t.follow rules turns p).1 :=
  follow_induction (fun turn hturn _ _ hkept => hkept.step (hturns turn hturn)) h

theorem run_holdings (t : Trader) (rules : Rules) : Holdings t.settings (t.run rules).2 := by
  rw [run_portfolio]
  have hstart : Holdings t.settings t.initial := ⟨List.Sublist.refl _, nofun⟩
  exact hstart.follow fun _ hturn => hturn

/-- A run that is not stopped answers the value of its portfolio on the last day. -/
theorem value_of_run {v : Float} (h : t.run rules = (.ok v, p)) :
    v = p.value t.source t.settings.endDay := by
  unfold run at h
  split at h
  · cases h
    rfl
  · cases h

/-- A run that is not stopped answers the cash and the open positions, in the order of their purchases, at
their last closes.  A position is bought on a day of the run, and the closes before that day and after the
last have no part in the value. -/
theorem run_value {source : Source} {settings : TraderSettings} {v : Float}
    (ht : Trader.make source settings = .ok t) (h : t.run rules = (.ok v, p)) :
    p.IsValue source settings.endDay v ∧
      p.positions.Sublist (Trade.allOpened p.trades) ∧
      (∀ x ∈ p.positions, settings.startDay + 1 ≤ x.entryDay ∧ x.entryDay ≤ settings.endDay) ∧
      ∀ source', settings.endDay ≤ source'.lastDay →
        (∀ x ∈ p.positions, ∀ d, x.entryDay ≤ d → d ≤ settings.endDay →
          source'.quote? x.symbol .closing d = source.quote? x.symbol .closing d) →
        p.value source' settings.endDay = v := by
  obtain ⟨rfl, hend⟩ := make_eq_ok ht
  have hholdings := run_holdings ⟨source, settings⟩ rules
  rw [h] at hholdings
  rw [value_of_run h]
  exact ⟨Portfolio.value_spec hend, hholdings.ordered, hholdings.within,
    fun source' hend' hsame => Portfolio.value_congr hend hend' hsame⟩

/-- Ninety shares are bought on the second of three days.  On the third there is no close, so the value
takes that of the second. -/
theorem run_value_gap :
    ∃ (t : Trader) (p : Portfolio) (v : Float), t.source.quote? ⟨"A"⟩ .closing 2 = none ∧
      t.run ⟨.truth true, .truth false⟩ = (.ok v, p) ∧ v.toBits = (10080.0 : Float).toBits ∧
      p.positions.map Position.shares = [90] ∧ p.positions.map Position.entryDay = [1] ∧
      p.IsValue t.source 2 v := by
  let settings : TraderSettings := { startDay := 0, endDay := 2 }
  let t : Trader := ⟨openSource {}, settings⟩
  have hmake : Trader.make (openSource {}) settings = .ok t := rfl
  have hvalue : ((t.run ⟨.truth true, .truth false⟩).1.toOption.map Float.toBits) =
      some (10080.0 : Float).toBits := by
    decide +kernel
  cases hrun : t.run ⟨.truth true, .truth false⟩ with
  | mk result p =>
    have hp : p = (t.run ⟨.truth true, .truth false⟩).2 := by rw [hrun]
    rw [hrun] at hvalue
    cases result with
    | error e => cases hvalue
    | ok v =>
      refine ⟨t, p, v, rfl, hrun, Option.some.inj hvalue, ?_, ?_, (run_value hmake hrun).1⟩
      · rw [hp]
        decide +kernel
      · rw [hp]
        decide +kernel

end Trader

end TradeRules
