import TradeRules.Proofs.Double.Quotient
import TradeRules.Proofs.Market.Source
import TradeRules.Proofs.Trading.Ledger

/-!
# Paper trading keeps a ledger

What a turn may come to is said once (`Trader.stepForm`).  One that does not fail leaves the portfolio as
it is, or buys a symbol that is not held, or sells one that is (`Trader.step_cases`).  Each trade is on
the day after its turn.  Turns are in the order of their days and no symbol has two turns on one day, so
the sale of a position comes on a later day than its purchase.

The invariant of a run is that the portfolio has a ledger whose trades come from the turns so far
(`Trader.Accounts`).  It holds at every point of a run (`Trader.run_keeps_ledger`), wherever the run
stops.
-/

namespace TradeRules

/-! ## Orders -/

namespace Portfolio

variable {p p' : Portfolio} {source : Source} {amount price fee : Float} {symbol : Symbol}
  {day shares : Int}

theorem mem_of_position? {x : Position} (h : p.position? symbol = some x) :
    x ∈ p.positions ∧ x.symbol = symbol :=
  ⟨List.mem_of_find?_eq_some h, by simpa using List.find?_some h⟩

theorem free_of_position? (h : p.position? symbol = none) :
    ∀ x ∈ p.positions, x.symbol ≠ symbol := by
  simpa [position?] using h

theorem putPosition_free {x : Position} (h : ∀ y ∈ p.positions, y.symbol ≠ x.symbol) :
    putPosition p.positions x = p.positions ++ [x] := by
  rw [putPosition, if_neg]
  simpa using h

/-- A nonnegative amount buys no negative number of shares, and none beyond the doubles. -/
theorem affordable_spec (hamount : 0.0 ≤ amount) (hprice : ¬price ≤ 0.0)
    (h : affordable amount price = .ok shares) :
    0 ≤ shares ∧ (Double.ofInt shares).isFinite = true := by
  unfold affordable at h
  dsimp only at h
  split_ifs at h with hnan hinf
  cases h
  have hfinite := Double.isFinite_of_not (Bool.eq_false_iff.mpr hnan) (Bool.eq_false_iff.mpr hinf)
  exact ⟨Double.floorQuotient_nonneg hamount hprice hfinite, (Double.ofInt_truncate hfinite).1⟩

/-- A purchase that is filled. -/
structure Purchased (source : Source) (amount fee : Float) (t : Trade) (p p' : Portfolio) : Prop where
  side : t.side = .buy
  quoted : source.quote t.symbol .opening t.day = .ok t.price
  price : ¬t.price ≤ 0.0
  counted : affordable amount t.price = .ok t.shares
  shares : t.shares ≠ 0
  /-- There is cash for it. -/
  paid : ¬p.cash < cost t.shares t.price fee
  result : p' =
    { cash := p.cash - cost t.shares t.price fee
      positions := putPosition p.positions t.opened
      trades := p.trades ++ [t] }

/-- A purchase that is filled, for an amount that is not negative. -/
structure Bought (fee : Float) (t : Trade) (p p' : Portfolio) : Prop where
  side : t.side = .buy
  shares : 1 ≤ t.shares
  finite : (Double.ofInt t.shares).isFinite = true
  /-- There is cash for it. -/
  paid : ¬p.cash < cost t.shares t.price fee
  result : p' =
    { cash := p.cash - cost t.shares t.price fee
      positions := putPosition p.positions t.opened
      trades := p.trades ++ [t] }

/-- A sale of a position that is filled at a price. -/
structure Sold (source : Source) (fee : Float) (symbol : Symbol) (day : Int) (x : Position)
    (price : Float) (p p' : Portfolio) : Prop where
  held : p.position? symbol = some x
  quoted : source.quote symbol .opening day = .ok price
  result : p' =
    { cash := p.cash + proceeds x.shares price fee
      positions := p.positions.filter fun y => y.symbol != symbol
      trades := p.trades ++ [{ symbol, day, shares := x.shares, price, side := .sell }] }

theorem Purchased.bought {t : Trade} (hamount : 0.0 ≤ amount) (h : Purchased source amount fee t p p') :
    Bought fee t p p' := by
  obtain ⟨hpos, hfinite⟩ := affordable_spec hamount h.price h.counted
  have hsome := h.shares
  exact { side := h.side, shares := by omega, finite := hfinite, paid := h.paid, result := h.result }

/-- A purchase that does not fail is given up, or opens a position. -/
theorem buy_eq_ok {found : Option Position} (h : p.buy source amount fee symbol day = .ok (found, p')) :
    (found = none ∧ p' = p) ∨
      ∃ t : Trade, t.symbol = symbol ∧ t.day = day ∧ found = some t.opened ∧
        Purchased source amount fee t p p' := by
  obtain ⟨price, hprice, h⟩ := bind_eq_ok.mp h
  dsimp only at h
  split_ifs at h with hfree
  · cases h
    exact .inl ⟨rfl, rfl⟩
  · obtain ⟨shares, hshares, h⟩ := bind_eq_ok.mp h
    split_ifs at h with hnone
    · cases h
      exact .inl ⟨rfl, rfl⟩
    · cases h
      rw [not_or] at hnone
      exact .inr ⟨{ symbol, day, shares, price, side := .buy }, rfl, rfl, rfl,
        { side := rfl, quoted := mapError_eq_ok.mp hprice, price := hfree, counted := hshares
          shares := hnone.1, paid := hnone.2, result := rfl }⟩

/-- A sale that does not fail finds nothing to sell, or closes a position. -/
theorem sell_eq_ok {found : Option Trade} (h : p.sell source fee symbol day = .ok (found, p')) :
    (found = none ∧ p' = p) ∨
      ∃ x price, found = some { symbol, day, shares := x.shares, price, side := .sell } ∧
        Sold source fee symbol day x price p p' := by
  unfold sell at h
  cases hx : p.position? symbol with
  | none =>
    rw [hx] at h
    cases h
    exact .inl ⟨rfl, rfl⟩
  | some x =>
    rw [hx] at h
    obtain ⟨price, hprice, h⟩ := bind_eq_ok.mp h
    cases h
    exact .inr ⟨x, price, rfl,
      { held := hx, quoted := mapError_eq_ok.mp hprice, result := rfl }⟩

end Portfolio

/-! ## One turn -/

namespace Trader

variable {t : Trader} {rules : Rules} {p p' : Portfolio} {turn : Turn}

/-- An order changes the portfolio only when it is filled. -/
theorem fill_cases {α : Type} {order : Except OrderError (α × Portfolio)}
    (h : fill p order = .ok p') : p' = p ∨ ∃ a, order = .ok (a, p') := by
  unfold fill at h
  split at h
  · cases h
    exact .inr ⟨_, rfl⟩
  · cases h
    exact .inl rfl
  · cases h

/-- There is room for a position and cash for it and both fees. -/
theorem hasRoom_spec (h : t.hasRoom p = true) :
    (p.positions.length : Int) < t.settings.numberStocks ∧
      t.settings.stockValue + 2.0 * t.settings.tradeCost ≤ p.cash := by
  simpa [hasRoom] using h

/-- What a turn comes to: a rule fails, nothing changes, or an order is made.  A purchase is ordered only
of a symbol that is not held, and when there is room for it. -/
inductive StepForm (t : Trader) (rules : Rules) (p : Portfolio) (turn : Turn)
    (result : Except TradeError Portfolio) : Prop where
  | failed {rule : Expr} {held : Int} {e : TradeError} (hrule : rule = rules.buy ∨ rule = rules.sell)
    (hsignal : t.signal rule turn held = .error e) (h : result = .error e)
  | kept (h : result = .ok p)
  | sold (h : result = fill p (t.sell p turn.symbol (turn.day + 1)))
  | bought (hfree : p.position? turn.symbol = none) (hroom : t.hasRoom p = true)
    (h : result = fill p (t.buy p turn.symbol (turn.day + 1)))

theorem stepForm (t : Trader) (rules : Rules) (p : Portfolio) (turn : Turn) :
    StepForm t rules p turn (t.step rules p turn) := by
  unfold step
  cases hx : p.position? turn.symbol with
  | some x =>
    dsimp only
    cases hsell : t.signal rules.sell turn (turn.day - x.entryDay) with
    | error e => exact .failed (.inr rfl) hsell rfl
    | ok sell =>
      cases sell with
      | false => exact .kept rfl
      | true =>
        rw [bind_of_ok rfl, if_pos rfl]
        cases hbuy : t.signal rules.buy turn (turn.day - x.entryDay) with
        | error e => exact .failed (.inl rfl) hbuy rfl
        | ok buy =>
          cases buy with
          | true => exact .kept rfl
          | false => exact .sold rfl
  | none =>
    cases hroom : t.hasRoom p with
    | false => exact .kept rfl
    | true =>
      dsimp only
      rw [if_pos rfl]
      cases hbuy : t.signal rules.buy turn 0 with
      | error e => exact .failed (.inl rfl) hbuy rfl
      | ok buy =>
        cases buy with
        | false => exact .kept rfl
        | true => exact .bought hx hroom rfl

/-- What a turn that does not fail may do: nothing, the sale of a position, or a purchase of a symbol that
is not held, with room for it. -/
theorem step_eq_ok (h : t.step rules p turn = .ok p') :
    p' = p ∨
    (∃ x price,
      Portfolio.Sold t.source t.settings.tradeCost turn.symbol (turn.day + 1) x price p p') ∨
    (∃ b : Trade, b.symbol = turn.symbol ∧ b.day = turn.day + 1 ∧ p.position? turn.symbol = none ∧
      t.hasRoom p = true ∧
      Portfolio.Purchased t.source t.settings.stockValue t.settings.tradeCost b p p') := by
  cases t.stepForm rules p turn with
  | failed _ _ hstep =>
    rw [hstep] at h
    cases h
  | kept hstep =>
    rw [hstep] at h
    cases h
    exact .inl rfl
  | sold hstep =>
    rcases fill_cases (hstep.symm.trans h) with hsame | ⟨found, hsell⟩
    · exact .inl hsame
    · rcases Portfolio.sell_eq_ok hsell with ⟨-, hsame⟩ | ⟨x, price, -, hsold⟩
      · exact .inl hsame
      · exact .inr (.inl ⟨x, price, hsold⟩)
  | bought hfree hroom hstep =>
    rcases fill_cases (hstep.symm.trans h) with hsame | ⟨found, hbuy⟩
    · exact .inl hsame
    · rcases Portfolio.buy_eq_ok hbuy with ⟨-, hsame⟩ | ⟨b, hsymbol, hday, -, hbought⟩
      · exact .inl hsame
      · exact .inr (.inr ⟨b, hsymbol, hday, hfree, hroom, hbought⟩)

/-- With an amount that is not negative, a purchase has shares. -/
theorem step_cases (hvalue : 0.0 ≤ t.settings.stockValue) (h : t.step rules p turn = .ok p') :
    p' = p ∨
    (∃ b : Trade, b.symbol = turn.symbol ∧ b.day = turn.day + 1 ∧ p.position? turn.symbol = none ∧
      t.hasRoom p = true ∧ Portfolio.Bought t.settings.tradeCost b p p') ∨
    (∃ x price,
      Portfolio.Sold t.source t.settings.tradeCost turn.symbol (turn.day + 1) x price p p') := by
  rcases step_eq_ok h with hsame | ⟨x, price, hsold⟩ | ⟨b, hsymbol, hday, hfree, hroom, hbought⟩
  · exact .inl hsame
  · exact .inr (.inr ⟨x, price, hsold⟩)
  · exact .inr (.inl ⟨b, hsymbol, hday, hfree, hroom, hbought.bought hvalue⟩)

/-! ## The order of turns -/

/-- Whether a turn may come before another: on an earlier day, or for another symbol. -/
def Precedes (a b : Turn) : Prop :=
  a.day < b.day ∨ a.day = b.day ∧ a.symbol ≠ b.symbol

theorem mem_turnsOn {day : Int} (h : turn ∈ t.turnsOn day) : turn.day = day := by
  obtain ⟨i, hi, rfl⟩ := List.mem_mapIdx.mp h
  rfl

theorem mem_days {day : Int} (h : day ∈ t.days) :
    t.settings.startDay ≤ day ∧ day < t.settings.endDay := by
  obtain ⟨i, hi, rfl⟩ := List.mem_map.mp h
  have hlt := List.mem_range.mp hi
  omega

/-- Every turn is on a day that rules are evaluated on. -/
theorem mem_turns (h : turn ∈ t.turns) :
    t.settings.startDay ≤ turn.day ∧ turn.day < t.settings.endDay := by
  obtain ⟨day, hday, hturn⟩ := List.mem_flatMap.mp h
  rw [mem_turnsOn hturn]
  exact mem_days hday

theorem symbolsOn_nodup (h : t.source.symbols.Nodup) (day : Int) : (t.symbolsOn day).Nodup := by
  have hall := Source.symbolsOn_nodup h day
  unfold symbolsOn
  split
  · exact hall
  · exact hall.filter _

/-- The turns of one day are for different symbols. -/
theorem turnsOn_pairwise (h : t.source.symbols.Nodup) (day : Int) :
    (t.turnsOn day).Pairwise Precedes := by
  have hsymbols : ((t.turnsOn day).map Turn.symbol).Nodup := by
    have hmap : (t.turnsOn day).map Turn.symbol = t.symbolsOn day := by
      refine List.ext_getElem? fun i => ?_
      simp [turnsOn, Function.comp_def]
    rw [hmap]
    exact symbolsOn_nodup h day
  refine (List.pairwise_map.mp hsymbols).imp_of_mem ?_
  intro a b ha hb hne
  exact .inr ⟨(mem_turnsOn ha).trans (mem_turnsOn hb).symm, hne⟩

theorem days_pairwise (t : Trader) : t.days.Pairwise (· < ·) := by
  refine List.pairwise_map.mpr (List.pairwise_lt_range.imp ?_)
  intro i j hij
  omega

/-- Turns come in the order of their days, and no symbol has two on one day. -/
theorem turns_pairwise (h : t.source.symbols.Nodup) : t.turns.Pairwise Precedes := by
  refine List.pairwise_flatMap.mpr ⟨fun day _ => turnsOn_pairwise h day, ?_⟩
  refine t.days_pairwise.imp ?_
  intro d e hlt a ha b hb
  rw [← mem_turnsOn ha, ← mem_turnsOn hb] at hlt
  exact .inl hlt

/-! ## A whole run -/

/-- What each turn keeps holds after some turns, also where they stop. -/
theorem follow_induction {P : Portfolio → Prop} {turns : List Turn}
    (hstep : ∀ turn ∈ turns, ∀ {p p'}, P p → t.step rules p turn = .ok p' → P p') (h : P p) :
    P (t.follow rules turns p).1 := by
  induction turns generalizing p with
  | nil => exact h
  | cons turn rest ih =>
    unfold follow
    cases hnext : t.step rules p turn with
    | error e => exact h
    | ok p' =>
      exact ih (fun a ha => hstep a (List.mem_cons_of_mem turn ha)) (hstep turn List.mem_cons_self h hnext)

/-- Turns stop where one of them fails. -/
theorem follow_eq_some {turns : List Turn} {e : TradeError}
    (h : (t.follow rules turns p).2 = some e) : ∃ turn ∈ turns, ∃ q, t.step rules q turn = .error e := by
  induction turns generalizing p with
  | nil => cases h
  | cons turn rest ih =>
    unfold follow at h
    cases hstep : t.step rules p turn with
    | error e' =>
      rw [hstep] at h
      cases h
      exact ⟨turn, List.mem_cons_self, p, hstep⟩
    | ok p' =>
      rw [hstep] at h
      obtain ⟨a, ha, hfails⟩ := ih h
      exact ⟨a, List.mem_cons_of_mem turn ha, hfails⟩

/-- Whether a portfolio has a ledger whose trades come from some turns. -/
structure Accounts (t : Trader) (past : List Turn) (p : Portfolio) : Prop where
  ledger : IsLedger t.settings p
  /-- Each trade is on the day after one of the turns, in its symbol. -/
  source : ∀ a ∈ p.trades, ∃ turn ∈ past, a.symbol = turn.symbol ∧ a.day = turn.day + 1

variable {past : List Turn}

/-- A turn after all others keeps the accounts. -/
theorem Accounts.step (hvalue : 0.0 ≤ t.settings.stockValue) (h : t.Accounts past p)
    (hafter : ∀ a ∈ past, Precedes a turn)
    (hday : t.settings.startDay ≤ turn.day ∧ turn.day < t.settings.endDay)
    (hstep : t.step rules p turn = .ok p') : t.Accounts (past ++ [turn]) p' := by
  have hpast : ∀ a ∈ p.trades, ∃ b ∈ past ++ [turn], a.symbol = b.symbol ∧ a.day = b.day + 1 := by
    intro a ha
    obtain ⟨b, hb, hab⟩ := h.source a ha
    exact ⟨b, List.mem_append_left _ hb, hab⟩
  have hturn : turn ∈ past ++ [turn] := List.mem_append_right _ List.mem_cons_self
  have hlast : ∀ a ∈ p.trades, a.day ≤ turn.day + 1 := by
    intro a ha
    obtain ⟨b, hb, -, hb'⟩ := h.source a ha
    rcases hafter b hb with hlt | ⟨heq, -⟩ <;> omega
  rcases step_cases hvalue hstep with rfl | ⟨b, hsymbol, hbday, hfree, hroom, hbought⟩ |
    ⟨x, price, hsold⟩
  · exact ⟨h.ledger, hpast⟩
  · have hfree' : ∀ x ∈ p.positions, x.symbol ≠ b.symbol := by
      rw [hsymbol]
      exact Portfolio.free_of_position? hfree
    rw [hbought.result, Portfolio.putPosition_free (x := b.opened) hfree']
    refine ⟨?_, IsLedger.forall_trades hpast ⟨turn, hturn, hsymbol, hbday⟩⟩
    exact h.ledger.buy hfree' hbought.side hbought.shares (by omega) (by rw [hbday]; exact hlast)
      (hasRoom_spec hroom).1
  · obtain ⟨hmem, hsymbol⟩ := Portfolio.mem_of_position? hsold.held
    rw [hsold.result]
    refine ⟨?_, IsLedger.forall_trades hpast ⟨turn, hturn, rfl, rfl⟩⟩
    -- The purchase came from a turn for the same symbol, which must have been on an earlier day.
    obtain ⟨bought, hgot, -, hopened⟩ := (h.ledger.held x).mp hmem
    have hlogged := (List.mem_filter.mp (List.mem_of_getLast? hgot)).1
    obtain ⟨b, hb, hbs, hbd⟩ := h.source bought hlogged
    have hearlier : x.entryDay < turn.day + 1 := by
      have hentry : x.entryDay = bought.day := by rw [hopened]; rfl
      have hsame : b.symbol = turn.symbol := by rw [← hbs, ← hsymbol, hopened]; rfl
      rcases hafter b hb with hlt | ⟨-, hne⟩
      · omega
      · exact absurd hsame hne
    have hwithin : t.settings.startDay + 1 ≤ turn.day + 1 ∧ turn.day + 1 ≤ t.settings.endDay := by
      omega
    exact h.ledger.sell (t := ⟨turn.symbol, turn.day + 1, x.shares, price, .sell⟩) hmem
      hsymbol.symm rfl rfl hearlier hwithin hlast

/-- Turns after all others keep the accounts, up to where they stop. -/
theorem Accounts.follow (hvalue : 0.0 ≤ t.settings.stockValue) :
    ∀ {rest past : List Turn} {p : Portfolio}, t.Accounts past p →
      (past ++ rest).Pairwise Precedes →
      (∀ turn ∈ rest, t.settings.startDay ≤ turn.day ∧ turn.day < t.settings.endDay) →
      IsLedger t.settings (t.follow rules rest p).1
  | [], _, _, h, _, _ => h.ledger
  | turn :: rest, past, p, h, hordered, hdays => by
    unfold Trader.follow
    cases hstep : t.step rules p turn with
    | error e => exact h.ledger
    | ok p' =>
      have hafter : ∀ a ∈ past, Precedes a turn := fun a ha =>
        (List.pairwise_append.mp hordered).2.2 a ha turn List.mem_cons_self
      have hnext := h.step hvalue hafter (hdays turn List.mem_cons_self) hstep
      refine hnext.follow hvalue ?_ fun a ha => hdays a (List.mem_cons_of_mem turn ha)
      rwa [List.append_assoc, List.singleton_append]

/-- The portfolio has a ledger at every point of a run. -/
theorem follow_isLedger (hsymbols : t.source.symbols.Nodup) (hvalue : 0.0 ≤ t.settings.stockValue)
    (hcount : 0 ≤ t.settings.numberStocks) (hpast : past <+: t.turns) :
    IsLedger t.settings (t.follow rules past t.initial).1 := by
  have hstart : t.Accounts [] t.initial := ⟨IsLedger.initial hcount, fun a ha => by cases ha⟩
  refine Accounts.follow hvalue hstart ?_ fun turn hturn => mem_turns (hpast.subset hturn)
  exact (turns_pairwise hsymbols).sublist hpast.sublist

theorem make_eq_ok {source : Source} {settings : TraderSettings}
    (h : Trader.make source settings = .ok t) :
    t = ⟨source, settings⟩ ∧ settings.endDay ≤ source.lastDay := by
  unfold Trader.make at h
  split_ifs at h with hdays
  cases h
  exact ⟨rfl, hdays.2.2⟩

theorem parts_of_make {source : Source} {settings : TraderSettings}
    (h : Trader.make source settings = .ok t) : t.source = source ∧ t.settings = settings := by
  obtain ⟨rfl, -⟩ := make_eq_ok h
  exact ⟨rfl, rfl⟩

theorem run_portfolio (t : Trader) (rules : Rules) :
    (t.run rules).2 = (t.follow rules t.turns t.initial).1 := by
  unfold run
  generalize t.follow rules t.turns t.initial = result
  obtain ⟨p, e⟩ := result
  cases e with
  | none => rfl
  | some e => rfl

/-- At every point of a run on a source made of frames, and where the run stops, the portfolio has a
ledger. -/
theorem run_keeps_ledger {frames : List (Symbol × Frame)} {source : Source}
    {settings : TraderSettings} {t : Trader} (hsource : Source.ofFrames frames = .ok source)
    (ht : Trader.make source settings = .ok t) (hvalue : 0.0 ≤ settings.stockValue)
    (hcount : 0 ≤ settings.numberStocks) (rules : Rules) :
    (∀ past, past <+: t.turns → IsLedger settings (t.follow rules past t.initial).1) ∧
      IsLedger settings (t.run rules).2 := by
  have hsymbols := Source.symbols_nodup hsource
  obtain ⟨rfl, rfl⟩ := parts_of_make ht
  refine ⟨fun past hpast => follow_isLedger hsymbols hvalue hcount hpast, ?_⟩
  rw [run_portfolio]
  exact follow_isLedger hsymbols hvalue hcount (List.prefix_refl _)

/-- The quotes of a symbol on two days. -/
def sampleFrame : Frame :=
  [(⟨2024, 1, 2, by decide⟩, { opening := some 10.0, closing := some 10.0 }),
    (⟨2024, 1, 3, by decide⟩, { opening := some 11.0, closing := some 12.0 })]

/-- A source of one symbol. -/
def sampleSource : Source :=
  { calendar := (sampleFrame.map Prod.fst).toArray
    series := [(⟨"A"⟩, (sampleFrame.map Prod.snd).toArray)] }

theorem ofFrames_sample : Source.ofFrames [(⟨"A"⟩, sampleFrame)] = .ok sampleSource := by
  have hsorted : sampleFrame.sorted = sampleFrame := by
    simp [Frame.sorted, sampleFrame, List.mergeSort, Date.before, Date.key]
  have hunion : Frame.union sampleFrame.days sampleFrame.days = sampleFrame.days := by
    simp [Frame.days, sampleFrame, Frame.union, Date.before]
  simp [Source.ofFrames, Source.putFrame, hsorted, hunion, Frame.align]
  rfl

/-- Rules that always buy and never sell buy ninety shares. -/
theorem run_keeps_ledger_sample :
    ∃ settings t, Trader.make sampleSource settings = .ok t ∧
      (t.run ⟨.truth true, .truth false⟩).2.trades.map Trade.shares = [90] ∧
      IsLedger settings (t.run ⟨.truth true, .truth false⟩).2 := by
  have hmake : Trader.make sampleSource { startDay := 0, endDay := 1 } =
      .ok { source := sampleSource, settings := { startDay := 0, endDay := 1 } } := rfl
  refine ⟨_, _, hmake, by decide +kernel, ?_⟩
  exact (run_keeps_ledger ofFrames_sample hmake (by decide +kernel) (by decide) _).2

end Trader

end TradeRules
