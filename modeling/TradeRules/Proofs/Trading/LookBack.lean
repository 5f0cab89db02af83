import TradeRules.Proofs.Rule.LookBack
import TradeRules.Proofs.Trading.Run

/-!
# Paper trading does not look ahead

When the rules look back, the trades of a run up to a day are settled by the quotes up to that day.  Two
sources with the same past give the same symbols on each day before, the same value to each rule, and the
same opening price to each order, which is filled at most on that day (`Trader.step_eq`).  So the runs
have the same portfolio after those days, or have stopped for the same reason (`Trader.no_look_ahead`).
-/

namespace TradeRules

/-- Whether neither rule reads a later day. -/
structure Rules.LooksBack (r : Rules) : Prop where
  buy : r.buy.LooksBack
  sell : r.sell.LooksBack

/-! ## Orders -/

namespace Portfolio

variable {p : Portfolio} {s s' : Source} {amount fee : Float} {symbol : Symbol} {last day : ℤ}

theorem buy_eq (h : s.SamePast last s') (hday : day ≤ last) :
    p.buy s amount fee symbol day = p.buy s' amount fee symbol day := by
  unfold buy
  rw [h.quote hday]

theorem sell_eq (h : s.SamePast last s') (hday : day ≤ last) :
    p.sell s fee symbol day = p.sell s' fee symbol day := by
  unfold sell
  rw [h.quote hday]

end Portfolio

namespace Trader

variable {t t' : Trader} {rules : Rules} {p : Portfolio} {turn : Turn} {last day k : ℤ}

/-- Whether two traders with the same settings cannot be told apart up to a day. -/
structure SamePast (last : ℤ) (t t' : Trader) : Prop where
  settings : t.settings = t'.settings
  source : t.source.SamePast last t'.source
  covered : last ≤ t.source.lastDay
  covered' : last ≤ t'.source.lastDay

/-! ## Turns -/

/-- The turns on the days before a given one. -/
def turnsBefore (t : Trader) (k : ℤ) : List Turn :=
  t.turns.filter fun turn => turn.day < k

/-- In a list that is in the order of days, the turns before a day come first. -/
theorem filter_day_prefix {turns : List Turn} (h : turns.Pairwise fun a b => a.day ≤ b.day) (k : ℤ) :
    turns.filter (fun turn => turn.day < k) <+: turns := by
  induction turns with
  | nil => exact List.prefix_rfl
  | cons turn turns ih =>
    obtain ⟨hfirst, hrest⟩ := List.pairwise_cons.mp h
    by_cases hk : turn.day < k
    · rw [List.filter_cons, if_pos (decide_eq_true hk)]
      exact List.cons_prefix_cons.mpr ⟨rfl, ih hrest⟩
    · have hnone : (turn :: turns).filter (fun turn => turn.day < k) = [] := by
        refine List.filter_eq_nil_iff.mpr fun a ha => ?_
        rw [decide_eq_true_iff, not_lt]
        rcases List.mem_cons.mp ha with rfl | ha
        · exact not_lt.mp hk
        · exact (not_lt.mp hk).trans (hfirst a ha)
      rw [hnone]
      exact List.nil_prefix

/-- The turns before a day are the first ones of a run. -/
theorem turnsBefore_prefix (h : t.source.symbols.Nodup) (k : ℤ) : t.turnsBefore k <+: t.turns := by
  refine filter_day_prefix ((turns_pairwise h).imp ?_) k
  rintro a b (hlt | ⟨heq, -⟩)
  · exact hlt.le
  · exact heq.le

theorem SamePast.turnsOn_eq {frames frames' : List (Symbol × Frame)} (h : SamePast last t t')
    (hs : Source.ofFrames frames = .ok t.source) (hs' : Source.ofFrames frames' = .ok t'.source)
    (hday : day ≤ last) : t.turnsOn day = t'.turnsOn day := by
  unfold turnsOn symbolsOn
  rw [h.settings, h.source.symbolsOn hs hs' hday]

/-- The turns before a day are settled by the quotes before. -/
theorem SamePast.turnsBefore_eq {frames frames' : List (Symbol × Frame)} (h : SamePast last t t')
    (hs : Source.ofFrames frames = .ok t.source) (hs' : Source.ofFrames frames' = .ok t'.source) :
    t.turnsBefore last = t'.turnsBefore last := by
  have hdays : t.days = t'.days := by
    unfold days
    rw [h.settings]
  have hnone : ∀ (t : Trader) {day : ℤ}, last ≤ day →
      (t.turnsOn day).filter (fun turn => turn.day < last) = [] := fun t day hle => by
    refine List.filter_eq_nil_iff.mpr fun turn hturn => ?_
    rw [decide_eq_true_iff, mem_turnsOn hturn, not_lt]
    exact hle
  unfold turnsBefore turns
  rw [List.filter_flatMap, List.filter_flatMap, hdays]
  refine List.flatMap_congr fun day _ => ?_
  rcases lt_or_ge day last with hlt | hge
  · rw [h.turnsOn_eq hs hs' hlt.le]
  · rw [hnone t hge, hnone t' hge]

/-! ## Steps -/

/-- A rule that looks back has the same signal. -/
theorem SamePast.signal_eq (h : SamePast last t t') {rule : Expr} (hrule : rule.LooksBack)
    (hday : turn.day ≤ last) (held : ℤ) : t.signal rule turn held = t'.signal rule turn held := by
  unfold signal
  rw [hrule.evaluate_eq h.source hday h.covered h.covered']

/-- A turn on an earlier day does the same, since its orders are filled on the day after. -/
theorem SamePast.step_eq (h : SamePast last t t') (hrules : rules.LooksBack) (hday : turn.day < last) :
    t.step rules p turn = t'.step rules p turn := by
  have hbuy : ∀ held, t.signal rules.buy turn held = t'.signal rules.buy turn held :=
    h.signal_eq hrules.buy hday.le
  have hsell : ∀ held, t.signal rules.sell turn held = t'.signal rules.sell turn held :=
    h.signal_eq hrules.sell hday.le
  have hfillBuy : t.buy p turn.symbol (turn.day + 1) = t'.buy p turn.symbol (turn.day + 1) := by
    unfold buy
    rw [h.settings, Portfolio.buy_eq h.source (by omega)]
  have hfillSell : t.sell p turn.symbol (turn.day + 1) = t'.sell p turn.symbol (turn.day + 1) := by
    unfold sell
    rw [h.settings, Portfolio.sell_eq h.source (by omega)]
  have hroom : t.hasRoom p = t'.hasRoom p := by
    unfold hasRoom
    rw [h.settings]
  unfold step
  simp only [hbuy, hsell, hfillBuy, hfillSell, hroom]

theorem SamePast.follow_eq (h : SamePast last t t') (hrules : rules.LooksBack) {turns : List Turn}
    (hdays : ∀ turn ∈ turns, turn.day < last) :
    t.follow rules turns p = t'.follow rules turns p := by
  induction turns generalizing p with
  | nil => rfl
  | cons turn turns ih =>
    unfold follow
    rw [h.step_eq hrules (hdays turn List.mem_cons_self)]
    cases t'.step rules p turn with
    | error e => rfl
    | ok p' => exact ih fun a ha => hdays a (List.mem_cons_of_mem turn ha)

/-! ## Runs -/

/-- A run that is stopped is not taken up again. -/
theorem follow_of_stopped {past turns : List Turn} (hpast : past <+: turns) {q : Portfolio}
    {e : TradeError} (h : t.follow rules past p = (q, some e)) :
    t.follow rules turns p = (q, some e) := by
  induction past generalizing turns p with
  | nil => cases h
  | cons turn past ih =>
    obtain ⟨rest, rfl⟩ := hpast
    rw [List.cons_append, follow]
    rw [follow] at h
    cases hstep : t.step rules p turn with
    | error e' =>
      rw [hstep] at h
      exact h
    | ok p' =>
      rw [hstep] at h
      exact ih (List.prefix_append past rest) h

theorem run_of_stopped {past : List Turn} (hpast : past <+: t.turns) {q : Portfolio}
    {e : TradeError} (h : t.follow rules past t.initial = (q, some e)) :
    t.run rules = (.error e, q) := by
  rw [run, follow_of_stopped hpast h]

/-- Rules that look back do not look ahead in a run.  When two sources have the same past up to a day,
then after the days before it the runs have come to the same cash, positions and trades, or have been
stopped by the same error. -/
theorem no_look_ahead {frames frames' : List (Symbol × Frame)} {source source' : Source}
    {settings : TraderSettings} (hsource : Source.ofFrames frames = .ok source)
    (hsource' : Source.ofFrames frames' = .ok source') (ht : Trader.make source settings = .ok t)
    (ht' : Trader.make source' settings = .ok t') (hrules : rules.LooksBack)
    (hk : k ≤ settings.endDay) (hpast : source.SamePast k source') :
    (t.turnsBefore k <+: t.turns ∧ t'.turnsBefore k <+: t'.turns) ∧
    t.follow rules (t.turnsBefore k) t.initial = t'.follow rules (t'.turnsBefore k) t'.initial ∧
    ∀ e p, t.follow rules (t.turnsBefore k) t.initial = (p, some e) →
      t.run rules = (.error e, p) ∧ t'.run rules = (.error e, p) := by
  obtain ⟨rfl, hend⟩ := make_eq_ok ht
  obtain ⟨rfl, hend'⟩ := make_eq_ok ht'
  have h : SamePast k ⟨source, settings⟩ ⟨source', settings⟩ :=
    ⟨rfl, hpast, hk.trans hend, hk.trans hend'⟩
  have hpast := turnsBefore_prefix (t := ⟨source, settings⟩) (Source.symbols_nodup hsource) k
  have hpast' := turnsBefore_prefix (t := ⟨source', settings⟩) (Source.symbols_nodup hsource') k
  have hsame : follow ⟨source, settings⟩ rules (turnsBefore ⟨source, settings⟩ k)
        (initial ⟨source, settings⟩) =
      follow ⟨source', settings⟩ rules (turnsBefore ⟨source', settings⟩ k)
        (initial ⟨source', settings⟩) := by
    rw [h.turnsBefore_eq hsource hsource']
    exact h.follow_eq hrules fun turn hturn => of_decide_eq_true (List.mem_filter.mp hturn).2
  exact ⟨⟨hpast, hpast'⟩, hsame, fun e p hstop =>
    ⟨run_of_stopped hpast hstop, run_of_stopped hpast' (hsame ▸ hstop)⟩⟩

/-- The quotes of a symbol on three days, of which the last is given. -/
def openFrame (last : Bar) : Frame :=
  sampleFrame ++ [(⟨2024, 1, 4, by decide⟩, last)]

/-- A source of one symbol with these quotes. -/
def openSource (last : Bar) : Source :=
  { calendar := ((openFrame last).map Prod.fst).toArray
    series := [(⟨"A"⟩, ((openFrame last).map Prod.snd).toArray)] }

theorem sorted_open (last : Bar) : (openFrame last).sorted = openFrame last := by
  have hdays : (openFrame last).days.Pairwise fun a b => (!b.before a) = true :=
    (by decide +kernel : (openFrame {}).days.Pairwise fun a b => (!b.before a) = true)
  exact List.mergeSort_of_pairwise (List.pairwise_map.mp hdays)

theorem union_open (last : Bar) :
    Frame.union (openFrame last).days (openFrame last).days = (openFrame last).days := by
  simp [Frame.days, openFrame, sampleFrame, Frame.union, Date.before]

theorem ofFrames_open (last : Bar) :
    Source.ofFrames [(⟨"A"⟩, openFrame last)] = .ok (openSource last) := by
  simp [Source.ofFrames, Source.putFrame, sorted_open, union_open, Frame.align]
  rfl

theorem samePast_open (last last' : Bar) : (openSource last).SamePast 1 (openSource last') := by
  refine ⟨rfl, fun symbol field day hday => ?_⟩
  unfold Source.quote?
  by_cases hneg : day < 0
  · rw [if_pos hneg, if_pos hneg]
  · rw [if_neg hneg, if_neg hneg]
    by_cases hsymbol : symbol = ⟨"A"⟩
    · subst hsymbol
      obtain rfl | rfl : day = 0 ∨ day = 1 := by omega
      · rfl
      · rfl
    · have hbeq : (symbol == ⟨"A"⟩) = false := beq_false_of_ne hsymbol
      simp [openSource, List.lookup, hbeq]

/-- A rule that compares a close with the one before buys the same on the second day, whatever the third
day brings. -/
theorem no_look_ahead_sample :
    ∃ (rules : Rules) (t t' : Trader),
      t.source.quote? ⟨"A"⟩ .closing 2 = none ∧ t'.source.quote? ⟨"A"⟩ .closing 2 = some 2.0 ∧
      (t.follow rules (t.turnsBefore 1) t.initial).1.trades.map Trade.shares = [90] ∧
      t.follow rules (t.turnsBefore 1) t.initial = t'.follow rules (t'.turnsBefore 1) t'.initial := by
  let closed : Bar := { closing := some 2.0 }
  let settings : TraderSettings := { startDay := 0, endDay := 2 }
  let back (n : ℤ) (finite : (Double.ofInt n).isFinite = true) : Expr :=
    .binary .lag (.quote .closing) (.number (.whole n finite))
  have hback : ∀ n finite, n ≤ 0 → (back n finite).LooksBack := fun n finite hn =>
    ⟨fun o ho => by cases ho; exact ⟨n, finite, rfl, hn⟩, nofun, nofun⟩
  let rules : Rules :=
    ⟨.comparison .less (back (-1) (by decide +kernel)) (back 0 (by decide +kernel)), .truth false⟩
  have hrules : rules.LooksBack :=
    ⟨⟨nofun, hback _ _ (by decide), hback _ _ (by decide)⟩, nofun⟩
  have hmake : ∀ last, Trader.make (openSource last) settings = .ok ⟨openSource last, settings⟩ :=
    fun _ => rfl
  refine ⟨rules, ⟨openSource {}, settings⟩, ⟨openSource closed, settings⟩, rfl, rfl,
    by decide +kernel, ?_⟩
  exact (no_look_ahead (ofFrames_open {}) (ofFrames_open closed) (hmake {}) (hmake closed) hrules
    (by decide) (samePast_open {} closed)).2.1

end Trader

end TradeRules
