import TradeRules.Proofs.Breeding.Cross
import TradeRules.Proofs.Market.Records
import TradeRules.Proofs.Rule.Unusable
import TradeRules.Proofs.Trading.Orders

/-!
# Why a run fails

An order without an opening price is dropped.  Apart from that, a sale never fails, and a purchase only
when the number of shares overflows: the amount for a stock is finite and the price is finite and
positive, so their quotient is a number, but it is infinite when the price is small enough
(`Portfolio.affordable_eq_error`).

So a run of BOOLEAN rules over `held` and `order` on a source of finite opening prices ends with a value,
with an argument that a rule cannot use, or with an overflow at a turn whose price the amount for a stock
cannot be divided by (`Trader.run_fails_for`).  A number of shares that has been counted is always a
double, so nothing else in a run overflows.  The overflow does happen (`Trader.run_overflows`).
-/

namespace TradeRules

/-! ## Rules over the variables of trading -/

/-- Whether a rule reads no variables but those of trading rules. -/
def Expr.IsOverHeldAndOrder (e : Expr) : Prop :=
  ∀ site ∈ e.sites, ∀ name kind, site.2 = .leaf (.variable name kind) →
    name = Variables.heldName ∨ name = Variables.orderName

/-- Whether both rules read no variables but those of trading rules. -/
structure Rules.AreOverHeldAndOrder (r : Rules) : Prop where
  buy : r.buy.IsOverHeldAndOrder
  sell : r.sell.IsOverHeldAndOrder

theorem Variables.contains_ofRule {name : String} {held order : Float}
    (h : name = heldName ∨ name = orderName) : (ofRule held order).contains name = true := by
  rcases h with rfl | rfl
  · rfl
  · rfl

/-- The variables of such a rule are declared in a run. -/
theorem Expr.IsOverHeldAndOrder.isDeclared {e : Expr} {env : Environment} {held order : Float}
    (h : e.IsOverHeldAndOrder) (henv : env.bindings = Variables.ofRule held order) :
    e.Everywhere (IsDeclared env) := by
  refine everywhere_iff.mpr fun site hsite name kind hname => ?_
  rw [henv]
  exact Variables.contains_ofRule (h site hsite name kind hname)

/-! ## Orders that fail -/

namespace Portfolio

variable {p : Portfolio} {source : Source} {amount fee price : Float} {symbol : Symbol} {day : Int}
  {e : OrderError}

/-- A finite amount buys a number of shares, but for a price that it cannot be divided by. -/
theorem affordable_eq_error (hamount : amount.isFinite = true) (hamount0 : 0.0 ≤ amount)
    (hprice : price.isFinite = true) (hprice0 : ¬price ≤ 0.0) (h : affordable amount price = .error e) :
    e = .sharesInfinite ∧ (amount / price).isInf = true := by
  have hnumber := Double.isNaN_floorQuotient hamount hprice hamount0 hprice0
  unfold affordable at h
  simp only [hnumber, Bool.false_eq_true, if_false] at h
  split_ifs at h with hinf
  cases h
  refine ⟨rfl, ?_⟩
  -- A quotient that is not infinite would be rounded down to a finite double.
  by_contra hquotient
  rw [Bool.not_eq_true] at hquotient
  have hprice1 : Double.exact price ≠ 0 := fun hzero => hprice0 (by
    rw [Double.le_iff_exact hprice Double.zero_exact.1, Double.zero_exact.2, hzero])
  have hfinite := Double.isFinite_of_not
    (Double.isNaN_div (Double.isNaN_of_isFinite hamount) hprice hprice1) hquotient
  have hcount := Double.isFinite_floorQuotient hamount hprice hamount0 hprice0 hfinite
  rw [Double.isInf_of_isFinite hcount] at hinf
  cases hinf

/-- A purchase fails for want of an opening price, or where the number of shares is counted. -/
theorem buy_eq_error (h : p.buy source amount fee symbol day = .error e) :
    (∃ missing, e = .missing missing) ∨
      ∃ price, source.quote symbol .opening day = .ok price ∧ ¬price ≤ 0.0 ∧
        affordable amount price = .error e := by
  rcases bind_eq_error.mp h with hprice | ⟨price, hprice, h⟩
  · obtain ⟨missing, -, rfl⟩ := mapError_eq_error.mp hprice
    exact .inl ⟨missing, rfl⟩
  · dsimp only at h
    split_ifs at h with hfree
    · cases h
    · rcases bind_eq_error.mp h with hshares | ⟨shares, -, h⟩
      · exact .inr ⟨price, mapError_eq_ok.mp hprice, hfree, hshares⟩
      · split_ifs at h
        · cases h
        · cases h

/-- A sale fails for want of an opening price. -/
theorem sell_eq_error (h : p.sell source fee symbol day = .error e) : ∃ missing, e = .missing missing := by
  unfold sell at h
  cases hx : p.position? symbol with
  | none =>
    rw [hx] at h
    cases h
  | some x =>
    rw [hx] at h
    rcases bind_eq_error.mp h with hprice | ⟨price, -, h⟩
    · obtain ⟨missing, -, rfl⟩ := mapError_eq_error.mp hprice
      exact ⟨missing, rfl⟩
    · cases h

end Portfolio

/-! ## Turns that fail -/

namespace Trader

variable {t : Trader} {rules : Rules} {turn : Turn} {turns : List Turn} {p p' : Portfolio} {e : TradeError}

theorem fill_eq_error {α : Type} {order : Except OrderError (α × Portfolio)}
    (h : fill p order = .error e) : ∃ e', order = .error e' ∧ e = .order e' ∧ ∀ m, e' ≠ .missing m := by
  unfold fill at h
  split at h
  · cases h
  · cases h
  · next e' hmissing =>
    cases h
    exact ⟨e', rfl, rfl, hmissing⟩

/-- Why a run may fail: at a turn a rule comes to an argument that it cannot use, or the number of shares
overflows at the next opening price. -/
inductive FailsFor (t : Trader) (rules : Rules) : TradeError → Prop
  | argument {turn : Turn} {rule : Expr} {held : Int} {e : EvalError} (hturn : turn ∈ t.turns)
    (hrule : rule = rules.buy ∨ rule = rules.sell)
    (hsignal : t.signal rule turn held = .error (.evaluation e)) (h : e.OfArgument) :
    FailsFor t rules (.evaluation e)
  | overflow {turn : Turn} {price : Float} (hturn : turn ∈ t.turns)
    (hprice : t.source.quote turn.symbol .opening (turn.day + 1) = .ok price) (hpos : 0.0 < price)
    (hshares : Portfolio.affordable t.settings.stockValue price = .error .sharesInfinite)
    (h : (t.settings.stockValue / price).isInf = true) : FailsFor t rules (.order .sharesInfinite)

/-- What a run needs in order to fail for nothing else. -/
structure Ready (t : Trader) (rules : Rules) : Prop where
  amount : t.settings.stockValue.isFinite = true
  nonneg : 0.0 ≤ t.settings.stockValue
  prices : ∀ symbol day price, t.source.quote symbol .opening day = .ok price → price.isFinite = true
  days : ∀ turn ∈ t.turns, 0 ≤ turn.day ∧ turn.day ≤ t.source.lastDay
  boolean : rules.AreBoolean
  named : rules.AreOverHeldAndOrder

/-- A rule that cannot be evaluated has an argument that it cannot use. -/
theorem Ready.signal (h : t.Ready rules) (hturn : turn ∈ t.turns) {rule : Expr} {held : Int}
    (hrule : rule = rules.buy ∨ rule = rules.sell) (hsignal : t.signal rule turn held = .error e) :
    t.FailsFor rules e := by
  obtain ⟨e', rfl, hevaluate⟩ := signal_eq_error hsignal
  have hkind : rule.HasKind .boolean := by
    rcases hrule with rfl | rfl
    · exact h.boolean.buy
    · exact h.boolean.sell
  have hnamed : rule.IsOverHeldAndOrder := by
    rcases hrule with rfl | rfl
    · exact h.named.buy
    · exact h.named.sell
  exact .argument hturn hrule hsignal (Expr.failsForArguments hkind
    { hasSource := rfl, hasSymbol := rfl, day := h.days turn hturn } (hnamed.isDeclared rfl) e' hevaluate)

/-- A turn fails for nothing else. -/
theorem Ready.step (h : t.Ready rules) (hturn : turn ∈ t.turns) (hstep : t.step rules p turn = .error e) :
    t.FailsFor rules e := by
  cases t.stepForm rules p turn with
  | failed hrule hsignal hresult =>
    obtain rfl := Except.error.inj (hresult.symm.trans hstep)
    exact h.signal hturn hrule hsignal
  | kept hresult => cases hresult.symm.trans hstep
  | sold hresult =>
    obtain ⟨e', hsell, rfl, hmissing⟩ := fill_eq_error (hresult.symm.trans hstep)
    obtain ⟨m, rfl⟩ := Portfolio.sell_eq_error hsell
    exact absurd rfl (hmissing m)
  | bought _ _ hresult =>
    obtain ⟨e', hbuy, rfl, hmissing⟩ := fill_eq_error (hresult.symm.trans hstep)
    rcases Portfolio.buy_eq_error hbuy with ⟨m, rfl⟩ | ⟨price, hprice, hfree, hshares⟩
    · exact absurd rfl (hmissing m)
    · have hfinite := h.prices _ _ _ hprice
      obtain ⟨rfl, hinf⟩ := Portfolio.affordable_eq_error h.amount h.nonneg hfinite hfree hshares
      have hpos := Double.lt_of_not_le (Double.isNaN_of_isFinite hfinite)
        (Double.isNaN_of_isFinite Double.zero_exact.1) hfree
      exact .overflow hturn hprice hpos hshares hinf

/-! ## Shares in doubles -/

/-- A turn leaves only positions whose shares are a double. -/
theorem step_shares (hshares : ∀ x ∈ p.positions, (Double.ofInt x.shares).isFinite = true)
    (h : t.step rules p turn = .ok p') : ∀ x ∈ p'.positions, (Double.ofInt x.shares).isFinite = true := by
  intro x hx
  rcases step_eq_ok h with rfl | ⟨y, price, hsold⟩ | ⟨b, hsymbol, -, hfree, -, hbought⟩
  · exact hshares x hx
  · rw [hsold.result] at hx
    exact hshares x (List.mem_of_mem_filter hx)
  · rw [hbought.result, Portfolio.putPosition_free (x := b.opened)
      (by rw [← hsymbol] at hfree; exact Portfolio.free_of_position? hfree)] at hx
    rcases List.mem_append.mp hx with hx | hx
    · exact hshares x hx
    · rw [List.mem_singleton.mp hx]
      exact (Portfolio.affordable_eq_ok hbought.counted).2

theorem follow_shares (hshares : ∀ x ∈ p.positions, (Double.ofInt x.shares).isFinite = true) :
    ∀ x ∈ (t.follow rules turns p).1.positions, (Double.ofInt x.shares).isFinite = true :=
  follow_induction (P := fun p => ∀ x ∈ p.positions, (Double.ofInt x.shares).isFinite = true)
    (fun _ _ => step_shares) hshares

/-! ## A whole run -/

/-- The days of the turns of a trader lie in the calendar. -/
theorem days_of_make {source : Source} {settings : TraderSettings}
    (h : Trader.make source settings = .ok t) (hturn : turn ∈ t.turns) :
    0 ≤ turn.day ∧ turn.day ≤ t.source.lastDay := by
  have hday := mem_turns hturn
  unfold make at h
  split_ifs at h with hdays
  cases h
  obtain ⟨hfirst, -, hlast⟩ := hdays
  exact ⟨hfirst.trans hday.1, (hday.2.trans_le hlast).le⟩

theorem run_result (t : Trader) (rules : Rules) :
    (∃ value, (t.run rules).1 = .ok value) ∨
      ∃ e, (t.run rules).1 = .error e ∧ (t.follow rules t.turns t.initial).2 = some e := by
  unfold run
  generalize t.follow rules t.turns t.initial = result
  obtain ⟨p, e⟩ := result
  cases e with
  | none => exact .inl ⟨_, rfl⟩
  | some e => exact .inr ⟨e, rfl, rfl⟩

/-- A run of BOOLEAN rules over `held` and `order` on a source of records with finite opening prices ends
with a value, with an argument that a rule cannot use, or with an overflow of the number of shares.  Until
then all numbers of shares are doubles. -/
theorem run_fails_for {entries : List (List (String × Entry))} {records : List Record} {source : Source}
    {settings : TraderSettings} {t : Trader} {rules : Rules}
    (hvalid : entries.mapM Record.validate = .ok records)
    (hprices : ∀ r ∈ records, r.opening.isFinite = true) (hsource : Source.ofEntries entries = .ok source)
    (ht : Trader.make source settings = .ok t) (hamount : settings.stockValue.isFinite = true)
    (hnonneg : 0.0 ≤ settings.stockValue) (hkinds : rules.AreBoolean)
    (hnamed : rules.AreOverHeldAndOrder) :
    ((∃ value, (t.run rules).1 = .ok value) ∨ ∃ e, (t.run rules).1 = .error e ∧ t.FailsFor rules e) ∧
      (∀ price shares, Portfolio.affordable settings.stockValue price = .ok shares →
        (Double.ofInt shares).isFinite = true) ∧
      ∀ past, past <+: t.turns → ∀ x ∈ (t.follow rules past t.initial).1.positions,
        (Double.ofInt x.shares).isFinite = true := by
  obtain ⟨rfl, rfl⟩ := parts_of_make ht
  refine ⟨?_, fun price shares hshares => (Portfolio.affordable_eq_ok hshares).2,
    fun past _ => follow_shares (by exact nofun)⟩
  obtain ⟨records', hvalid', -, hrecords⟩ := Source.exists_records_of_ofEntries hsource
  obtain rfl := Except.ok.inj (hvalid.symm.trans hvalid')
  have hready : t.Ready rules :=
    { amount := hamount
      nonneg := hnonneg
      prices := fun symbol day price hprice => by
        obtain ⟨r, hr, rfl⟩ := Source.exists_record_of_quote hrecords hprice
        exact hprices r hr
      days := fun turn hturn => days_of_make ht hturn
      boolean := hkinds
      named := hnamed }
  rcases t.run_result rules with hvalue | ⟨e, hrun, hfollow⟩
  · exact .inl hvalue
  · obtain ⟨turn, hturn, q, hstep⟩ := follow_eq_some hfollow
    exact .inr ⟨e, hrun, hready.step hturn hstep⟩

/-! ## An overflow -/

/-- The entries of two days on which a price does not move. -/
def flatEntries (price : Float) : List (List (String × Entry)) :=
  [Source.stillEntries "AAA" "2024-08-05" price 7, Source.stillEntries "AAA" "2024-08-06" price 7]

/-- The two days. -/
def flatDays : List Date :=
  [⟨2024, 8, 5, by decide⟩, ⟨2024, 8, 6, by decide⟩]

/-- The records of these entries. -/
def flatRecords (price : Float) : List Record :=
  flatDays.map fun date => Source.stillRecord ⟨"AAA"⟩ date price 7

/-- The quotes of these records. -/
def flatFrame (price : Float) : Frame :=
  (flatRecords price).map fun r => (r.date, r.bar)

/-- A trader on these quotes with the default cash and amount for a stock. -/
def flatTrader (price : Float) : Trader :=
  { source :=
      { calendar := ((flatFrame price).map Prod.fst).toArray
        series := [(⟨"AAA"⟩, ((flatFrame price).map Prod.snd).toArray)] }
    settings := { startDay := 0, endDay := 1 } }

/-- Rules that always buy and never sell. -/
def eagerRules : Rules :=
  { buy := .truth true, sell := .truth false }

theorem mapM_validate_flat {price : Float} (h : 0.0 ≤ price) :
    (flatEntries price).mapM Record.validate = .ok (flatRecords price) := by
  rw [flatEntries, List.mapM_cons, List.mapM_cons, Source.validate_still rfl rfl h (by decide),
    Source.validate_still rfl rfl h (by decide)]
  rfl

theorem forall_flatRecords {P : Record → Prop} {price : Float}
    (h : ∀ date, P (Source.stillRecord ⟨"AAA"⟩ date price 7)) : ∀ r ∈ flatRecords price, P r :=
  List.forall_mem_map.mpr fun date _ => h date

theorem ofEntries_flat {price : Float} (h : 0.0 ≤ price) :
    Source.ofEntries (flatEntries price) = .ok (flatTrader price).source := by
  have hsorted : (flatFrame price).sorted = flatFrame price := by
    have hdays : (flatFrame price).days.Pairwise fun a b => (!b.before a) = true :=
      show flatDays.Pairwise _ by decide
    exact List.mergeSort_of_pairwise (List.pairwise_map.mp hdays)
  have hunion : Frame.union (flatFrame price).days (flatFrame price).days = (flatFrame price).days := by
    show Frame.union flatDays flatDays = flatDays
    simp [flatDays, Frame.union, Date.before]
  have hframes : Source.ofFrames [(⟨"AAA"⟩, flatFrame price)] = .ok (flatTrader price).source := by
    simp [Source.ofFrames, Source.putFrame, hsorted, hunion, Frame.align]
    rfl
  have hseven : (Double.ofInt 7).isFinite = true := by decide +kernel
  rw [Source.ofEntries_eq (mapM_validate_flat h) (forall_flatRecords fun date => hseven)]
  exact congrArg (Except.mapError RecordsError.frames) hframes

theorem areBoolean_eager : eagerRules.AreBoolean :=
  ⟨rfl, rfl⟩

theorem areOverHeldAndOrder_eager : eagerRules.AreOverHeldAndOrder := by
  constructor
  all_goals
    intro site hsite name kind hname
    rw [List.mem_singleton.mp hsite] at hname
    cases hname

theorem run_tiny : ((flatTrader 1e-310).run eagerRules).1 = .error (.order .sharesInfinite) := by
  decide +kernel

/-- A thousand divided by a price of `1e-310` is infinite, and the run neither ends with a value nor with a
rule that cannot be evaluated. -/
theorem run_overflows :
    (flatEntries 1e-310).mapM Record.validate = .ok (flatRecords 1e-310) ∧
      (∀ r ∈ flatRecords 1e-310, ∀ field, (r.price field).isFinite = true) ∧
      Source.ofEntries (flatEntries 1e-310) = .ok (flatTrader 1e-310).source ∧
      Trader.make (flatTrader 1e-310).source (flatTrader 1e-310).settings = .ok (flatTrader 1e-310) ∧
      eagerRules.AreBoolean ∧ eagerRules.AreOverHeldAndOrder ∧
      ¬((∃ value, ((flatTrader 1e-310).run eagerRules).1 = .ok value) ∨
        ∃ e, ((flatTrader 1e-310).run eagerRules).1 = .error (.evaluation e)) := by
  have hpos : (0.0 : Float) ≤ 1e-310 := by decide +kernel
  have hprice : (1e-310 : Float).isFinite = true := by decide +kernel
  have hseven : (Double.ofInt 7).isFinite = true := by decide +kernel
  refine ⟨mapM_validate_flat hpos, forall_flatRecords fun date field => ?_, ofEntries_flat hpos, rfl,
    areBoolean_eager, areOverHeldAndOrder_eager, ?_⟩
  · cases field with
    | opening | high | low | closing => exact hprice
    | volume => exact hseven
  · rintro (⟨value, hvalue⟩ | ⟨e, he⟩)
    · cases run_tiny.symm.trans hvalue
    · cases run_tiny.symm.trans he

/-- The quotient is what overflows there. -/
theorem run_fails_for_quotient :
    ∃ turn ∈ (flatTrader 1e-310).turns, ∃ price,
      (flatTrader 1e-310).source.quote turn.symbol .opening (turn.day + 1) = .ok price ∧ 0.0 < price ∧
        ((flatTrader 1e-310).settings.stockValue / price).isInf = true := by
  have hpos : (0.0 : Float) ≤ 1e-310 := by decide +kernel
  have hprice : (1e-310 : Float).isFinite = true := by decide +kernel
  have hamount : (flatTrader 1e-310).settings.stockValue.isFinite = true := by decide +kernel
  have hnonneg : 0.0 ≤ (flatTrader 1e-310).settings.stockValue := by decide +kernel
  have hmake : Trader.make (flatTrader 1e-310).source (flatTrader 1e-310).settings =
      .ok (flatTrader 1e-310) := rfl
  obtain ⟨hresult, -⟩ := run_fails_for (mapM_validate_flat hpos) (forall_flatRecords fun _ => hprice)
    (ofEntries_flat hpos) hmake hamount hnonneg areBoolean_eager areOverHeldAndOrder_eager
  rw [run_tiny] at hresult
  obtain ⟨value, hvalue⟩ | ⟨e, he, hfails⟩ := hresult
  · cases hvalue
  · cases he
    cases hfails with
    | overflow hturn hquote hpositive _ hinf => exact ⟨_, hturn, _, hquote, hpositive, hinf⟩

end Trader

end TradeRules
