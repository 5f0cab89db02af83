import TradeRules.Proofs.Breeding.Population
import TradeRules.Proofs.Trading.LookBack

/-!
# The filter of buy rules

A buy rule may be required to read a quote.  What is looked at is whether a field occurs in it, and a rule
without one is rejected.  A rejected rule has the same value whatever the quotes are, as long as the
calendar is the same, if no index of relative strength occurs in it (`rejected_ignores_quotes`).

The average and the other statistics name the field that they read as an operand, so they do not occur in
a rejected rule either.  The index names none and reads the closing prices all the same, and a rule that
is rejected with an index can tell two markets apart (`rejected_index_reads_quotes`).
-/

namespace TradeRules

namespace Expr

variable {a e : Expr} {k : Kind} {s s' : Source} {vs : Variables} {symbol : Option Symbol} {day : ℤ}

/-- Whether a node is neither a field nor an index of relative strength. -/
def ReadsNoField (e : Expr) : Prop :=
  (∀ field, e ≠ .quote field) ∧ ∀ a b, e ≠ .binary .rsi a b

theorem not_readsNoField_of_ofQuote? (h : a.HasKind k) {number : Kind}
    (hk : k.ofQuote? = some number) : ¬a.ReadsNoField := by
  obtain ⟨field, rfl, -⟩ := h.eq_quote (Kind.ofQuote?_eq_some hk).1
  exact fun hno => hno.1 field rfl

/-- Where nothing else is read of the market data, only the properties of the date are. -/
theorem eq_date_of_readsMarket (h : a.HasKind k) (hno : a.Everywhere ReadsNoField)
    (hreads : a.ReadsMarket) : ∃ part, a = .leaf (.date part) := by
  cases a with
  | leaf l =>
    cases l with
    | number | truth | «variable» => exact hreads.elim
    | quote field => exact absurd rfl (hno.1 field)
    | date part => exact ⟨part, rfl⟩
  | unary op a => exact hreads.elim
  | binary op a b =>
    obtain ⟨i, j, ka, -, hr⟩ := hasKind_binary.mp h
    cases op with
    | arithmetic | comparison | connective | percent => exact hreads.elim
    | lag =>
      exact absurd hno.2.1.root (not_readsNoField_of_ofQuote? ka (Binary.rule_lag.mp hr).1)
    | rsi => exact absurd rfl (hno.1.2 a b)
  | ternary op a b c =>
    obtain ⟨i, j, l, ka, -, -, hr⟩ := hasKind_ternary.mp h
    cases op with
    | choice => exact hreads.elim
    | statistic s =>
      exact absurd hno.2.1.root (not_readsNoField_of_ofQuote? ka (Ternary.rule_statistic.mp hr).1)
    | correlation partner =>
      obtain ⟨number, hnumber⟩ := (Ternary.rule_correlation.mp hr).1
      exact absurd hno.2.1.root (not_readsNoField_of_ofQuote? ka hnumber)
  | quaternary op a b c d =>
    obtain ⟨i, j, l, m, ka, -, -, -, hr⟩ := hasKind_quaternary.mp h
    cases op with
    | ema =>
      exact absurd hno.2.1.root (not_readsNoField_of_ofQuote? ka (Quaternary.rule_ema.mp hr).1)

/-- A well-typed rule that reads no field has the same value on sources with the same calendar. -/
theorem evaluate_eq_of_calendar (h : e.HasKind k) (hno : e.Everywhere ReadsNoField)
    (hcalendar : s.calendar = s'.calendar) :
    e.evaluate ⟨vs, some s, symbol, day⟩ = e.evaluate ⟨vs, some s', symbol, day⟩ := by
  refine evaluate_congr rfl (everywhere_iff.mpr fun site hsite hreads _ => ?_)
  obtain ⟨j, hj⟩ := h.at? site.1 (at?_of_mem_sites hsite)
  obtain ⟨part, hpart⟩ :=
    eq_date_of_readsMarket hj (everywhere_iff.mp hno.below site hsite) hreads
  rw [hpart, evaluate, evaluate]
  refine bind_congr_of_ok ?_ fun _ _ => rfl
  rw [Source.date, Source.date, hcalendar]

end Expr

namespace Strategy

variable {e : Expr} {k : Kind} {s s' : Source}

/-- A well-typed rule in which no field is counted is rejected as a buy rule.  Without an index of relative
strength it has the same value on all sources with the same calendar, or fails alike. -/
theorem rejected_ignores_quotes (hk : e.HasKind k) (hprice : e.countOf .floatQuote = .ok 0)
    (hvolume : e.countOf .integerQuote = .ok 0)
    (hindex : ∀ site ∈ e.sites, ∀ a b, site.2 ≠ .binary .rsi a b)
    (hcalendar : s.calendar = s'.calendar) :
    (∀ (c : Strategy) least greatest, c.rules.buy = e → c.isValid least greatest true = false) ∧
      ∀ vs symbol day,
        e.evaluate ⟨vs, some s, symbol, day⟩ = e.evaluate ⟨vs, some s', symbol, day⟩ := by
  have hread : readsQuote e = false := by
    simp [readsQuote, hprice, hvolume, Except.toOption]
  have hfields : ∀ site ∈ e.sites, ∀ field, site.2 ≠ .quote field := by
    intro site hsite field hfield
    have := (Expr.readsQuote_iff hk).mpr ⟨site, hsite, field, hfield⟩
    rw [hread] at this
    cases this
  constructor
  · rintro c least greatest rfl
    simp [isValid, hread]
  · intro vs symbol day
    exact Expr.evaluate_eq_of_calendar hk
      (Expr.everywhere_iff.mpr fun site hsite => ⟨hfields site hsite, hindex site hsite⟩) hcalendar

/-- The rule `dayofweek()==4`. -/
def thursdayRule : Expr :=
  .comparison .equal (.leaf (.date .dayOfWeek)) (.number (.whole 4 (by decide +kernel)))

/-- A rule that buys on Thursdays does so whatever the closing price of the last day is. -/
theorem rejected_ignores_quotes_thursday :
    thursdayRule.countOf .floatQuote = .ok 0 ∧ thursdayRule.countOf .integerQuote = .ok 0 ∧
      (∀ (c : Strategy) least greatest, c.rules.buy = thursdayRule →
        c.isValid least greatest true = false) ∧
      ∀ vs symbol day, thursdayRule.evaluate ⟨vs, some (Trader.openSource {}), symbol, day⟩ =
        thursdayRule.evaluate
          ⟨vs, some (Trader.openSource { closing := some 2.0 }), symbol, day⟩ := by
  have hindex : thursdayRule.Everywhere fun a => ∀ b c, a ≠ .binary .rsi b c := ⟨nofun, nofun, nofun⟩
  exact ⟨by rfl, by rfl, rejected_ignores_quotes (k := .boolean) (by rfl) (by rfl) (by rfl)
    (Expr.everywhere_iff.mp hindex) rfl⟩

/-- The rule `rsi(2, 0)>50.0`. -/
def strengthRule : Expr :=
  .comparison .greater
    (.binary .rsi (.number (.whole 2 Double.ofInt_two_isFinite))
      (.number (.whole 0 Double.ofInt_zero_isFinite)))
    (.number (.real 50.0 (by decide +kernel)))

/-- The rule is rejected, and is true of one market and false of another with the same calendar. -/
theorem rejected_index_reads_quotes :
    ∃ (s s' : Source) (vs : Variables) (symbol : Symbol) (day : ℤ),
      strengthRule.HasKind .boolean ∧ strengthRule.countOf .floatQuote = .ok 0 ∧
      strengthRule.countOf .integerQuote = .ok 0 ∧ s.calendar = s'.calendar ∧
      strengthRule.evaluate ⟨vs, some s, symbol, day⟩ = .ok 1.0 ∧
      strengthRule.evaluate ⟨vs, some s', symbol, day⟩ = .ok 0.0 := by
  have hcalendar : ∀ last, (Trader.openSource last).calendar = (Trader.openSource {}).calendar :=
    fun _ => rfl
  refine ⟨Trader.openSource { closing := some 14.0 }, Trader.openSource { closing := some 2.0 },
    Variables.empty, ⟨"A"⟩, 2, by rfl, by rfl, by rfl,
    (hcalendar _).trans (hcalendar _).symm, ?_, ?_⟩
  · decide +kernel
  · decide +kernel

end Strategy

end TradeRules
