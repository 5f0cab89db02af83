import TradeRules.Proofs.Market.Windows
import TradeRules.Proofs.Rule.EqualValues
import TradeRules.Proofs.Rule.Values

/-!
# Statistics of a single day

A lag reads the quote of one day, and zero without one.  A statistic over a period of one day has that
quote for its only sample, and none without one, and it comes to the sample and to zero.  The standard
deviation, which is zero for one sample, is the exception.

The two differ in one respect.  A statistic settles its result to the kind of the field, so that of a
volume loses its fraction.  A lag passes the quote on as it is.  So they agree on a quote if and only if
it is a number of its kind (`lag_and_statistics_of_one_day`), which a volume need not be
(`lag_keeps_fraction`).
-/

namespace TradeRules

open Double

variable {k : Kind} {x y : Float}

/-! ## Statistics of at most one sample -/

namespace Samples

theorem pairwise_one (x : Float) : pairwise [x] = x := by
  rw [pairwise, if_pos (by simp)]
  rfl

theorem sum_one (x : Float) : UpToSign (sum [x]) x := by
  rw [sum, pairwise_one, add_swap]
  exact upToSign_add_zero x (by decide +kernel)

theorem mean_one (x : Float) : UpToSign (mean [x]) x := by
  obtain ⟨hfin, hone⟩ := ofNat_exact (n := 1) (by norm_num)
  rw [Nat.cast_one] at hone
  exact ((sum_one x).div _).trans (upToSign_div_one x hfin hone)

end Samples

/-- A statistic of one sample is the sample, and one of no sample is zero. -/
theorem Statistic.of_toList {s : Statistic} (hs : s ≠ .deviation) (sample : Option Float) :
    UpToSign (s.of sample.toList) (sample.getD 0.0) := by
  have hband : (Samples.bandWidth * Samples.standardDeviation [0.0] == 0.0) = true := by
    decide +kernel
  cases sample with
  | none => cases s <;> exact .refl 0.0
  | some x =>
    cases s with
    | average => exact Samples.mean_one x
    | minimum => exact .refl x
    | maximum => exact .refl x
    | total => exact Samples.sum_one x
    | deviation => exact absurd rfl hs
    | lowerBand => exact (upToSign_sub_zero _ hband).trans (Samples.mean_one x)
    | upperBand => exact (upToSign_add_zero _ hband).trans (Samples.mean_one x)

theorem Samples.exponentialAverage_toList (w : Float) (sample : Option Float) :
    Samples.exponentialAverage w sample.toList = sample.getD 0.0 := by
  cases sample with
  | none => rfl
  | some x => rfl

/-! ## Settled quotes -/

namespace Kind

theorem Admits.congr (hk : k.isNumeric = true) (h : UpToSign x y) (hx : k.Admits x) :
    k.Admits y := by
  cases k with
  | integer =>
    rcases hx with hwhole | hinfinite
    · obtain ⟨hfin, hbeq⟩ := hwhole
      rw [(h.alike hfin).truncate, (UpToSign.refl _).beq_eq h] at hbeq
      exact .inl ⟨h.isFinite_eq ▸ hfin, hbeq⟩
    · exact .inr (h.isFinite_eq ▸ hinfinite)
  | float => trivial
  | boolean | integerQuote | floatQuote => cases hk

/-- Settling leaves the numbers of a kind alone, and no others. -/
theorem settle_upToSign_iff (hk : k.isNumeric = true) : UpToSign (k.settle x) x ↔ k.Admits x := by
  constructor
  · exact fun h => (k.admits_settle hk x).congr hk h
  · intro h
    cases hx : x.isFinite with
    | true =>
      have hwhole : k = .integer → IsWhole x := by
        rintro rfl
        exact h.resolve_right (by simp [hx])
      obtain ⟨hfin, heq⟩ := k.settle_exact hx
      exact .of_exact hfin hx (heq.trans (settled_of_isWhole hx hwhole))
    | false =>
      rw [settle, if_neg (by simp [hx])]
      exact .refl x

end Kind

namespace Expr

variable {env : Environment} {source : Source} {symbol : Symbol} {frames : List (Symbol × Frame)}
  {period offset smoothing : Expr} {day : ℤ} {f : Field}

/-! ## Lags and statistics -/

/-- Whether arguments single out a day: the offset leads to it, the period is one day, and the smoothing
constant is in range. -/
structure SingleDay (env : Environment) (period offset smoothing : Expr) (day : ℤ) : Prop where
  periodKind : period.HasKind .integer
  offsetKind : offset.HasKind .integer
  smoothingKind : smoothing.HasKind .float
  one : ∃ p, period.evaluate env = .ok p ∧ p.isFinite = true ∧ truncate p = 1
  leads : ∃ o, offset.evaluate env = .ok o ∧ o.isFinite = true ∧ env.day + truncate o = day
  inRange : ∃ w, smoothing.evaluate env = .ok w ∧ Smoothing.least ≤ w ∧ w ≤ Smoothing.greatest

/-- The statistics of a field, other than its standard deviation. -/
def statisticsOf (f : Field) (period offset smoothing : Expr) : List Expr :=
  .quaternary .ema (.quote f) period offset smoothing ::
    [Statistic.minimum, .maximum, .total, .average, .lowerBand, .upperBand].map fun s =>
      .ternary (.statistic s) (.quote f) period offset

section

variable (hframes : Source.ofFrames frames = .ok source) (hsource : env.source = some source)
  (hsymbol : env.symbol = some symbol) (hargs : SingleDay env period offset smoothing day)
  (hk : f.kind.ofQuote? = some k)
include hframes hsource hsymbol hargs hk

theorem evaluate_statistic_of_day {s : Statistic} (hs : s ≠ .deviation) :
    ∃ z, (ternary (.statistic s) (.quote f) period offset).evaluate env = .ok z ∧
      UpToSign z (k.settle ((source.quote? symbol f day).getD 0.0)) := by
  obtain ⟨p, hp, pfin, hone⟩ := hargs.one
  obtain ⟨o, ho, ofin, hday⟩ := hargs.leads
  have hkind : (ternary (.statistic s) (.quote f) period offset).HasKind k :=
    hasKind_statistic hk (hasKind_leaf.mpr rfl) hargs.periodKind hargs.offsetKind
  refine ⟨_, (evaluate_statistic hkind).mpr ⟨source, symbol, p, o, f, hsource, hsymbol, hp, pfin, ho,
    ofin, by omega, rfl, rfl⟩, ?_⟩
  rw [hone, Source.window_one hframes, hday]
  exact k.settle_upToSign (Statistic.of_toList hs _)

theorem evaluate_ema_of_day :
    (quaternary .ema (.quote f) period offset smoothing).evaluate env =
      .ok (k.settle ((source.quote? symbol f day).getD 0.0)) := by
  obtain ⟨p, hp, pfin, hone⟩ := hargs.one
  obtain ⟨o, ho, ofin, hday⟩ := hargs.leads
  obtain ⟨w, hw, hleast, hgreatest⟩ := hargs.inRange
  have hkind : (quaternary .ema (.quote f) period offset smoothing).HasKind k :=
    hasKind_ema hk (hasKind_leaf.mpr rfl) hargs.periodKind hargs.offsetKind hargs.smoothingKind
  refine (evaluate_ema hkind).mpr ⟨source, symbol, p, o, w, f, hw, hleast, hgreatest, hsource, hsymbol,
    hp, pfin, ho, ofin, by omega, rfl, ?_⟩
  rw [hone, Source.window_one hframes, hday, Samples.exponentialAverage_toList]

/-- A lag and the statistics of one day all have a value, with a quote or without one.  The lag is the
quote of the day or zero.  The statistics settle it to its kind, and equal the lag, up to the sign of
zero, if and only if it is a number of that kind. -/
theorem lag_and_statistics_of_one_day :
    ∃ x, x = (source.quote? symbol f day).getD 0.0 ∧
      (binary .lag (.quote f) offset).evaluate env = .ok x ∧
      ∀ e ∈ statisticsOf f period offset smoothing, ∃ z, e.evaluate env = .ok z ∧
        UpToSign z (k.settle x) ∧ (UpToSign z x ↔ k.Admits x) := by
  have hsettled : ∀ {x z}, UpToSign z (k.settle x) → (UpToSign z x ↔ k.Admits x) := fun h =>
    ⟨fun hz => (Kind.settle_upToSign_iff (Kind.ofQuote?_eq_some hk).2).mp (h.symm.trans hz),
      fun hx => h.trans ((Kind.settle_upToSign_iff (Kind.ofQuote?_eq_some hk).2).mpr hx)⟩
  obtain ⟨o, ho, ofin, hday⟩ := hargs.leads
  refine ⟨_, rfl, evaluate_lag.mpr ⟨source, symbol, o, f, hsource, hsymbol, ho, ofin, rfl, ?_⟩, ?_⟩
  · rw [Source.single, hday]
  · intro e he
    rcases List.mem_cons.mp he with rfl | he
    · have hema := evaluate_ema_of_day hframes hsource hsymbol hargs hk
      exact ⟨_, hema, .refl _, hsettled (.refl _)⟩
    · obtain ⟨s, hs, rfl⟩ := List.mem_map.mp he
      have hne : s ≠ .deviation := by
        rintro rfl
        simp at hs
      obtain ⟨z, hz, h⟩ := evaluate_statistic_of_day hframes hsource hsymbol hargs hk hne
      exact ⟨z, hz, h, hsettled h⟩

end

/-! ## A volume with a fraction -/

/-- One day of a stock whose volume is recorded as one and a half. -/
def fractionFrames : List (Symbol × Frame) :=
  [(⟨"A"⟩, [(⟨2024, 6, 3, by decide⟩, { closing := some 10.5, volume := some 1.5 })])]

/-- Their source. -/
def fractionSource : Source :=
  { calendar := #[⟨2024, 6, 3, by decide⟩]
    series := [(⟨"A"⟩, #[{ closing := some 10.5, volume := some 1.5 }])] }

theorem ofFrames_fraction : Source.ofFrames fractionFrames = .ok fractionSource := by
  simp [Source.ofFrames, fractionFrames, Source.putFrame, Frame.sorted, Frame.union, Frame.days,
    Frame.align, Frame.strictlyOrdered]
  rfl

/-- The environment of a day.  The source has a quote on the first one only. -/
def fractionDay (day : ℤ) : Environment :=
  { bindings := .ofRule 0.0 0.0, source := some fractionSource, symbol := some ⟨"A"⟩, day }

/-- The period of one day. -/
def onePeriod : Expr :=
  .number (.whole 1 ofInt_one_isFinite)

/-- The offset to the reference day. -/
def noOffset : Expr :=
  .number (.whole 0 ofInt_zero_isFinite)

theorem half_isFinite : (0.5 : Float).isFinite = true := by
  decide +kernel

/-- The smoothing constant one half. -/
def halfSmoothing : Expr :=
  .number (.real 0.5 half_isFinite)

/-- The statistics drop the fraction of a volume and the lag does not. -/
theorem lag_keeps_fraction :
    Source.ofFrames fractionFrames = .ok fractionSource ∧
      (binary .lag (.quote .volume) noOffset).evaluate (fractionDay 0) = .ok 1.5 ∧
      (∀ e ∈ statisticsOf .volume onePeriod noOffset halfSmoothing,
        e.evaluate (fractionDay 0) = .ok 1.0) ∧
      ((1.5 : Float) == 1.0) = false :=
  ⟨ofFrames_fraction, by decide +kernel, by decide +kernel, by decide +kernel⟩

theorem singleDay_fraction (day : ℤ) :
    SingleDay (fractionDay day) onePeriod noOffset halfSmoothing day where
  periodKind := rfl
  offsetKind := rfl
  smoothingKind := rfl
  one := ⟨_, rfl, by decide +kernel, by decide +kernel⟩
  leads := by
    have hzero : truncate (ofInt 0) = 0 := by decide +kernel
    exact ⟨ofInt 0, rfl, ofInt_zero_isFinite, by rw [hzero]; exact add_zero day⟩
  inRange := ⟨_, rfl, by decide +kernel, by decide +kernel⟩

/-- All of them come to the close of the first day, and to zero for the volume of the second, on which
there is no quote. -/
theorem lag_and_statistics_of_one_day_fraction :
    (∃ x, x = 10.5 ∧ (binary .lag (.quote .closing) noOffset).evaluate (fractionDay 0) = .ok x ∧
      ∀ e ∈ statisticsOf .closing onePeriod noOffset halfSmoothing,
        ∃ z, e.evaluate (fractionDay 0) = .ok z ∧ UpToSign z x) ∧
    ∃ x, x = 0.0 ∧ (binary .lag (.quote .volume) noOffset).evaluate (fractionDay 1) = .ok x ∧
      ∀ e ∈ statisticsOf .volume onePeriod noOffset halfSmoothing,
        ∃ z, e.evaluate (fractionDay 1) = .ok z ∧ UpToSign z x := by
  obtain ⟨x, hx, hlag, hstatistics⟩ := lag_and_statistics_of_one_day ofFrames_fraction rfl rfl
    (singleDay_fraction 0) (f := .closing) rfl
  obtain ⟨x', hx', hlag', hstatistics'⟩ := lag_and_statistics_of_one_day ofFrames_fraction rfl rfl
    (singleDay_fraction 1) (f := .volume) rfl
  refine ⟨⟨x, hx, hlag, fun e he => ?_⟩, x', hx', hlag', fun e he => ?_⟩
  · obtain ⟨z, hz, -, hsame⟩ := hstatistics e he
    exact ⟨z, hz, hsame.mpr trivial⟩
  · obtain ⟨z, hz, -, hsame⟩ := hstatistics' e he
    exact ⟨z, hz, hsame.mpr (hx' ▸ Kind.admits_zero)⟩

end Expr

end TradeRules
