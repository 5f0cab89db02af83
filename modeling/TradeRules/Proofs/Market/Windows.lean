import Mathlib.Data.List.Sort
import TradeRules.Proofs.Market.Layout

/-!
# The days of a window

A window takes a number of days in a row, up to a day that an offset leads to from the reference day.
`Source.span` lists these days, whether they lie in the calendar or not.  A source looks only at those
that do (`filter_span`), and nothing is lost by that, since the series of a source made of frames end
with its calendar (`quote?_of_lastDay_lt`).

So the quotes of a window are those that there are on the days of its span, and a window of several days
is one window after another.  A paired window has the quotes of two symbols on the days of the span on
which both have one (`Source.IsPairing`).
-/

namespace TradeRules

/-- A frame is laid out on as many days as the calendar has. -/
theorem Frame.size_of_align {calendar : List Date} {frame : Frame} {bars : Array Bar}
    (h : align calendar frame = .ok bars) : bars.size = calendar.toArray.size := by
  unfold align at h
  split_ifs at h with hdays
  · cases h
    rw [← hdays]
    simp [days]
  · cases h
    simp

namespace Source

variable {s : Source} {frames : List (Symbol × Frame)} {symbol partner : Symbol} {field : Field}
  {d day last period offset : ℤ} {p q : ℕ}

/-! ## Quotes after the calendar -/

/-- A series that is no longer than the calendar has no quote after it. -/
theorem quote?_of_size_le (hsize : ∀ entry ∈ s.series, entry.2.size ≤ s.calendar.size)
    (hday : s.lastDay < day) : s.quote? symbol field day = none := by
  rw [Option.eq_none_iff_forall_ne_some]
  intro x hx
  unfold quote? at hx
  split_ifs at hx
  obtain ⟨bars, hbars, hx⟩ := Option.bind_eq_some_iff.mp hx
  obtain ⟨bar, hbar, -⟩ := Option.bind_eq_some_iff.mp hx
  have hlength : bars.size ≤ s.calendar.size := hsize _ (Frame.mem_of_lookup hbars)
  have hindex := (Array.getElem?_eq_some_iff.mp hbar).1
  unfold lastDay at hday
  omega

/-- The series of a source made of frames are as long as its calendar. -/
theorem size_of_ofFrames (h : ofFrames frames = .ok s) :
    ∀ entry ∈ s.series, entry.2.size ≤ s.calendar.size := by
  intro entry hentry
  obtain ⟨series, hseries, h⟩ := bind_eq_ok.mp h
  cases h
  obtain ⟨kept, -, hlaid⟩ := exists_of_mem_mapM hseries (List.mem_mergeSort.mp hentry)
  obtain ⟨bars, halign, hpair⟩ := bind_eq_ok.mp hlaid
  cases hpair
  exact (Frame.size_of_align halign).le

theorem quote?_of_outside (h : ofFrames frames = .ok s) (hday : day < 0 ∨ s.lastDay < day) :
    s.quote? symbol field day = none := by
  rcases hday with hneg | hlast
  · exact quote?_of_neg hneg
  · exact quote?_of_size_le (size_of_ofFrames h) hlast

/-! ## Days in a row -/

/-- The days in a row, as many as a period has, that end with a given one. -/
def span (last : ℤ) (period : ℕ) : List ℤ :=
  (List.range period).map fun i : ℕ => last - period + 1 + i

theorem mem_span : d ∈ span last p ↔ last - p < d ∧ d ≤ last := by
  simp only [span, List.mem_map, List.mem_range]
  constructor
  · rintro ⟨i, hi, rfl⟩
    omega
  · intro h
    exact ⟨(d - (last - p + 1)).toNat, by omega, by omega⟩

theorem span_pairwise (last : ℤ) (p : ℕ) : (span last p).Pairwise (· < ·) := by
  refine List.pairwise_map.mpr (List.pairwise_lt_range.imp ?_)
  intro i j hij
  omega

theorem span_one (last : ℤ) : span last 1 = [last] := by
  simp [span]

/-- The first days of a row come before the last ones. -/
theorem span_add (last : ℤ) (p q : ℕ) : span last (p + q) = span (last - q) p ++ span last q := by
  unfold span
  rw [List.range_add, List.map_append, List.map_map]
  congr 1
  · refine List.map_congr_left fun i _ => ?_
    push_cast
    omega
  · refine List.map_congr_left fun i _ => ?_
    simp only [Function.comp_apply]
    push_cast
    omega

/-- A source looks at the days of a window that lie in its calendar. -/
theorem filter_span (s : Source) (day period offset : ℤ) :
    ((span (day + offset) period.toNat).filter fun d => 0 ≤ d ∧ d ≤ s.lastDay) =
      s.windowDays day period offset := by
  refine ((span_pairwise _ _).filter _).eq_of_mem_iff (s.daysBetween_pairwise _ _) fun d => ?_
  rw [List.mem_filter, decide_eq_true_iff, mem_span, windowDays, mem_daysBetween]
  omega

/-- On the other days nothing is found. -/
theorem filterMap_span {α : Type} {look : ℤ → Option α}
    (hlook : ∀ d, d < 0 ∨ s.lastDay < d → look d = none) :
    (s.windowDays day period offset).filterMap look =
      (span (day + offset) period.toNat).filterMap look := by
  rw [← filter_span, List.filterMap_filter]
  refine List.filterMap_congr fun d _ => ?_
  split_ifs with hd
  · rfl
  · rw [decide_eq_true_iff] at hd
    exact (hlook d (by omega)).symm

theorem length_windowDays_le (s : Source) (day period offset : ℤ) :
    (s.windowDays day period offset).length ≤ s.calendar.size := by
  rw [windowDays, daysBetween, List.length_map, List.length_range, lastDay]
  omega

/-! ## Windows of one symbol -/

/-- The quotes of a window are those on the days of its span. -/
theorem window_eq (h : ofFrames frames = .ok s) :
    s.window symbol field day p offset =
      (span (day + offset) p).filterMap (s.quote? symbol field) :=
  filterMap_span fun _ hd => quote?_of_outside h hd

/-- A window of one day has the quote of that day, if there is one. -/
theorem window_one (h : ofFrames frames = .ok s) :
    s.window symbol field day 1 offset = (s.quote? symbol field (day + offset)).toList := by
  have hwindow : s.window symbol field day 1 offset =
      (span (day + offset) 1).filterMap (s.quote? symbol field) := window_eq (p := 1) h
  rw [hwindow, span_one]
  cases hquote : s.quote? symbol field (day + offset) with
  | none => simp [hquote]
  | some x => simp [hquote]

theorem window_add (h : ofFrames frames = .ok s) :
    s.window symbol field day (p + q : ℕ) offset =
      s.window symbol field day p (offset - q) ++ s.window symbol field day q offset := by
  have hlast : day + (offset - q) = day + offset - q := by omega
  rw [window_eq h, window_eq h, window_eq h, span_add, List.filterMap_append, hlast]

/-! ## Windows of two symbols -/

/-- The days on which two symbols both have a quote. -/
def sharedDays (s : Source) (symbol partner : Symbol) (field : Field) (days : List ℤ) : List ℤ :=
  days.filter fun d => (s.quote? symbol field d).isSome && (s.quote? partner field d).isSome

/-- Whether two lists have, side by side, the quotes of two symbols on the days on which both have
one. -/
structure IsPairing (s : Source) (symbol partner : Symbol) (field : Field) (days : List ℤ)
    (xs ys : List Float) : Prop where
  length : xs.length = ys.length
  left : xs.map some = (s.sharedDays symbol partner field days).map (s.quote? symbol field)
  right : ys.map some = (s.sharedDays symbol partner field days).map (s.quote? partner field)

/-- The quotes of two symbols on a day, if both have one. -/
def pair? (s : Source) (symbol partner : Symbol) (field : Field) (day : ℤ) :
    Option (Float × Float) := do
  let x ← s.quote? symbol field day
  let y ← s.quote? partner field day
  return (x, y)

theorem pairedWindow_eq (h : ofFrames frames = .ok s) :
    s.pairedWindow symbol partner field day p offset =
      (span (day + offset) p).filterMap (s.pair? symbol partner field) := by
  refine filterMap_span fun d hd => ?_
  rw [quote?_of_outside h hd]
  rfl

theorem filterMap_pair?_swap (s : Source) (symbol partner : Symbol) (field : Field) (days : List ℤ) :
    days.filterMap (s.pair? partner symbol field) =
      (days.filterMap (s.pair? symbol partner field)).map Prod.swap := by
  rw [List.map_filterMap]
  refine List.filterMap_congr fun d _ => ?_
  unfold pair?
  cases s.quote? symbol field d with
  | none => cases s.quote? partner field d <;> rfl
  | some x => cases s.quote? partner field d <;> rfl

theorem sharedDays_swap (s : Source) (symbol partner : Symbol) (field : Field) (days : List ℤ) :
    s.sharedDays partner symbol field days = s.sharedDays symbol partner field days := by
  unfold sharedDays
  exact List.filter_congr fun d _ => Bool.and_comm _ _

/-- The first of each pair is the quote of the first symbol on a day that both share. -/
theorem left_filterMap_pair? (s : Source) (symbol partner : Symbol) (field : Field) (days : List ℤ) :
    ((days.filterMap (s.pair? symbol partner field)).map Prod.fst).map some =
      (s.sharedDays symbol partner field days).map (s.quote? symbol field) := by
  unfold sharedDays pair?
  induction days with
  | nil => rfl
  | cons d days ih =>
    cases hx : s.quote? symbol field d with
    | none => simpa [hx] using ih
    | some x =>
      cases hy : s.quote? partner field d with
      | none => simpa [hx, hy] using ih
      | some y => simpa [hx, hy] using ih

theorem isPairing_filterMap (s : Source) (symbol partner : Symbol) (field : Field) (days : List ℤ) :
    s.IsPairing symbol partner field days
      ((days.filterMap (s.pair? symbol partner field)).map Prod.fst)
      ((days.filterMap (s.pair? symbol partner field)).map Prod.snd) where
  length := by rw [List.length_map, List.length_map]
  left := left_filterMap_pair? s symbol partner field days
  right := by
    have hright := left_filterMap_pair? s partner symbol field days
    rw [filterMap_pair?_swap, sharedDays_swap, List.map_map, List.map_map] at hright
    rw [List.map_map]
    exact hright

/-- A symbol that is paired with itself has each quote twice. -/
theorem filterMap_pair?_self (s : Source) (symbol : Symbol) (field : Field) (days : List ℤ) :
    days.filterMap (s.pair? symbol symbol field) =
      (days.filterMap (s.quote? symbol field)).map fun x => (x, x) := by
  rw [List.map_filterMap]
  refine List.filterMap_congr fun d _ => ?_
  unfold pair?
  cases s.quote? symbol field d with
  | none => rfl
  | some x => rfl

/-! ## All windows -/

/-- A window of a source has the quotes of the days that end with the day an offset leads to, oldest first
and without gaps, so that only that day matters, and a window of more days is one window after another.
A paired window has the quotes of two symbols side by side, on the days on which both have one. -/
theorem windows_follow_days (h : ofFrames frames = .ok s) (symbol : Symbol) (field : Field) :
    (∀ (day offset : ℤ) (p : ℕ), s.window symbol field day p offset =
      (span (day + offset) p).filterMap (s.quote? symbol field)) ∧
    (∀ (day offset day' offset' : ℤ) (p : ℕ), day + offset = day' + offset' →
      s.window symbol field day p offset = s.window symbol field day' p offset') ∧
    (∀ (day offset : ℤ) (p q : ℕ), s.window symbol field day (p + q : ℕ) offset =
      s.window symbol field day p (offset - q) ++ s.window symbol field day q offset) ∧
    (∀ (partner : Symbol) (day offset : ℤ) (p : ℕ),
      s.IsPairing symbol partner field (span (day + offset) p)
          ((s.pairedWindow symbol partner field day p offset).map Prod.fst)
          ((s.pairedWindow symbol partner field day p offset).map Prod.snd) ∧
        s.pairedWindow partner symbol field day p offset =
          (s.pairedWindow symbol partner field day p offset).map Prod.swap) ∧
    ∀ (day offset : ℤ) (p : ℕ), s.pairedWindow symbol symbol field day p offset =
      (s.window symbol field day p offset).map fun x => (x, x) := by
  refine ⟨fun day offset p => window_eq h, fun day offset day' offset' p hsum => ?_,
    fun day offset p q => window_add h, fun partner day offset p => ⟨?_, ?_⟩,
    fun day offset p => ?_⟩
  · rw [window_eq h, window_eq h, hsum]
  · rw [pairedWindow_eq h]
    exact isPairing_filterMap s symbol partner field _
  · rw [pairedWindow_eq h, pairedWindow_eq h]
    exact filterMap_pair?_swap s symbol partner field _
  · rw [pairedWindow_eq h, window_eq h]
    exact filterMap_pair?_self s symbol field _

/-! ## A source with gaps -/

/-- The closes of two symbols.  Each has none on a day on which the other one has one. -/
def gapFrames : List (Symbol × Frame) :=
  [(⟨"A"⟩, [(⟨2024, 4, 8, by decide⟩, { closing := some 1.0 }),
      (⟨2024, 4, 9, by decide⟩, { closing := some 2.0 }),
      (⟨2024, 4, 11, by decide⟩, { closing := some 4.0 })]),
    (⟨"B"⟩, [(⟨2024, 4, 9, by decide⟩, { closing := some 20.0 }),
      (⟨2024, 4, 10, by decide⟩, { closing := some 30.0 }),
      (⟨2024, 4, 11, by decide⟩, { closing := some 40.0 })])]

/-- Their source, with four days in its calendar. -/
def gapSource : Source :=
  { calendar := #[⟨2024, 4, 8, by decide⟩, ⟨2024, 4, 9, by decide⟩, ⟨2024, 4, 10, by decide⟩,
      ⟨2024, 4, 11, by decide⟩]
    series := [(⟨"A"⟩, #[{ closing := some 1.0 }, { closing := some 2.0 }, {},
        { closing := some 4.0 }]),
      (⟨"B"⟩, #[{}, { closing := some 20.0 }, { closing := some 30.0 },
        { closing := some 40.0 }])] }

theorem ofFrames_gap : ofFrames gapFrames = .ok gapSource := by
  have horder : Symbol.before ⟨"B"⟩ ⟨"A"⟩ = false := by decide
  simp [ofFrames, gapFrames, putFrame, Frame.sorted, List.mergeSort, Frame.union, Frame.days,
    Frame.align, Frame.strictlyOrdered, Date.before, Date.key]
  refine (bind_of_ok rfl).trans ?_
  simp [horder]
  rfl

/-- Six days that end with the last one, counted from the day before, are two days and four days.  Two
of the closes stand beside a close of the other symbol. -/
theorem windows_follow_days_gap :
    gapSource.window ⟨"A"⟩ .closing 2 6 1 = [1.0, 2.0, 4.0] ∧
      gapSource.window ⟨"A"⟩ .closing 2 6 1 =
        gapSource.window ⟨"A"⟩ .closing 2 2 (-3) ++ gapSource.window ⟨"A"⟩ .closing 2 4 1 ∧
      gapSource.window ⟨"A"⟩ .closing 2 6 1 = gapSource.window ⟨"A"⟩ .closing 0 6 3 ∧
      gapSource.pairedWindow ⟨"A"⟩ ⟨"B"⟩ .closing 2 6 1 = [(2.0, 20.0), (4.0, 40.0)] ∧
      gapSource.pairedWindow ⟨"B"⟩ ⟨"A"⟩ .closing 2 6 1 =
        (gapSource.pairedWindow ⟨"A"⟩ ⟨"B"⟩ .closing 2 6 1).map Prod.swap := by
  obtain ⟨-, hday, hadd, hpairs, -⟩ := windows_follow_days ofFrames_gap ⟨"A"⟩ .closing
  exact ⟨rfl, hadd 2 1 2 4, hday 2 1 0 3 6 rfl, rfl, (hpairs ⟨"B"⟩ 2 1 6).2⟩

end Source

end TradeRules
