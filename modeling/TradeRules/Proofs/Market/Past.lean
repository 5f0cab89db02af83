import Mathlib.Data.String.Basic
import TradeRules.Market.Window
import TradeRules.Proofs.Market.Source

/-!
# Sources with the same past

Two sources have the same past up to a day when their calendars begin alike and they answer alike for
every quote until then (`Source.SamePast`).  They may differ in all that comes later, and in the symbols
that have no quote before.

What is read of such sources up to that day is the same: dates, single quotes, windows that end by then,
and the symbols that trade on a day.  The last needs that symbols are in order, which those of a source
made of frames are (`symbols_sorted`).
-/

namespace TradeRules

namespace Source

/-- Whether two sources cannot be told apart up to a day. -/
structure SamePast (last : ℤ) (s s' : Source) : Prop where
  calendar : s.calendar.toList.take (last + 1).toNat = s'.calendar.toList.take (last + 1).toNat
  quotes : ∀ symbol field day, day ≤ last → s.quote? symbol field day = s'.quote? symbol field day

variable {s s' : Source} {last day first stop period offset : ℤ} {symbol partner : Symbol}
  {field : Field}

/-! ## Days -/

theorem SamePast.date (h : SamePast last s s') (hday : day ≤ last) : s.date day = s'.date day := by
  unfold Source.date
  by_cases hneg : day < 0
  · rw [if_pos hneg, if_pos hneg]
  · have hlt : day.toNat < (last + 1).toNat := by omega
    have hdates : s.calendar[day.toNat]? = s'.calendar[day.toNat]? := by
      have htake := congrArg (·[day.toNat]?) h.calendar
      simpa [List.getElem?_take, hlt] using htake
    rw [if_neg hneg, if_neg hneg, hdates]

theorem mem_daysBetween :
    day ∈ s.daysBetween first stop ↔ (first ≤ day ∧ day ≤ stop) ∧ 0 ≤ day ∧ day ≤ s.lastDay := by
  simp only [daysBetween, List.mem_map, List.mem_range]
  constructor
  · rintro ⟨i, hi, rfl⟩
    omega
  · intro h
    exact ⟨(day - max first 0).toNat, by omega, by omega⟩

theorem daysBetween_pairwise (s : Source) (first stop : ℤ) :
    (s.daysBetween first stop).Pairwise (· < ·) := by
  refine List.pairwise_map.mpr (List.pairwise_lt_range.imp ?_)
  intro i j hij
  omega

theorem le_of_mem_daysBetween (h : day ∈ s.daysBetween first stop) : day ≤ stop :=
  (mem_daysBetween.mp h).1.2

/-- Days that both calendars have are the same days. -/
theorem daysBetween_eq (hstop : stop ≤ last) (hlast : last ≤ s.lastDay) (hlast' : last ≤ s'.lastDay) :
    s.daysBetween first stop = s'.daysBetween first stop := by
  unfold daysBetween
  rw [min_eq_left (hstop.trans hlast), min_eq_left (hstop.trans hlast')]

/-! ## Quotes -/

/-- Days before the calendar have no quotes. -/
theorem quote?_of_neg (h : day < 0) : s.quote? symbol field day = none :=
  if_pos h

theorem SamePast.quote (h : SamePast last s s') (hday : day ≤ last) :
    s.quote symbol field day = s'.quote symbol field day := by
  unfold Source.quote
  rw [h.quotes symbol field day hday]

theorem SamePast.single (h : SamePast last s s') (hday : day ≤ last) (hoffset : offset ≤ 0) :
    s.single symbol field day offset = s'.single symbol field day offset := by
  unfold Source.single
  rw [h.quotes symbol field (day + offset) (by omega)]

/-- A window that ends by the last day has the same quotes. -/
theorem SamePast.filterMap_windowDays {α : Type} {f f' : ℤ → Option α} (hday : day ≤ last)
    (hoffset : offset ≤ 0) (hlast : last ≤ s.lastDay) (hlast' : last ≤ s'.lastDay)
    (hf : ∀ d ≤ last, f d = f' d) :
    (s.windowDays day period offset).filterMap f =
      (s'.windowDays day period offset).filterMap f' := by
  have hstop : day + offset ≤ last := by omega
  unfold windowDays
  rw [daysBetween_eq hstop hlast hlast']
  exact List.filterMap_congr fun d hd => hf d ((le_of_mem_daysBetween hd).trans hstop)

theorem SamePast.window (h : SamePast last s s') (hday : day ≤ last) (hoffset : offset ≤ 0)
    (hlast : last ≤ s.lastDay) (hlast' : last ≤ s'.lastDay) :
    s.window symbol field day period offset = s'.window symbol field day period offset :=
  SamePast.filterMap_windowDays hday hoffset hlast hlast' fun d hd => h.quotes symbol field d hd

theorem SamePast.pairedWindow (h : SamePast last s s') (hday : day ≤ last) (hoffset : offset ≤ 0)
    (hlast : last ≤ s.lastDay) (hlast' : last ≤ s'.lastDay) :
    s.pairedWindow symbol partner field day period offset =
      s'.pairedWindow symbol partner field day period offset := by
  refine SamePast.filterMap_windowDays hday hoffset hlast hlast' fun d hd => ?_
  rw [h.quotes symbol field d hd, h.quotes partner field d hd]

/-! ## Symbols -/

theorem before_iff {a b : Symbol} : a.before b = true ↔ a.code < b.code :=
  decide_eq_true_iff

/-- The symbols of a source made of frames are in order. -/
theorem symbols_sorted {frames : List (Symbol × Frame)} (h : ofFrames frames = .ok s) :
    s.symbols.Pairwise fun a b => a.code ≤ b.code := by
  obtain ⟨series, -, h⟩ := bind_eq_ok.mp h
  cases h
  have hle : ∀ a b : Symbol × Array Bar, (!b.1.before a.1) = true ↔ a.1.code ≤ b.1.code := by
    intro a b
    rw [Bool.not_eq_true', ← Bool.not_eq_true, before_iff, not_lt]
  exact List.pairwise_map.mpr (pairwise_mergeSort_key hle)

/-- A symbol with a quote has a series. -/
theorem mem_symbols_of_quote? (h : (s.quote? symbol field day).isSome = true) :
    symbol ∈ s.symbols := by
  unfold Source.quote? at h
  split_ifs at h with hneg
  · cases h
  · cases hlookup : s.series.lookup symbol with
    | none =>
      rw [hlookup] at h
      cases h
    | some bars =>
      obtain ⟨before, after, heq, -⟩ := List.lookup_eq_some_iff.mp hlookup
      unfold symbols
      rw [heq]
      simp

theorem mem_symbolsOn :
    symbol ∈ s.symbolsOn day ↔ (s.quote? symbol .closing day).isSome = true := by
  unfold Source.symbolsOn
  rw [List.mem_filter, and_iff_right_iff_imp]
  exact mem_symbols_of_quote?

/-- The same symbols trade on a day. -/
theorem SamePast.symbolsOn {frames frames' : List (Symbol × Frame)} (h : SamePast last s s')
    (hs : ofFrames frames = .ok s) (hs' : ofFrames frames' = .ok s') (hday : day ≤ last) :
    s.symbolsOn day = s'.symbolsOn day := by
  have hperm : (s.symbolsOn day).Perm (s'.symbolsOn day) := by
    refine (List.perm_ext_iff_of_nodup (symbolsOn_nodup (symbols_nodup hs) day)
      (symbolsOn_nodup (symbols_nodup hs') day)).mpr fun symbol => ?_
    rw [mem_symbolsOn, mem_symbolsOn, h.quotes symbol .closing day hday]
  refine hperm.eq_of_pairwise (fun a b _ _ hab hba => ?_) ((symbols_sorted hs).filter _)
    ((symbols_sorted hs').filter _)
  cases a
  cases b
  exact congrArg Symbol.mk (le_antisymm hab hba)

end Source

end TradeRules
