import Mathlib.Data.List.Nodup
import Mathlib.Order.Lattice
import TradeRules.Market.Source
import TradeRules.Proofs.Rule.Typing

/-!
# The symbols of a source

A source made of frames has one series for each symbol, even when a symbol is given several frames
(`symbols_nodup`).  So no symbol trades twice on one day (`symbolsOn_nodup`).
-/

namespace TradeRules

/-- A list sorted by a key is in the order of the keys. -/
theorem pairwise_mergeSort_key {α κ : Type} [LinearOrder κ] {key : α → κ} {le : α → α → Bool}
    (hle : ∀ a b, le a b = true ↔ key a ≤ key b) {l : List α} :
    (l.mergeSort le).Pairwise fun a b => key a ≤ key b := by
  have hsorted : (l.mergeSort le).Pairwise fun a b => le a b = true := by
    refine List.pairwise_mergeSort (fun a b c hab hbc => ?_) (fun a b => ?_) l
    · exact (hle a c).mpr (le_trans ((hle a b).mp hab) ((hle b c).mp hbc))
    · rw [Bool.or_eq_true, hle, hle]
      exact le_total _ _
  exact hsorted.imp fun {a b} hab => (hle a b).mp hab

namespace Source

variable {frames : List (Symbol × Frame)} {symbol : Symbol} {frame : Frame} {s : Source}

/-- A frame takes the place of the one before it, or comes last with a new symbol. -/
theorem putFrame_nodup (h : (frames.map Prod.fst).Nodup) :
    ((putFrame frames symbol frame).map Prod.fst).Nodup := by
  unfold putFrame
  split_ifs with hknown
  · have hsame : (frames.map fun entry => if entry.1 == symbol then (symbol, frame) else entry).map
        Prod.fst = frames.map Prod.fst := by
      rw [List.map_map]
      refine List.map_congr_left fun entry _ => ?_
      show (if entry.1 == symbol then (symbol, frame) else entry).1 = entry.1
      split_ifs with hentry
      · exact (beq_iff_eq.mp hentry).symm
      · rfl
    rwa [hsame]
  · rw [List.map_append, List.map_singleton]
    refine List.nodup_append.mpr ⟨h, List.nodup_singleton _, ?_⟩
    rintro a ha b hb rfl
    obtain ⟨entry, hentry, rfl⟩ := List.mem_map.mp ha
    refine hknown (List.any_eq_true.mpr ⟨entry, hentry, ?_⟩)
    exact beq_iff_eq.mpr (List.mem_singleton.mp hb)

theorem foldl_putFrame_nodup (entries : List (Symbol × Frame)) (h : (frames.map Prod.fst).Nodup) :
    ((entries.foldl (fun known entry => putFrame known entry.1 entry.2.sorted) frames).map
      Prod.fst).Nodup := by
  induction entries generalizing frames with
  | nil => exact h
  | cons entry entries ih => exact ih (putFrame_nodup h)

/-- Laying frames out on a calendar keeps their symbols. -/
theorem map_fst_of_mapM {calendar : List Date} {series : List (Symbol × Array Bar)}
    (h : frames.mapM (fun entry => do
      return (entry.1, ← Frame.align calendar entry.2)) = .ok series) :
    series.map Prod.fst = frames.map Prod.fst := by
  induction frames generalizing series with
  | nil =>
    cases h
    rfl
  | cons entry frames ih =>
    rw [List.mapM_cons] at h
    obtain ⟨first, hfirst, h⟩ := bind_eq_ok.mp h
    obtain ⟨rest, hrest, h⟩ := bind_eq_ok.mp h
    obtain ⟨bars, -, hbars⟩ := bind_eq_ok.mp hfirst
    cases h
    cases hbars
    rw [List.map_cons, List.map_cons, ih hrest]

/-- A source made of frames has one series for each symbol. -/
theorem symbols_nodup (h : ofFrames frames = .ok s) : s.symbols.Nodup := by
  obtain ⟨series, hseries, h⟩ := bind_eq_ok.mp h
  cases h
  have hperm := (List.mergeSort_perm series fun a b => !b.1.before a.1).map Prod.fst
  refine hperm.nodup_iff.mpr ?_
  rw [map_fst_of_mapM hseries]
  exact foldl_putFrame_nodup frames List.nodup_nil

/-- No symbol trades twice on one day. -/
theorem symbolsOn_nodup (h : s.symbols.Nodup) (day : Int) : (s.symbolsOn day).Nodup :=
  h.filter _

end Source

end TradeRules
