import Mathlib.Order.Bounds.Basic
import TradeRules.Proofs.Market.Layout

/-!
# Days and dates

The days of a source count its trading dates.  `Source.date` leads from a day to its date and
`Source.dayOf` from any date, one of a weekend say, to the last day on or before it.  On a calendar in
order the two form a Galois connection (`Source.dayOf_gc`), and the rest follows from it: they undo each
other on trading dates, both are monotone, and each fails only off its own end of the calendar
(`Source.DaysMatchDates`).

The calendar of a source of frames is in order when no frame that counts holds a day twice
(`Source.ofFrames_daysMatchDates`).  Of the frames of one symbol it is the last one that counts
(`Source.frameOf?`), so a frame that another one replaces may hold what it will.  Frames are read from
tables with points in time, and a frame has the days of its table, without the times of day
(`Source.exists_frames`).  So a table that counts must not hold two times of one day
(`Source.ofTables_daysMatchDates`).
-/

namespace TradeRules

namespace Date

variable {d e w w' : Date}

theorem not_before_iff : ¬ d.before e = true ↔ e.key ≤ d.key := by
  rw [before_iff, not_lt]

/-- A date that is not after another is not after later ones either. -/
theorem not_before_of_before (hde : d.before e = true) (he : ¬ w.before e = true) :
    ¬ w.before d = true :=
  fun hw => he (before_trans hw hde)

end Date

/-- The entries with a property that all entries before them share come first in a list. -/
theorem lt_countP_iff {α : Type} {p : α → Bool} {l : List α} {a : α}
    (h : l.Pairwise fun a b => p b = true → p a = true) {i : ℕ} (hi : l[i]? = some a) :
    i < l.countP p ↔ p a = true := by
  induction l generalizing i with
  | nil => cases hi
  | cons b l ih =>
    obtain ⟨hfirst, hrest⟩ := List.pairwise_cons.mp h
    by_cases hb : p b = true
    · rw [List.countP_cons_of_pos hb]
      cases i with
      | zero =>
        obtain rfl := Option.some.inj hi
        simp [hb]
      | succ i => rw [Nat.add_lt_add_iff_right, ih hrest hi]
    · -- Without the property at the front no entry has it.
      have hnone : ∀ c ∈ b :: l, ¬ p c = true := by
        intro c hc
        rcases List.mem_cons.mp hc with rfl | hc
        · exact hb
        · exact fun hpc => hb (hfirst c hc hpc)
      rw [List.countP_eq_zero.mpr hnone]
      simpa using hnone a (List.mem_of_getElem? hi)

namespace Source

variable {s : Source} {d d' first w w' : Date} {day day' : ℤ} {e : MissingQuote}

/-! ## The date of a day -/

theorem lastDay_eq : s.lastDay = (s.calendar.size : ℤ) - 1 :=
  rfl

/-- The days from the first one to the last one have dates. -/
theorem exists_date_iff : (∃ d, s.date day = .ok d) ↔ 0 ≤ day ∧ day ≤ s.lastDay := by
  simp only [date_eq_ok, exists_and_left, ← Option.isSome_iff_exists, isSome_getElem?, lastDay_eq]
  omega

/-- All other days are refused by their number. -/
theorem date_eq_error :
    s.date day = .error e ↔ ¬ (0 ≤ day ∧ day ≤ s.lastDay) ∧ e = .outsideCalendar day := by
  rw [← exists_date_iff]
  unfold date
  split_ifs with hneg
  · simp [eq_comm]
  · cases s.calendar[day.toNat]? with
    | none => simp [eq_comm]
    | some d => simp

/-- Dates in order grow with their days. -/
theorem before_of_lt (h : Date.Ordered s.calendar.toList) (hd : s.date day = .ok d)
    (hd' : s.date day' = .ok d') (hlt : day < day') : d.before d' = true := by
  rw [date_eq_ok, ← Array.getElem?_toList] at hd hd'
  obtain ⟨hi, rfl⟩ := List.getElem?_eq_some_iff.mp hd.2
  obtain ⟨hj, rfl⟩ := List.getElem?_eq_some_iff.mp hd'.2
  exact List.pairwise_iff_getElem.mp h _ _ hi hj (by omega)

/-! ## The day of a date -/

/-- The number of trading days on or before a date. -/
def daysUpTo (s : Source) (w : Date) : ℕ :=
  s.calendar.toList.countP fun d => !w.before d

theorem dayOf_eq_ok : s.dayOf w = .ok day ↔ s.daysUpTo w ≠ 0 ∧ day = s.daysUpTo w - 1 := by
  show (if s.daysUpTo w = 0 then _ else Except.ok ((s.daysUpTo w : ℤ) - 1)) = _ ↔ _
  split_ifs with hzero
  · simp [hzero]
  · simp [hzero, eq_comm]

theorem dayOf_eq_error :
    s.dayOf w = .error e ↔ s.daysUpTo w = 0 ∧ e = .beforeCalendar w := by
  show (if s.daysUpTo w = 0 then _ else _) = _ ↔ _
  split_ifs with hzero
  · simp [hzero, eq_comm]
  · simp [hzero]

theorem daysUpTo_le : s.daysUpTo w ≤ s.calendar.size :=
  List.countP_le_length

/-- The day of a date is a day of the calendar, whatever the order of the calendar. -/
theorem dayOf_mem (h : s.dayOf w = .ok day) : 0 ≤ day ∧ day ≤ s.lastDay := by
  obtain ⟨hpos, rfl⟩ := dayOf_eq_ok.mp h
  have hle := s.daysUpTo_le (w := w)
  rw [lastDay_eq]
  omega

/-- The days whose dates are on or before a date are the first ones. -/
theorem lt_daysUpTo_iff (h : Date.Ordered s.calendar.toList) (hd : s.date day = .ok d) :
    day < s.daysUpTo w ↔ ¬ w.before d = true := by
  obtain ⟨hday, hget⟩ := date_eq_ok.mp hd
  rw [← Array.getElem?_toList] at hget
  have hearlier : s.calendar.toList.Pairwise fun a b => (!w.before b) = true → (!w.before a) = true :=
    List.Pairwise.imp (fun {a b} hab hb => by
      simp only [Bool.not_eq_true', ← Bool.not_eq_true] at hb ⊢
      exact Date.not_before_of_before hab hb) h
  have hcount := lt_countP_iff hearlier hget
  rw [Bool.not_eq_true', ← Bool.not_eq_true] at hcount
  rw [← hcount, daysUpTo]
  omega

/-- The Galois connection: a day is at most that of a date exactly when its date is on or before the
date. -/
theorem dayOf_gc (h : Date.Ordered s.calendar.toList) (hw : s.dayOf w = .ok day)
    (hd : s.date day' = .ok d) : day' ≤ day ↔ ¬ w.before d = true := by
  rw [← lt_daysUpTo_iff h hd, (dayOf_eq_ok.mp hw).2]
  omega

/-- Only before the first trading date is there no day. -/
theorem daysUpTo_eq_zero_iff (h : Date.Ordered s.calendar.toList) :
    s.daysUpTo w = 0 ↔ ∀ first, s.date s.firstDay = .ok first → w.before first = true := by
  constructor
  · intro hzero first hfirst
    by_contra hw
    have hlt := (lt_daysUpTo_iff h hfirst).mpr hw
    rw [hzero] at hlt
    exact lt_irrefl _ hlt
  · intro hall
    by_contra hpos
    have hle := s.daysUpTo_le (w := w)
    obtain ⟨first, hfirst⟩ : ∃ first, s.date s.firstDay = .ok first :=
      exists_date_iff.mpr ⟨le_rfl, by rw [lastDay_eq, firstDay]; omega⟩
    refine (lt_daysUpTo_iff h hfirst).mp ?_ (hall first hfirst)
    rw [firstDay]
    omega

/-! ## Days that match dates -/

/-- The days of a source that have dates on or before a date. -/
def upTo (s : Source) (w : Date) : Set ℤ :=
  {day | ∃ d, s.date day = .ok d ∧ ¬ w.before d = true}

/-- Whether the days of a source and its dates match. -/
structure DaysMatchDates (s : Source) : Prop where
  /-- The calendar has its dates in order, each once. -/
  ordered : Date.Ordered s.calendar.toList
  /-- A day has a date exactly when it is a day of the calendar. -/
  exists_date : ∀ day, (∃ d, s.date day = .ok d) ↔ 0 ≤ day ∧ day ≤ s.lastDay
  /-- Any other day is outside the calendar. -/
  date_error : ∀ day e, s.date day = .error e ↔
    ¬ (0 ≤ day ∧ day ≤ s.lastDay) ∧ e = .outsideCalendar day
  /-- Dates grow with their days. -/
  date_lt : ∀ {day day' d d'}, s.date day = .ok d → s.date day' = .ok d' →
    (d.before d' = true ↔ day < day')
  /-- The date of a day leads back to it. -/
  dayOf_date : ∀ {day d}, s.date day = .ok d → s.dayOf d = .ok day
  /-- The day of a date is the last one on or before it. -/
  dayOf_greatest : ∀ w day, s.dayOf w = .ok day ↔ IsGreatest (s.upTo w) day
  /-- A later date has a later day, or the same. -/
  dayOf_mono : ∀ {w w' day}, ¬ w'.before w = true → s.dayOf w = .ok day →
    ∃ day', s.dayOf w' = .ok day' ∧ day ≤ day'
  /-- A date has no day exactly when it is before the first trading date, or there is none. -/
  dayOf_error : ∀ w e, s.dayOf w = .error e ↔
    (∀ first, s.date s.firstDay = .ok first → w.before first = true) ∧ e = .beforeCalendar w

/-- The day of a date is the last one on or before it. -/
theorem dayOf_isGreatest (h : Date.Ordered s.calendar.toList) :
    s.dayOf w = .ok day ↔ IsGreatest (s.upTo w) day := by
  constructor
  · intro hw
    obtain ⟨d, hd⟩ := exists_date_iff.mpr (dayOf_mem hw)
    refine ⟨⟨d, hd, (dayOf_gc h hw hd).mp le_rfl⟩, ?_⟩
    rintro day' ⟨d', hd', hnot⟩
    exact (dayOf_gc h hw hd').mpr hnot
  · rintro ⟨⟨d, hd, hnot⟩, hupper⟩
    have hlt := (lt_daysUpTo_iff h hd).mpr hnot
    have hday := (date_eq_ok.mp hd).1
    have hw : s.dayOf w = .ok (s.daysUpTo w - 1) := dayOf_eq_ok.mpr ⟨by omega, rfl⟩
    obtain ⟨d', hd'⟩ := exists_date_iff.mpr (dayOf_mem hw)
    have hle := hupper ⟨d', hd', (dayOf_gc h hw hd').mp le_rfl⟩
    rw [hw, show (s.daysUpTo w : ℤ) - 1 = day by omega]

/-- On a calendar in order, days and dates match. -/
theorem daysMatchDates_of_ordered (h : Date.Ordered s.calendar.toList) : s.DaysMatchDates where
  ordered := h
  exists_date _ := exists_date_iff
  date_error _ _ := date_eq_error
  date_lt {day day' d d'} hd hd' := by
    refine ⟨fun hbefore => ?_, before_of_lt h hd hd'⟩
    by_contra hle
    rcases lt_or_eq_of_le (not_lt.mp hle) with hlt | rfl
    · exact Date.not_before_self (Date.before_trans hbefore (before_of_lt h hd' hd hlt))
    · rw [hd] at hd'
      cases hd'
      exact Date.not_before_self hbefore
  dayOf_date {day d} hd := by
    refine (dayOf_isGreatest h).mpr ⟨⟨d, hd, Date.not_before_self⟩, ?_⟩
    rintro day' ⟨d', hd', hnot⟩
    by_contra hlt
    exact hnot (before_of_lt h hd hd' (not_le.mp hlt))
  dayOf_greatest _ _ := dayOf_isGreatest h
  dayOf_mono {w w' day} hww' hw := by
    have hle : s.daysUpTo w ≤ s.daysUpTo w' := by
      refine List.countP_mono_left fun d _ hd => ?_
      simp only [Bool.not_eq_true', ← Bool.not_eq_true, Date.not_before_iff] at hww' hd ⊢
      exact hd.trans hww'
    obtain ⟨hpos, rfl⟩ := dayOf_eq_ok.mp hw
    exact ⟨_, dayOf_eq_ok.mpr ⟨by omega, rfl⟩, by omega⟩
  dayOf_error _ _ := by rw [dayOf_eq_error, daysUpTo_eq_zero_iff h]

/-! ## The frames that count -/

variable {frames known : List (Symbol × Frame)} {symbol other : Symbol} {frame : Frame}

/-- The frame of a symbol: the last one that is given for it. -/
def frameOf? (frames : List (Symbol × Frame)) (symbol : Symbol) : Option Frame :=
  frames.reverse.lookup symbol

/-- A new value of a key is found in the place of the old one. -/
theorem lookup_map_replace :
    (known.map fun entry => if entry.1 == symbol then (symbol, frame) else entry).lookup other =
      (known.lookup other).map fun old => if other = symbol then frame else old := by
  induction known with
  | nil => rfl
  | cons entry known ih =>
    rw [List.map_cons]
    by_cases hentry : entry.1 = symbol
    · subst hentry
      rw [if_pos (beq_self_eq_true _), List.lookup_cons, List.lookup_cons, ih]
      by_cases hother : other = entry.1
      · simp [hother]
      · simp [beq_eq_false_iff_ne.mpr hother, hother]
    · rw [if_neg (by simpa using hentry), List.lookup_cons, List.lookup_cons, ih]
      by_cases hother : other = entry.1
      · simp [hother, hentry]
      · simp [beq_eq_false_iff_ne.mpr hother]

theorem lookup_putFrame : (putFrame known symbol frame).lookup other =
    if other = symbol then some frame else known.lookup other := by
  have hany : (known.any fun entry => entry.1 == symbol) = (known.lookup symbol).isSome := by
    rw [Bool.eq_iff_iff, List.any_eq_true, List.lookup_isSome_iff]
    exact exists_congr fun entry => and_congr_right fun _ => by rw [BEq.comm]
  unfold putFrame
  rw [hany]
  split_ifs with hknown hother hother
  · subst hother
    obtain ⟨old, hold⟩ := Option.isSome_iff_exists.mp hknown
    rw [lookup_map_replace, hold, Option.map_some, if_pos rfl]
  · rw [lookup_map_replace]
    simp [hother]
  · subst hother
    rw [List.lookup_append, Option.not_isSome_iff_eq_none.mp hknown, List.lookup_cons_self, Option.none_or]
  · rw [List.lookup_append]
    simp [List.lookup_cons, beq_eq_false_iff_ne.mpr hother]

/-- Frames that are put one by one are found as the last one of each symbol, sorted. -/
theorem lookup_foldl_putFrame :
    (frames.foldl (fun known entry => putFrame known entry.1 entry.2.sorted) known).lookup symbol =
      ((frameOf? frames symbol).map Frame.sorted).or (known.lookup symbol) := by
  induction frames generalizing known with
  | nil => rfl
  | cons entry frames ih =>
    rw [List.foldl_cons, ih, lookup_putFrame, frameOf?, frameOf?, List.reverse_cons, List.lookup_append]
    cases frames.reverse.lookup symbol with
    | some frame => rfl
    | none =>
      rw [List.lookup_cons]
      split_ifs with hsymbol
      · simp [hsymbol]
      · simp [beq_eq_false_iff_ne.mpr hsymbol]

/-- The frames that a source is made of. -/
def kept (frames : List (Symbol × Frame)) : List (Symbol × Frame) :=
  frames.foldl (fun known entry => putFrame known entry.1 entry.2.sorted) []

/-- They are the ones that count, sorted. -/
theorem mem_kept {entry : Symbol × Frame} :
    entry ∈ kept frames ↔ ∃ frame, frameOf? frames entry.1 = some frame ∧ frame.sorted = entry.2 := by
  have hnodup : ((kept frames).map Prod.fst).Nodup := foldl_putFrame_nodup frames List.nodup_nil
  rw [← Frame.lookup_eq_some_iff_mem hnodup, kept, lookup_foldl_putFrame, List.lookup_nil,
    Option.or_none, Option.map_eq_some_iff]

theorem mem_unionDays_kept {d : Date} : d ∈ unionDays (kept frames) ↔
    ∃ symbol frame, frameOf? frames symbol = some frame ∧ d ∈ frame.days := by
  rw [mem_unionDays]
  constructor
  · rintro ⟨entry, hentry, hd⟩
    obtain ⟨frame, hframe, hsorted⟩ := mem_kept.mp hentry
    rw [← hsorted, Frame.mem_days_sorted] at hd
    exact ⟨entry.1, frame, hframe, hd⟩
  · rintro ⟨symbol, frame, hframe, hd⟩
    exact ⟨(symbol, frame.sorted), mem_kept.mpr ⟨frame, hframe, rfl⟩, Frame.mem_days_sorted.mpr hd⟩

/-- The calendar of a source of frames has the days of the frames that count. -/
theorem mem_calendar_of_ofFrames (h : ofFrames frames = .ok s) {d : Date} :
    d ∈ s.calendar.toList ↔ ∃ symbol frame, frameOf? frames symbol = some frame ∧ d ∈ frame.days := by
  obtain ⟨series, -, h⟩ := bind_eq_ok.mp h
  cases h
  rw [List.toList_toArray]
  exact mem_unionDays_kept

/-- When no frame that counts holds a day twice, the frames make a source.  Its calendar has the days of
the frames that count, and its days and its dates match. -/
theorem ofFrames_daysMatchDates
    (h : ∀ symbol frame, frameOf? frames symbol = some frame → frame.days.Nodup) :
    ∃ s, ofFrames frames = .ok s ∧
      (∀ d, d ∈ s.calendar.toList ↔
        ∃ symbol frame, frameOf? frames symbol = some frame ∧ d ∈ frame.days) ∧
      s.DaysMatchDates := by
  have hordered : ∀ entry ∈ kept frames, Date.Ordered entry.2.days := by
    intro entry hentry
    obtain ⟨frame, hframe, hsorted⟩ := mem_kept.mp hentry
    rw [← hsorted]
    exact Frame.sorted_ordered (h entry.1 frame hframe)
  have hsource : ofFrames frames = .ok
      { calendar := (unionDays (kept frames)).toArray
        series := ((kept frames).map fun entry =>
          (entry.1, entry.2.onDays (unionDays (kept frames)))).mergeSort fun a b => !b.1.before a.1 } :=
    bind_eq_ok.mpr ⟨_, mapM_align_eq hordered, rfl⟩
  exact ⟨_, hsource, fun d => mem_calendar_of_ofFrames hsource,
    daysMatchDates_of_ordered (unionDays_ordered hordered)⟩

/-! ## The tables that count -/

variable {tables : List (String × Table)}

/-- A frame has the days of the table that it is read from. -/
theorem days_of_readTable {entry : String × Table} {found : Symbol × Frame}
    (h : readTable entry = .ok found) :
    Symbol.parse entry.1 = .ok found.1 ∧ found.2.days = entry.2.days := by
  obtain ⟨symbol, hsymbol, h⟩ := bind_eq_ok.mp h
  obtain ⟨frame, hframe, h⟩ := bind_eq_ok.mp h
  cases h
  refine ⟨mapError_eq_ok.mp hsymbol, ?_⟩
  unfold Frame.ofTable Frame.ofColumns at hframe
  dsimp only at hframe
  split_ifs at hframe
  cases hframe
  rw [Frame.days, List.mapIdx_eq_zipIdx_map, List.map_map]
  exact List.zipIdx_map_fst 0 _

/-- The table of a symbol: the last one under a key that means it. -/
def tableOf? (tables : List (String × Table)) (symbol : Symbol) : Option Table :=
  (tables.reverse.find? fun entry => Symbol.parse entry.1 = .ok symbol).map Prod.snd

/-- Tables that can all be read have frames, and the frame that counts has the days of the table that
counts. -/
theorem exists_frames (hread : ∀ entry ∈ tables, ∃ found, readTable entry = .ok found) :
    ∃ frames, tables.mapM readTable = .ok frames ∧
      ∀ symbol, (frameOf? frames symbol).map Frame.days = (tableOf? tables symbol).map Table.days := by
  induction tables with
  | nil => exact ⟨[], rfl, fun _ => rfl⟩
  | cons entry tables ih =>
    obtain ⟨⟨found, hfound⟩, hrest⟩ := List.forall_mem_cons.mp hread
    obtain ⟨frames, hframes, hdays⟩ := ih hrest
    obtain ⟨hsymbol, hfoundDays⟩ := days_of_readTable hfound
    refine ⟨found :: frames, by rw [List.mapM_cons, hfound, hframes]; rfl, fun symbol => ?_⟩
    have hlast : ([found].lookup symbol).map Frame.days =
        (([entry].find? fun entry => Symbol.parse entry.1 = .ok symbol).map Prod.snd).map
          Table.days := by
      rw [List.lookup_cons, List.find?_singleton, hsymbol]
      by_cases heq : symbol = found.1
      · simp [heq, hfoundDays]
      · simp [beq_eq_false_iff_ne.mpr heq, Ne.symm heq]
    rw [frameOf?, tableOf?, List.reverse_cons, List.reverse_cons, List.lookup_append, List.find?_append,
      Option.map_or, Option.map_or, Option.map_or, hlast]
    exact congrArg (Option.or · _) (hdays symbol)

/-- When no table that counts has a day twice, whatever the times of day are, tables that can be read make a
source.  Its calendar has the days of the tables that count, and its days and its dates match. -/
theorem ofTables_daysMatchDates
    (hread : ∀ entry ∈ tables, ∃ found, readTable entry = .ok found)
    (h : ∀ symbol table, tableOf? tables symbol = some table → table.days.Nodup) :
    ∃ s, ofTables tables = .ok s ∧
      (∀ d, d ∈ s.calendar.toList ↔
        ∃ symbol table, tableOf? tables symbol = some table ∧ d ∈ table.days) ∧
      s.DaysMatchDates := by
  obtain ⟨frames, hframes, hdays⟩ := exists_frames hread
  have hcounts : ∀ symbol days, (∃ frame, frameOf? frames symbol = some frame ∧ frame.days = days) ↔
      ∃ table, tableOf? tables symbol = some table ∧ table.days = days := fun symbol days => by
    rw [← Option.map_eq_some_iff, hdays, Option.map_eq_some_iff]
  have hnodup : ∀ symbol frame, frameOf? frames symbol = some frame → frame.days.Nodup := by
    intro symbol frame hframe
    obtain ⟨table, htable, heq⟩ := (hcounts symbol _).mp ⟨frame, hframe, rfl⟩
    exact heq ▸ h symbol table htable
  obtain ⟨s, hs, hcalendar, hmatch⟩ := ofFrames_daysMatchDates hnodup
  refine ⟨s, bind_eq_ok.mpr ⟨frames, hframes, hs⟩, fun d => ?_, hmatch⟩
  rw [hcalendar]
  refine exists_congr fun symbol => ⟨?_, ?_⟩
  · rintro ⟨frame, hframe, hd⟩
    obtain ⟨table, htable, heq⟩ := (hcounts symbol _).mp ⟨frame, hframe, rfl⟩
    exact ⟨table, htable, heq ▸ hd⟩
  · rintro ⟨table, htable, hd⟩
    obtain ⟨frame, hframe, heq⟩ := (hcounts symbol _).mpr ⟨table, htable, rfl⟩
    exact ⟨frame, hframe, heq ▸ hd⟩

/-! ## A source with a replaced table -/

/-- A table of July 2024 without quotes, with rows at given days and hours. -/
def looseTable (rows : List (Date × ℕ)) : Table where
  times := rows.filterMap fun row => Timestamp.ofParts? row.1 row.2 0 0
  columns := Field.all.map fun field => (field.word, [])

/-- Tables without order.  The first table of A has two times of one day, and the last one replaces it. -/
def looseTables : List (String × Table) :=
  [("A", looseTable [(⟨2024, 7, 9, by decide⟩, 9), (⟨2024, 7, 9, by decide⟩, 17)]),
    ("B", looseTable [(⟨2024, 7, 12, by decide⟩, 17), (⟨2024, 7, 8, by decide⟩, 9)]),
    ("a", looseTable [(⟨2024, 7, 11, by decide⟩, 9), (⟨2024, 7, 8, by decide⟩, 17)])]

/-- Their source has the days of the last two tables. -/
def looseSource : Source :=
  { calendar := #[⟨2024, 7, 8, by decide⟩, ⟨2024, 7, 11, by decide⟩, ⟨2024, 7, 12, by decide⟩]
    series := [(⟨"A"⟩, #[{}, {}, {}]), (⟨"B"⟩, #[{}, {}, {}])] }

theorem parse_loose : Symbol.parse "A" = .ok ⟨"A"⟩ ∧ Symbol.parse "B" = .ok ⟨"B"⟩ ∧
    Symbol.parse "a" = .ok ⟨"A"⟩ := by
  decide +kernel

/-- Rows without quotes are read as open bars. -/
theorem readTable_loose {key : String} {symbol : Symbol} (h : Symbol.parse key = .ok symbol)
    (rows : List (Date × ℕ)) : readTable (key, looseTable rows) =
      .ok (symbol, (looseTable rows).days.mapIdx fun _ d => (d, {})) := by
  have hopen : ∀ field row, Frame.entry (looseTable rows).columns field row = none := by
    intro field row
    unfold Frame.entry
    cases hfind : (looseTable rows).columns.find? fun column => column.1.toLower == field.word with
    | none => rfl
    | some column =>
      obtain ⟨f, -, rfl⟩ := List.mem_map.mp (List.mem_of_find?_eq_some hfind)
      rfl
  have hnames : ((Field.all.map Field.word).filter fun name =>
      !((Field.all.map fun field => (field.word, ([] : List (Option Float)))).map
        fun column => column.1.toLower).contains name) = [] := by
    decide +kernel
  have hframe : Frame.ofTable symbol (looseTable rows) =
      .ok ((looseTable rows).days.mapIdx fun _ d => (d, {})) := by
    refine (if_pos (List.isEmpty_iff.mpr hnames)).trans ?_
    simp only [hopen]
  exact bind_eq_ok.mpr ⟨symbol, mapError_eq_ok.mpr h, bind_eq_ok.mpr ⟨_, hframe, rfl⟩⟩

theorem ofTables_loose : ofTables looseTables = .ok looseSource := by
  have horder : Symbol.before ⟨"B"⟩ ⟨"A"⟩ = false := by decide
  obtain ⟨hA, hB, ha⟩ := parse_loose
  have hframes : looseTables.mapM readTable = .ok
      [(⟨"A"⟩, [(⟨2024, 7, 9, by decide⟩, {}), (⟨2024, 7, 9, by decide⟩, {})]),
        (⟨"B"⟩, [(⟨2024, 7, 12, by decide⟩, {}), (⟨2024, 7, 8, by decide⟩, {})]),
        (⟨"A"⟩, [(⟨2024, 7, 11, by decide⟩, {}), (⟨2024, 7, 8, by decide⟩, {})])] := by
    simp only [looseTables, List.mapM_cons, readTable_loose hA, readTable_loose hB, readTable_loose ha]
    rfl
  rw [ofTables, hframes]
  refine (bind_of_ok rfl).trans ?_
  simp [ofFrames, putFrame, Frame.sorted, List.mergeSort, Frame.union, Frame.days,
    Frame.align, Frame.strictlyOrdered, Date.before, Date.key]
  refine (bind_of_ok rfl).trans ?_
  simp [horder]
  rfl

theorem nodup_of_tableOf?_loose : ∀ symbol table, tableOf? looseTables symbol = some table →
    table.days.Nodup := by
  obtain ⟨hA, hB, ha⟩ := parse_loose
  intro symbol table htable
  simp only [tableOf?, looseTables, List.reverse_cons, List.reverse_nil, List.nil_append,
    List.cons_append, List.find?_cons, hA, hB, ha] at htable
  split at htable
  · cases htable
    decide
  · split at htable
    · cases htable
      decide
    · split at htable <;> simp_all

/-- The tenth of July has no quotes and belongs to the first day, and the seventh is before the
calendar. -/
theorem ofTables_daysMatchDates_loose :
    ∃ s, ofTables looseTables = .ok s ∧
      s.date 1 = .ok ⟨2024, 7, 11, by decide⟩ ∧
      s.dayOf ⟨2024, 7, 11, by decide⟩ = .ok 1 ∧
      s.dayOf ⟨2024, 7, 10, by decide⟩ = .ok 0 ∧
      s.dayOf ⟨2024, 7, 7, by decide⟩ = .error (.beforeCalendar ⟨2024, 7, 7, by decide⟩) ∧
      s.date 3 = .error (.outsideCalendar 3) := by
  obtain ⟨hA, hB, ha⟩ := parse_loose
  have hread : ∀ entry ∈ looseTables, ∃ found, readTable entry = .ok found := by
    simp only [looseTables, List.forall_mem_cons]
    exact ⟨⟨_, readTable_loose hA _⟩, ⟨_, readTable_loose hB _⟩, ⟨_, readTable_loose ha _⟩,
      List.forall_mem_nil _⟩
  obtain ⟨s, hs, -, hmatch⟩ := ofTables_daysMatchDates hread nodup_of_tableOf?_loose
  obtain rfl := Except.ok.inj (hs.symm.trans ofTables_loose)
  refine ⟨looseSource, hs, rfl, hmatch.dayOf_date rfl, rfl,
    (hmatch.dayOf_error _ _).mpr ⟨fun first hfirst => ?_, rfl⟩,
    (hmatch.date_error _ _).mpr ⟨by decide, rfl⟩⟩
  obtain rfl := Except.ok.inj hfirst
  decide

end Source

end TradeRules
