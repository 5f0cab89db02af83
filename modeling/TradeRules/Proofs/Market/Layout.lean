import Mathlib.Data.List.Nodup
import Mathlib.Data.List.Perm.Subperm
import TradeRules.Proofs.Market.Past

/-!
# How frames are laid out

When no frame holds a day twice, its frames make a source (`ofFrames_laidOut`).  The calendar has the
days of all frames, each once and in order.  The source has one series for each symbol, in the order of
the symbols, and a series has on each day of the calendar what the frame of the symbol has on that day.

So a quote is found on a day exactly when the frame of the symbol has it on the date of the day
(`LaidOut.quote?_eq_some`), and two sources that are laid out from frames with the same contents are
equal (`LaidOut.unique`).

Whatever frames a source is made of, its quotes are theirs (`exists_bar_of_quote?`).
-/

namespace TradeRules

/-! ## The order of dates -/

namespace Date

variable {d e f : Date}

theorem before_iff : d.before e = true ↔ d.key < e.key :=
  decide_eq_true_iff

theorem monthLength_le (year month : ℕ) : Calendar.monthLength year month ≤ 31 := by
  unfold Calendar.monthLength
  split_ifs <;> omega

/-- Months and days have two digits. -/
theorem two_digits (d : Date) : d.month < 100 ∧ d.day < 100 := by
  have hvalid := d.valid
  have hlength := monthLength_le d.year d.month
  simp only [Calendar.isDate, Bool.and_eq_true, decide_eq_true_eq] at hvalid
  omega

theorem key_lt (d : Date) : d.key < 10 ^ 8 := by
  have hvalid := d.valid
  obtain ⟨hmonth, hday⟩ := d.two_digits
  simp only [Calendar.isDate, Bool.and_eq_true, decide_eq_true_eq] at hvalid
  unfold key
  omega

/-- A date is known by the digits of its year, month and day. -/
theorem key_injective : Function.Injective key := by
  intro d e hkey
  obtain ⟨hdm, hdd⟩ := d.two_digits
  obtain ⟨hem, hed⟩ := e.two_digits
  have hparts : d.year = e.year ∧ d.month = e.month ∧ d.day = e.day := by
    unfold key at hkey
    omega
  cases d
  cases e
  simpa using hparts

theorem not_before_self : ¬ d.before d = true := by
  rw [before_iff]
  exact lt_irrefl _

theorem before_trans (hde : d.before e = true) (hef : e.before f = true) :
    d.before f = true := by
  rw [before_iff] at hde hef ⊢
  exact lt_trans hde hef

theorem eq_of_not_before (hde : ¬ d.before e = true) (hed : ¬ e.before d = true) : d = e := by
  rw [before_iff] at hde hed
  exact key_injective (by omega)

/-- Whether dates are in order, each once. -/
def Ordered (ds : List Date) : Prop :=
  ds.Pairwise fun d e => d.before e = true

theorem Ordered.nodup {ds : List Date} (h : Ordered ds) : ds.Nodup := by
  refine List.Pairwise.imp (fun {d e} hde => ?_) h
  rintro rfl
  exact not_before_self hde

/-- There are no more dates in order than keys. -/
theorem Ordered.length_le {ds : List Date} (h : Ordered ds) : ds.length ≤ 10 ^ 8 := by
  have hkeys : ds.map key ⊆ List.range (10 ^ 8) := by
    intro n hn
    obtain ⟨d, -, rfl⟩ := List.mem_map.mp hn
    exact List.mem_range.mpr d.key_lt
  have hle := ((h.nodup.map key_injective).subperm hkeys).length_le
  rwa [List.length_map, List.length_range] at hle

/-- Dates in order are known by their set. -/
theorem Ordered.eq_of_mem_iff {ds es : List Date} (hd : Ordered ds) (he : Ordered es)
    (h : ∀ d, d ∈ ds ↔ d ∈ es) : ds = es := by
  have hperm := (List.perm_ext_iff_of_nodup hd.nodup he.nodup).mpr h
  refine hperm.eq_of_pairwise (fun a b _ _ hab hba => ?_) hd he
  exact absurd (before_trans hab hba) not_before_self

end Date

namespace Frame

variable {d : Date} {ds es calendar : List Date} {frame : Frame}

/-! ## The union of days -/

theorem mem_union : d ∈ union ds es ↔ d ∈ ds ∨ d ∈ es := by
  fun_induction union ds es with
  | case1 es => simp
  | case2 ds => simp
  | case3 d' ds e es _ ih =>
    simp only [List.mem_cons, ih]
    tauto
  | case4 d' ds e es _ _ ih =>
    simp only [List.mem_cons, ih]
    tauto
  | case5 d' ds e es hde hed ih =>
    obtain rfl := Date.eq_of_not_before hde hed
    simp only [List.mem_cons, ih]
    tauto

theorem union_ordered (hd : Date.Ordered ds) (he : Date.Ordered es) :
    Date.Ordered (union ds es) := by
  fun_induction union ds es with
  | case1 es => exact he
  | case2 ds => exact hd
  | case3 d ds e es hde ih =>
    obtain ⟨hfirst, hds⟩ := List.pairwise_cons.mp hd
    refine List.pairwise_cons.mpr ⟨fun f hf => ?_, ih hds he⟩
    rcases mem_union.mp hf with hf | hf
    · exact hfirst f hf
    · rcases List.mem_cons.mp hf with rfl | hf
      · exact hde
      · exact Date.before_trans hde ((List.pairwise_cons.mp he).1 f hf)
  | case4 d ds e es _ hed ih =>
    obtain ⟨hfirst, hes⟩ := List.pairwise_cons.mp he
    refine List.pairwise_cons.mpr ⟨fun f hf => ?_, ih hd hes⟩
    rcases mem_union.mp hf with hf | hf
    · rcases List.mem_cons.mp hf with rfl | hf
      · exact hed
      · exact Date.before_trans hed ((List.pairwise_cons.mp hd).1 f hf)
    · exact hfirst f hf
  | case5 d ds e es hde hed ih =>
    obtain rfl := Date.eq_of_not_before hde hed
    obtain ⟨hfirst, hds⟩ := List.pairwise_cons.mp hd
    obtain ⟨hfirst', hes⟩ := List.pairwise_cons.mp he
    refine List.pairwise_cons.mpr ⟨fun f hf => ?_, ih hds hes⟩
    rcases mem_union.mp hf with hf | hf
    · exact hfirst f hf
    · exact hfirst' f hf

/-! ## One frame on a calendar -/

/-- In a list of pairs with distinct keys each key is looked up as its only value. -/
theorem lookup_of_mem {α β : Type} [BEq α] [LawfulBEq α] {l : List (α × β)} {k : α} {v : β}
    (h : (l.map Prod.fst).Nodup) (hmem : (k, v) ∈ l) : l.lookup k = some v := by
  induction l with
  | nil => cases hmem
  | cons entry l ih =>
    obtain ⟨hnew, hrest⟩ := List.nodup_cons.mp h
    rcases List.mem_cons.mp hmem with rfl | hmem
    · exact List.lookup_cons_self
    · have hne : (k == entry.1) = false := by
        rw [beq_eq_false_iff_ne]
        rintro rfl
        exact hnew (List.mem_map.mpr ⟨(entry.1, v), hmem, rfl⟩)
      rw [List.lookup_cons, hne]
      exact ih hrest hmem

theorem mem_of_lookup {α β : Type} [BEq α] [LawfulBEq α] {l : List (α × β)} {k : α} {v : β}
    (h : l.lookup k = some v) : (k, v) ∈ l := by
  obtain ⟨front, back, rfl, -⟩ := List.lookup_eq_some_iff.mp h
  simp

theorem lookup_eq_some_iff_mem {α β : Type} [BEq α] [LawfulBEq α] {l : List (α × β)} {k : α}
    {v : β} (h : (l.map Prod.fst).Nodup) : l.lookup k = some v ↔ (k, v) ∈ l :=
  ⟨mem_of_lookup, lookup_of_mem h⟩

theorem strictlyOrdered_of_ordered : ∀ {ds : List Date}, Date.Ordered ds →
    strictlyOrdered ds = true
  | [], _ => rfl
  | [_], _ => rfl
  | d :: e :: rest, h => by
    obtain ⟨hfirst, hrest⟩ := List.pairwise_cons.mp h
    rw [strictlyOrdered, hfirst e List.mem_cons_self, strictlyOrdered_of_ordered hrest]
    rfl

/-- What a frame has on the days of a calendar. -/
def onDays (calendar : List Date) (frame : Frame) : Array Bar :=
  (calendar.map fun date => (frame.lookup date).getD {}).toArray

/-- A frame in order can be laid out on any calendar. -/
theorem align_eq (h : Date.Ordered frame.days) :
    align calendar frame = .ok (frame.onDays calendar) := by
  by_cases hsame : frame.days = calendar
  · -- The calendar is that of the frame, so each day finds its own bar.
    have hbars : frame.map Prod.snd = calendar.map fun date => (frame.lookup date).getD {} := by
      rw [← hsame, days, List.map_map]
      refine List.map_congr_left fun entry hentry => ?_
      show entry.2 = (frame.lookup entry.1).getD {}
      rw [lookup_of_mem h.nodup hentry]
      rfl
    rw [align, if_pos hsame, hbars]
    rfl
  · rw [align, if_neg hsame, if_pos (strictlyOrdered_of_ordered h)]
    rfl

/-- A frame that holds no day twice is in order once it is sorted. -/
theorem sorted_ordered (h : frame.days.Nodup) : Date.Ordered frame.sorted.days := by
  have hperm : frame.sorted.Perm frame := List.mergeSort_perm _ _
  have hle : ∀ a b : Date × Bar, (!b.1.before a.1) = true ↔ a.1.key ≤ b.1.key := by
    intro a b
    rw [Bool.not_eq_true', ← Bool.not_eq_true, Date.before_iff, not_lt]
  have hsorted : frame.sorted.Pairwise fun a b => a.1.key ≤ b.1.key := pairwise_mergeSort_key hle
  have hnodup : frame.sorted.Pairwise fun a b => a.1 ≠ b.1 :=
    List.pairwise_map.mp ((hperm.map Prod.fst).nodup_iff.mpr h)
  refine List.pairwise_map.mpr ((hsorted.and hnodup).imp fun {a b} hab => ?_)
  rw [Date.before_iff]
  exact lt_of_le_of_ne hab.1 fun hkey => hab.2 (Date.key_injective hkey)

theorem mem_days_sorted : d ∈ frame.sorted.days ↔ d ∈ frame.days :=
  ((List.mergeSort_perm frame _).map Prod.fst).mem_iff

/-- What a frame has on the days of a calendar does not depend on the order of its days. -/
theorem onDays_perm {frame' : Frame} (h : frame.days.Nodup) (hperm : frame.Perm frame') :
    frame.onDays calendar = frame'.onDays calendar := by
  have h' : frame'.days.Nodup := (hperm.map Prod.fst).nodup_iff.mp h
  have hlookup : ∀ date, frame.lookup date = frame'.lookup date := by
    intro date
    ext bar
    rw [lookup_eq_some_iff_mem h, lookup_eq_some_iff_mem h', hperm.mem_iff]
  unfold onDays
  simp only [hlookup]

theorem onDays_sorted (h : frame.days.Nodup) : frame.sorted.onDays calendar = frame.onDays calendar :=
  onDays_perm (sorted_ordered h).nodup (List.mergeSort_perm frame _)

/-- What a frame has on a day of the calendar. -/
theorem getElem?_onDays {i : ℕ} :
    (frame.onDays calendar)[i]? = calendar[i]?.map fun date => (frame.lookup date).getD {} := by
  unfold onDays
  rw [List.getElem?_toArray, List.getElem?_map]

end Frame

namespace Source

variable {s s' : Source} {frames frames' known : List (Symbol × Frame)} {calendar ds : List Date}
  {d : Date}

/-! ## All frames on their calendar -/

/-- A frame of a new symbol comes last. -/
theorem putFrame_eq_append {symbol : Symbol} {frame : Frame} (h : symbol ∉ known.map Prod.fst) :
    putFrame known symbol frame = known ++ [(symbol, frame)] := by
  refine if_neg fun hany => h ?_
  obtain ⟨entry, hentry, heq⟩ := List.any_eq_true.mp hany
  exact List.mem_map.mpr ⟨entry, hentry, beq_iff_eq.mp heq⟩

/-- Frames of distinct symbols are all kept. -/
theorem foldl_putFrame_eq (h : ((known ++ frames).map Prod.fst).Nodup) :
    frames.foldl (fun known entry => putFrame known entry.1 entry.2.sorted) known =
      known ++ frames.map fun entry => (entry.1, entry.2.sorted) := by
  induction frames generalizing known with
  | nil => simp
  | cons entry frames ih =>
    have hnew : entry.1 ∉ known.map Prod.fst := by
      rw [List.map_append, List.map_cons] at h
      intro hmem
      exact (List.nodup_append.mp h).2.2 _ hmem _ List.mem_cons_self rfl
    rw [List.foldl_cons, putFrame_eq_append hnew, ih, List.append_assoc]
    · rfl
    · simpa using h

theorem mem_foldl_union :
    d ∈ frames.foldl (fun days entry => Frame.union days entry.2.days) ds ↔
      d ∈ ds ∨ ∃ entry ∈ frames, d ∈ entry.2.days := by
  induction frames generalizing ds with
  | nil => simp
  | cons entry frames ih => simp [ih, Frame.mem_union, or_assoc]

theorem foldl_union_ordered (hds : Date.Ordered ds)
    (h : ∀ entry ∈ frames, Date.Ordered entry.2.days) :
    Date.Ordered (frames.foldl (fun days entry => Frame.union days entry.2.days) ds) := by
  induction frames generalizing ds with
  | nil => exact hds
  | cons entry frames ih =>
    obtain ⟨hentry, hrest⟩ := List.forall_mem_cons.mp h
    exact ih (Frame.union_ordered hds hentry) hrest

/-- The days of all frames in order. -/
def unionDays (frames : List (Symbol × Frame)) : List Date :=
  frames.foldl (fun days entry => Frame.union days entry.2.days)
    ((frames.head?.map fun entry => entry.2.days).getD [])

theorem mem_unionDays : d ∈ unionDays frames ↔ ∃ entry ∈ frames, d ∈ entry.2.days := by
  rw [unionDays, mem_foldl_union, or_iff_right_iff_imp]
  cases frames with
  | nil => exact fun hd => absurd hd List.not_mem_nil
  | cons entry frames => exact fun hd => ⟨entry, List.mem_cons_self, hd⟩

theorem unionDays_ordered (h : ∀ entry ∈ frames, Date.Ordered entry.2.days) :
    Date.Ordered (unionDays frames) := by
  refine foldl_union_ordered ?_ h
  cases frames with
  | nil => exact List.Pairwise.nil
  | cons entry frames => exact h entry List.mem_cons_self

theorem mapM_align_eq (h : ∀ entry ∈ frames, Date.Ordered entry.2.days) :
    frames.mapM (fun entry => do return (entry.1, ← Frame.align calendar entry.2)) =
      .ok (frames.map fun entry => (entry.1, entry.2.onDays calendar)) := by
  induction frames with
  | nil => rfl
  | cons entry frames ih =>
    obtain ⟨hentry, hrest⟩ := List.forall_mem_cons.mp h
    rw [List.mapM_cons, ih hrest, Frame.align_eq hentry]
    rfl

/-! ## The source of frames -/

/-- Frames that a source can be made of: their symbols are distinct, and none holds a day twice. -/
structure Distinct (frames : List (Symbol × Frame)) : Prop where
  symbols : (frames.map Prod.fst).Nodup
  days : ∀ symbol frame, (symbol, frame) ∈ frames → frame.days.Nodup

/-- Whether a source has what its frames have. -/
structure LaidOut (s : Source) (frames : List (Symbol × Frame)) : Prop where
  ordered : Date.Ordered s.calendar.toList
  mem_calendar : ∀ d, d ∈ s.calendar.toList ↔
    ∃ symbol frame, (symbol, frame) ∈ frames ∧ d ∈ frame.days
  symbols_ordered : s.symbols.Pairwise fun a b => a.code < b.code
  mem_series : ∀ symbol bars, (symbol, bars) ∈ s.series ↔
    ∃ frame, (symbol, frame) ∈ frames ∧ bars = frame.onDays s.calendar.toList

/-- Distinct frames make a source, and it has what they have. -/
theorem ofFrames_laidOut (h : Distinct frames) :
    ∃ s, ofFrames frames = .ok s ∧ s.LaidOut frames := by
  set kept := frames.map fun entry => (entry.1, entry.2.sorted) with hkept
  have hordered : ∀ entry ∈ kept, Date.Ordered entry.2.days := by
    intro entry hentry
    obtain ⟨entry, hframe, rfl⟩ := List.mem_map.mp hentry
    exact Frame.sorted_ordered (h.days entry.1 entry.2 hframe)
  -- The order of the days within a frame is lost on the calendar.
  have hseries : kept.map (fun entry => (entry.1, entry.2.onDays (unionDays kept))) =
      frames.map fun entry => (entry.1, entry.2.onDays (unionDays kept)) := by
    rw [hkept, List.map_map]
    refine List.map_congr_left fun entry hentry => ?_
    exact congrArg (Prod.mk entry.1) (Frame.onDays_sorted (h.days entry.1 entry.2 hentry))
  have halign : kept.mapM (fun entry => do return (entry.1, ← Frame.align (unionDays kept) entry.2)) =
      .ok (frames.map fun entry => (entry.1, entry.2.onDays (unionDays kept))) := by
    rw [mapM_align_eq hordered, hseries]
  have hsource : ofFrames frames = .ok
      { calendar := (unionDays kept).toArray
        series := (frames.map fun entry => (entry.1, entry.2.onDays (unionDays kept))).mergeSort
          fun a b => !b.1.before a.1 } := by
    have hfold : frames.foldl (fun known entry => putFrame known entry.1 entry.2.sorted) [] = kept :=
      foldl_putFrame_eq h.symbols
    unfold ofFrames
    rw [hfold]
    exact bind_eq_ok.mpr ⟨_, halign, rfl⟩
  refine ⟨_, hsource, ⟨unionDays_ordered hordered, fun d => ?_, ?_, fun symbol bars => ?_⟩⟩
  · rw [List.toList_toArray, mem_unionDays]
    simp [hkept, Frame.mem_days_sorted]
  · refine ((symbols_sorted hsource).and (symbols_nodup hsource)).imp fun {a b} hab => ?_
    refine lt_of_le_of_ne hab.1 fun hcode => hab.2 ?_
    cases a
    cases b
    exact congrArg Symbol.mk hcode
  · rw [List.mem_mergeSort, List.mem_map]
    constructor
    · rintro ⟨⟨_, frame⟩, hframe, heq⟩
      obtain ⟨rfl, rfl⟩ := Prod.mk.inj heq
      exact ⟨frame, hframe, rfl⟩
    · rintro ⟨frame, hframe, rfl⟩
      exact ⟨(symbol, frame), hframe, rfl⟩

theorem date_eq_ok {day : ℤ} :
    s.date day = .ok d ↔ 0 ≤ day ∧ s.calendar[day.toNat]? = some d := by
  unfold date
  split_ifs with hneg
  · simp [not_le.mpr hneg]
  · cases s.calendar[day.toNat]? with
    | none => simp
    | some e => simp [not_lt.mp hneg]

theorem LaidOut.symbols_nodup (h : s.LaidOut frames) : s.symbols.Nodup := by
  refine List.Pairwise.imp (fun {a b} hab => ?_) h.symbols_ordered
  rintro rfl
  exact lt_irrefl _ hab

/-- The series of a symbol is what its frame has on the days of the calendar. -/
theorem LaidOut.lookup_eq_some {symbol : Symbol} {bars : Array Bar} (h : s.LaidOut frames) :
    s.series.lookup symbol = some bars ↔
      ∃ frame, (symbol, frame) ∈ frames ∧ bars = frame.onDays s.calendar.toList := by
  rw [Frame.lookup_eq_some_iff_mem h.symbols_nodup, h.mem_series]

/-- A quote is found exactly when the frame of the symbol has it on the date of the day. -/
theorem LaidOut.quote?_eq_some {symbol : Symbol} {field : Field} {day : ℤ} {x : Float}
    (h : s.LaidOut frames) (hdistinct : Distinct frames) :
    s.quote? symbol field day = some x ↔
      ∃ d frame bar, s.date day = .ok d ∧ (symbol, frame) ∈ frames ∧ (d, bar) ∈ frame ∧
        bar.get? field = some x := by
  simp only [date_eq_ok]
  unfold quote?
  split_ifs with hneg
  · simp [not_le.mpr hneg]
  · constructor
    · intro hquote
      obtain ⟨bars, hbars, hquote⟩ := Option.bind_eq_some_iff.mp hquote
      obtain ⟨bar, hbar, hx⟩ := Option.bind_eq_some_iff.mp hquote
      obtain ⟨frame, hframe, rfl⟩ := h.lookup_eq_some.mp hbars
      rw [Frame.getElem?_onDays, Option.map_eq_some_iff] at hbar
      obtain ⟨d, hd, rfl⟩ := hbar
      rw [Array.getElem?_toList] at hd
      cases hlookup : frame.lookup d with
      | none =>
        rw [hlookup] at hx
        cases field <;> cases hx
      | some bar =>
        rw [hlookup] at hx
        exact ⟨d, frame, bar, ⟨by omega, hd⟩, hframe, Frame.mem_of_lookup hlookup, hx⟩
    · rintro ⟨d, frame, bar, ⟨-, hd⟩, hframe, hbar, hx⟩
      have hlookup := Frame.lookup_of_mem (hdistinct.days symbol frame hframe) hbar
      rw [h.lookup_eq_some.mpr ⟨frame, hframe, rfl⟩]
      simpa [Frame.getElem?_onDays, hd, hlookup] using hx

/-- Whether each frame is one of others up to the order of its days. -/
def Within (frames frames' : List (Symbol × Frame)) : Prop :=
  ∀ symbol frame, (symbol, frame) ∈ frames →
    ∃ frame', (symbol, frame') ∈ frames' ∧ frame.Perm frame'

theorem LaidOut.mem_calendar_of_within (h : s.LaidOut frames) (h' : s'.LaidOut frames')
    (hwithin : Within frames frames') (hd : d ∈ s.calendar.toList) : d ∈ s'.calendar.toList := by
  obtain ⟨symbol, frame, hframe, hd⟩ := (h.mem_calendar d).mp hd
  obtain ⟨frame', hframe', hperm⟩ := hwithin symbol frame hframe
  exact (h'.mem_calendar d).mpr ⟨symbol, frame', hframe', (hperm.map Prod.fst).mem_iff.mp hd⟩

theorem LaidOut.mem_series_of_within {entry : Symbol × Array Bar} (h : s.LaidOut frames)
    (h' : s'.LaidOut frames') (hdistinct : Distinct frames) (hwithin : Within frames frames')
    (hcalendar : s.calendar = s'.calendar) (hentry : entry ∈ s.series) : entry ∈ s'.series := by
  obtain ⟨frame, hframe, hbars⟩ := (h.mem_series entry.1 entry.2).mp hentry
  obtain ⟨frame', hframe', hperm⟩ := hwithin entry.1 frame hframe
  refine (h'.mem_series entry.1 entry.2).mpr ⟨frame', hframe', ?_⟩
  rw [hbars, hcalendar]
  exact Frame.onDays_perm (hdistinct.days entry.1 frame hframe) hperm

/-- Frames that differ only in their order and in the order of their days make one source. -/
theorem LaidOut.unique (h : s.LaidOut frames) (h' : s'.LaidOut frames')
    (hdistinct : Distinct frames) (hdistinct' : Distinct frames')
    (hwithin : Within frames frames') (hwithin' : Within frames' frames) : s = s' := by
  have hcalendar : s.calendar = s'.calendar := by
    refine Array.toList_inj.mp (h.ordered.eq_of_mem_iff h'.ordered fun d => ?_)
    exact ⟨h.mem_calendar_of_within h' hwithin, h'.mem_calendar_of_within h hwithin'⟩
  have hseries : s.series = s'.series := by
    have hperm : s.series.Perm s'.series := by
      refine (List.perm_ext_iff_of_nodup h.symbols_nodup.of_map h'.symbols_nodup.of_map).mpr ?_
      intro entry
      exact ⟨h.mem_series_of_within h' hdistinct hwithin hcalendar,
        h'.mem_series_of_within h hdistinct' hwithin' hcalendar.symm⟩
    have hordered := List.pairwise_map.mp h.symbols_ordered
    have hordered' := List.pairwise_map.mp h'.symbols_ordered
    refine hperm.eq_of_pairwise (fun a b _ _ hab hba => ?_) hordered hordered'
    exact absurd (lt_trans hab hba) (lt_irrefl _)
  cases s
  cases s'
  exact congrArg₂ Source.mk hcalendar hseries

/-! ## Where quotes come from -/

theorem mem_putFrame {known : List (Symbol × Frame)} {entry : Symbol × Frame} {symbol : Symbol}
    {frame : Frame} (h : entry ∈ putFrame known symbol frame) :
    entry ∈ known ∨ entry = (symbol, frame) := by
  unfold putFrame at h
  split_ifs at h
  · obtain ⟨old, hold, rfl⟩ := List.mem_map.mp h
    split_ifs
    · exact .inr rfl
    · exact .inl hold
  · simpa using h

theorem mem_foldl_putFrame {entries known : List (Symbol × Frame)} {entry : Symbol × Frame}
    (h : entry ∈ entries.foldl (fun known e => putFrame known e.1 e.2.sorted) known) :
    entry ∈ known ∨ ∃ e ∈ entries, entry.2 = e.2.sorted := by
  induction entries generalizing known with
  | nil => exact .inl h
  | cons e entries ih =>
    rcases ih h with hput | ⟨e', he', heq⟩
    · rcases mem_putFrame hput with hknown | rfl
      · exact .inl hknown
      · exact .inr ⟨e, List.mem_cons_self, rfl⟩
    · exact .inr ⟨e', List.mem_cons_of_mem e he', heq⟩

/-- A bar of a frame laid out is one of the frame, or empty. -/
theorem mem_of_align {calendar : List Date} {frame : Frame} {bars : Array Bar} {bar : Bar}
    (h : Frame.align calendar frame = .ok bars) (hbar : bar ∈ bars) :
    (∃ d, (d, bar) ∈ frame) ∨ bar = {} := by
  unfold Frame.align at h
  split_ifs at h
  · cases h
    obtain ⟨⟨d, b⟩, hmem, rfl⟩ := List.mem_map.mp (List.mem_toArray.mp hbar)
    exact .inl ⟨d, hmem⟩
  · cases h
    obtain ⟨d, -, rfl⟩ := List.mem_map.mp (List.mem_toArray.mp hbar)
    cases hlookup : frame.lookup d with
    | none => exact .inr rfl
    | some b => exact .inl ⟨d, Frame.mem_of_lookup hlookup⟩

/-- A quote of a source made of frames is a quote of one of them. -/
theorem exists_bar_of_quote? {symbol : Symbol} {field : Field} {day : ℤ} {x : Float}
    (h : ofFrames frames = .ok s) (hquote : s.quote? symbol field day = some x) :
    ∃ entry ∈ frames, ∃ d bar, (d, bar) ∈ entry.2 ∧ bar.get? field = some x := by
  obtain ⟨series, hseries, h⟩ := bind_eq_ok.mp h
  cases h
  unfold quote? at hquote
  split_ifs at hquote
  obtain ⟨bars, hbars, hquote⟩ := Option.bind_eq_some_iff.mp hquote
  obtain ⟨bar, hbar, hx⟩ := Option.bind_eq_some_iff.mp hquote
  have hmem := List.mem_mergeSort.mp (Frame.mem_of_lookup hbars)
  obtain ⟨kept, hkept, hlaid⟩ := exists_of_mem_mapM hseries hmem
  obtain ⟨aligned, halign, hpair⟩ := bind_eq_ok.mp hlaid
  cases hpair
  rcases mem_of_align halign (Array.mem_of_getElem? hbar) with ⟨d, hd⟩ | rfl
  · rcases mem_foldl_putFrame hkept with hnil | ⟨entry, hentry, hsorted⟩
    · cases hnil
    · rw [hsorted] at hd
      exact ⟨entry, hentry, d, bar, List.mem_mergeSort.mp hd, hx⟩
  · cases field <;> cases hx

end Source

end TradeRules
