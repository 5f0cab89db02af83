import TradeRules.Market.Record
import TradeRules.Proofs.Double.Monotone
import TradeRules.Proofs.Market.Layout

/-!
# Sources of records

Records of which no two share symbol and date make a source that holds them and nothing else
(`Source.ofEntries_holds`).  The calendar has their dates, a quote is read back on the date of its
record and on no other day, and a symbol trades on the days for which it has a record.  The order in
which the records are delivered has no part in it.

Quotes are doubles, so a volume is read back rounded.  A volume that rounds to no finite double makes no
source, whatever the other records are (`Source.ofEntries_volumeRange`).

No price and no volume of a valid record is negative (`Record.validate_nonneg`), so a source of records
has no negative quote (`Source.quote_nonneg`), also when several records share symbol and date.
-/

namespace TradeRules

/-! ## Lists of entries -/

/-- The results of a list in another order. -/
theorem mapM_perm {α β ε : Type} {f : α → Except ε β} {as as' : List α} (hperm : as.Perm as') :
    ∀ {bs : List β}, as.mapM f = .ok bs → ∃ bs', as'.mapM f = .ok bs' ∧ bs.Perm bs' := by
  induction hperm with
  | nil => exact fun {bs} h => ⟨bs, h, .refl bs⟩
  | cons a _ ih =>
    intro bs h
    rw [List.mapM_cons] at h
    obtain ⟨b, hb, h⟩ := bind_eq_ok.mp h
    obtain ⟨rest, hrest, h⟩ := bind_eq_ok.mp h
    cases h
    obtain ⟨rest', hrest', hperm⟩ := ih hrest
    exact ⟨b :: rest', by rw [List.mapM_cons, hb, hrest']; rfl, hperm.cons b⟩
  | swap a a' as =>
    intro bs h
    rw [List.mapM_cons, List.mapM_cons] at h
    obtain ⟨b', hb', h⟩ := bind_eq_ok.mp h
    obtain ⟨_, h', h⟩ := bind_eq_ok.mp h
    obtain ⟨b, hb, h'⟩ := bind_eq_ok.mp h'
    obtain ⟨rest, hrest, h'⟩ := bind_eq_ok.mp h'
    cases h'
    cases h
    exact ⟨b :: b' :: rest, by rw [List.mapM_cons, List.mapM_cons, hb, hb', hrest]; rfl, .swap _ _ _⟩
  | trans _ _ ih ih' =>
    intro bs h
    obtain ⟨bs', hbs', hperm⟩ := ih h
    obtain ⟨bs'', hbs'', hperm'⟩ := ih' hbs'
    exact ⟨bs'', hbs'', hperm.trans hperm'⟩

theorem eraseDups_nodup {α : Type} [BEq α] [LawfulBEq α] :
    ∀ as : List α, as.eraseDups.Nodup
  | [] => List.nodup_nil
  | a :: as => by
    rw [List.eraseDups_cons, List.nodup_cons, List.mem_eraseDups]
    exact ⟨by simp, eraseDups_nodup _⟩
termination_by as => as.length
decreasing_by exact Nat.lt_succ_of_le (List.length_filter_le _ _)

theorem Record.bar_get? (r : Record) (field : Field) : r.bar.get? field = some (r.price field) := by
  cases field <;> rfl

/-! ## Valid records -/

/-- What a last check lets through passes it. -/
theorem holds_of_check {α ε : Type} {p : α → Prop} [DecidablePred p] {m : Except ε α} {e : ε} {x : α}
    (h : (m >>= fun y => if p y then pure y else throw e) = .ok x) : p x := by
  obtain ⟨y, -, h⟩ := bind_eq_ok.mp h
  split_ifs at h with hy
  cases h
  exact hy

theorem Entry.price_nonneg {entry : Entry} {x : Float} (h : entry.price = .ok x) : 0.0 ≤ x := by
  unfold Entry.price at h
  dsimp only at h
  split at h
  · exact holds_of_check h
  · split_ifs at h <;> exact holds_of_check h
  · exact holds_of_check h
  · split at h <;> exact holds_of_check h
  · exact holds_of_check h

theorem Entry.volume_nonneg {entry : Entry} {n : ℤ} (h : entry.volume = .ok n) : 0 ≤ n := by
  unfold Entry.volume at h
  dsimp only at h
  split at h
  · exact holds_of_check h
  · exact holds_of_check h
  · split_ifs at h <;> exact holds_of_check h
  · split at h <;> exact holds_of_check h
  · exact holds_of_check h

namespace Record

theorem both_eq_ok {α β : Type} {a : Except (List (Option String × Fault)) α}
    {b : Except (List (Option String × Fault)) β} {x : α} {y : β} :
    both a b = .ok (x, y) ↔ a = .ok x ∧ b = .ok y := by
  cases a <;> cases b <;> simp [both]

theorem exists_entry_of_read {α : Type} {entries : List (String × Entry)} {name : String}
    {value : Entry → Except Fault α} {x : α} (h : read entries name value = .ok x) :
    ∃ entry, entries.lookup name = some entry ∧ value entry = .ok x := by
  unfold read at h
  cases hlookup : entries.lookup name with
  | none =>
    rw [hlookup] at h
    cases h
  | some entry =>
    rw [hlookup] at h
    exact ⟨entry, rfl, mapError_eq_ok.mp h⟩

/-- No price of a valid record is negative, nor is the volume. -/
theorem validate_nonneg {entries : List (String × Entry)} {r : Record}
    (h : validate entries = .ok r) : (∀ field, field ≠ .volume → 0.0 ≤ r.price field) ∧ 0 ≤ r.volume := by
  obtain ⟨⟨symbol, date, opening, high, low, closing, volume⟩, hfields, h⟩ := bind_eq_ok.mp h
  have hprice : ∀ {field : Field} {x : Float}, read entries field.word Entry.price = .ok x → 0.0 ≤ x :=
    fun hread => by
      obtain ⟨entry, -, hentry⟩ := exists_entry_of_read hread
      exact Entry.price_nonneg hentry
  simp only [mapError_eq_ok, both_eq_ok] at hfields
  obtain ⟨-, -, hopening, hhigh, hlow, hclosing, hvolume⟩ := hfields
  obtain ⟨entry, -, hentry⟩ := exists_entry_of_read hvolume
  dsimp only at h
  split at h
  · cases h
  · cases h
    refine ⟨fun field hfield => ?_, Entry.volume_nonneg hentry⟩
    cases field with
    | opening => exact hprice hopening
    | high => exact hprice hhigh
    | low => exact hprice hlow
    | closing => exact hprice hclosing
    | volume => exact absurd rfl hfield

end Record

/-! ## The frames of records -/

/-- Records of which no two share symbol and date. -/
def Record.Distinct (records : List Record) : Prop :=
  (records.map fun r => (r.symbol, r.date)).Nodup

namespace Frame

variable {records records' : List Record} {symbol : Symbol} {frame : Frame}

/-- The frame of a symbol. -/
def ofSymbol (records : List Record) (symbol : Symbol) : Frame :=
  (records.filter fun r => r.symbol == symbol).map fun r => (r.date, r.bar)

theorem mem_ofSymbol {d : Date} {bar : Bar} :
    (d, bar) ∈ ofSymbol records symbol ↔
      ∃ r ∈ records, r.symbol = symbol ∧ r.date = d ∧ r.bar = bar := by
  simp [ofSymbol, and_assoc]

theorem mem_ofRecords :
    (symbol, frame) ∈ ofRecords records ↔
      (∃ r ∈ records, r.symbol = symbol) ∧ frame = ofSymbol records symbol := by
  simp only [ofRecords, List.mem_map, List.mem_eraseDups, Prod.mk.injEq]
  constructor
  · rintro ⟨_, hr, rfl, rfl⟩
    exact ⟨hr, rfl⟩
  · rintro ⟨hr, rfl⟩
    exact ⟨symbol, hr, rfl, rfl⟩

/-- Distinct records give distinct frames. -/
theorem ofRecords_distinct (h : Record.Distinct records) :
    Source.Distinct (ofRecords records) := by
  constructor
  · have hsymbols : (ofRecords records).map Prod.fst = (records.map Record.symbol).eraseDups := by
      rw [ofRecords, List.map_map]
      exact List.map_id _
    rw [hsymbols]
    exact eraseDups_nodup _
  · intro symbol frame hframe
    obtain ⟨-, rfl⟩ := mem_ofRecords.mp hframe
    have hpairs := (List.pairwise_map.mp h).filter fun r => r.symbol == symbol
    refine List.pairwise_map.mpr (List.pairwise_map.mpr (hpairs.imp_of_mem fun {r r'} hr hr' hne => ?_))
    -- Two records of one symbol can only differ in the date.
    intro hdate
    have hsymbol := beq_iff_eq.mp (List.mem_filter.mp hr).2
    have hsymbol' := beq_iff_eq.mp (List.mem_filter.mp hr').2
    exact hne (Prod.ext (hsymbol.trans hsymbol'.symm) hdate)

theorem within_of_perm (h : records.Perm records') :
    Source.Within (ofRecords records) (ofRecords records') := by
  intro symbol frame hframe
  obtain ⟨⟨r, hr, hsymbol⟩, rfl⟩ := mem_ofRecords.mp hframe
  refine ⟨ofSymbol records' symbol, ?_, (h.filter _).map _⟩
  exact mem_ofRecords.mpr ⟨⟨r, h.mem_iff.mp hr, hsymbol⟩, rfl⟩

end Frame

/-! ## The source of records -/

namespace Source

variable {records records' : List Record} {s : Source} {entries : List (List (String × Entry))}

/-- Whether a source holds records and nothing else. -/
structure Holds (s : Source) (records : List Record) : Prop where
  ordered : Date.Ordered s.calendar.toList
  mem_calendar : ∀ d, d ∈ s.calendar.toList ↔ ∃ r ∈ records, r.date = d
  quote_eq : ∀ r ∈ records, ∀ field day offset, s.date (day + offset) = .ok r.date →
    s.quote r.symbol field (day + offset) = .ok (r.price field)
  quote_missing : ∀ symbol field day offset,
    (∀ r ∈ records, r.symbol = symbol → s.date (day + offset) ≠ .ok r.date) →
      s.quote symbol field (day + offset) = .error (.noQuote field symbol (day + offset))
  symbols_ordered : ∀ day, (s.symbolsOn day).Pairwise fun a b => a.code < b.code
  mem_symbols : ∀ day symbol, symbol ∈ s.symbolsOn day ↔
    ∃ r ∈ records, r.symbol = symbol ∧ s.date day = .ok r.date

/-- A quote is found exactly where a record has it. -/
theorem LaidOut.quote?_of_records {symbol : Symbol} {field : Field} {day : ℤ} {x : Float}
    (h : s.LaidOut (Frame.ofRecords records)) (hdistinct : Record.Distinct records) :
    s.quote? symbol field day = some x ↔
      ∃ r ∈ records, r.symbol = symbol ∧ s.date day = .ok r.date ∧ r.price field = x := by
  rw [h.quote?_eq_some (Frame.ofRecords_distinct hdistinct)]
  constructor
  · rintro ⟨d, frame, bar, hdate, hframe, hbar, hx⟩
    obtain ⟨-, rfl⟩ := Frame.mem_ofRecords.mp hframe
    obtain ⟨r, hr, hsymbol, rfl, rfl⟩ := Frame.mem_ofSymbol.mp hbar
    rw [r.bar_get?] at hx
    exact ⟨r, hr, hsymbol, hdate, Option.some.inj hx⟩
  · rintro ⟨r, hr, hsymbol, hdate, rfl⟩
    exact ⟨r.date, Frame.ofSymbol records symbol, r.bar, hdate,
      Frame.mem_ofRecords.mpr ⟨⟨r, hr, hsymbol⟩, rfl⟩,
      Frame.mem_ofSymbol.mpr ⟨r, hr, hsymbol, rfl, rfl⟩, r.bar_get? field⟩

theorem LaidOut.holds (h : s.LaidOut (Frame.ofRecords records))
    (hdistinct : Record.Distinct records) : s.Holds records where
  ordered := h.ordered
  mem_calendar d := by
    rw [h.mem_calendar]
    constructor
    · rintro ⟨symbol, frame, hframe, hd⟩
      obtain ⟨-, rfl⟩ := Frame.mem_ofRecords.mp hframe
      obtain ⟨⟨_, bar⟩, hbar, rfl⟩ := List.mem_map.mp hd
      obtain ⟨r, hr, -, hdate, -⟩ := Frame.mem_ofSymbol.mp hbar
      exact ⟨r, hr, hdate⟩
    · rintro ⟨r, hr, rfl⟩
      refine ⟨r.symbol, _, Frame.mem_ofRecords.mpr ⟨⟨r, hr, rfl⟩, rfl⟩, ?_⟩
      exact List.mem_map.mpr ⟨(r.date, r.bar), Frame.mem_ofSymbol.mpr ⟨r, hr, rfl, rfl, rfl⟩, rfl⟩
  quote_eq r hr field day offset hdate := by
    have hquote : s.quote? r.symbol field (day + offset) = some (r.price field) :=
      (h.quote?_of_records hdistinct).mpr ⟨r, hr, rfl, hdate, rfl⟩
    unfold quote
    rw [hquote]
  quote_missing symbol field day offset hmissing := by
    have hquote : s.quote? symbol field (day + offset) = none := by
      rw [Option.eq_none_iff_forall_ne_some]
      intro x hx
      obtain ⟨r, hr, hsymbol, hdate, -⟩ := (h.quote?_of_records hdistinct).mp hx
      exact hmissing r hr hsymbol hdate
    unfold quote
    rw [hquote]
  symbols_ordered day := h.symbols_ordered.filter _
  mem_symbols day symbol := by
    rw [mem_symbolsOn, Option.isSome_iff_exists]
    simp only [h.quote?_of_records hdistinct]
    constructor
    · rintro ⟨_, r, hr, hsymbol, hdate, -⟩
      exact ⟨r, hr, hsymbol, hdate⟩
    · rintro ⟨r, hr, hsymbol, hdate⟩
      exact ⟨_, r, hr, hsymbol, hdate, rfl⟩

/-- Distinct records make a source that holds them, and in any order the same one. -/
theorem ofRecords_holds (hdistinct : Record.Distinct records) :
    ∃ s, ofRecords records = .ok s ∧ s.Holds records ∧
      ∀ records', records.Perm records' → ofRecords records' = .ok s := by
  obtain ⟨s, hs, hlaid⟩ := ofFrames_laidOut (Frame.ofRecords_distinct hdistinct)
  refine ⟨s, hs, hlaid.holds hdistinct, fun records' hperm => ?_⟩
  have hdistinct' : Record.Distinct records' := (hperm.map _).nodup_iff.mp hdistinct
  obtain ⟨s', hs', hlaid'⟩ := ofFrames_laidOut (Frame.ofRecords_distinct hdistinct')
  have heq := hlaid.unique hlaid' (Frame.ofRecords_distinct hdistinct)
    (Frame.ofRecords_distinct hdistinct') (Frame.within_of_perm hperm)
    (Frame.within_of_perm hperm.symm)
  rw [heq]
  exact hs'

/-- Loading validated records. -/
theorem ofEntries_eq (hvalid : entries.mapM Record.validate = .ok records)
    (hvolume : ∀ r ∈ records, (Double.ofInt r.volume).isFinite = true) :
    ofEntries entries = (ofRecords records).mapError .frames := by
  have hfinite : (records.any fun r => !(Double.ofInt r.volume).isFinite) = false := by
    rw [List.any_eq_false]
    intro r hr
    rw [hvolume r hr]
    decide
  unfold ofEntries
  rw [hvalid]
  simp only [Except.mapError, bind, Except.bind, hfinite]
  rfl

/-- A volume that rounds to no finite double makes no source. -/
theorem ofEntries_volumeRange {r : Record} (hvalid : entries.mapM Record.validate = .ok records)
    (hr : r ∈ records) (hvolume : (Double.ofInt r.volume).isFinite = false) :
    ofEntries entries = .error .volumeRange := by
  have hany : (records.any fun r => !(Double.ofInt r.volume).isFinite) = true :=
    List.any_eq_true.mpr ⟨r, hr, by rw [hvolume]; rfl⟩
  unfold ofEntries
  rw [hvalid]
  simp only [Except.mapError, bind, Except.bind, hany]
  rfl

/-- What a source of records is made of. -/
theorem exists_records_of_ofEntries (h : ofEntries entries = .ok s) :
    ∃ records, entries.mapM Record.validate = .ok records ∧
      (∀ r ∈ records, (Double.ofInt r.volume).isFinite = true) ∧ ofRecords records = .ok s := by
  obtain ⟨records, hvalid, h⟩ := bind_eq_ok.mp h
  dsimp only at h
  split_ifs at h with hvolume
  · cases h
  · refine ⟨records, mapError_eq_ok.mp hvalid, fun r hr => ?_, mapError_eq_ok.mp h⟩
    by_contra hinfinite
    exact hvolume (List.any_eq_true.mpr ⟨r, hr, by simpa using hinfinite⟩)

/-- Every quote of a source of records is in a record. -/
theorem exists_record_of_quote {symbol : Symbol} {field : Field} {day : ℤ} {x : Float}
    (hs : ofRecords records = .ok s) (hquote : s.quote symbol field day = .ok x) :
    ∃ r ∈ records, r.price field = x := by
  have hquote' : s.quote? symbol field day = some x := by
    unfold quote at hquote
    split at hquote
    · next y hy =>
      cases hquote
      exact hy
    · cases hquote
  obtain ⟨entry, hentry, d, bar, hbar, hx⟩ := exists_bar_of_quote? hs hquote'
  obtain ⟨-, hframe⟩ := Frame.mem_ofRecords.mp hentry
  rw [hframe] at hbar
  obtain ⟨r, hr, -, -, rfl⟩ := Frame.mem_ofSymbol.mp hbar
  exact ⟨r, hr, Option.some.inj ((r.bar_get? field).symm.trans hx)⟩

/-- A source of records has no negative quote. -/
theorem quote_nonneg {symbol : Symbol} {field : Field} {day : ℤ} {x : Float}
    (h : ofEntries entries = .ok s) (hquote : s.quote symbol field day = .ok x) : ¬x < 0.0 := by
  obtain ⟨records, hvalid, hvolume, hs⟩ := exists_records_of_ofEntries h
  obtain ⟨r, hr, rfl⟩ := exists_record_of_quote hs hquote
  obtain ⟨entries, -, hrecord⟩ := exists_of_mem_mapM hvalid hr
  obtain ⟨hprices, hcount⟩ := Record.validate_nonneg hrecord
  by_cases hfield : field = .volume
  · subst hfield
    exact Double.not_ofInt_lt_zero (hvolume r hr) hcount
  · exact Double.not_lt_of_le (hprices field hfield)

/-- Entries that are valid records of distinct days and symbols, with volumes within the doubles, make
a source that holds the records.  In any order they make the same one. -/
theorem ofEntries_holds (hvalid : entries.mapM Record.validate = .ok records)
    (hdistinct : Record.Distinct records)
    (hvolume : ∀ r ∈ records, (Double.ofInt r.volume).isFinite = true) :
    ∃ s, ofEntries entries = .ok s ∧ s.Holds records ∧
      (∀ r ∈ records, Double.IsRounding (r.price .volume) r.volume) ∧
      ∀ entries', entries.Perm entries' → ofEntries entries' = .ok s := by
  obtain ⟨s, hs, hholds, horder⟩ := ofRecords_holds hdistinct
  refine ⟨s, by rw [ofEntries_eq hvalid hvolume, hs]; rfl, hholds,
    fun r _ => Double.ofInt_isRounding r.volume, fun entries' hperm => ?_⟩
  obtain ⟨records', hvalid', hrecords⟩ := mapM_perm hperm hvalid
  have hvolume' : ∀ r ∈ records', (Double.ofInt r.volume).isFinite = true :=
    fun r hr => hvolume r (hrecords.mem_iff.mpr hr)
  rw [ofEntries_eq hvalid' hvolume', horder records' hrecords]
  rfl

/-- The entries of a day on which the price of a symbol does not move. -/
def stillEntries (symbol date : String) (price : Float) (volume : ℤ) : List (String × Entry) :=
  [("symbol", .text symbol), ("date", .text date), ("open", .real price), ("high", .real price),
    ("low", .real price), ("close", .real price), ("volume", .whole volume)]

/-- The record of such a day. -/
def stillRecord (symbol : Symbol) (date : Date) (price : Float) (volume : ℤ) : Record :=
  { symbol, date, opening := price, high := price, low := price, closing := price, volume }

/-- Such a day makes a valid record. -/
theorem validate_still {text date : String} {symbol : Symbol} {day : Date} {price : Float} {volume : ℤ}
    (hsymbol : Entry.symbol (.text text) = .ok symbol) (hdate : Entry.date (.text date) = .ok day)
    (hprice : 0.0 ≤ price) (hvolume : 0 ≤ volume) :
    Record.validate (stillEntries text date price volume) = .ok (stillRecord symbol day price volume) := by
  have hread : Entry.price (.real price) = .ok price := if_pos hprice
  have hcount : Entry.volume (.whole volume) = .ok volume := if_pos hvolume
  have hnumber := (Double.isNaN_of_le hprice).2
  have hself : price ≤ price := (Double.le_iff_extended hnumber hnumber).mpr le_rfl
  have hrange : Record.rangeFault
      { symbol, date := day, opening := price, high := price, low := price, closing := price, volume } =
        none := by
    simp [Record.rangeFault, Record.price, Double.not_lt_self, hself]
  have hfields : ∀ {α : Type} {name : String} (entry : Entry) {value : Entry → Except Fault α} {x : α},
      (stillEntries text date price volume).lookup name = some entry → value entry = .ok x →
        Record.read (stillEntries text date price volume) name value = .ok x := by
    intro α name entry value x hlookup hvalue
    unfold Record.read
    rw [hlookup]
    dsimp only
    rw [hvalue]
    rfl
  unfold Record.validate
  dsimp only
  rw [hfields (.text text) rfl hsymbol, hfields (.text date) rfl hdate,
    hfields (.real price) rfl hread, hfields (.real price) rfl hread,
    hfields (.real price) rfl hread, hfields (.real price) rfl hread,
    hfields (.whole volume) rfl hcount]
  refine (bind_of_ok rfl).trans ?_
  dsimp only
  rw [hrange]
  rfl
/-- Two symbols on two days, delivered in either order. -/
theorem ofEntries_holds_sample :
    ∃ s, ofEntries [stillEntries "bbb" "2024-03-05" 20.0 5, stillEntries "AAA" "2024-03-04" 10.0 7] =
        .ok s ∧
      ofEntries [stillEntries "AAA" "2024-03-04" 10.0 7, stillEntries "bbb" "2024-03-05" 20.0 5] =
        .ok s ∧
      s.Holds [stillRecord ⟨"BBB"⟩ ⟨2024, 3, 5, by decide⟩ 20.0 5,
        stillRecord ⟨"AAA"⟩ ⟨2024, 3, 4, by decide⟩ 10.0 7] := by
  have hvalid : [stillEntries "bbb" "2024-03-05" 20.0 5,
      stillEntries "AAA" "2024-03-04" 10.0 7].mapM Record.validate =
        .ok [stillRecord ⟨"BBB"⟩ ⟨2024, 3, 5, by decide⟩ 20.0 5,
          stillRecord ⟨"AAA"⟩ ⟨2024, 3, 4, by decide⟩ 10.0 7] := by
    rfl
  have hfive : (Double.ofInt 5).isFinite = true := by decide +kernel
  have hseven : (Double.ofInt 7).isFinite = true := by decide +kernel
  obtain ⟨s, hs, hholds, -, horder⟩ := ofEntries_holds hvalid
    (by simp [Record.Distinct, stillRecord]) (by simpa [stillRecord] using ⟨hfive, hseven⟩)
  exact ⟨s, hs, horder _ (.swap _ _ _), hholds⟩

/-- A volume of ten to the four hundredth is valid, and no source is made of it. -/
theorem ofEntries_huge_volume :
    [stillEntries "AAA" "2024-03-04" 10.0 (10 ^ 400)].mapM Record.validate =
        .ok [stillRecord ⟨"AAA"⟩ ⟨2024, 3, 4, by decide⟩ 10.0 (10 ^ 400)] ∧
      Record.Distinct [stillRecord ⟨"AAA"⟩ ⟨2024, 3, 4, by decide⟩ 10.0 (10 ^ 400)] ∧
      ofEntries [stillEntries "AAA" "2024-03-04" 10.0 (10 ^ 400)] = .error .volumeRange := by
  have hvalid : [stillEntries "AAA" "2024-03-04" 10.0 (10 ^ 400)].mapM Record.validate =
      .ok [stillRecord ⟨"AAA"⟩ ⟨2024, 3, 4, by decide⟩ 10.0 (10 ^ 400)] := by
    rfl
  exact ⟨hvalid, List.nodup_singleton _,
    ofEntries_volumeRange hvalid List.mem_cons_self (by decide +kernel)⟩

end Source

end TradeRules
