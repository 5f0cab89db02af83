import TradeRules.Proofs.Rule.Lexing

/-!
# Lexemes

`Lexer.IsLexeme` says which characters make white space or a token of a kind, with one constructor for
each form.  It knows nothing of what follows in a text, and nothing of how a text is read.

The lexer takes the longest lexeme at the front of a text (`Lexer.longest_of_lexeme`), and it takes none
only when no lexeme starts there (`Lexer.noneStarts_of_lexeme`).  Both come from two halves.  What is taken
is a lexeme (`Lexer.isLexeme_of_lexeme`), and no lexeme at the front is longer
(`Lexer.exists_lexeme_of_isLexeme`).  The second half is about the parts of a number that may be left out:
digits end where another character follows, and only a character that is no digit starts the next part.

So the tokens of a text come from pieces, each the longest lexeme where it stands (`Lexer.Cut`), which
make up the text (`Lexer.exists_cut_of_ok`), or all of it up to a character with which no lexeme starts
(`Lexer.exists_cut_of_error`).
-/

namespace TradeRules

namespace Lexer

/-! ## The forms of lexemes -/

/-- Whether all characters are digits. -/
def AreDigits (cs : List Char) : Prop :=
  ∀ c ∈ cs, Text.isDigit c = true

/-- Whether characters are the power of a number, which may be left out: a letter, perhaps a sign, and
digits. -/
inductive IsPower : List Char → Prop
  | none : IsPower []
  | unsigned {e ds} (letter : e = 'e' ∨ e = 'E') (nonempty : ds ≠ []) (digits : AreDigits ds) :
      IsPower (e :: ds)
  | signed {e s ds} (letter : e = 'e' ∨ e = 'E') (sign : s = '+' ∨ s = '-') (nonempty : ds ≠ [])
      (digits : AreDigits ds) : IsPower (e :: s :: ds)

/-- Whether characters are the fraction of a number, which may be left out: a point and any digits. -/
inductive IsFraction : List Char → Prop
  | none : IsFraction []
  | point {ds} (digits : AreDigits ds) : IsFraction ('.' :: ds)

/-- Whether characters are a number.  It has digits before the point or after it. -/
inductive IsNumber : List Char → Prop
  | whole {ds fs ps} (nonempty : ds ≠ []) (digits : AreDigits ds) (fraction : IsFraction fs)
      (power : IsPower ps) : IsNumber (ds ++ (fs ++ ps))
  | point {ds ps} (nonempty : ds ≠ []) (digits : AreDigits ds) (power : IsPower ps) :
      IsNumber ('.' :: (ds ++ ps))

/-- Whether characters are a token of a kind, or white space when no kind is given. -/
inductive IsLexeme : Option TokenKind → List Char → Prop
  | blank {cs} (nonempty : cs ≠ []) (blank : ∀ c ∈ cs, Text.isBlank c = true) : IsLexeme none cs
  | number {cs} (number : IsNumber cs) : IsLexeme (some .number) cs
  | string {cs} (inside : '"' ∉ cs) : IsLexeme (some .string) ('"' :: (cs ++ ['"']))
  | name {cs} (name : isName cs = true) : IsLexeme (some .name) cs
  | sign {c} (sign : isSign c = true) : IsLexeme (some .sign) [c]
  | pair {c d} (pair : isPair c d = true) : IsLexeme (some .sign) [c, d]

variable {c d : Char} {cs ds es back : List Char} {kind? other? : Option TokenKind} {n : ℕ}

theorem IsNumber.ne_nil (h : IsNumber cs) : cs ≠ [] := by
  cases h with
  | whole nonempty => exact List.append_ne_nil_of_left_ne_nil nonempty _
  | point => exact List.cons_ne_nil _ _

theorem IsLexeme.ne_nil (h : IsLexeme kind? cs) : cs ≠ [] := by
  cases h with
  | blank nonempty => exact nonempty
  | number number => exact number.ne_nil
  | string => exact List.cons_ne_nil _ _
  | name name =>
    rintro rfl
    cases name
  | sign => exact List.cons_ne_nil _ _
  | pair => exact List.cons_ne_nil _ _

/-! ## Characters of other lexemes -/

/-- No digit of any script is white space. -/
theorem not_isBlank_of_digit (h : Text.isDigit c = true) : Text.isBlank c = false := by
  have happart : ∀ base ∈ Text.zeros, ∀ range ∈ Text.blankRanges,
      range.2 < base ∨ base + 10 ≤ range.1 := by decide
  unfold Text.isDigit Text.digitValue? at h
  split_ifs at h with hascii hdigit
  · exact not_isBlank_of_isDigit hdigit
  · cases h
  · rw [Option.isSome_map, List.find?_isSome] at h
    obtain ⟨base, hbase, hwithin⟩ := h
    simp only [Bool.and_eq_true, decide_eq_true_eq] at hwithin
    rw [← Bool.not_eq_true, Text.isBlank, List.any_eq_true]
    rintro ⟨range, hrange, hin⟩
    simp only [Bool.and_eq_true, decide_eq_true_eq] at hin
    have := happart base hbase range hrange
    omega

/-- The letter of a power is no digit. -/
theorem not_isDigit_of_letter (h : c = 'e' ∨ c = 'E') : Text.isDigit c = false := by
  rcases h with rfl | rfl <;> decide

theorem ne_sign_of_digit (h : Text.isDigit c = true) : ¬(c == '+' || c == '-') = true := by
  rw [Bool.or_eq_true, beq_iff_eq, beq_iff_eq]
  rintro (rfl | rfl) <;> exact absurd h (by decide)

/-! ## Runs -/

theorem run_le : ∀ {p : Char → Bool}, run p cs ≤ cs.length :=
  (List.takeWhile_prefix _).length_le

theorem forall_mem_take_run {p : Char → Bool} : ∀ c ∈ cs.take (run p cs), p c = true := by
  rw [take_run]
  exact List.all_eq_true.mp List.all_takeWhile

/-- A run is the longest one. -/
theorem length_le_run {p : Char → Bool} (hds : ∀ c ∈ ds, p c = true) (h : ds <+: cs) :
    ds.length ≤ run p cs := by
  obtain ⟨rest, rfl⟩ := h
  rw [run, List.takeWhile_append_of_pos hds, List.length_append]
  exact Nat.le_add_right _ _

/-- What follows a run stands right after it, unless nothing follows. -/
theorem starts_after_run {p : Char → Bool} (hds : ∀ c ∈ ds, p c = true)
    (hes : Front (p · = false) es) (h : ds ++ es <+: cs) :
    es = [] ∧ ds.length ≤ run p cs ∨ ds.length = run p cs ∧ es <+: cs.drop (run p cs) := by
  cases es with
  | nil =>
    rw [List.append_nil] at h
    exact .inl ⟨rfl, length_le_run hds h⟩
  | cons e es =>
    obtain ⟨rest, rfl⟩ := h
    have hrun : run p (ds ++ (e :: (es ++ rest))) = ds.length :=
      run_append hds (front_cons.mpr (front_cons.mp hes))
    rw [List.append_assoc, List.cons_append, hrun, List.drop_left]
    exact .inr ⟨rfl, List.prefix_append (e :: es) rest⟩

/-! ## Numbers -/

theorem front_power (h : IsPower cs) : Front (Text.isDigit · = false) cs := by
  cases h with
  | none => exact front_nil
  | unsigned letter => exact front_cons.mpr (not_isDigit_of_letter letter)
  | signed letter => exact front_cons.mpr (not_isDigit_of_letter letter)

theorem letter_iff : (c == 'e' || c == 'E') = true ↔ c = 'e' ∨ c = 'E' := by
  rw [Bool.or_eq_true, beq_iff_eq, beq_iff_eq]

theorem isPower_of_exponentLength (cs : List Char) :
    exponentLength cs ≤ cs.length ∧ IsPower (cs.take (exponentLength cs)) := by
  unfold exponentLength
  split
  · next e s ds =>
    dsimp only
    split_ifs with hletter hsign hzero hzero
    · exact ⟨Nat.zero_le _, .none⟩
    · have hle : run Text.isDigit ds ≤ ds.length := run_le
      refine ⟨by simpa using hle, ?_⟩
      refine .signed (letter_iff.mp hletter) (by simpa using hsign) ?_ forall_mem_take_run
      rw [← List.length_pos_iff, List.length_take]
      omega
    · exact ⟨Nat.zero_le _, .none⟩
    · have hle : run Text.isDigit (s :: ds) ≤ (s :: ds).length := run_le
      refine ⟨by simpa using hle, ?_⟩
      refine .unsigned (letter_iff.mp hletter) ?_ forall_mem_take_run
      rw [← List.length_pos_iff, List.length_take]
      omega
    · exact ⟨Nat.zero_le _, .none⟩
  · exact ⟨Nat.zero_le _, .none⟩

theorem length_le_exponentLength (hds : IsPower ds) (h : ds <+: cs) :
    ds.length ≤ exponentLength cs := by
  obtain ⟨rest, rfl⟩ := h
  cases hds with
  | none => exact Nat.zero_le _
  | @unsigned e ds letter nonempty digits =>
    obtain ⟨d, ds, rfl⟩ := List.exists_cons_of_ne_nil nonempty
    have hrun : (d :: ds).length ≤ run Text.isDigit (d :: (ds ++ rest)) :=
      length_le_run digits (List.prefix_append (d :: ds) rest)
    have hpos : run Text.isDigit (d :: (ds ++ rest)) ≠ 0 := by
      rw [List.length_cons] at hrun
      omega
    show _ ≤ exponentLength (e :: d :: (ds ++ rest))
    unfold exponentLength
    dsimp only
    rw [if_pos (letter_iff.mpr letter), if_neg (ne_sign_of_digit (digits d List.mem_cons_self)),
      if_neg hpos]
    exact Nat.succ_le_succ hrun
  | @signed e s ds letter sign nonempty digits =>
    have hrun : ds.length ≤ run Text.isDigit (ds ++ rest) :=
      length_le_run digits (List.prefix_append ds rest)
    have hpos : run Text.isDigit (ds ++ rest) ≠ 0 := by
      have := List.length_pos_of_ne_nil nonempty
      omega
    show _ ≤ exponentLength (e :: s :: (ds ++ rest))
    unfold exponentLength
    dsimp only
    rw [if_pos (letter_iff.mpr letter), if_pos (by simpa using sign), if_neg hpos]
    exact Nat.succ_le_succ (Nat.succ_le_succ hrun)

theorem isFraction_of_fractionLength (cs : List Char) :
    fractionLength cs ≤ cs.length ∧ IsFraction (cs.take (fractionLength cs)) := by
  unfold fractionLength
  split
  · exact ⟨Nat.succ_le_succ run_le, .point forall_mem_take_run⟩
  · exact ⟨Nat.zero_le _, .none⟩

/-- The longest fraction and power: what follows shorter digits would have to be a digit. -/
theorem length_le_fraction_power {fs ps : List Char} (hfs : IsFraction fs) (hps : IsPower ps)
    (h : fs ++ ps <+: cs) :
    (fs ++ ps).length ≤ fractionLength cs + exponentLength (cs.drop (fractionLength cs)) := by
  cases hfs with
  | none =>
    have hzero : ps ≠ [] → fractionLength cs = 0 := by
      intro hne
      obtain ⟨rest, rfl⟩ := h
      cases hps with
      | none => exact absurd rfl hne
      | unsigned letter => rcases letter with rfl | rfl <;> rfl
      | signed letter => rcases letter with rfl | rfl <;> rfl
    by_cases hne : ps = []
    · subst hne
      exact Nat.zero_le _
    · rw [hzero hne, Nat.zero_add]
      exact length_le_exponentLength hps h
  | @point ds digits =>
    obtain ⟨rest, rfl⟩ := h
    have hsplit := starts_after_run digits (front_power hps) (List.prefix_append (ds ++ ps) rest)
    have hcs : '.' :: ds ++ ps ++ rest = '.' :: (ds ++ ps ++ rest) := rfl
    have hfraction : fractionLength ('.' :: (ds ++ ps ++ rest)) =
        run Text.isDigit (ds ++ ps ++ rest) + 1 := rfl
    rw [hcs, hfraction, List.drop_succ_cons, List.cons_append, List.length_cons, List.length_append]
    rcases hsplit with ⟨rfl, hle⟩ | ⟨heq, hstarts⟩
    · rw [List.length_nil]
      omega
    · have hpower := length_le_exponentLength hps hstarts
      omega

theorem front_fraction_power {fs ps : List Char} (hfs : IsFraction fs) (hps : IsPower ps) :
    Front (Text.isDigit · = false) (fs ++ ps) := by
  cases hfs with
  | none => exact front_power hps
  | point => exact front_cons.mpr (by decide)

/-- What is taken after a digit makes a number with it. -/
theorem isNumber_of_numberLength (cs : List Char) (hc : Text.isDigit c = true) :
    numberLength cs ≤ cs.length ∧ IsNumber (c :: cs.take (numberLength cs)) := by
  unfold numberLength
  dsimp only
  set whole := run Text.isDigit cs with hwhole
  obtain ⟨hfle, hfraction⟩ := isFraction_of_fractionLength (cs.drop whole)
  set fraction := fractionLength (cs.drop whole)
  obtain ⟨hple, hpower⟩ := isPower_of_exponentLength (cs.drop (whole + fraction))
  have hwle : whole ≤ cs.length := run_le
  rw [List.length_drop] at hfle hple
  refine ⟨by omega, ?_⟩
  have hdigits : AreDigits (c :: cs.take whole) :=
    List.forall_mem_cons.mpr ⟨hc, forall_mem_take_run⟩
  have hsplit : cs.take (whole + fraction + exponentLength (cs.drop (whole + fraction))) =
      cs.take whole ++ ((cs.drop whole).take fraction ++
        (cs.drop (whole + fraction)).take (exponentLength (cs.drop (whole + fraction)))) := by
    rw [List.take_add, List.take_add, List.append_assoc]
  rw [hsplit]
  exact .whole (List.cons_ne_nil _ _) hdigits hfraction hpower

/-- A number that starts with a digit goes on with digits, a fraction and a power. -/
theorem IsNumber.exists_parts (h : IsNumber (c :: ds)) (hc : Text.isDigit c = true) :
    ∃ es fs ps, ds = es ++ (fs ++ ps) ∧ AreDigits es ∧ IsFraction fs ∧ IsPower ps := by
  generalize hcs : c :: ds = cs at h
  cases h with
  | @whole es fs ps nonempty digits fraction power =>
    obtain ⟨e, es, rfl⟩ := List.exists_cons_of_ne_nil nonempty
    obtain ⟨-, rfl⟩ := List.cons.inj hcs
    exact ⟨es, fs, ps, rfl, (List.forall_mem_cons.mp digits).2, fraction, power⟩
  | point =>
    obtain ⟨rfl, -⟩ := List.cons.inj hcs
    exact absurd hc (by decide)

/-- A number that starts with a point goes on with digits and a power. -/
theorem IsNumber.exists_parts_of_point (h : IsNumber ('.' :: ds)) :
    ∃ es ps, ds = es ++ ps ∧ es ≠ [] ∧ AreDigits es ∧ IsPower ps := by
  generalize hcs : '.' :: ds = cs at h
  cases h with
  | whole nonempty digits =>
    obtain ⟨e, es, rfl⟩ := List.exists_cons_of_ne_nil nonempty
    obtain ⟨rfl, -⟩ := List.cons.inj hcs
    exact absurd (digits '.' List.mem_cons_self) (by decide)
  | @point es ps nonempty digits power =>
    obtain ⟨-, rfl⟩ := List.cons.inj hcs
    exact ⟨es, ps, rfl, nonempty, digits, power⟩

theorem length_le_numberLength (hds : IsNumber (c :: ds)) (hc : Text.isDigit c = true)
    (h : ds <+: cs) : ds.length ≤ numberLength cs := by
  obtain ⟨es, fs, ps, rfl, hes, hfs, hps⟩ := hds.exists_parts hc
  unfold numberLength
  dsimp only
  rcases starts_after_run hes (front_fraction_power hfs hps) h with ⟨hnil, hle⟩ | ⟨heq, hstarts⟩
  · rw [hnil, List.append_nil]
    omega
  · have hrest := length_le_fraction_power hfs hps hstarts
    rw [List.drop_drop] at hrest
    rw [List.length_append]
    omega

theorem isNumber_of_pointLength (h : pointLength? cs = some n) :
    n ≤ cs.length ∧ IsNumber ('.' :: cs.take n) := by
  unfold pointLength? at h
  dsimp only at h
  split_ifs at h with hzero
  cases h
  obtain ⟨hple, hpower⟩ := isPower_of_exponentLength (cs.drop (run Text.isDigit cs))
  have hle : run Text.isDigit cs ≤ cs.length := run_le
  rw [List.length_drop] at hple
  refine ⟨by omega, ?_⟩
  rw [List.take_add]
  refine .point ?_ forall_mem_take_run hpower
  rw [← List.length_pos_iff, List.length_take]
  omega

theorem exists_pointLength (hds : IsNumber ('.' :: ds)) (h : ds <+: cs) :
    ∃ n, pointLength? cs = some n ∧ ds.length ≤ n := by
  obtain ⟨es, ps, rfl, hne, hes, hps⟩ := hds.exists_parts_of_point
  have hpos := List.length_pos_of_ne_nil hne
  have hle : es.length ≤ run Text.isDigit cs := length_le_run hes ((List.prefix_append es ps).trans h)
  refine ⟨_, if_neg (by omega), ?_⟩
  rcases starts_after_run hes (front_power hps) h with ⟨rfl, -⟩ | ⟨heq, hstarts⟩
  · rw [List.append_nil]
    omega
  · have hpower := length_le_exponentLength hps hstarts
    rw [List.length_append]
    omega

/-! ## Strings and signs -/

theorem isLexeme_of_stringLength (h : stringLength? cs = some n) :
    n ≤ cs.length ∧ IsLexeme (some .string) ('"' :: cs.take n) := by
  obtain ⟨ds, hds, htake⟩ := inside_of_stringLength h
  unfold stringLength? at h
  dsimp only at h
  split_ifs at h with hlt
  cases h
  rw [htake]
  exact ⟨hlt, .string hds⟩

/-- A string ends with its first quote. -/
theorem stringLength_of_inside (hds : '"' ∉ ds) (h : ds ++ ['"'] <+: cs) :
    stringLength? cs = some (ds ++ ['"']).length := by
  obtain ⟨rest, rfl⟩ := h
  have hrun : run (· != '"') (ds ++ '"' :: rest) = ds.length :=
    run_append (fun c hc => bne_iff_ne.mpr fun he => hds (he ▸ hc)) (front_cons.mpr rfl)
  rw [List.append_assoc, List.singleton_append]
  unfold stringLength?
  dsimp only
  rw [hrun, if_pos (by simp), List.length_append]
  rfl

theorem isLexeme_of_signLength (h : signLength? c cs = some n) :
    n ≤ cs.length ∧ IsLexeme (some .sign) (c :: cs.take n) := by
  unfold signLength? at h
  split_ifs at h with hpair hsign
  · cases h
    cases cs with
    | nil => cases hpair
    | cons d cs => exact ⟨Nat.succ_le_succ (Nat.zero_le _), .pair hpair⟩
  · cases h
    exact ⟨Nat.zero_le _, .sign hsign⟩

theorem exists_signLength (cs : List Char) (hc : isSign c = true) : ∃ n, signLength? c cs = some n := by
  unfold signLength?
  split_ifs
  · exact ⟨1, rfl⟩
  · exact ⟨0, rfl⟩

/-- A character that starts a pair starts nothing else. -/
theorem of_isPair (h : isPair c d = true) : Text.isBlank c = false ∧ Text.isDigit c = false ∧
    c ≠ '.' ∧ c ≠ '"' ∧ startsName c = false := by
  simp only [isPair, Bool.and_eq_true, Bool.or_eq_true, beq_iff_eq] at h
  obtain ⟨-, ((rfl | rfl) | rfl) | rfl⟩ := h <;> decide

/-! ## The longest lexeme -/

/-- What is taken is a lexeme. -/
theorem isLexeme_of_lexeme (h : lexeme? c cs = some (kind?, n)) :
    n ≤ cs.length ∧ IsLexeme kind? (c :: cs.take n) := by
  cases spans_of_lexeme h with
  | blank hblank =>
    refine ⟨run_le, .blank (List.cons_ne_nil _ _) ?_⟩
    exact List.forall_mem_cons.mpr ⟨hblank, forall_mem_take_run⟩
  | digit hdigit =>
    obtain ⟨hle, hnumber⟩ := isNumber_of_numberLength cs hdigit
    exact ⟨hle, .number hnumber⟩
  | point hpoint hlength =>
    obtain ⟨hle, hnumber⟩ := isNumber_of_pointLength hlength
    rw [hpoint]
    exact ⟨hle, .number hnumber⟩
  | quote hquote hlength =>
    rw [hquote]
    exact isLexeme_of_stringLength hlength
  | name _ _ hstart =>
    refine ⟨run_le, .name ?_⟩
    rw [isName, hstart, Bool.true_and, List.all_eq_true]
    exact forall_mem_take_run
  | sign _ _ _ hlength => exact isLexeme_of_signLength hlength

/-- Where a lexeme starts, one of its kind is taken that is no shorter. -/
theorem exists_lexeme_of_isLexeme (hds : IsLexeme kind? (c :: ds)) (h : ds <+: cs) :
    ∃ n, lexeme? c cs = some (kind?, n) ∧ ds.length ≤ n := by
  generalize hxs : c :: ds = xs at hds
  cases hds with
  | blank nonempty blank =>
    subst hxs
    obtain ⟨hc, hds⟩ := List.forall_mem_cons.mp blank
    exact ⟨_, if_pos hc, length_le_run hds h⟩
  | number number =>
    subst hxs
    by_cases hdigit : Text.isDigit c = true
    · refine ⟨numberLength cs, ?_, length_le_numberLength number hdigit h⟩
      rw [lexeme?, if_neg (by simp [not_isBlank_of_digit hdigit]), if_pos hdigit]
    · obtain rfl : c = '.' := by
        generalize hys : c :: ds = ys at number
        cases number with
        | whole nonempty digits =>
          obtain ⟨e, es, rfl⟩ := List.exists_cons_of_ne_nil nonempty
          obtain ⟨rfl, -⟩ := List.cons.inj hys
          exact absurd (digits _ List.mem_cons_self) hdigit
        | point => exact (List.cons.inj hys).1
      obtain ⟨n, hn, hle⟩ := exists_pointLength number h
      refine ⟨n, ?_, hle⟩
      rw [lexeme?, if_neg (by decide), if_neg hdigit, if_pos (by decide), hn]
      rfl
  | @string es inside =>
    obtain ⟨rfl, rfl⟩ := List.cons.inj hxs
    refine ⟨_, ?_, le_rfl⟩
    rw [lexeme?, if_neg (by decide), if_neg (by decide), if_neg (by decide), if_pos (by decide),
      stringLength_of_inside inside h]
    rfl
  | name name =>
    subst hxs
    rw [isName, Bool.and_eq_true, List.all_eq_true] at name
    obtain ⟨hstart, hfollow⟩ := name
    obtain ⟨hblank, hdigit, hpoint, hquote, -⟩ := of_startsName hstart
    refine ⟨run continuesName cs, ?_, length_le_run hfollow h⟩
    rw [lexeme?, if_neg (by simp [hblank]), if_neg (by simp [hdigit]), if_neg (by simpa using hpoint),
      if_neg (by simpa using hquote), if_pos hstart]
  | sign sign =>
    obtain ⟨rfl, rfl⟩ := List.cons.inj hxs
    obtain ⟨n, hn⟩ := exists_signLength cs sign
    refine ⟨n, ?_, Nat.zero_le _⟩
    rw [lexeme?_of_sign (of_isSign sign), hn]
    rfl
  | @pair a b pair =>
    obtain ⟨rfl, rfl⟩ := List.cons.inj hxs
    obtain ⟨rest, rfl⟩ := h
    refine ⟨1, ?_, le_rfl⟩
    rw [lexeme?_of_sign (of_isPair pair), signLength?]
    exact congrArg _ (if_pos pair)

/-- Whether a piece is the longest lexeme at the front of a text. -/
structure Longest (kind? : Option TokenKind) (piece text : List Char) : Prop where
  lexeme : IsLexeme kind? piece
  starts : piece <+: text
  longest : ∀ other? ds, IsLexeme other? ds → ds <+: text → ds.length ≤ piece.length

/-- Whether no lexeme is at the front of a text. -/
def NoneStarts (text : List Char) : Prop :=
  ∀ kind? ds, IsLexeme kind? ds → ¬ ds <+: text

/-- A lexeme at the front of a text has the first character of the text. -/
theorem IsLexeme.exists_cons (h : IsLexeme kind? ds) (hstarts : ds <+: c :: cs) :
    ∃ es, ds = c :: es ∧ es <+: cs := by
  obtain ⟨d, es, rfl⟩ := List.exists_cons_of_ne_nil h.ne_nil
  obtain ⟨rfl, hes⟩ := List.cons_prefix_cons.mp hstarts
  exact ⟨es, rfl, hes⟩

/-- What is taken is the longest lexeme. -/
theorem longest_of_lexeme (h : lexeme? c cs = some (kind?, n)) :
    Longest kind? (c :: cs.take n) (c :: cs) where
  lexeme := (isLexeme_of_lexeme h).2
  starts := List.cons_prefix_cons.mpr ⟨rfl, List.take_prefix n cs⟩
  longest other? ds hds hstarts := by
    obtain ⟨es, rfl, hes⟩ := hds.exists_cons hstarts
    obtain ⟨m, hm, hle⟩ := exists_lexeme_of_isLexeme hds hes
    obtain ⟨-, rfl⟩ := Prod.mk.inj (Option.some.inj (h.symm.trans hm))
    rw [List.length_cons, List.length_cons, List.length_take_of_le (isLexeme_of_lexeme h).1]
    exact Nat.succ_le_succ hle

/-- Nothing is taken only where no lexeme starts. -/
theorem noneStarts_of_lexeme (h : lexeme? c cs = none) : NoneStarts (c :: cs) := by
  intro kind? ds hds hstarts
  obtain ⟨es, rfl, hes⟩ := hds.exists_cons hstarts
  obtain ⟨n, hn, -⟩ := exists_lexeme_of_isLexeme hds hes
  rw [h] at hn
  cases hn

/-- The longest lexeme is taken. -/
theorem Longest.lexeme_eq (h : Longest kind? (c :: ds) (c :: cs)) :
    lexeme? c cs = some (kind?, ds.length) := by
  have hstarts := (List.cons_prefix_cons.mp h.starts).2
  obtain ⟨n, hn, hle⟩ := exists_lexeme_of_isLexeme h.lexeme hstarts
  have hlongest := longest_of_lexeme hn
  have hge := h.longest _ _ hlongest.lexeme hlongest.starts
  rw [List.length_cons, List.length_cons, List.length_take_of_le (isLexeme_of_lexeme hn).1] at hge
  rw [hn, le_antisymm (Nat.le_of_succ_le_succ hge) hle]

/-- Lexemes at the front of one text are of one kind. -/
theorem IsLexeme.kind_eq (hds : IsLexeme kind? ds) (hes : IsLexeme other? es) (h : ds <+: cs)
    (h' : es <+: cs) : kind? = other? := by
  obtain ⟨c, ds, rfl⟩ := List.exists_cons_of_ne_nil hds.ne_nil
  obtain ⟨rest, rfl⟩ := h
  obtain ⟨es, rfl, hprefix⟩ := hes.exists_cons h'
  obtain ⟨n, hn, -⟩ := exists_lexeme_of_isLexeme hds (List.prefix_append ds rest)
  obtain ⟨m, hm, -⟩ := exists_lexeme_of_isLexeme hes hprefix
  exact (Prod.mk.inj (Option.some.inj (hn.symm.trans hm))).1

/-! ## Pieces of a text -/

/-- A piece of a text: the kind of the token that it is, or no kind when it is white space, and its
characters. -/
abbrev Piece : Type :=
  Option TokenKind × List Char

/-- Whether a text starts with pieces, each the longest lexeme where it stands, and goes on with a
rest. -/
inductive Cut : List Piece → List Char → List Char → Prop
  | done {rest} : Cut [] rest rest
  | piece {kind? cs ps text rest} (longest : Longest kind? cs (cs ++ text)) (cut : Cut ps text rest) :
      Cut ((kind?, cs) :: ps) (cs ++ text) rest

/-- The number of characters in pieces. -/
def width (ps : List Piece) : ℕ :=
  (ps.map fun p => p.2.length).sum

/-- The tokens among pieces that start at a position. -/
def tokensOf (position : ℕ) : List Piece → List Token
  | [] => []
  | (some kind, cs) :: ps => ⟨kind, String.ofList cs, position⟩ :: tokensOf (position + cs.length) ps
  | (none, cs) :: ps => tokensOf (position + cs.length) ps

/-- A taken lexeme is a piece. -/
theorem Cut.lexeme {ps : List Piece} (h : lexeme? c cs = some (kind?, n))
    (hcut : Cut ps (cs.drop n) back) : Cut ((kind?, c :: cs.take n) :: ps) (c :: cs) back := by
  have hlongest := longest_of_lexeme h
  have hsplit : c :: cs = (c :: cs.take n) ++ cs.drop n := by
    rw [List.cons_append, List.take_append_drop]
  rw [hsplit] at hlongest ⊢
  exact .piece hlongest hcut

/-- The tokens of a text are those of pieces that make up the text. -/
theorem exists_cut_of_ok {position : ℕ} {ts : List Token} (h : tokensFrom position cs = .ok ts) :
    ∃ ps, Cut ps cs [] ∧ ts = tokensOf position ps := by
  fun_induction tokensFrom position cs generalizing ts with
  | case1 position =>
    cases h
    exact ⟨[], .done, rfl⟩
  | case2 position c cs hnone => cases h
  | case3 position c cs kind? n hsome ih =>
    obtain ⟨rest, hrest, h⟩ := bind_eq_ok.mp h
    obtain ⟨ps, hcut, rfl⟩ := ih hrest
    have hlength : (c :: cs.take n).length = n + 1 := by
      rw [List.length_cons, List.length_take_of_le (isLexeme_of_lexeme hsome).1]
    refine ⟨(kind?, c :: cs.take n) :: ps, .lexeme hsome hcut, ?_⟩
    cases kind? with
    | none =>
      cases h
      rw [tokensOf, hlength]
    | some kind =>
      cases h
      rw [tokensOf, hlength]

/-- A stray character comes after pieces, and no lexeme starts with it. -/
theorem exists_cut_of_error {position : ℕ} {s : StrayCharacter}
    (h : tokensFrom position cs = .error s) :
    ∃ ps back, Cut ps cs (s.character :: back) ∧ NoneStarts (s.character :: back) ∧
      s.position = position + width ps := by
  fun_induction tokensFrom position cs with
  | case1 position => cases h
  | case2 position c cs hnone =>
    cases h
    exact ⟨[], cs, .done, noneStarts_of_lexeme hnone, rfl⟩
  | case3 position c cs kind? n hsome ih =>
    cases hrest : tokensFrom (position + (n + 1)) (cs.drop n) with
    | ok rest =>
      rw [hrest] at h
      cases kind? <;> cases h
    | error s' =>
      rw [hrest] at h
      cases h
      obtain ⟨ps, back, hcut, hnone, hposition⟩ := ih hrest
      refine ⟨(kind?, c :: cs.take n) :: ps, back, .lexeme hsome hcut, hnone, ?_⟩
      have hlength : (c :: cs.take n).length = n + 1 := by
        rw [List.length_cons, List.length_take_of_le (isLexeme_of_lexeme hsome).1]
      rw [hposition, width, width, List.map_cons, List.sum_cons, hlength, add_assoc]

end Lexer

end TradeRules
