import TradeRules.Rule.Parser
import TradeRules.Proofs.Number.Reading

/-!
# How numbers are spelled

A `Spelling` is a written number taken apart: the digits before the point, those after it if there is
one, and the power of ten if there is one.  `Decimal.ofChars` reads a spelling by its digits
(`ofChars_chars`).

Every literal has a spelling.  Its text is that spelling after a minus sign when the literal is negative
(`Literal.toList_text`), and reading the spelling gives the literal back (`Literal.read?_spelling`).
-/

namespace TradeRules

namespace Text

/-! ## Digits -/

theorem digitValue?_of_isDigit {c : Char} (h : c.isDigit = true) :
    digitValue? c = some (c.toNat - '0'.toNat) := by
  have hlt : c.toNat < 0x80 := by
    simp only [Char.isDigit, Bool.and_eq_true, decide_eq_true_eq] at h
    exact lt_of_le_of_lt (UInt32.le_iff_toNat_le.mp h.2) (by decide)
  rw [digitValue?, if_pos hlt, if_pos h]
  rfl

theorem isDigit_of_isDigit {c : Char} (h : c.isDigit = true) : isDigit c = true := by
  rw [isDigit, digitValue?_of_isDigit h]
  rfl

/-- Digits after a number are appended to it. -/
theorem foldl_digits {cs : List Char} (h : ∀ c ∈ cs, c.isDigit = true) (n : ℕ) :
    (cs.filterMap digitValue?).foldl (fun n digit => 10 * n + digit) n = Nat.ofDigitChars 10 cs n := by
  induction cs generalizing n with
  | nil => rfl
  | cons c cs ih =>
    obtain ⟨hc, hcs⟩ := List.forall_mem_cons.mp h
    rw [List.filterMap_cons_some (digitValue?_of_isDigit hc), List.foldl_cons, ih hcs,
      Nat.ofDigitChars_cons]

theorem numberOfDigits_eq {cs : List Char} (h : ∀ c ∈ cs, c.isDigit = true) :
    numberOfDigits cs = Nat.ofDigitChars 10 cs 0 :=
  foldl_digits h 0

/-- A character that is no digit is passed over. -/
theorem numberOfDigits_pass (cs ds : List Char) {c : Char} (h : digitValue? c = none) :
    numberOfDigits (cs ++ c :: ds) = numberOfDigits (cs ++ ds) := by
  rw [numberOfDigits, List.filterMap_append, List.filterMap_cons_none h, ← List.filterMap_append]
  rfl

end Text

namespace Decimal

/-! ## Spellings -/

/-- A written number without its sign. -/
structure Spelling where
  /-- The digits before the point. -/
  whole : List Char
  /-- The digits after the point, if there is one. -/
  fraction : Option (List Char) := none
  /-- The power of ten with its sign, if there is one. -/
  power : Option (Bool × List Char) := none

namespace Spelling

variable {s : Spelling}

/-- The point with the digits after it. -/
def pointed (s : Spelling) : List Char :=
  s.fraction.elim [] ('.' :: ·)

/-- The power of ten after its letter. -/
def raised (s : Spelling) : List Char :=
  s.power.elim [] fun (negative, ds) => 'e' :: (if negative then '-' else '+') :: ds

/-- The characters of a spelling. -/
def chars (s : Spelling) : List Char :=
  s.whole ++ (s.pointed ++ s.raised)

/-- Whether the digits of a spelling are digits, and there are some where there must be. -/
structure Plain (s : Spelling) : Prop where
  nonempty : s.whole ≠ []
  whole : ∀ c ∈ s.whole, c.isDigit = true
  fraction : ∀ ds, s.fraction = some ds → ∀ c ∈ ds, c.isDigit = true
  power : ∀ negative ds, s.power = some (negative, ds) → ds ≠ [] ∧ ∀ c ∈ ds, c.isDigit = true

/-- The digits of a spelling without its power. -/
def digits (s : Spelling) : List Char :=
  s.whole ++ s.fraction.getD []

/-- The power of ten of a spelling. -/
def exponent (s : Spelling) : ℤ :=
  s.power.elim 0 fun (negative, ds) => Double.signed negative (Nat.ofDigitChars 10 ds 0)

/-! ## Reading a spelling -/

theorem not_isMark {c : Char} (h : c.isDigit = true) : isMark c = false := by
  unfold isMark
  rw [Bool.or_eq_false_iff, beq_eq_false_iff_ne, beq_eq_false_iff_ne]
  exact ⟨fun he => absurd (he ▸ h) (by decide), fun he => absurd (he ▸ h) (by decide)⟩

theorem ne_of_isDigit {c : Char} (h : c.isDigit = true) (p : Char) (hp : p.isDigit = false) :
    c ≠ p := by
  rintro rfl
  rw [h] at hp
  cases hp

theorem forall_pointed (hs : s.Plain) : ∀ c ∈ s.pointed, c = '.' ∨ c.isDigit = true := by
  unfold pointed
  cases hf : s.fraction with
  | none => exact fun c hc => absurd hc List.not_mem_nil
  | some ds =>
    intro c hc
    rcases List.mem_cons.mp hc with rfl | hc
    · exact .inl rfl
    · exact .inr (hs.fraction ds hf c hc)

theorem not_isMark_of_mem (hs : s.Plain) : ∀ c ∈ s.whole ++ s.pointed, (!isMark c) = true := by
  intro c hc
  rcases List.mem_append.mp hc with hc | hc
  · rw [not_isMark (hs.whole c hc)]
    rfl
  · rcases forall_pointed hs c hc with rfl | hdigit
    · decide
    · rw [not_isMark hdigit]
      rfl

theorem mantissaOf_chars (hs : s.Plain) : mantissaOf s.chars = s.whole ++ s.pointed := by
  rw [mantissaOf, chars, ← List.append_assoc, List.takeWhile_append_of_pos (not_isMark_of_mem hs)]
  unfold raised
  cases s.power with
  | none => exact List.append_nil _
  | some power => exact List.append_nil _

theorem powerOf_chars (hs : s.Plain) : powerOf s.chars = s.raised.drop 1 := by
  rw [powerOf, chars, ← List.append_assoc, List.dropWhile_append_of_pos (not_isMark_of_mem hs)]
  unfold raised
  cases s.power with
  | none => rfl
  | some power => rfl

theorem fraction_chars (hs : s.Plain) :
    ((s.whole ++ s.pointed).dropWhile (· != '.')).drop 1 = s.fraction.getD [] := by
  rw [List.dropWhile_append_of_pos]
  · unfold pointed
    cases s.fraction with
    | none => rfl
    | some ds => rfl
  · exact fun c hc => bne_iff_ne.mpr (ne_of_isDigit (hs.whole c hc) '.' rfl)

theorem forall_digits (hs : s.Plain) : ∀ c ∈ s.digits, c.isDigit = true := by
  intro c hc
  rcases List.mem_append.mp hc with hc | hc
  · exact hs.whole c hc
  · cases hf : s.fraction with
    | none =>
      rw [hf] at hc
      cases hc
    | some ds =>
      rw [hf] at hc
      exact hs.fraction ds hf c hc

theorem numberOfDigits_mantissa (hs : s.Plain) :
    Text.numberOfDigits (s.whole ++ s.pointed) = Nat.ofDigitChars 10 s.digits 0 := by
  rw [← Text.numberOfDigits_eq (forall_digits hs)]
  unfold pointed digits
  cases s.fraction with
  | none => rfl
  | some ds => exact Text.numberOfDigits_pass _ _ (by decide)

theorem numberOfDigits_power (hs : s.Plain) :
    (if (s.raised.drop 1).head? == some '-' then -(Text.numberOfDigits (s.raised.drop 1) : ℤ)
      else Text.numberOfDigits (s.raised.drop 1)) = s.exponent := by
  unfold raised exponent
  cases hp : s.power with
  | none => rfl
  | some power =>
    obtain ⟨negative, ds⟩ := power
    obtain ⟨-, hds⟩ := hs.power negative ds hp
    have hpass : ∀ c, Text.digitValue? c = none →
        Text.numberOfDigits (c :: ds) = Nat.ofDigitChars 10 ds 0 := fun c hc => by
      rw [← Text.numberOfDigits_eq hds]
      exact Text.numberOfDigits_pass [] ds hc
    cases negative with
    | false => exact congrArg Nat.cast (hpass '+' (by decide))
    | true => exact congrArg (fun n : ℕ => -(n : ℤ)) (hpass '-' (by decide))

/-- A spelling is read by its digits. -/
theorem ofChars_chars (hs : s.Plain) : ofChars s.chars =
    ⟨Nat.ofDigitChars 10 s.digits 0, s.exponent - (s.fraction.getD []).length⟩ := by
  unfold ofChars
  dsimp only
  rw [mantissaOf_chars hs, powerOf_chars hs, fraction_chars hs, numberOfDigits_mantissa hs,
    numberOfDigits_power hs]

end Spelling

/-! ## The spelling of a decimal -/

theorem isDigit_digitChars (n : ℕ) : ∀ c ∈ digitChars n, c.isDigit = true :=
  fun _ hc => Nat.isDigit_of_mem_toDigits (by norm_num) le_rfl hc

theorem isDigit_zeros (n : ℕ) : ∀ c ∈ List.replicate n '0', c.isDigit = true :=
  fun _ hc => List.eq_of_mem_replicate hc ▸ rfl

theorem digitChars_ne_nil (n : ℕ) : digitChars n ≠ [] :=
  Nat.toDigits_ne_nil

@[simp] theorem ofDigitChars_digitChars (n : ℕ) : Nat.ofDigitChars 10 (digitChars n) 0 = n :=
  Nat.ofDigitChars_ten_toDigits

/-- The digits of a number after zeros up to a width. -/
def padded (width n : ℕ) : List Char :=
  List.replicate (width - (digitChars n).length) '0' ++ digitChars n

theorem isDigit_padded (width n : ℕ) : ∀ c ∈ padded width n, c.isDigit = true :=
  List.forall_mem_append.mpr ⟨isDigit_zeros _, isDigit_digitChars n⟩

theorem padded_ne_nil (width n : ℕ) : padded width n ≠ [] :=
  List.append_ne_nil_of_right_ne_nil _ (digitChars_ne_nil n)

@[simp] theorem ofDigitChars_padded (width n : ℕ) : Nat.ofDigitChars 10 (padded width n) 0 = n := by
  rw [padded, Nat.ofDigitChars_append, Nat.ofDigitChars_replicate_zero, Nat.mul_zero,
    ofDigitChars_digitChars]

theorem length_padded {width n : ℕ} (hw : 0 < width) (hn : n < 10 ^ width) :
    (padded width n).length = width := by
  have hle : (digitChars n).length ≤ width :=
    (Nat.length_toDigits_le_iff (by norm_num) hw).mpr hn
  rw [padded, List.length_append, List.length_replicate]
  omega

/-- The spelling in positional form. -/
def positionalSpelling (d : Decimal) : Spelling :=
  if 0 ≤ d.exponent then
    { whole := if d.digits = 0 then ['0']
        else digitChars d.digits ++ List.replicate d.exponent.toNat '0'
      fraction := some ['0'] }
  else
    { whole := digitChars (d.digits / 10 ^ (-d.exponent).toNat)
      fraction := some (padded (-d.exponent).toNat (d.digits % 10 ^ (-d.exponent).toNat)) }

/-- The spelling in scientific form. -/
def scientificSpelling (d : Decimal) : Spelling :=
  let power := some (decide (d.leading < 0), padded 2 d.leading.natAbs)
  match digitChars d.digits with
  | first :: second :: rest => { whole := [first], fraction := some (second :: rest), power }
  | single => { whole := single, power }

/-- Whether a literal shows a decimal in positional form. -/
def isPositional (d : Decimal) : Bool :=
  d.digits = 0 || (-4 ≤ d.leading && d.leading < 16)

/-- The spelling of a decimal as a literal. -/
def spelling (d : Decimal) : Spelling :=
  if d.isPositional then d.positionalSpelling else d.scientificSpelling

/-- What a spelling has to satisfy to be read as a decimal and no whole number. -/
structure Spelling.IsFloat (s : Spelling) : Prop extends s.Plain where
  marked : s.fraction ≠ none ∨ s.power ≠ none

theorem positionalSpelling_isFloat (d : Decimal) : d.positionalSpelling.IsFloat := by
  unfold positionalSpelling
  split_ifs with hexp hzero
  · exact ⟨⟨List.cons_ne_nil _ _, isDigit_zeros 1, fun _ h => by cases h; exact isDigit_zeros 1,
      fun _ _ h => by cases h⟩, .inl (Option.some_ne_none _)⟩
  · exact ⟨⟨List.append_ne_nil_of_left_ne_nil (digitChars_ne_nil _) _,
      List.forall_mem_append.mpr ⟨isDigit_digitChars _, isDigit_zeros _⟩,
      fun _ h => by cases h; exact isDigit_zeros 1, fun _ _ h => by cases h⟩,
      .inl (Option.some_ne_none _)⟩
  · exact ⟨⟨digitChars_ne_nil _, isDigit_digitChars _,
      fun _ h => by cases h; exact isDigit_padded _ _, fun _ _ h => by cases h⟩,
      .inl (Option.some_ne_none _)⟩

theorem scientificSpelling_isFloat (d : Decimal) : d.scientificSpelling.IsFloat := by
  have hpower : ∀ negative ds, some (decide (d.leading < 0), padded 2 d.leading.natAbs) =
      some (negative, ds) → ds ≠ [] ∧ ∀ c ∈ ds, c.isDigit = true := fun _ _ h => by
    cases h
    exact ⟨padded_ne_nil _ _, isDigit_padded _ _⟩
  have hdigits := isDigit_digitChars d.digits
  have hne := digitChars_ne_nil d.digits
  unfold scientificSpelling
  dsimp only
  split
  · next first second rest heq =>
    rw [heq] at hdigits
    obtain ⟨hfirst, hrest⟩ := List.forall_mem_cons.mp hdigits
    exact ⟨⟨List.cons_ne_nil _ _, List.forall_mem_singleton.mpr hfirst,
      fun _ h => by cases h; exact hrest, hpower⟩, .inr (Option.some_ne_none _)⟩
  · exact ⟨⟨hne, hdigits, (fun _ h => by cases h), hpower⟩, .inr (Option.some_ne_none _)⟩

theorem spelling_isFloat (d : Decimal) : d.spelling.IsFloat := by
  unfold spelling
  split_ifs
  · exact positionalSpelling_isFloat d
  · exact scientificSpelling_isFloat d

/-! ## The number of a spelling -/

theorem positionalSpelling_exact (d : Decimal) :
    (ofChars d.positionalSpelling.chars).exact = d.exact := by
  rw [Spelling.ofChars_chars (positionalSpelling_isFloat d).toPlain]
  unfold positionalSpelling
  split_ifs with hexp hzero
  · rw [exact, exact, hzero]
    simp [Spelling.digits, Nat.ofDigitChars]
  · obtain ⟨n, hn⟩ := Int.eq_ofNat_of_zero_le hexp
    simp only [exact, Spelling.digits, Option.getD_some, Spelling.exponent, Option.elim_none,
      Nat.ofDigitChars_append, ofDigitChars_digitChars, Nat.ofDigitChars_replicate_zero, hn,
      Int.toNat_natCast]
    norm_num [Nat.ofDigitChars, zpow_neg]
    ring
  · obtain ⟨n, hn⟩ := Int.eq_ofNat_of_zero_le (show 0 ≤ -d.exponent by omega)
    have hpos : 0 < n := by omega
    rw [hn, Int.toNat_natCast]
    have hlen : (padded n (d.digits % 10 ^ n)).length = n :=
      length_padded hpos (Nat.mod_lt _ (by positivity))
    have hdigits : Nat.ofDigitChars 10 (digitChars (d.digits / 10 ^ n)
        ++ padded n (d.digits % 10 ^ n)) 0 = d.digits := by
      rw [Nat.ofDigitChars_append, ofDigitChars_digitChars,
        Nat.ofDigitChars_eq_ofDigitChars_zero, hlen, ofDigitChars_padded]
      exact Nat.div_add_mod _ _
    simp only [exact, Spelling.digits, Option.getD_some, Spelling.exponent, Option.elim_none,
      hdigits, hlen]
    rw [show (0 : ℤ) - n = d.exponent by omega]

theorem scientificSpelling_exact (d : Decimal) :
    (ofChars d.scientificSpelling.chars).exact = d.exact := by
  have hpower : Double.signed (decide (d.leading < 0))
      (Nat.ofDigitChars 10 (padded 2 d.leading.natAbs) 0) = d.leading := by
    rw [ofDigitChars_padded, Double.signed]
    simp only [decide_eq_true_eq]
    split_ifs <;> omega
  have hdigits := ofDigitChars_digitChars d.digits
  have hleading : d.leading = d.exponent + ((digitChars d.digits).length - 1 : ℕ) := rfl
  have hpos := length_digitChars_pos d.digits
  rw [Spelling.ofChars_chars (scientificSpelling_isFloat d).toPlain]
  unfold scientificSpelling
  dsimp only
  split
  · next first second rest heq =>
    rw [heq] at hdigits hleading
    simp only [exact, Spelling.digits, Option.getD_some, Spelling.exponent, Option.elim_some, hpower,
      List.singleton_append, hdigits]
    rw [hleading]
    simp
  · next single hsingle =>
    have hlen : (digitChars d.digits).length = 1 := by
      cases hd : digitChars d.digits with
      | nil => exact absurd hd (digitChars_ne_nil _)
      | cons first rest =>
        cases rest with
        | nil => rfl
        | cons second rest => exact absurd hd (hsingle first second rest)
    rw [hlen, Nat.sub_self, Nat.cast_zero, add_zero] at hleading
    simp only [exact, Spelling.digits, Option.getD_none, List.append_nil, Spelling.exponent,
      Option.elim_some, hpower, hdigits, List.length_nil, Nat.cast_zero, sub_zero]
    rw [hleading]

/-- The spelling of a decimal is read as the same number. -/
theorem spelling_exact (d : Decimal) : (ofChars d.spelling.chars).exact = d.exact := by
  unfold spelling
  split_ifs
  · exact positionalSpelling_exact d
  · exact scientificSpelling_exact d

/-! ## Written forms -/

theorem toList_positional (d : Decimal) :
    (NumberForm.literal.positional d).toList = d.positionalSpelling.chars := by
  have hpoint : NumberForm.literal.pointZero = true := rfl
  unfold NumberForm.positional positionalSpelling
  rw [hpoint, if_pos rfl]
  split_ifs <;> simp [Spelling.chars, Spelling.pointed, Spelling.raised, padded]

theorem toList_exponentText (k : ℤ) : (NumberForm.exponentText k).toList =
    (if k < 0 then '-' else '+') :: padded 2 k.natAbs := by
  simp [NumberForm.exponentText, padded]

theorem toList_scientific (d : Decimal) :
    (NumberForm.scientific d).toList = d.scientificSpelling.chars := by
  unfold NumberForm.scientific scientificSpelling
  rcases digitChars d.digits with _ | ⟨first, _ | ⟨second, rest⟩⟩ <;>
    simp [Spelling.chars, Spelling.pointed, Spelling.raised, toList_exponentText]

/-- A finite double is written as its sign and the spelling of its decimal. -/
theorem toList_text {x : Float} (hx : x.isFinite = true) : (Double.text x).toList =
    (if (Double.parts x).negative then ['-'] else []) ++
      (NumberForm.literal.decimal x).spelling.chars := by
  have hsign : (if (Double.parts x).negative then "-" else "").toList =
      if (Double.parts x).negative then ['-'] else [] := by
    split_ifs <;> rfl
  have hbody : (if (NumberForm.literal.decimal x).isPositional then
        NumberForm.literal.positional (NumberForm.literal.decimal x)
      else NumberForm.scientific (NumberForm.literal.decimal x)).toList =
      (NumberForm.literal.decimal x).spelling.chars := by
    unfold spelling
    split_ifs
    · exact toList_positional _
    · exact toList_scientific _
  rw [← hsign, ← hbody, ← String.toList_append, Double.text, NumberForm.write,
    if_neg (by rw [Double.isNaN_of_isFinite hx]; exact Bool.false_ne_true)]
  dsimp only
  rw [if_neg (by rw [Double.isInf_of_isFinite hx]; exact Bool.false_ne_true)]
  rfl

end Decimal

/-! ## Literals -/

namespace Literal

open Decimal

/-- Whether a literal is written with a minus sign. -/
def isNegative : Literal → Bool
  | .whole n _ => n < 0
  | .real x _ => (Double.parts x).negative

/-- The spelling of a literal after its sign. -/
def spelling : Literal → Spelling
  | .whole n _ => { whole := digitChars n.natAbs }
  | .real x _ => (NumberForm.literal.decimal x).spelling

theorem spelling_plain : ∀ l : Literal, l.spelling.Plain
  | .whole n _ => ⟨digitChars_ne_nil _, isDigit_digitChars _, (fun _ h => by cases h),
      fun _ _ h => by cases h⟩
  | .real _ _ => (spelling_isFloat _).toPlain

theorem chars_whole (n : ℕ) : Spelling.chars { whole := digitChars n } = digitChars n :=
  List.append_nil _

/-- A literal is written as its sign and its spelling. -/
theorem toList_text : ∀ l : Literal,
    l.text.toList = (if l.isNegative then ['-'] else []) ++ l.spelling.chars
  | .whole n _ => by
    have htext : (toString n).toList =
        (if n < 0 then ['-'] else []) ++ digitChars n.natAbs := by
      rw [Int.toString_eq_repr, Int.repr_eq_if]
      split_ifs with h h' h'
      · omega
      · rw [Nat.toList_repr, show n.toNat = n.natAbs by omega]
        rfl
      · rw [String.toList_append, Nat.toList_repr, show (-n).toNat = n.natAbs by omega]
        rfl
      · omega
    rw [text, htext, isNegative, spelling, chars_whole]
    simp only [decide_eq_true_eq]
  | .real _ h => Decimal.toList_text h

/-- A FLOAT spelling shows that it is no whole number. -/
theorem any_mark {s : Spelling} (hs : s.IsFloat) :
    (s.chars.any fun c => c == '.' || isMark c) = true := by
  rw [List.any_eq_true]
  rcases hs.marked with h | h
  · obtain ⟨ds, hds⟩ := Option.ne_none_iff_exists'.mp h
    exact ⟨'.', by simp [Spelling.chars, Spelling.pointed, hds], rfl⟩
  · obtain ⟨power, hpower⟩ := Option.ne_none_iff_exists'.mp h
    exact ⟨'e', by simp [Spelling.chars, Spelling.raised, hpower], rfl⟩

theorem any_mark_digits {cs : List Char} (h : ∀ c ∈ cs, c.isDigit = true) :
    (cs.any fun c => c == '.' || isMark c) = false := by
  rw [List.any_eq_false]
  intro c hc
  have hdigit := h c hc
  rw [Spelling.not_isMark hdigit, Bool.or_false, beq_iff_eq]
  exact Spelling.ne_of_isDigit hdigit '.' rfl

/-- A finite whole number is below the greatest power of two. -/
theorem natAbs_lt {n : ℤ} (h : (Double.ofInt n).isFinite = true) : n.natAbs < 2 ^ 1024 := by
  have hrange := (Double.ofInt_isRounding n).finite_iff.mp h
  by_contra hge
  have hle : (2 : ℚ) ^ 1024 ≤ n.natAbs := by exact_mod_cast not_lt.mp hge
  refine Double.not_inRange_of_le hle ?_
  rcases Int.natAbs_eq n with hn | hn
  · rwa [hn, Int.cast_natCast] at hrange
  · rwa [hn, Int.cast_neg, Int.cast_natCast, Double.nearest_neg, Double.InRange, abs_neg] at hrange

theorem length_digitChars_le {n : ℤ} (h : (Double.ofInt n).isFinite = true) :
    (digitChars n.natAbs).length ≤ digitLimit := by
  refine (Nat.length_toDigits_le_iff (by norm_num) (by decide)).mpr ((natAbs_lt h).trans_le ?_)
  decide +kernel

/-- The spelling of a literal is read as the literal. -/
theorem read?_spelling : ∀ l : Literal,
    read? l.isNegative (String.ofList l.spelling.chars) = some l
  | .whole n h => by
    unfold read?
    rw [String.toList_ofList, spelling, chars_whole]
    dsimp only
    rw [any_mark_digits (isDigit_digitChars _), if_neg Bool.false_ne_true,
      if_neg (not_lt.mpr (length_digitChars_le h)), Text.numberOfDigits_eq (isDigit_digitChars _),
      ofDigitChars_digitChars]
    have hn : (if isNegative (.whole n h) then -(n.natAbs : ℤ) else n.natAbs) = n := by
      simp only [isNegative, decide_eq_true_eq]
      split_ifs <;> omega
    rw [hn, ofInt?, dif_pos h]
  | .real x h => by
    unfold read?
    rw [String.toList_ofList, spelling]
    dsimp only
    rw [any_mark (spelling_isFloat _), if_pos rfl]
    have hx : (if isNegative (.real x h) then
          -(ofChars (NumberForm.literal.decimal x).spelling.chars).toDouble
        else (ofChars (NumberForm.literal.decimal x).spelling.chars).toDouble) = x := by
      refine signed_toDouble h ?_ fun hzero => ?_
      · rw [spelling_exact, nearest_literal h]
      · rw [spelling_exact, literal_exact_of_zero h hzero]
    rw [hx, ofDouble?, dif_pos h]

end Literal

end TradeRules
