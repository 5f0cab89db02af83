import TradeRules.Proofs.Number.Spelling
import TradeRules.Proofs.Rule.Names
import TradeRules.Rule.Printer

/-!
# The words of an expression

A word is a token without its position.  `Expr.words` lists the words of an expression, and the text of
the expression lexes to them (`Expr.lexes`).

Each token takes as many characters as it can.  So a token keeps to itself when the character after it
cannot belong to it.  A name or a number is followed by a break, and the sign of an operation by the first
character of an operand, which is neither blank nor an equals sign.  `Lexes` speaks of all that is left of
a text, and each kind of word has a lemma that puts one in front.
-/

namespace TradeRules

/-! ## Words -/

/-- A token without its position. -/
abbrev Word : Type :=
  TokenKind × String

/-- The token without its position. -/
def Token.word (t : Token) : Word :=
  (t.kind, t.text)

namespace Word

/-- A number. -/
def number (text : String) : Word :=
  (.number, text)

/-- A name. -/
def name (text : String) : Word :=
  (.name, text)

/-- A sign. -/
def sign (text : String) : Word :=
  (.sign, text)

/-- A text in quotes. -/
def quoted (text : String) : Word :=
  (.string, String.ofList ('"' :: (text.toList ++ ['"'])))

/-- Lists of words with commas between them. -/
def separated : List (List Word) → List Word
  | [] => []
  | [ws] => ws
  | ws :: rest => ws ++ sign "," :: separated rest

/-- The words of a function call, with the words that stand before its operands. -/
def call (function : String) (before : List Word) (operands : List (List Word)) : List Word :=
  name function :: sign "(" :: (before ++ (separated operands ++ [sign ")"]))

/-- Words in parentheses when asked for. -/
def enclosed (needed : Bool) (ws : List Word) : List Word :=
  if needed then sign "(" :: (ws ++ [sign ")"]) else ws

end Word

open Word

/-- The words of a literal. -/
def Literal.words (l : Literal) : List Word :=
  (if l.isNegative then [sign "-"] else []) ++ [number (String.ofList l.spelling.chars)]

/-- The words of a leaf. -/
def Leaf.words : Leaf → List Word
  | .number l => l.words
  | .truth b => [name (if b then "true" else "false")]
  | .variable text _ => [name text]
  | .quote f => [name f.word]
  | .date part => call part.word [] []

/-- The word between the operands of an infix operation. -/
def Binary.infixWord? : Binary → Option Word
  | .arithmetic op => some (sign op.sign)
  | .comparison op => some (sign op.sign)
  | .connective op => some (name op.word)
  | _ => none

/-- The words of an expression. -/
def Expr.words : Expr → List Word
  | .leaf l => l.words
  | .unary op a => call op.word [] [a.words]
  | .binary op a b =>
    match op.infixWord? with
    | some w => enclosed a.isInfix a.words ++ w :: enclosed b.isInfix b.words
    | none => call op.word [] [a.words, b.words]
  | .ternary .choice a b c =>
    name "if" :: sign "(" :: (a.words ++ sign ")" :: sign "\x7b" :: (b.words ++
      sign "\x7d" :: name "else" :: sign "\x7b" :: (c.words ++ [sign "\x7d"])))
  | .ternary (.statistic s) a b c => call s.word [] [a.words, b.words, c.words]
  | .ternary (.correlation partner) a b c =>
    call "corr" [quoted partner, sign ","] [a.words, b.words, c.words]
  | .quaternary .ema a b c d => call "ema" [] [a.words, b.words, c.words, d.words]

namespace Lexer

/-! ## Characters -/

/-- What holds of the characters of the first 128 code points holds of every ASCII character. -/
theorem forall_ascii {P : Char → Prop} (h : ∀ n < 128, P (Char.ofNat n)) {c : Char}
    (hc : c.toNat < 128) : P c := by
  have := h c.toNat hc
  rwa [Char.ofNat_toNat] at this

theorem toNat_lt_of_startsName {c : Char} (h : startsName c = true) : c.toNat < 128 := by
  simp only [startsName, Char.isAlpha, Char.isUpper, Char.isLower, Bool.or_eq_true,
    Bool.and_eq_true, decide_eq_true_eq, beq_iff_eq] at h
  rcases h with (h | h) | rfl
  · exact lt_of_le_of_lt (UInt32.le_iff_toNat_le.mp h.2) (by decide)
  · exact lt_of_le_of_lt (UInt32.le_iff_toNat_le.mp h.2) (by decide)
  · decide

/-- A character that starts a name starts nothing else. -/
theorem of_startsName {c : Char} (h : startsName c = true) :
    Text.isBlank c = false ∧ Text.isDigit c = false ∧ c ≠ '.' ∧ c ≠ '"' ∧ c ≠ '=' := by
  refine forall_ascii (P := fun c => startsName c = true →
    Text.isBlank c = false ∧ Text.isDigit c = false ∧ c ≠ '.' ∧ c ≠ '"' ∧ c ≠ '=') ?_
    (toNat_lt_of_startsName h) h
  decide +kernel

theorem not_isBlank_of_isDigit {c : Char} (h : c.isDigit = true) : Text.isBlank c = false := by
  have hlt : c.toNat < 128 := by
    simp only [Char.isDigit, Bool.and_eq_true, decide_eq_true_eq] at h
    exact lt_of_le_of_lt (UInt32.le_iff_toNat_le.mp h.2) (by decide)
  refine forall_ascii (P := fun c => c.isDigit = true → Text.isBlank c = false) ?_ hlt h
  decide +kernel

/-- A character that is a sign by itself starts nothing else. -/
theorem of_isSign {c : Char} (h : isSign c = true) : Text.isBlank c = false ∧
    Text.isDigit c = false ∧ c ≠ '.' ∧ c ≠ '"' ∧ startsName c = false := by
  rw [isSign, List.contains_iff_mem] at h
  simp only [List.mem_cons, List.not_mem_nil, or_false] at h
  rcases h with rfl | rfl | rfl | rfl | rfl | rfl | rfl | rfl | rfl | rfl | rfl <;> decide

/-- Whether the character at the front, if there is one, passes a test. -/
def Front (p : Char → Prop) (cs : List Char) : Prop :=
  ∀ c ∈ cs.head?, p c

/-- Whether a character ends a name or a number. -/
def IsBreak (c : Char) : Prop :=
  continuesName c = false ∧ Text.isDigit c = false ∧ c ≠ '.'

instance (c : Char) : Decidable (IsBreak c) :=
  inferInstanceAs (Decidable (_ ∧ _))

/-- Whether an operand can start with a character. -/
def IsOpening (c : Char) : Prop :=
  Text.isBlank c = false ∧ c ≠ '='

instance (c : Char) : Decidable (IsOpening c) :=
  inferInstanceAs (Decidable (_ ∧ _))

theorem front_nil {p : Char → Prop} : Front p [] :=
  fun _ h => by cases h

theorem front_cons {p : Char → Prop} {c : Char} {cs : List Char} : Front p (c :: cs) ↔ p c :=
  ⟨fun h => h c rfl, fun h _ hd => by cases hd; exact h⟩

/-- A run goes on to where the test fails. -/
theorem run_append {p : Char → Bool} {xs ys : List Char} (hx : ∀ c ∈ xs, p c = true)
    (hy : Front (p · = false) ys) : run p (xs ++ ys) = xs.length := by
  rw [run, List.takeWhile_append_of_pos hx]
  cases ys with
  | nil => rw [List.takeWhile_nil, List.append_nil]
  | cons c ys => rw [List.takeWhile_cons, front_cons.mp hy, if_neg Bool.false_ne_true, List.append_nil]

/-! ## Texts and words -/

/-- Whether a text lexes to words, wherever it stands. -/
def Lexes (cs : List Char) (ws : List Word) : Prop :=
  ∀ position, ∃ ts, tokensFrom position cs = .ok ts ∧ ts.map Token.word = ws

variable {c : Char} {cs rest : List Char} {ws : List Word}

theorem lexes_nil : Lexes [] [] :=
  fun _ => ⟨[], by rw [tokensFrom], rfl⟩

/-- A token in front. -/
theorem lexes_cons {kind : TokenKind} {n : ℕ} (h : lexeme? c cs = some (some kind, n))
    (hrest : Lexes (cs.drop n) ws) :
    Lexes (c :: cs) ((kind, String.ofList (c :: cs.take n)) :: ws) := by
  intro position
  obtain ⟨ts, hts, hws⟩ := hrest (position + (n + 1))
  refine ⟨⟨kind, String.ofList (c :: cs.take n), position⟩ :: ts, ?_, ?_⟩
  · rw [tokensFrom, h]
    dsimp only
    rw [hts]
    rfl
  · rw [List.map_cons, hws]
    rfl

/-- A token in front of a rest. -/
theorem lexes_append (cs : List Char) {kind : TokenKind}
    (h : lexeme? c (cs ++ rest) = some (some kind, cs.length))
    (hrest : Lexes rest ws) :
    Lexes (c :: (cs ++ rest)) ((kind, String.ofList (c :: cs)) :: ws) := by
  have := lexes_cons h (by rwa [List.drop_left])
  rwa [List.take_left] at this

/-- A blank in front of a token. -/
theorem lexes_space (hfront : Front (Text.isBlank · = false) rest) (hrest : Lexes rest ws) :
    Lexes (' ' :: rest) ws := by
  have hrun : run Text.isBlank rest = 0 := @run_append Text.isBlank [] rest (by simp) hfront
  intro position
  obtain ⟨ts, hts, hws⟩ := hrest (position + (0 + 1))
  refine ⟨ts, ?_, hws⟩
  have hblank : lexeme? ' ' rest = some (none, 0) := by
    rw [lexeme?, if_pos (by decide), hrun]
  rw [tokensFrom, hblank]
  dsimp only
  rw [List.drop_zero, hts]
  rfl

/-- A blank in front of an operand. -/
theorem lexes_blank (hfront : Front IsOpening rest) (hrest : Lexes rest ws) :
    Lexes (' ' :: rest) ws :=
  lexes_space (fun c hc => (hfront c hc).1) hrest

/-! ## Names -/

/-- Whether characters make a name. -/
def isName : List Char → Bool
  | [] => false
  | c :: cs => startsName c && cs.all continuesName

theorem lexeme?_of_isName {cs : List Char} (h : isName (c :: cs) = true) (hbreak : Front IsBreak rest) :
    lexeme? c (cs ++ rest) = some (some .name, cs.length) := by
  rw [isName, Bool.and_eq_true, List.all_eq_true] at h
  obtain ⟨hstart, hfollow⟩ := h
  obtain ⟨hblank, hdigit, hpoint, hquote, -⟩ := of_startsName hstart
  rw [lexeme?, if_neg (by rw [hblank]; exact Bool.false_ne_true),
    if_neg (by rw [hdigit]; exact Bool.false_ne_true), if_neg (by simpa using hpoint),
    if_neg (by simpa using hquote), if_pos hstart,
    run_append hfollow fun d hd => (hbreak d hd).1]

theorem lexes_name (text : String) (hname : isName text.toList = true) (hbreak : Front IsBreak rest)
    (hrest : Lexes rest ws) : Lexes (text.toList ++ rest) (Word.name text :: ws) := by
  cases hcs : text.toList with
  | nil =>
    rw [hcs] at hname
    cases hname
  | cons c cs =>
    rw [hcs] at hname
    have := lexes_append _ (lexeme?_of_isName hname hbreak) hrest
    rwa [← hcs, String.ofList_toList] at this

/-! ## Signs -/

theorem lexeme?_of_sign (hc : Text.isBlank c = false ∧ Text.isDigit c = false ∧ c ≠ '.' ∧ c ≠ '"' ∧
    startsName c = false) (cs : List Char) :
    lexeme? c cs = (signLength? c cs).map fun n => (some .sign, n) := by
  obtain ⟨hblank, hdigit, hpoint, hquote, hname⟩ := hc
  rw [lexeme?, if_neg (by rw [hblank]; exact Bool.false_ne_true),
    if_neg (by rw [hdigit]; exact Bool.false_ne_true), if_neg (by simpa using hpoint),
    if_neg (by simpa using hquote), if_neg (by rw [hname]; exact Bool.false_ne_true)]

/-- A sign of one character. -/
theorem lexes_sign (hc : isSign c = true) (hfront : Front (isPair c · = false) rest)
    (hrest : Lexes rest ws) : Lexes (c :: rest) (Word.sign (String.ofList [c]) :: ws) := by
  have hlexeme : lexeme? c rest = some (some .sign, 0) := by
    have hpair : rest.head?.any (isPair c) = false := by
      rw [Option.any_eq_false]
      exact fun d hd => by rw [hfront d hd]
    rw [lexeme?_of_sign (of_isSign hc), signLength?, hpair, if_neg Bool.false_ne_true, if_pos hc]
    rfl
  exact lexes_append [] hlexeme hrest

/-- A sign of two characters. -/
theorem lexes_pair (hc : c = '<' ∨ c = '>' ∨ c = '=' ∨ c = '!') (hrest : Lexes rest ws) :
    Lexes (c :: '=' :: rest) (Word.sign (String.ofList [c, '=']) :: ws) := by
  have hlexeme : lexeme? c (['='] ++ rest) = some (some .sign, 1) := by
    rcases hc with rfl | rfl | rfl | rfl <;> rfl
  exact lexes_append ['='] hlexeme hrest

/-! ## Numbers and strings -/

open Decimal

/-- A power of ten is followed by something else. -/
theorem exponentLength_raised {s : Spelling} (hs : s.Plain) (hbreak : Front IsBreak rest) :
    exponentLength (s.raised ++ rest) = s.raised.length := by
  unfold Spelling.raised
  cases hp : s.power with
  | none =>
    -- Nothing is left but the rest, which does not start with the letter of a power.
    cases rest with
    | nil => rfl
    | cons c rest =>
      cases rest with
      | nil => rfl
      | cons d rest =>
        have hc := (front_cons.mp hbreak).1
        have hmark : ¬(c == 'e' || c == 'E') = true := by
          rw [Bool.or_eq_true, beq_iff_eq, beq_iff_eq]
          rintro (rfl | rfl) <;> exact absurd hc (by decide)
        show (if (c == 'e' || c == 'E') = true then _ else 0) = 0
        rw [if_neg hmark]
  | some power =>
    obtain ⟨negative, ds⟩ := power
    obtain ⟨hne, hds⟩ := hs.power negative ds hp
    have hrun : run Text.isDigit (ds ++ rest) = ds.length :=
      run_append (fun c hc => Text.isDigit_of_isDigit (hds c hc)) fun c hc => (hbreak c hc).2.1
    have hpos : ds.length ≠ 0 := fun h => hne (List.eq_nil_of_length_eq_zero h)
    have hlength : ∀ c, (c == '+' || c == '-') = true →
        exponentLength ('e' :: c :: (ds ++ rest)) = ds.length + 2 := by
      intro c hc
      show (if (c == '+' || c == '-') = true then
        (if run Text.isDigit (ds ++ rest) = 0 then 0 else run Text.isDigit (ds ++ rest) + 2)
        else _) = _
      rw [if_pos hc, hrun, if_neg hpos]
    cases negative with
    | false => exact hlength '+' rfl
    | true => exact hlength '-' rfl

theorem front_raised {s : Spelling} (hbreak : Front IsBreak rest) :
    Front (fun c => Text.isDigit c = false ∧ c ≠ '.') (s.raised ++ rest) := by
  unfold Spelling.raised
  cases s.power with
  | none => exact fun c hc => (hbreak c hc).2
  | some power => exact front_cons.mpr (by decide)

theorem fractionLength_pointed {s : Spelling} (hs : s.Plain) (hbreak : Front IsBreak rest) :
    fractionLength (s.pointed ++ (s.raised ++ rest)) = s.pointed.length := by
  have hfront := front_raised (s := s) hbreak
  unfold Spelling.pointed
  cases hf : s.fraction with
  | none =>
    rw [Option.elim_none, List.nil_append]
    cases hcs : s.raised ++ rest with
    | nil => rfl
    | cons c cs =>
      rw [hcs] at hfront
      unfold fractionLength
      split
      · next heq =>
        cases heq
        exact absurd rfl (front_cons.mp hfront).2
      · rfl
  | some ds =>
    have hrun := run_append (p := Text.isDigit)
      (fun c hc => Text.isDigit_of_isDigit (hs.fraction ds hf c hc)) fun c hc => (hfront c hc).1
    exact congrArg (· + 1) hrun

theorem front_pointed {s : Spelling} (hbreak : Front IsBreak rest) :
    Front (Text.isDigit · = false) (s.pointed ++ (s.raised ++ rest)) := by
  have hfront := front_raised (s := s) hbreak
  unfold Spelling.pointed
  cases s.fraction with
  | none => exact fun c hc => (hfront c hc).1
  | some ds => exact front_cons.mpr (by decide)

theorem lexes_spelling {s : Spelling} (hs : s.Plain) (hbreak : Front IsBreak rest)
    (hrest : Lexes rest ws) :
    Lexes (s.chars ++ rest) (Word.number (String.ofList s.chars) :: ws) := by
  cases hw : s.whole with
  | nil => exact absurd hw hs.nonempty
  | cons c cs =>
    have hwhole := hs.whole
    rw [hw] at hwhole
    obtain ⟨hc, hcs⟩ := List.forall_mem_cons.mp hwhole
    have hrun : run Text.isDigit (cs ++ (s.pointed ++ (s.raised ++ rest))) = cs.length :=
      run_append (fun d hd => Text.isDigit_of_isDigit (hcs d hd)) (front_pointed hbreak)
    have hlength : numberLength (cs ++ (s.pointed ++ (s.raised ++ rest))) =
        (cs ++ (s.pointed ++ s.raised)).length := by
      unfold numberLength
      dsimp only
      rw [hrun, List.drop_left, fractionLength_pointed hs hbreak, ← List.append_assoc,
        ← List.append_assoc, ← List.length_append, List.append_assoc (cs ++ s.pointed),
        List.drop_left, exponentLength_raised hs hbreak, ← List.length_append]
      simp
    have hlexeme : lexeme? c ((cs ++ (s.pointed ++ s.raised)) ++ rest) =
        some (some .number, (cs ++ (s.pointed ++ s.raised)).length) := by
      rw [lexeme?, if_neg (by rw [not_isBlank_of_isDigit hc]; exact Bool.false_ne_true),
        if_pos (Text.isDigit_of_isDigit hc), ← hlength]
      simp
    have := lexes_append _ hlexeme hrest
    rw [Spelling.chars, hw]
    exact this

/-- A text without quotes in quotes. -/
theorem lexes_quoted {text : String} (h : '"' ∉ text.toList) (hrest : Lexes rest ws) :
    Lexes ('"' :: (text.toList ++ '"' :: rest)) (Word.quoted text :: ws) := by
  have hrun : run (· != '"') (text.toList ++ '"' :: rest) = text.toList.length :=
    run_append (fun c hc => bne_iff_ne.mpr fun he => h (he ▸ hc)) (front_cons.mpr rfl)
  have hlexeme : lexeme? '"' ((text.toList ++ ['"']) ++ rest) =
      some (some .string, (text.toList ++ ['"']).length) := by
    have hlt : text.toList.length < (text.toList ++ '"' :: rest).length := by simp
    rw [List.append_assoc, List.singleton_append]
    show (stringLength? _).map _ = _
    unfold stringLength?
    dsimp only
    rw [hrun, if_pos hlt]
    simp
  have := lexes_append _ hlexeme hrest
  rwa [List.append_assoc] at this

/-! ## The words of the grammar -/

theorem isName_unary (op : Unary) : isName op.word.toList = true := by
  cases op <;> decide

theorem isName_connective (op : Connective) : isName op.word.toList = true := by
  cases op <;> decide

theorem isName_field (f : Field) : isName f.word.toList = true := by
  cases f <;> decide

theorem isName_date (part : DatePart) : isName part.word.toList = true := by
  cases part <;> decide

theorem isName_statistic (s : Statistic) : isName s.word.toList = true := by
  cases s <;> decide

theorem isName_truth (b : Bool) : isName (if b then "true" else "false").toList = true := by
  cases b <;> decide

/-- A sign that starts no pair. -/
theorem lexes_mark (hc : isSign c = true)
    (hpair : (c == '<' || c == '>' || c == '=' || c == '!') = false) (hrest : Lexes rest ws) :
    Lexes (c :: rest) (Word.sign (String.ofList [c]) :: ws) :=
  lexes_sign hc (fun d _ => by
    show isPair c d = false
    rw [isPair, hpair, Bool.and_false]) hrest

/-- A sign before an operand. -/
theorem lexes_sign_opening (hc : isSign c = true) (hfront : Front IsOpening rest)
    (hrest : Lexes rest ws) : Lexes (c :: rest) (Word.sign (String.ofList [c]) :: ws) :=
  lexes_sign hc (fun d hd => by
    show isPair c d = false
    rw [isPair, beq_eq_false_iff_ne.mpr (hfront d hd).2, Bool.false_and]) hrest

/-- What stands between the operands of an infix operation is a break and lexes to its word. -/
theorem lexes_infix {op : Binary} {sign : String} {w : Word} (hsign : op.infixSign? = some sign)
    (hw : op.infixWord? = some w) (hfront : Front IsOpening rest) (hrest : Lexes rest ws) :
    Front IsBreak (sign.toList ++ rest) ∧ Lexes (sign.toList ++ rest) (w :: ws) := by
  cases op with
  | arithmetic op =>
    cases hsign
    cases hw
    cases op <;> exact ⟨front_cons.mpr (by decide), lexes_sign_opening (by decide) hfront hrest⟩
  | comparison op =>
    cases hsign
    cases hw
    cases op with
    | less => exact ⟨front_cons.mpr (by decide), lexes_sign_opening (by decide) hfront hrest⟩
    | greater => exact ⟨front_cons.mpr (by decide), lexes_sign_opening (by decide) hfront hrest⟩
    | lessEqual => exact ⟨front_cons.mpr (by decide), lexes_pair (by decide) hrest⟩
    | greaterEqual => exact ⟨front_cons.mpr (by decide), lexes_pair (by decide) hrest⟩
    | equal => exact ⟨front_cons.mpr (by decide), lexes_pair (by decide) hrest⟩
    | notEqual => exact ⟨front_cons.mpr (by decide), lexes_pair (by decide) hrest⟩
  | connective op =>
    cases hsign
    cases hw
    -- The word of a connective has a blank on either side.
    have hsplit : (" " ++ op.word ++ " ").toList ++ rest = ' ' :: (op.word.toList ++ ' ' :: rest) := by
      simp
    rw [hsplit]
    refine ⟨front_cons.mpr (by decide), lexes_blank ?_ (lexes_name op.word (isName_connective op)
      (front_cons.mpr (by decide)) (lexes_blank hfront hrest))⟩
    cases op <;> exact front_cons.mpr ⟨by decide, by decide⟩
  | percent => cases hsign
  | lag => cases hsign
  | rsi => cases hsign

/-! ## The shapes of tokens -/

theorem take_run (p : Char → Bool) (cs : List Char) : cs.take (run p cs) = cs.takeWhile p := by
  have h : (cs.takeWhile p ++ cs.dropWhile p).take (cs.takeWhile p).length = cs.takeWhile p :=
    List.take_left
  rwa [List.takeWhile_append_dropWhile] at h

/-- How many characters are taken after the first one, and for which kind of token or for white space. -/
inductive Spans (c : Char) (cs : List Char) : Option TokenKind → ℕ → Prop
  | blank (hblank : Text.isBlank c = true) : Spans c cs none (run Text.isBlank cs)
  | digit (hdigit : Text.isDigit c = true) : Spans c cs (some .number) (numberLength cs)
  | point {n : ℕ} (hpoint : c = '.') (hlength : pointLength? cs = some n) :
    Spans c cs (some .number) n
  | quote {n : ℕ} (hquote : c = '"') (hlength : stringLength? cs = some n) :
    Spans c cs (some .string) n
  | name (hnumber : (Text.isDigit c || c == '.') = false) (hquote : (c == '"') = false)
    (hstart : startsName c = true) : Spans c cs (some .name) (run continuesName cs)
  | sign {n : ℕ} (hnumber : (Text.isDigit c || c == '.') = false) (hquote : (c == '"') = false)
    (hstart : startsName c = false) (hlength : signLength? c cs = some n) :
    Spans c cs (some .sign) n

theorem spans_of_lexeme {kind? : Option TokenKind} {n : ℕ} (h : lexeme? c cs = some (kind?, n)) :
    Spans c cs kind? n := by
  unfold lexeme? at h
  split_ifs at h with hblank hdigit hpoint hquote hstart
  · cases h
    exact .blank hblank
  · cases h
    exact .digit hdigit
  · obtain ⟨m, hm, hn⟩ := Option.map_eq_some_iff.mp h
    cases hn
    exact .point (beq_iff_eq.mp hpoint) hm
  all_goals
    have hnumber : (Text.isDigit c || c == '.') = false := by simp [hdigit, hpoint]
  · obtain ⟨m, hm, hn⟩ := Option.map_eq_some_iff.mp h
    cases hn
    exact .quote (beq_iff_eq.mp hquote) hm
  · cases h
    exact .name hnumber (Bool.eq_false_of_not_eq_true hquote) hstart
  · obtain ⟨m, hm, hn⟩ := Option.map_eq_some_iff.mp h
    cases hn
    exact .sign hnumber (Bool.eq_false_of_not_eq_true hquote) (Bool.eq_false_of_not_eq_true hstart) hm

/-- A name token is a name. -/
theorem isName_of_lexeme {n : ℕ} (h : lexeme? c cs = some (some .name, n)) :
    isName (c :: cs.take n) = true := by
  cases spans_of_lexeme h with
  | name hnumber hquote hstart =>
    rw [isName, hstart, take_run, Bool.true_and]
    exact List.all_takeWhile

/-- What stands before the closing quote. -/
theorem inside_of_stringLength {n : ℕ} (h : stringLength? cs = some n) :
    ∃ ds, '"' ∉ ds ∧ cs.take n = ds ++ ['"'] := by
  unfold stringLength? at h
  dsimp only at h
  split_ifs at h with hlt
  cases h
  refine ⟨cs.takeWhile (· != '"'), fun hmem => ?_, ?_⟩
  · have hall := List.all_eq_true.mp (List.all_takeWhile (p := (· != '"')) (l := cs))
    exact absurd (hall _ hmem) (by decide)
  · have hsplit := cs.takeWhile_append_dropWhile (p := (· != '"'))
    cases hdrop : cs.dropWhile (· != '"') with
    | nil =>
      rw [hdrop, List.append_nil] at hsplit
      rw [run, hsplit] at hlt
      exact absurd hlt (lt_irrefl _)
    | cons d rest =>
      have hd : d = '"' := by
        have := List.head?_dropWhile_not (· != '"') cs
        rw [hdrop] at this
        simpa using this
      rw [hdrop, hd] at hsplit
      have htake := @List.take_append _ (cs.takeWhile (· != '"')) ('"' :: rest)
        (run (· != '"') cs + 1)
      rw [hsplit] at htake
      rw [htake, run, List.take_of_length_le (Nat.le_succ _), Nat.add_sub_cancel_left]
      rfl

/-- A string token is a text without quotes in quotes. -/
theorem quoted_of_lexeme {n : ℕ} (h : lexeme? c cs = some (some .string, n)) :
    ∃ ds, '"' ∉ ds ∧ c :: cs.take n = '"' :: (ds ++ ['"']) := by
  cases spans_of_lexeme h with
  | quote hquote hlength =>
    obtain ⟨ds, hds, htake⟩ := inside_of_stringLength hlength
    exact ⟨ds, hds, by rw [htake, hquote]⟩

/-- The kind of the tokens that start with a character. -/
def kindOf (c : Char) : TokenKind :=
  if Text.isDigit c || c == '.' then .number
  else if c == '"' then .string
  else if startsName c then .name
  else .sign

theorem kind_of_lexeme {kind : TokenKind} {n : ℕ} (h : lexeme? c cs = some (some kind, n)) :
    kindOf c = kind := by
  unfold kindOf
  cases spans_of_lexeme h with
  | digit hdigit =>
    rw [hdigit]
    rfl
  | point hpoint => rw [hpoint, if_pos (by decide)]
  | quote hquote => rw [hquote, if_neg (by decide), if_pos (by decide)]
  | name hnumber hquote hstart =>
    rw [hnumber, hquote, if_neg Bool.false_ne_true, if_neg Bool.false_ne_true, if_pos hstart]
  | sign hnumber hquote hstart =>
    rw [hnumber, hquote, hstart, if_neg Bool.false_ne_true, if_neg Bool.false_ne_true,
      if_neg Bool.false_ne_true]

/-- Whether a word has the shape of its kind. -/
structure IsProper (w : Word) : Prop where
  start : w.2.toList.head?.map kindOf = some w.1
  name : w.1 = .name → isName w.2.toList = true
  string : w.1 = .string → ∃ ds, '"' ∉ ds ∧ w.2.toList = '"' :: (ds ++ ['"'])

/-- A proper word is known by its text. -/
theorem IsProper.eq_of_text {w : Word} (hw : IsProper w) (kind : TokenKind) {text : String}
    (htext : w.2 = text) (hkind : text.toList.head?.map kindOf = some kind) : w = (kind, text) := by
  subst htext
  exact Prod.ext (Option.some.inj (hw.start.symm.trans hkind)) rfl

/-- All words of a text have the shapes of their kinds. -/
theorem isProper_of_tokensFrom {position : ℕ} {ts : List Token}
    (h : tokensFrom position cs = .ok ts) : ∀ t ∈ ts, IsProper t.word := by
  fun_induction tokensFrom position cs generalizing ts with
  | case1 position =>
    cases h
    exact fun _ ht => by cases ht
  | case2 position c cs hnone => cases h
  | case3 position c cs kind? n hsome ih =>
    obtain ⟨rest, hrest, h⟩ := bind_eq_ok.mp h
    cases kind? with
    | none =>
      cases h
      exact ih hrest
    | some kind =>
      cases h
      refine List.forall_mem_cons.mpr ⟨⟨?_, fun hkind => ?_, fun hkind => ?_⟩, ih hrest⟩
      · simp [Token.word, kind_of_lexeme hsome]
      · cases hkind
        exact String.toList_ofList ▸ isName_of_lexeme hsome
      · cases hkind
        exact String.toList_ofList ▸ quoted_of_lexeme hsome

/-- A text is one token, a name, when its characters make a name. -/
theorem tokens_eq_name_iff {text : String} :
    tokens text = .ok [⟨.name, text, 0⟩] ↔ isName text.toList = true := by
  refine ⟨fun h => (isProper_of_tokensFrom h _ List.mem_cons_self).name rfl, fun h => ?_⟩
  unfold tokens
  cases hcs : text.toList with
  | nil =>
    rw [hcs] at h
    cases h
  | cons c cs =>
    rw [hcs] at h
    have hlexeme := @lexeme?_of_isName c [] cs h front_nil
    rw [List.append_nil] at hlexeme
    rw [tokensFrom, hlexeme]
    dsimp only
    rw [List.drop_length, List.take_length, tokensFrom, ← hcs, String.ofList_toList]
    rfl

end Lexer

/-! ## Expressions -/

open Lexer

/-- The texts that are tokens of their own. -/
def Naming.spelled : Naming where
  isVariable name _ := isName name.toList = true
  isPartner partner := '"' ∉ partner.toList

namespace Expr

/-- Whether the text of an expression lexes to its words before any break. -/
structure Lexable (e : Expr) : Prop where
  opens : ∃ c cs, e.text.toList = c :: cs ∧ IsOpening c
  lexes : ∀ {rest ws}, Front IsBreak rest → Lexes rest ws →
    Lexes (e.text.toList ++ rest) (e.words ++ ws)

variable {e a b : Expr} {rest : List Char} {ws : List Word}

theorem Lexable.front (h : e.Lexable) (rest : List Char) :
    Front IsOpening (e.text.toList ++ rest) := by
  obtain ⟨c, cs, hcs, hc⟩ := h.opens
  rw [hcs]
  exact front_cons.mpr hc

theorem opens_of_isName {cs : List Char} (h : isName cs = true) (rest : List Char) :
    ∃ c ds, cs ++ rest = c :: ds ∧ IsOpening c := by
  cases cs with
  | nil => cases h
  | cons c cs =>
    rw [isName, Bool.and_eq_true] at h
    obtain ⟨hblank, -, -, -, hequals⟩ := of_startsName h.1
    exact ⟨c, cs ++ rest, rfl, hblank, hequals⟩

theorem front_of_isName {cs : List Char} (h : isName cs = true) (rest : List Char) :
    Front IsOpening (cs ++ rest) := by
  obtain ⟨c, ds, hcs, hc⟩ := opens_of_isName h rest
  rw [hcs]
  exact front_cons.mpr hc

/-! ### Leaves -/

theorem lexable_of_name {name : String} (hname : isName name.toList = true)
    (htext : e.text = name) (hwords : e.words = [.name name]) : e.Lexable where
  opens := by
    rw [htext]
    simpa using opens_of_isName hname []
  lexes hbreak hrest := by
    rw [htext, hwords]
    exact lexes_name name hname hbreak hrest

theorem opens_chars {s : Decimal.Spelling} (hs : s.Plain) :
    ∃ c cs, s.chars = c :: cs ∧ IsOpening c := by
  cases hw : s.whole with
  | nil => exact absurd hw hs.nonempty
  | cons c cs =>
    have hc : c.isDigit = true := hs.whole c (hw ▸ List.mem_cons_self)
    refine ⟨c, cs ++ (s.pointed ++ s.raised), by rw [Decimal.Spelling.chars, hw]; rfl, ?_, ?_⟩
    · exact not_isBlank_of_isDigit hc
    · exact Decimal.Spelling.ne_of_isDigit hc '=' rfl

theorem lexable_number (l : Literal) : (Expr.number l).Lexable := by
  have htext : (Expr.number l).text = l.text := rfl
  have hwords : (Expr.number l).words = l.words := rfl
  have hspelling := opens_chars l.spelling_plain
  refine ⟨?_, fun hbreak hrest => ?_⟩
  · rw [htext, l.toList_text]
    split_ifs
    · exact ⟨'-', _, rfl, by decide, by decide⟩
    · exact hspelling
  · have hnumber := lexes_spelling l.spelling_plain hbreak hrest
    rw [htext, l.toList_text, hwords, Literal.words]
    split_ifs
    · exact lexes_mark (by decide) (by decide) hnumber
    · exact hnumber

/-! ### Calls -/

/-- Texts with commas between them. -/
def separatedChars : List (List Char) → List Char
  | [] => []
  | [cs] => cs
  | cs :: rest => cs ++ ',' :: ' ' :: separatedChars rest

/-- The characters of a function call. -/
def callChars (function : String) (before : List Char) (operands : List (List Char)) : List Char :=
  function.toList ++ '(' :: (before ++ (separatedChars operands ++ [')']))

theorem front_separated (ha : a.Lexable) (es : List Expr) (rest : List Char) :
    Front IsOpening (separatedChars ((a :: es).map (·.text.toList)) ++ rest) := by
  cases es with
  | nil => exact ha.front rest
  | cons b es =>
    show Front IsOpening ((a.text.toList ++ _) ++ rest)
    rw [List.append_assoc]
    exact ha.front _

theorem lexes_separated {es : List Expr} (hes : ∀ a ∈ es, a.Lexable) (hrest : Lexes rest ws) :
    Lexes (separatedChars (es.map (·.text.toList)) ++ ')' :: rest)
      (Word.separated (es.map words) ++ Word.sign ")" :: ws) := by
  have hclose : Lexes (')' :: rest) (Word.sign ")" :: ws) := lexes_mark (by decide) (by decide) hrest
  induction es with
  | nil => exact hclose
  | cons a es ih =>
    obtain ⟨ha, htail⟩ := List.forall_mem_cons.mp hes
    cases es with
    | nil => exact ha.lexes (front_cons.mpr (by decide)) hclose
    | cons b es =>
      have hfront := front_separated (htail b List.mem_cons_self) es (')' :: rest)
      have hcomma := lexes_mark (c := ',') (by decide) (by decide) (lexes_blank hfront (ih htail))
      have := ha.lexes (front_cons.mpr (by decide)) hcomma
      simpa [separatedChars, Word.separated] using this

/-- A function call, with what stands before its operands. -/
theorem lexable_call (function : String) (before : List Char) (words : List Word) (es : List Expr)
    (hname : isName function.toList = true)
    (htext : e.text.toList = callChars function before (es.map (·.text.toList)))
    (hwords : e.words = Word.call function words (es.map Expr.words)) (hes : ∀ a ∈ es, a.Lexable)
    (hbefore : ∀ {rest ws}, (es ≠ [] → Front IsOpening rest) → Lexes rest ws →
      Lexes (before ++ rest) (words ++ ws)) : e.Lexable where
  opens := by
    rw [htext]
    exact opens_of_isName hname _
  lexes {rest ws} hbreak hrest := by
    have hfront : es ≠ [] →
        Front IsOpening (separatedChars (es.map (·.text.toList)) ++ ')' :: rest) := by
      intro hne
      cases es with
      | nil => exact absurd rfl hne
      | cons a es => exact front_separated (hes a List.mem_cons_self) es _
    have hopen := lexes_mark (c := '(') (by decide) (by decide)
      (hbefore hfront (lexes_separated hes hrest))
    have := lexes_name function hname (front_cons.mpr (by decide)) hopen
    rw [htext, hwords]
    simpa [callChars, Word.call] using this

theorem lexable_plainCall (function : String) (es : List Expr) (hname : isName function.toList = true)
    (htext : e.text.toList = callChars function [] (es.map (·.text.toList)))
    (hwords : e.words = Word.call function [] (es.map Expr.words)) (hes : ∀ a ∈ es, a.Lexable) :
    e.Lexable :=
  lexable_call function [] [] es hname htext hwords hes fun _ hrest => hrest

/-! ### Infix operations and choices -/

theorem lexes_enclosed (ha : a.Lexable) (needed : Bool) (hbreak : Front IsBreak rest)
    (hrest : Lexes rest ws) : Lexes ((parenthesized needed a.text).toList ++ rest)
      (Word.enclosed needed a.words ++ ws) := by
  cases needed with
  | false => exact ha.lexes hbreak hrest
  | true =>
    have hclose := lexes_mark (c := ')') (by decide) (by decide) hrest
    have := lexes_mark (c := '(') (by decide) (by decide)
      (ha.lexes (front_cons.mpr (by decide)) hclose)
    simpa [parenthesized, Word.enclosed] using this

theorem opens_enclosed (ha : a.Lexable) (needed : Bool) (rest : List Char) :
    ∃ c cs, (parenthesized needed a.text).toList ++ rest = c :: cs ∧ IsOpening c := by
  cases needed with
  | false =>
    obtain ⟨c, cs, hcs, hc⟩ := ha.opens
    exact ⟨c, cs ++ rest, by rw [parenthesized, if_neg Bool.false_ne_true, hcs]; rfl, hc⟩
  | true =>
    exact ⟨'(', a.text.toList ++ ')' :: rest, by simp [parenthesized], by decide, by decide⟩

theorem front_enclosed (ha : a.Lexable) (needed : Bool) (rest : List Char) :
    Front IsOpening ((parenthesized needed a.text).toList ++ rest) := by
  obtain ⟨c, cs, hcs, hc⟩ := opens_enclosed ha needed rest
  rw [hcs]
  exact front_cons.mpr hc

theorem lexable_infix {op : Binary} {sign : String} {w : Word} (hsign : op.infixSign? = some sign)
    (hw : op.infixWord? = some w) (ha : a.Lexable) (hb : b.Lexable) :
    (Expr.binary op a b).Lexable := by
  have htext : (Expr.binary op a b).text.toList = (parenthesized a.isInfix a.text).toList ++
      (sign.toList ++ (parenthesized b.isInfix b.text).toList) := by
    rw [text, hsign]
    simp only [String.toList_append, List.append_assoc]
  have hwords : (Expr.binary op a b).words =
      Word.enclosed a.isInfix a.words ++ w :: Word.enclosed b.isInfix b.words := by
    rw [words, hw]
  refine ⟨?_, fun {rest ws} hbreak hrest => ?_⟩
  · rw [htext]
    exact opens_enclosed ha _ _
  · obtain ⟨hbefore, hlexes⟩ := lexes_infix hsign hw (front_enclosed hb b.isInfix rest)
      (lexes_enclosed hb b.isInfix hbreak hrest)
    have := lexes_enclosed ha a.isInfix hbefore hlexes
    rw [htext, hwords]
    simpa using this

theorem lexable_choice {c : Expr} (ha : a.Lexable) (hb : b.Lexable) (hc : c.Lexable) :
    (Expr.choice a b c).Lexable := by
  have htext : ∀ rest, (Expr.choice a b c).text.toList ++ rest = "if".toList ++ '(' :: (a.text.toList
      ++ ')' :: ' ' :: '\x7b' :: (b.text.toList ++ '\x7d' :: ' ' :: ("else".toList
      ++ ' ' :: '\x7b' :: (c.text.toList ++ '\x7d' :: rest)))) := fun rest => by
    simp [text]
  refine ⟨?_, fun {rest ws} hbreak hrest => ?_⟩
  · have := htext []
    rw [List.append_nil] at this
    rw [this]
    exact opens_of_isName (by decide) _
  · have hend := lexes_mark (c := '\x7d') (by decide) (by decide) hrest
    have hlast := lexes_mark (c := '\x7b') (by decide) (by decide)
      (hc.lexes (front_cons.mpr (by decide)) hend)
    have helse := lexes_name "else" (by decide) (front_cons.mpr (by decide))
      (lexes_blank (front_cons.mpr (by decide)) hlast)
    have hmiddle := lexes_mark (c := '\x7d') (by decide) (by decide)
      (lexes_blank (front_of_isName (by decide) _) helse)
    have hfirst := lexes_mark (c := '\x7b') (by decide) (by decide)
      (hb.lexes (front_cons.mpr (by decide)) hmiddle)
    have hclose := lexes_mark (c := ')') (by decide) (by decide)
      (lexes_blank (front_cons.mpr (by decide)) hfirst)
    have hopen := lexes_mark (c := '(') (by decide) (by decide)
      (ha.lexes (front_cons.mpr (by decide)) hclose)
    have := lexes_name "if" (by decide) (front_cons.mpr (by decide)) hopen
    rw [htext]
    simpa [words] using this

/-! ### All expressions -/

theorem lexable_leaf : ∀ {l : Leaf}, (Expr.leaf l).Named .spelled → (Expr.leaf l).Lexable
  | .number l, _ => lexable_number l
  | .truth b, _ => lexable_of_name (isName_truth b) rfl rfl
  | .variable _ _, h => lexable_of_name h rfl rfl
  | .quote f, _ => lexable_of_name (isName_field f) rfl rfl
  | .date part, _ => lexable_plainCall part.word [] (isName_date part)
      (by simp [text, Leaf.text, callChars, separatedChars]) rfl (fun _ h => by cases h)

theorem lexable_binary {op : Binary} (ha : a.Lexable) (hb : b.Lexable) :
    (Expr.binary op a b).Lexable := by
  have hes : ∀ e ∈ [a, b], e.Lexable := by simp [ha, hb]
  have hcall : op.infixSign? = none → (Expr.binary op a b).text.toList =
      callChars op.word [] ([a, b].map (·.text.toList)) := fun hop => by
    simp [text, hop, callChars, separatedChars]
  cases op with
  | arithmetic op => exact lexable_infix rfl rfl ha hb
  | comparison op => exact lexable_infix rfl rfl ha hb
  | connective op => exact lexable_infix rfl rfl ha hb
  | percent => exact lexable_plainCall _ [a, b] (by decide) (hcall rfl) rfl hes
  | lag => exact lexable_plainCall _ [a, b] (by decide) (hcall rfl) rfl hes
  | rsi => exact lexable_plainCall _ [a, b] (by decide) (hcall rfl) rfl hes

theorem lexable_ternary {op : Ternary} {c : Expr} (hop : Head.Named .spelled (.ternary op))
    (ha : a.Lexable) (hb : b.Lexable) (hc : c.Lexable) : (Expr.ternary op a b c).Lexable := by
  have hes : ∀ e ∈ [a, b, c], e.Lexable := by simp [ha, hb, hc]
  cases op with
  | choice => exact lexable_choice ha hb hc
  | statistic s =>
    exact lexable_plainCall s.word [a, b, c] (isName_statistic s)
      (by simp [text, callChars, separatedChars]) rfl hes
  | correlation partner =>
    refine lexable_call "corr" ('"' :: (partner.toList ++ ['"', ',', ' '])) _ [a, b, c]
      (by decide) (by simp [text, callChars, separatedChars]) rfl hes fun hfront hrest => ?_
    have hcomma := lexes_mark (c := ',') (by decide) (by decide)
      (lexes_blank (hfront (List.cons_ne_nil _ _)) hrest)
    have := lexes_quoted hop hcomma
    simpa using this

/-- The text of an expression lexes to its words. -/
theorem lexable (h : e.Named .spelled) : e.Lexable := by
  induction e with
  | leaf l => exact lexable_leaf h
  | unary op a iha =>
    exact lexable_plainCall op.word [a] (isName_unary op)
      (by simp [text, callChars, separatedChars]) rfl
      (by simp [iha h.2])
  | binary op a b iha ihb => exact lexable_binary (iha h.2.1) (ihb h.2.2)
  | ternary op a b c iha ihb ihc =>
    exact lexable_ternary h.1 (iha h.2.1) (ihb h.2.2.1) (ihc h.2.2.2)
  | quaternary op a b c d iha ihb ihc ihd =>
    cases op
    exact lexable_plainCall "ema" [a, b, c, d] (by decide)
      (by simp [text, callChars, separatedChars]) rfl
      (by simp [iha h.2.1, ihb h.2.2.1, ihc h.2.2.2.1, ihd h.2.2.2.2])

/-- The tokens of a text are the words of the expression. -/
theorem tokens_text (h : e.Named .spelled) :
    ∃ ts, tokens e.text = .ok ts ∧ ts.map Token.word = e.words := by
  have := (lexable h).lexes front_nil lexes_nil 0
  rwa [List.append_nil, List.append_nil] at this

end Expr

end TradeRules
