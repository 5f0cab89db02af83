import TradeRules.Proofs.Rule.Language
import TradeRules.Proofs.Rule.Lexemes

/-!
# The layout of a rule

The white space of a rule is not part of it.  Its tokens stand in the text as they are, apart from each
other and in order, and all that is left out is white space (`Lexer.Covers`).  When the tokens are joined
by single spaces (`Lexer.respaced`), the new text has the same words: no token other than a string contains
white space, so none reaches over the space after it, and a string ends with its first quote
(`Lexer.IsLexeme.longest_before`).

A parser asks for the words of tokens only, so texts with the same words are read alike, as one expression
or as none (`Expr.parse_alike`).
-/

namespace TradeRules

namespace Lexer

variable {cs ds rest text back : List Char} {kind : TokenKind} {ps : List Piece} {ts : List Token}

/-! ## Tokens in their text -/

/-- Whether tokens are the ones of a text from a position on. -/
structure CoversFrom (start : ℕ) (text : List Char) (ts : List Token) : Prop where
  longest : ∀ t ∈ ts, Longest (some t.kind) t.text.toList (text.drop t.position)
  start_le : ∀ t ∈ ts, start ≤ t.position
  apart : ts.Pairwise fun t u => t.position + t.text.toList.length ≤ u.position
  blank : ∀ i c, start ≤ i → text[i]? = some c →
    (∀ t ∈ ts, i < t.position ∨ t.position + t.text.toList.length ≤ i) → Text.isBlank c = true

theorem CoversFrom.nil : CoversFrom text.length text [] where
  longest _ ht := by cases ht
  start_le _ ht := by cases ht
  apart := .nil
  blank i c hi hc _ := by
    rw [List.getElem?_eq_none hi] at hc
    cases hc

/-- White space in front leaves the tokens where they are. -/
theorem CoversFrom.of_blank {front : List Char}
    (h : CoversFrom (front ++ cs).length (front ++ cs ++ text) ts)
    (hcs : ∀ c ∈ cs, Text.isBlank c = true) : CoversFrom front.length (front ++ cs ++ text) ts where
  longest := h.longest
  start_le t ht := by
    have := h.start_le t ht
    rw [List.length_append] at this
    omega
  apart := h.apart
  blank i c hi hc houtside := by
    by_cases hlt : i < (front ++ cs).length
    · rw [List.append_assoc, List.getElem?_append_right hi] at hc
      rw [List.length_append] at hlt
      rw [List.getElem?_append_left (by omega)] at hc
      exact hcs c (List.mem_of_getElem? hc)
    · exact h.blank i c (not_lt.mp hlt) hc houtside

/-- A token in front. -/
theorem CoversFrom.cons {front : List Char}
    (h : CoversFrom (front ++ cs).length (front ++ cs ++ text) ts)
    (hcs : Longest (some kind) cs (cs ++ text)) :
    CoversFrom front.length (front ++ cs ++ text) (⟨kind, String.ofList cs, front.length⟩ :: ts) where
  longest := by
    refine List.forall_mem_cons.mpr ⟨?_, h.longest⟩
    rw [List.append_assoc, List.drop_left, String.toList_ofList]
    exact hcs
  start_le := by
    refine List.forall_mem_cons.mpr ⟨le_rfl, fun t ht => ?_⟩
    have := h.start_le t ht
    rw [List.length_append] at this
    omega
  apart := by
    refine List.pairwise_cons.mpr ⟨fun t ht => ?_, h.apart⟩
    rw [String.toList_ofList, ← List.length_append]
    exact h.start_le t ht
  blank i c hi hc houtside := by
    obtain ⟨hfirst, hrest⟩ := List.forall_mem_cons.mp houtside
    rw [String.toList_ofList, ← List.length_append] at hfirst
    refine h.blank i c ?_ hc hrest
    rcases hfirst with hlt | hle
    · exact absurd hi (not_le.mpr hlt)
    · exact hle

/-- The tokens among the pieces of a text are the tokens of the text. -/
theorem coversFrom_of_cut (h : Cut ps text []) (front : List Char) :
    CoversFrom front.length (front ++ text) (tokensOf front.length ps) := by
  generalize hback : [] = back at h
  induction h generalizing front with
  | done =>
    subst hback
    rw [List.append_nil]
    exact .nil
  | @piece kind? cs ps text back longest cut ih =>
    have hrest := ih (front ++ cs) hback
    rw [← List.append_assoc]
    cases kind? with
    | none =>
      rw [tokensOf, ← List.length_append]
      refine hrest.of_blank ?_
      cases longest.lexeme with
      | blank _ blank => exact blank
    | some kind =>
      rw [tokensOf, ← List.length_append]
      exact hrest.cons longest

/-- Whether tokens are all that a text has besides white space. -/
structure Covers (text : List Char) (ts : List Token) : Prop where
  /-- The tokens are in order. -/
  increasing : ts.Pairwise fun t u => t.position < u.position
  /-- No token starts before the end of an earlier one. -/
  apart : ts.Pairwise fun t u => t.position + t.text.toList.length ≤ u.position
  /-- A token has the characters at its position. -/
  slice : ∀ t ∈ ts, (text.drop t.position).take t.text.toList.length = t.text.toList
  /-- It is the longest lexeme there, and of its kind. -/
  longest : ∀ t ∈ ts, Longest (some t.kind) t.text.toList (text.drop t.position)
  /-- A character outside of the tokens is white space. -/
  blank : ∀ i c, text[i]? = some c →
    (∀ t ∈ ts, i < t.position ∨ t.position + t.text.toList.length ≤ i) → Text.isBlank c = true

theorem covers_of_cut (h : Cut ps text []) : Covers text (tokensOf 0 ps) := by
  have hfrom : CoversFrom 0 text (tokensOf 0 ps) := coversFrom_of_cut h []
  refine ⟨hfrom.apart.imp_of_mem fun {t u} ht _ hle => ?_, hfrom.apart, fun t ht => ?_, hfrom.longest,
    fun i c => hfrom.blank i c (Nat.zero_le _)⟩
  · have := List.length_pos_of_ne_nil (hfrom.longest t ht).lexeme.ne_nil
    omega
  · exact (List.prefix_iff_eq_take.mp (hfrom.longest t ht).starts).symm

/-- Whether a character is the first one in a text with which nothing starts: before it the text is made
of lexemes, each the longest where it stands. -/
def IsStray (text : List Char) (s : StrayCharacter) : Prop :=
  ∃ ps back, Cut ps text (s.character :: back) ∧ NoneStarts (s.character :: back) ∧
    s.position = width ps

/-! ## Single spaces -/

/-- The texts of tokens with single spaces between them. -/
def respaced (ts : List Token) : String :=
  " ".intercalate (ts.map Token.text)

theorem AreDigits.not_blank (h : AreDigits cs) : ∀ c ∈ cs, Text.isBlank c = false :=
  fun c hc => not_isBlank_of_digit (h c hc)

theorem IsPower.not_blank (h : IsPower cs) : ∀ c ∈ cs, Text.isBlank c = false := by
  have hletter : ∀ {c : Char}, c = 'e' ∨ c = 'E' → Text.isBlank c = false := by
    rintro c (rfl | rfl) <;> decide
  cases h with
  | none => exact fun _ hc => by cases hc
  | unsigned letter _ digits => exact List.forall_mem_cons.mpr ⟨hletter letter, digits.not_blank⟩
  | signed letter sign _ digits =>
    refine List.forall_mem_cons.mpr ⟨hletter letter, List.forall_mem_cons.mpr ⟨?_, digits.not_blank⟩⟩
    rcases sign with rfl | rfl <;> decide

theorem IsFraction.not_blank (h : IsFraction cs) : ∀ c ∈ cs, Text.isBlank c = false := by
  cases h with
  | none => exact fun _ hc => by cases hc
  | point digits => exact List.forall_mem_cons.mpr ⟨by decide, digits.not_blank⟩

theorem IsNumber.not_blank (h : IsNumber cs) : ∀ c ∈ cs, Text.isBlank c = false := by
  cases h with
  | whole _ digits fraction power =>
    exact List.forall_mem_append.mpr
      ⟨digits.not_blank, List.forall_mem_append.mpr ⟨fraction.not_blank, power.not_blank⟩⟩
  | point _ digits power =>
    exact List.forall_mem_cons.mpr
      ⟨by decide, List.forall_mem_append.mpr ⟨digits.not_blank, power.not_blank⟩⟩

theorem not_blank_of_continuesName {c : Char} (h : continuesName c = true) :
    Text.isBlank c = false := by
  simp only [continuesName, Char.isAlphanum, Bool.or_eq_true] at h
  rcases h with (halpha | hdigit) | hunderscore
  · exact (of_startsName (by rw [startsName, halpha, Bool.true_or])).1
  · exact not_isBlank_of_isDigit hdigit
  · exact (of_startsName (by rw [startsName, hunderscore, Bool.or_true])).1

/-- Of the tokens only strings contain white space. -/
theorem IsLexeme.not_blank (h : IsLexeme (some kind) cs) (hkind : kind ≠ .string) :
    ∀ c ∈ cs, Text.isBlank c = false := by
  cases h with
  | number number => exact number.not_blank
  | string => exact absurd rfl hkind
  | name name =>
    cases cs with
    | nil => cases name
    | cons c cs =>
      rw [isName, Bool.and_eq_true, List.all_eq_true] at name
      exact List.forall_mem_cons.mpr ⟨(of_startsName name.1).1,
        fun d hd => not_blank_of_continuesName (name.2 d hd)⟩
  | sign sign => exact List.forall_mem_cons.mpr ⟨(of_isSign sign).1, fun _ hc => by cases hc⟩
  | @pair c d pair =>
    have hd : d = '=' := by
      rw [isPair, Bool.and_eq_true, beq_iff_eq] at pair
      exact pair.1
    subst hd
    simpa using ⟨(of_isPair pair).1, by decide⟩

theorem IsLexeme.exists_inside (h : IsLexeme (some .string) cs) :
    ∃ ds, '"' ∉ ds ∧ cs = '"' :: (ds ++ ['"']) := by
  cases h with
  | string inside => exact ⟨_, inside, rfl⟩

/-- No string goes on after the end of another one. -/
theorem IsLexeme.eq_nil_of_string (hcs : IsLexeme (some .string) cs)
    (h : IsLexeme (some .string) (cs ++ rest)) : rest = [] := by
  obtain ⟨ds, -, rfl⟩ := hcs.exists_inside
  obtain ⟨es, hes, hsplit⟩ := h.exists_inside
  by_contra hne
  -- The quote that ends the shorter string would stand inside the longer one.
  have hinside : ds ++ '"' :: rest.dropLast = es := by
    have hinner : ds ++ ['"'] ++ rest = es ++ ['"'] := (List.cons.inj hsplit).2
    have hlast := congrArg List.dropLast hinner
    rwa [List.append_assoc, List.singleton_append, List.dropLast_append_cons, List.dropLast_concat,
      List.dropLast_cons_of_ne_nil hne] at hlast
  exact hes (hinside ▸ List.mem_append_right _ List.mem_cons_self)

/-- Before a space a token is the longest lexeme, whatever comes after the space. -/
theorem IsLexeme.longest_before (h : IsLexeme (some kind) cs) (hrest : Front (· = ' ') rest) :
    Longest (some kind) cs (cs ++ rest) where
  lexeme := h
  starts := List.prefix_append cs rest
  longest other? ds hds hstarts := by
    obtain rfl := hds.kind_eq h hstarts (List.prefix_append cs rest)
    by_contra hlonger
    obtain ⟨xs, rfl⟩ := List.prefix_of_prefix_length_le (List.prefix_append cs rest) hstarts
      (le_of_not_ge hlonger)
    have hxs : xs <+: rest := (List.prefix_append_right_inj cs).mp hstarts
    cases xs with
    | nil => exact hlonger (by rw [List.append_nil])
    | cons x xs =>
      obtain ⟨tail, rfl⟩ := hxs
      have hx : x = ' ' := hrest x rfl
      subst hx
      by_cases hkind : kind = .string
      · subst hkind
        exact List.cons_ne_nil _ _ (h.eq_nil_of_string hds)
      · exact absurd (hds.not_blank hkind ' ' (by simp)) (by decide)

/-- No token starts with white space. -/
theorem IsLexeme.front (h : IsLexeme (some kind) cs) (rest : List Char) :
    Front (Text.isBlank · = false) (cs ++ rest) := by
  by_cases hkind : kind = .string
  · subst hkind
    obtain ⟨ds, -, rfl⟩ := h.exists_inside
    exact front_cons.mpr (by decide)
  · obtain ⟨c, ds, rfl⟩ := List.exists_cons_of_ne_nil h.ne_nil
    exact front_cons.mpr (h.not_blank hkind c List.mem_cons_self)

/-- A token before a space. -/
theorem lexes_lexeme {ws : List Word} (h : IsLexeme (some kind) cs) (hfront : Front (· = ' ') rest)
    (hrest : Lexes rest ws) : Lexes (cs ++ rest) ((kind, String.ofList cs) :: ws) := by
  obtain ⟨c, ds, rfl⟩ := List.exists_cons_of_ne_nil h.ne_nil
  exact lexes_append ds (h.longest_before hfront).lexeme_eq hrest

/-- Tokens with single spaces between them lex to their words. -/
theorem lexes_respaced (h : ∀ t ∈ ts, IsLexeme (some t.kind) t.text.toList) :
    Lexes (respaced ts).toList (ts.map Token.word) := by
  rw [respaced, String.toList_intercalate, List.map_map]
  show Lexes ([' '].intercalate (ts.map fun t => t.text.toList)) _
  induction ts with
  | nil => exact lexes_nil
  | cons t ts ih =>
    obtain ⟨ht, hrest⟩ := List.forall_mem_cons.mp h
    have hword : t.word = (t.kind, String.ofList t.text.toList) := by
      rw [String.ofList_toList]
      rfl
    cases ts with
    | nil =>
      have := lexes_lexeme ht front_nil lexes_nil
      rw [List.append_nil, ← hword] at this
      rwa [List.map_singleton, List.intercalate_singleton, List.map_singleton]
    | cons u ts =>
      have hfront : Front (Text.isBlank · = false)
          ([' '].intercalate ((u :: ts).map fun t => t.text.toList)) := by
        have hu := hrest u List.mem_cons_self
        cases ts with
        | nil => simpa using hu.front []
        | cons v ts =>
          rw [List.map_cons, List.map_cons, List.intercalate_cons_cons, List.append_assoc]
          exact hu.front _
      have := lexes_lexeme ht (front_cons.mpr rfl) (lexes_space hfront (ih hrest))
      rw [← hword] at this
      simpa [List.intercalate_cons_cons] using this

end Lexer

/-! ## Reading -/

/-- Whether two texts are read alike: as one expression, or with errors of one sort. -/
inductive ReadAlike : Except RuleError Expr → Except RuleError Expr → Prop
  | expression (e : Expr) : ReadAlike (.ok e) (.ok e)
  | malformed (e e' : SyntaxError) : ReadAlike (.error (.malformed e)) (.error (.malformed e'))
  | mismatch (m : Mismatch) : ReadAlike (.error (.mismatch m)) (.error (.mismatch m))

namespace Expr

variable {text text' : String} {vs : Variables} {ts ts' : List Token}

/-- Texts with the same words are read alike. -/
theorem parse_alike (hts : tokens text = .ok ts) (hts' : tokens text' = .ok ts')
    (hwords : ts.map Token.word = ts'.map Token.word) : ReadAlike (parse text vs) (parse text' vs) := by
  have hsame : ∀ e, read text vs = .ok e ↔ read text' vs = .ok e := by
    intro e
    constructor
    · intro h
      exact read_of_derives hts' (hwords ▸ derives_of_read hts h)
    · intro h
      exact read_of_derives hts (hwords ▸ derives_of_read hts' h)
  unfold parse parseKind
  cases hread : read text vs with
  | ok e =>
    rw [(hsame e).mp hread]
    show ReadAlike (((e.check.mapError .mismatch) >>= fun k => pure (e, k)).map Prod.fst)
      (((e.check.mapError .mismatch) >>= fun k => pure (e, k)).map Prod.fst)
    cases e.check with
    | ok k => exact .expression e
    | error m => exact .mismatch m
  | error err =>
    cases hread' : read text' vs with
    | ok e =>
      rw [(hsame e).mpr hread'] at hread
      cases hread
    | error err' => exact .malformed err err'

/-- The layout of a text is lost, and nothing else.  Either a first character starts no token, and the text
is refused because of it.  Or the tokens cover all of the text but white space, have the same words with
single spaces between them, and the text with single spaces is read alike. -/
theorem layout_is_lost (text : String) (vs : Variables) :
    (∃ s, tokens text = .error s ∧ Lexer.IsStray text.toList s ∧
      parse text vs = .error (.malformed (.stray s))) ∨
    ∃ ts, tokens text = .ok ts ∧ Lexer.Covers text.toList ts ∧
      (∃ ts', tokens (Lexer.respaced ts) = .ok ts' ∧ ts'.map Token.word = ts.map Token.word) ∧
      ReadAlike (parse text vs) (parse (Lexer.respaced ts) vs) := by
  cases htokens : tokens text with
  | error s =>
    refine .inl ⟨s, rfl, ?_, ?_⟩
    · obtain ⟨ps, back, hcut, hnone, hposition⟩ := Lexer.exists_cut_of_error htokens
      exact ⟨ps, back, hcut, hnone, by rw [hposition, Nat.zero_add]⟩
    · unfold parse parseKind read
      rw [htokens]
      rfl
  | ok ts =>
    obtain ⟨ps, hcut, hts⟩ := Lexer.exists_cut_of_ok htokens
    have hcovers : Lexer.Covers text.toList ts := hts ▸ Lexer.covers_of_cut hcut
    obtain ⟨ts', hts', hwords⟩ := Lexer.lexes_respaced (fun t ht => (hcovers.longest t ht).lexeme) 0
    exact .inr ⟨ts, rfl, hcovers, ⟨ts', hts', hwords⟩, parse_alike htokens hts' hwords.symm⟩

example : (tokens "1.e5<=\n.5e").map Lexer.respaced = .ok "1.e5 <= .5 e" := by decide +kernel

end Expr

end TradeRules
