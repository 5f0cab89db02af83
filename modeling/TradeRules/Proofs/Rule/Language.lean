import TradeRules.Proofs.Rule.Parsed

/-!
# The language of rules

Among the texts that have tokens, the ones that are read are the ones whose tokens derive an expression in
the bounded grammar, and they are read as that expression (`Expr.read_exactly_the_language`).  The parser
is a function, so no tokens derive two expressions (`Grammar.Derives.unique`).  The tokens of any other text
lead to a syntax error.

The bound for the digits of an INTEGER literal belongs to the language.  A longer one is refused, even when
its value is small since it starts with zeros (`Expr.read_of_many_digits`).
-/

namespace TradeRules

open Parse Grammar

variable {text : String} {vs : Variables} {ts : List Token}

/-! ## One expression -/

/-- Words derive at most one expression. -/
theorem Grammar.Derives.unique {ws : List Word} {e e' : Expr}
    (h : (bounded vs).Derives .expression ws e) (h' : (bounded vs).Derives .expression ws e') :
    e = e' := by
  let ts : List Token := ws.map fun w => ⟨w.1, w.2, 0⟩
  have hwords : ts.map Token.word = ws := by
    rw [List.map_map]
    exact List.map_id ws
  rw [← hwords] at h h'
  exact Except.ok.inj ((whole_of_derives ⟨"", vs⟩ h).symm.trans (whole_of_derives ⟨"", vs⟩ h'))

namespace Expr

/-- A text with tokens is read as an expression exactly when its tokens derive the expression.  They derive
no other one, and when they derive none then the text is malformed, whether it is only read or also
checked. -/
theorem read_exactly_the_language (text : String) (vs : Variables) (ts : List Token)
    (hts : tokens text = .ok ts) :
    (∀ e, read text vs = .ok e ↔ (bounded vs).Derives .expression (ts.map Token.word) e) ∧
    (∀ e e', (bounded vs).Derives .expression (ts.map Token.word) e →
      (bounded vs).Derives .expression (ts.map Token.word) e' → e = e') ∧
    ((¬∃ e, (bounded vs).Derives .expression (ts.map Token.word) e) →
      ∃ err, read text vs = .error err ∧ parse text vs = .error (.malformed err)) := by
  refine ⟨fun e => ⟨derives_of_read hts, read_of_derives hts⟩, fun e e' h h' => h.unique h',
    fun hnone => ?_⟩
  cases hread : read text vs with
  | ok e => exact absurd ⟨e, derives_of_read hts hread⟩ hnone
  | error err =>
    refine ⟨err, rfl, ?_⟩
    unfold parse parseKind
    rw [hread]
    rfl

/-- Differences group to the left: the tokens of `held-1-2` derive one expression, and that is it. -/
theorem read_exactly_the_language_difference :
    let ts : List Token := [⟨.name, "held", 0⟩, ⟨.sign, "-", 4⟩, ⟨.number, "1", 5⟩,
      ⟨.sign, "-", 6⟩, ⟨.number, "2", 7⟩]
    tokens "held-1-2" = .ok ts ∧ ∃ one two : Literal, one.text = "1" ∧ two.text = "2" ∧
      ∀ e, (bounded (.ofRule 0.0 0.0)).Derives .expression (ts.map Token.word) e ↔
        e = .arithmetic .subtract (.arithmetic .subtract (.leaf (.variable "held" .integer))
          (.number one)) (.number two) := by
  have hts : tokens "held-1-2" = .ok [⟨.name, "held", 0⟩, ⟨.sign, "-", 4⟩, ⟨.number, "1", 5⟩,
      ⟨.sign, "-", 6⟩, ⟨.number, "2", 7⟩] := by decide +kernel
  obtain ⟨hread, -, -⟩ := read_exactly_the_language "held-1-2" (.ofRule 0.0 0.0) _ hts
  let one : Literal := .whole 1 (by decide +kernel)
  let two : Literal := .whole 2 (by decide +kernel)
  have hresult : read "held-1-2" (.ofRule 0.0 0.0) = .ok (.arithmetic .subtract
      (.arithmetic .subtract (.leaf (.variable "held" .integer)) (.number one)) (.number two)) := by
    decide +kernel
  refine ⟨hts, one, two, by decide, by decide, fun e => ?_⟩
  rw [← hread, hresult, Except.ok.injEq, eq_comm]

end Expr

/-! ## Long numbers -/

namespace Parse

variable {scope : Scope} {err : SyntaxError} {signs : Signs} {operand inner : Parse Expr}

theorem chain_error (h : operand ts = .error err) : chain signs operand ts = .error err := by
  show (operand ts >>= fun r => _) = _
  rw [h]
  rfl

/-- An error of the first factor is an error of the whole. -/
theorem whole_error (hts : ts ≠ [])
    (h : factor scope (expression scope ts.length) ts = .error err) : whole scope ts = .error err := by
  have hsum : sum scope (expression scope ts.length) ts = .error err := chain_error (chain_error h)
  have hcomparison : comparison scope (expression scope ts.length) ts = .error err := by
    show (sum scope (expression scope ts.length) ts >>= fun r => _) = _
    rw [hsum]
    rfl
  have hexpression : expression scope (ts.length + 1) ts = .error err :=
    chain_error (chain_error hcomparison)
  unfold whole
  rw [if_neg (by rwa [List.isEmpty_iff])]
  show (expression scope (ts.length + 1) ts >>= fun r => _) = _
  rw [hexpression]
  rfl

/-- A number that no literal holds is an error. -/
theorem factor_error_of_number {position : ℕ} (h : Literal.read? false text = none) :
    factor scope inner (⟨.number, text, position⟩ :: ts) = .error (.numberRange position text) := by
  show literal false ⟨.number, text, position⟩ position ts = _
  unfold literal
  rw [h]
  rfl

end Parse

/-- A whole number of too many digits is no literal. -/
theorem Literal.read?_eq_none {cs : List Char} (hcs : ∀ c ∈ cs, c.isDigit = true)
    (hlong : digitLimit < cs.length) : read? false (String.ofList cs) = none := by
  unfold read?
  rw [String.toList_ofList]
  dsimp only
  rw [any_mark_digits hcs, if_neg Bool.false_ne_true, if_pos hlong]

namespace Expr

theorem tokens_of_digits {cs : List Char} (hcs : ∀ c ∈ cs, c.isDigit = true) (hne : cs ≠ []) :
    ∃ position, tokens (String.ofList cs) = .ok [⟨.number, String.ofList cs, position⟩] := by
  let s : Decimal.Spelling := { whole := cs }
  have hs : s.Plain := ⟨hne, hcs, (fun _ h => by cases h), fun _ _ h => by cases h⟩
  obtain ⟨ts, hts, hwords⟩ := Lexer.lexes_spelling hs Lexer.front_nil Lexer.lexes_nil 0
  have hchars : s.chars = cs := List.append_nil cs
  rw [hchars] at hwords
  obtain ⟨⟨kind, text, position⟩, rfl, ht⟩ := List.map_eq_singleton_iff.mp hwords
  obtain ⟨rfl, rfl⟩ := Prod.mk.inj ht
  rw [hchars, List.append_nil] at hts
  refine ⟨position, ?_⟩
  rw [tokens, String.toList_ofList, hts]

/-- A whole number of too many digits is not read. -/
theorem read_of_many_digits {cs : List Char} (hcs : ∀ c ∈ cs, c.isDigit = true)
    (hlong : Literal.digitLimit < cs.length) (vs : Variables) :
    ∃ position, read (String.ofList cs) vs = .error (.numberRange position (String.ofList cs)) := by
  have hne : cs ≠ [] := List.ne_nil_of_length_pos (Nat.zero_lt_of_lt hlong)
  obtain ⟨position, hts⟩ := tokens_of_digits hcs hne
  refine ⟨position, ?_⟩
  unfold read
  rw [hts]
  exact whole_error (List.cons_ne_nil _ _) (factor_error_of_number (Literal.read?_eq_none hcs hlong))

theorem numberOfDigits_zeros (n : ℕ) (cs : List Char) :
    Text.numberOfDigits (List.replicate n '0' ++ cs) = Text.numberOfDigits cs := by
  induction n with
  | zero => rfl
  | succ n ih => exact ih

/-- The number one after so many zeros that its digits are one too many. -/
def longOne : List Char :=
  List.replicate Literal.digitLimit '0' ++ ['1']

/-- Without the bound for digits the grammar derives a number that is not read. -/
theorem long_one_is_not_read :
    ∃ ts e, tokens (String.ofList longOne) = .ok ts ∧
      (unbounded .empty).Derives .expression (ts.map Token.word) e ∧
      ∃ err, read (String.ofList longOne) .empty = .error err := by
  have hdigits : ∀ c ∈ longOne, c.isDigit = true := by
    intro c hc
    rcases List.mem_append.mp hc with hc | hc
    · rw [List.eq_of_mem_replicate hc]
      rfl
    · rw [List.mem_singleton.mp hc]
      rfl
  have hlength : longOne.length = Literal.digitLimit + 1 := by
    rw [longOne, List.length_append, List.length_replicate]
    rfl
  have hne : longOne ≠ [] := List.ne_nil_of_length_pos (by omega)
  obtain ⟨position, hts⟩ := tokens_of_digits hdigits hne
  obtain ⟨_, hread⟩ := read_of_many_digits hdigits (by omega) .empty
  refine ⟨_, .number (.whole 1 (by decide +kernel)), hts, ?_, _, hread⟩
  refine Derives.expression_of_factor (.number (.whole _ ?_ le_top ?_))
  · intro c hc
    rw [String.toList_ofList] at hc
    exact ⟨Decimal.Spelling.ne_of_isDigit (hdigits c hc) '.' rfl,
      Decimal.Spelling.not_isMark (hdigits c hc)⟩
  · rw [String.toList_ofList, longOne, numberOfDigits_zeros]
    decide

end Expr

end TradeRules
