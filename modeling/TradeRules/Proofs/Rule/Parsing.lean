import TradeRules.Proofs.Rule.Grammar

/-!
# What the grammar derives is parsed

`Parses p ws a rest` says that the parser `p` takes words from the front of `ws`, answers `a` and leaves
`rest`, whatever the positions of the tokens.  A parser is followed through its binds (`Parses.bind`).

The parser of a level stops before words that go on with no operation of its own or of a tighter level
(`Ends`).  For a chain of operations a derivation and the parser group differently: the derivation ends
with the last operand, the parser starts with the first one and goes on with what it has read so far.
`Leads` bridges the two.  It says that, wherever the words of the chain stand, the parser gets to the rest
of the chain with the expression that they derive.  So it can be proved along the derivation
(`Leads.join`).

The bound of the nesting is as good as none while it is not below the number of words
(`follows_of_derives`).  All of a text that derives an expression is read as the expression
(`Expr.read_of_derives`), and that holds of the printed text of an expression (`Expr.read_text`).
-/

namespace TradeRules

namespace Parse

open Word

variable {α β : Type} {scope : Scope} {ws mid rest : List Word} {w : Word} {a b : Expr}

/-- Whether a parser takes words from the front, with a result and a rest. -/
def Parses (p : Parse α) (ws : List Word) (a : α) (rest : List Word) : Prop :=
  ∀ ts : List Token, ts.map Token.word = ws →
    ∃ ts', p ts = .ok (a, ts') ∧ ts'.map Token.word = rest

/-! ## Structure -/

theorem Parses.pure (a : α) (ws : List Word) : Parses (pure a) ws a ws :=
  fun ts hts => ⟨ts, rfl, hts⟩

theorem Parses.bind {p : Parse α} {f : α → Parse β} {a : α} {b : β} (hp : Parses p ws a mid)
    (hf : Parses (f a) mid b rest) : Parses (p >>= f) ws b rest := by
  intro ts hts
  obtain ⟨ts', h, hmid⟩ := hp ts hts
  obtain ⟨ts'', h', hrest⟩ := hf ts' hmid
  refine ⟨ts'', ?_, hrest⟩
  show (p ts >>= fun r => f r.1 r.2) = _
  rw [h]
  exact h'

/-- The next token is one with the next word. -/
theorem Parses.next_bind {f : Token → Parse β} {b : β}
    (h : ∀ t : Token, t.word = w → Parses (f t) ws b rest) :
    Parses (next scope >>= f) (w :: ws) b rest := by
  intro ts hts
  cases ts with
  | nil => cases hts
  | cons t ts =>
    obtain ⟨ht, hts⟩ := List.cons.inj hts
    exact h t ht ts hts

theorem parses_skip : Parses skip (w :: ws) () ws := by
  intro ts hts
  cases ts with
  | nil => cases hts
  | cons t ts => exact ⟨ts, rfl, (List.cons.inj hts).2⟩

theorem parses_expect (kind : TokenKind) (text : String) :
    Parses (expect scope text) ((kind, text) :: ws) () ws := by
  refine Parses.next_bind fun t ht => ?_
  have htext : t.text = text := congrArg Prod.snd ht
  rw [if_neg (not_not.mpr htext)]
  exact Parses.pure () ws

theorem parses_isAt {kind : TokenKind} {text : String} (hkind : kind = .sign ∨ kind = .name) :
    Parses (isAt text) ((kind, text) :: ws) true ((kind, text) :: ws) := by
  intro ts hts
  refine ⟨ts, ?_, hts⟩
  cases ts with
  | nil => cases hts
  | cons t ts =>
    have ht := (List.cons.inj hts).1
    have hk : t.kind = kind := congrArg Prod.fst ht
    have hs : t.text = text := congrArg Prod.snd ht
    simp [isAt, hk, hs, hkind]

/-- The number of words that are left. -/
theorem Parses.length_bind {f : ℕ → Parse β} {b : β} (h : Parses (f ws.length) ws b rest) :
    Parses (do f (← get).length) ws b rest := by
  intro ts hts
  have hlen : ts.length = ws.length := by rw [← hts, List.length_map]
  show ∃ ts', f ts.length ts = _ ∧ _
  rw [hlen]
  exact h ts hts

/-! ## Operations between operands -/

/-- The operation of a level that a list of words starts with. -/
def signAt (signs : Signs) : List Word → Option Binary
  | [] => none
  | w :: _ => if w.1 = .sign ∨ w.1 = .name then signs.lookup w.2 else none

theorem parses_sign? (signs : Signs) (ws : List Word) :
    Parses (sign? signs) ws (signAt signs ws) ws := by
  intro ts hts
  refine ⟨ts, ?_, hts⟩
  subst hts
  cases ts with
  | nil => rfl
  | cons t ts => rfl

variable {signs : Signs} {operand : Parse Expr} {op : Binary}

theorem parses_more_none (h : signAt signs ws = none) (bound : ℕ) :
    Parses (more signs operand bound a) ws a ws := by
  cases bound with
  | zero => exact Parses.pure a ws
  | succ bound =>
    have hsign := parses_sign? signs ws
    rw [h] at hsign
    exact hsign.bind (Parses.pure a ws)

/-- The operations of a level and the tighter ones. -/
def signsWithin : Level → List Signs
  | .factor => []
  | .product => [productSigns]
  | .sum => [sumSigns, productSigns]
  | .comparison => [comparisonSigns, sumSigns, productSigns]
  | .conjunction => [conjunctionSigns, comparisonSigns, sumSigns, productSigns]
  | .expression => [disjunctionSigns, conjunctionSigns, comparisonSigns, sumSigns, productSigns]

/-- Whether words go on with no operation of a level or a tighter one. -/
def Ends (level : Level) (ws : List Word) : Prop :=
  ∀ signs ∈ signsWithin level, signAt signs ws = none

instance (level : Level) (ws : List Word) : Decidable (Ends level ws) :=
  inferInstanceAs (Decidable (∀ signs ∈ signsWithin level, signAt signs ws = none))

theorem ends_cons {level : Level} : Ends level (w :: ws) ↔ Ends level [w] :=
  Iff.rfl

theorem ends_nil (level : Level) : Ends level [] :=
  fun _ _ => rfl

theorem ends_close (ws : List Word) : Ends .expression (sign ")" :: ws) :=
  ends_cons.mpr (by decide)

theorem ends_comma (ws : List Word) : Ends .expression (sign "," :: ws) :=
  ends_cons.mpr (by decide)

theorem ends_brace (ws : List Word) : Ends .expression (sign "\x7d" :: ws) :=
  ends_cons.mpr (by decide)

/-- Whether a parser reads words as an expression, before words at which a level ends. -/
def Reads (p : Parse Expr) (level : Level) (ws : List Word) (e : Expr) : Prop :=
  ∀ rest, Ends level rest → Parses p (ws ++ rest) e rest

/-- Whether the parser of a chain, with operands of a level, comes from words to what follows them with an
expression as the left operand. -/
def Leads (signs : Signs) (operand : Parse Expr) (level : Level) (ws : List Word) (a : Expr) : Prop :=
  ∀ mid b rest, Ends level mid →
    (∀ bound, mid.length ≤ bound → Parses (more signs operand bound a) mid b rest) →
    Parses (chain signs operand) (ws ++ mid) b rest

variable {level : Level} {as bs cs : List Word}

theorem Leads.one (h : Reads operand level ws a) : Leads signs operand level ws a := by
  intro mid b rest hmid hmore
  exact (h mid hmid).bind
    (Parses.length_bind (f := fun n => more signs operand n a) (hmore mid.length le_rfl))

/-- A chain goes on with a word of its level and one more operand. -/
theorem Leads.join (ha : Leads signs operand level as a) (hw : signAt signs [w] = some op)
    (hends : Ends level [w]) (hb : Reads operand level bs b) :
    Leads signs operand level (as ++ w :: bs) (.binary op a b) := by
  intro mid c rest hmid hmore
  rw [List.append_assoc]
  refine ha (w :: (bs ++ mid)) c rest hends fun bound hbound => ?_
  rw [List.length_cons, List.length_append] at hbound
  cases bound with
  | zero => omega
  | succ bound =>
    have hsign := parses_sign? signs (w :: (bs ++ mid))
    rw [show signAt signs (w :: (bs ++ mid)) = some op from hw] at hsign
    exact hsign.bind (parses_skip.bind ((hb mid hmid).bind (hmore bound (by omega))))

/-- A chain is read when no operation of its level follows. -/
theorem Leads.reads (h : Leads signs operand level ws a) {outer : Level}
    (houter : signsWithin outer = signs :: signsWithin level) :
    Reads (chain signs operand) outer ws a := by
  intro rest hrest
  unfold Ends at hrest
  rw [houter] at hrest
  obtain ⟨hsigns, hends⟩ := List.forall_mem_cons.mp hrest
  exact h rest a rest hends fun bound _ => parses_more_none hsigns bound

/-! ## Factors -/

variable {inner : Parse Expr}

theorem parses_literal {negative : Bool} {t : Token} {l : Literal}
    (h : Literal.read? negative t.text = some l) (position : ℕ) :
    Parses (literal negative t position) ws (.number l) ws := by
  rw [literal, h]
  exact Parses.pure _ ws

theorem parses_factor_number {text : String} {l : Literal} (h : Literal.read? false text = some l) :
    Parses (factor scope inner) (number text :: ws) (.number l) ws := by
  refine Parses.next_bind fun t ht => ?_
  obtain ⟨kind, t, position⟩ := t
  cases ht
  exact parses_literal h position

theorem parses_factor_negative {text : String} {l : Literal} (h : Literal.read? true text = some l) :
    Parses (factor scope inner) (sign "-" :: number text :: ws) (.number l) ws := by
  refine Parses.next_bind fun t ht => ?_
  obtain ⟨kind, t, position⟩ := t
  cases ht
  refine Parses.next_bind fun t' ht' => ?_
  obtain ⟨kind', t', position'⟩ := t'
  cases ht'
  exact parses_literal h position

theorem parses_factor_parens (scope : Scope) (h : Parses inner ws a (sign ")" :: rest)) :
    Parses (factor scope inner) (sign "(" :: ws) a rest := by
  refine Parses.next_bind fun t ht => ?_
  obtain ⟨kind, t, position⟩ := t
  cases ht
  exact h.bind ((parses_expect _ _).bind (Parses.pure a rest))

theorem parses_factor_name (text : String)
    (h : ∀ t : Token, t.text = text → Parses (named scope inner t) ws a rest) :
    Parses (factor scope inner) (name text :: ws) a rest := by
  refine Parses.next_bind fun t ht => ?_
  have htext := congrArg Prod.snd ht
  obtain ⟨kind, t, position⟩ := t
  cases ht
  exact h _ htext

theorem parses_named_truth {b : Bool} {t : Token} (ht : t.text = if b then "true" else "false") :
    Parses (named scope inner t) ws (.truth b) ws := by
  unfold named
  rw [ht]
  cases b with
  | true => exact Parses.pure _ ws
  | false => exact Parses.pure _ ws

theorem parses_named_choice {t : Token} (ht : t.text = "if")
    (h : Parses (branches scope inner) ws a rest) : Parses (named scope inner t) ws a rest := by
  unfold named
  rw [ht]
  exact h

/-- A name of its own: no word of the grammar and no function. -/
theorem parses_named_reference {t : Token} (htrue : t.text ≠ "true") (hfalse : t.text ≠ "false")
    (hif : t.text ≠ "if") (hcallee : Callee.ofName? t.text = none)
    (h : Parses (reference scope t) ws a rest) : Parses (named scope inner t) ws a rest := by
  unfold named
  rw [if_neg htrue, if_neg hfalse, if_neg hif, hcallee]
  exact h

theorem parses_named_call {t : Token} {callee : Callee} (hcallee : Callee.ofName? t.text = some callee)
    (h : Parses (call scope inner t.text callee) ws a rest) :
    Parses (named scope inner t) ws a rest := by
  have hne : ∀ word, Callee.ofName? word = none → t.text ≠ word := by
    rintro word hword rfl
    rw [hword] at hcallee
    cases hcallee
  unfold named
  rw [if_neg (hne _ (by decide)), if_neg (hne _ (by decide)), if_neg (hne _ (by decide)), hcallee]
  exact h

/-! ## Calls and choices -/

theorem parses_arguments (function : String) (takes : ℕ) {arguments : List (List Word × Expr)}
    (h : ∀ p ∈ arguments, Reads inner .expression p.1 p.2) (before : ℕ) (ws : List Word) :
    Parses (Parse.arguments function takes inner arguments.length before)
      (separated (arguments.map Prod.fst) ++ sign ")" :: ws) (arguments.map Prod.snd)
      (sign ")" :: ws) := by
  induction arguments generalizing before with
  | nil => exact Parses.pure _ _
  | cons p arguments ih =>
    obtain ⟨hp, htail⟩ := List.forall_mem_cons.mp h
    have hrest := ih htail (before + 1)
    cases arguments with
    | nil =>
      refine (hp _ (ends_close ws)).bind ?_
      exact hrest.bind (Parses.pure _ _)
    | cons q arguments =>
      have hfirst := hp (sign "," :: (separated ((q :: arguments).map Prod.fst) ++ sign ")" :: ws))
        (ends_comma _)
      have hsplit : separated ((p :: q :: arguments).map Prod.fst) ++ sign ")" :: ws =
          p.1 ++ sign "," :: (separated ((q :: arguments).map Prod.fst) ++ sign ")" :: ws) :=
        List.append_assoc _ _ _
      rw [hsplit]
      refine hfirst.bind ?_
      rw [if_pos (by simp)]
      exact (parses_isAt (.inl rfl)).bind (parses_skip.bind (hrest.bind (Parses.pure _ _)))

theorem parses_closing (function : String) (takes : ℕ) (ws : List Word) :
    Parses (closing function takes) (sign ")" :: ws) () ws :=
  (parses_isAt (.inl rfl)).bind parses_skip

/-- The call of a function with the operands of its node as arguments. -/
theorem parses_call_node (scope : Scope) (function : String) {e : Expr}
    {arguments : List (List Word × Expr)} (hoperands : arguments.map Prod.snd = e.operands)
    (h : ∀ p ∈ arguments, Reads inner .expression p.1 p.2) (ws : List Word) :
    Parses (call scope inner function (.node e.head))
      (sign "(" :: (separated (arguments.map Prod.fst) ++ sign ")" :: ws)) e ws := by
  have harity : arguments.length = (Callee.node e.head).arity := by
    rw [Callee.arity, ← Expr.length_operands, ← hoperands, List.length_map]
  have harguments := parses_arguments function (Callee.node e.head).arity h 0 ws
  rw [harity, hoperands] at harguments
  refine (parses_expect _ _).bind ((Parses.pure (e.head, 0) _).bind (harguments.bind
    ((parses_closing _ _ ws).bind ?_)))
  rw [Expr.ofHead?_head_operands]
  exact Parses.pure e ws

/-- The symbol of a correlation. -/
theorem parses_partner (scope : Scope) (function partner : String) (ws : List Word) :
    Parses (Parse.partner scope function) (quoted partner :: sign "," :: ws) partner ws := by
  refine Parses.next_bind fun t ht => ?_
  have hkind : t.kind = .string := congrArg Prod.fst ht
  have htext : t.text = String.ofList ('"' :: (partner.toList ++ ['"'])) := congrArg Prod.snd ht
  rw [if_neg (not_not.mpr hkind), htext, String.toList_ofList, List.drop_one, List.tail_cons,
    List.dropLast_concat, String.ofList_toList]
  exact (parses_expect _ _).bind (Parses.pure partner _)

/-- The call of the correlation, with its partner before the operands. -/
theorem parses_call_correlation (scope : Scope) (function partner : String) {c : Expr}
    (ha : Reads inner .expression as a) (hb : Reads inner .expression bs b)
    (hc : Reads inner .expression cs c) (ws : List Word) :
    Parses (call scope inner function .correlation)
      (sign "(" :: quoted partner :: sign "," :: (separated [as, bs, cs] ++ sign ")" :: ws))
      (.ternary (.correlation partner) a b c) ws := by
  have hinner : ∀ p ∈ [(as, a), (bs, b), (cs, c)], Reads inner .expression p.1 p.2 := by
    simp [ha, hb, hc]
  have harguments := parses_arguments function Callee.correlation.arity hinner 1 ws
  exact (parses_expect _ _).bind ((parses_partner scope function partner _).bind
    ((Parses.pure (_, 1) _).bind (harguments.bind ((parses_closing _ _ ws).bind
      (Parses.pure _ ws)))))

theorem parses_branches (scope : Scope) {c : Expr} (ha : Reads inner .expression as a)
    (hb : Reads inner .expression bs b) (hc : Reads inner .expression cs c) (ws : List Word) :
    Parses (branches scope inner)
      (sign "(" :: (as ++ sign ")" :: sign "\x7b" :: (bs ++ sign "\x7d" :: name "else" ::
        sign "\x7b" :: (cs ++ sign "\x7d" :: ws)))) (.choice a b c) ws :=
  (parses_expect _ _).bind <| (ha _ (ends_close _)).bind <| (parses_expect _ _).bind <|
    (parses_expect _ _).bind <| (hb _ (ends_brace _)).bind <| (parses_expect _ _).bind <|
    (parses_expect _ _).bind <| (parses_expect _ _).bind <| (hc _ (ends_brace _)).bind <|
    (parses_expect _ _).bind <| Parses.pure _ ws

/-! ## Comparisons -/

theorem reads_comparison_one (h : Reads (sum scope inner) .sum ws a) :
    Reads (comparison scope inner) .comparison ws a := by
  intro rest hrest
  obtain ⟨hcomparison, hsum⟩ := List.forall_mem_cons.mp hrest
  have hsign := parses_sign? comparisonSigns rest
  rw [hcomparison] at hsign
  exact (h rest hsum).bind (hsign.bind (Parses.pure a rest))

theorem reads_comparison_two (op : Comparison) (ha : Reads (sum scope inner) .sum as a)
    (hb : Reads (sum scope inner) .sum bs b) :
    Reads (comparison scope inner) .comparison (as ++ sign op.sign :: bs) (.comparison op a b) := by
  intro rest hrest
  have hsum : Ends .sum [sign op.sign] := by cases op <;> decide
  have hop : signAt comparisonSigns [sign op.sign] = some (.comparison op) := by cases op <;> decide
  have hsign := parses_sign? comparisonSigns (sign op.sign :: (bs ++ rest))
  rw [show signAt comparisonSigns (sign op.sign :: (bs ++ rest)) = _ from hop] at hsign
  rw [List.append_assoc]
  exact (ha _ (ends_cons.mpr hsum)).bind (hsign.bind (parses_skip.bind
    ((hb rest (List.forall_mem_cons.mp hrest).2).bind (Parses.pure _ rest))))

/-! ## Derivations -/

/-- What the parser of a level does with words that derive an expression at this level, when the nesting
inside of factors is within a bound. -/
def Follows (scope : Scope) (bound : ℕ) : Level → List Word → Expr → Prop
  | .factor => Reads (factor scope (expression scope bound)) .factor
  | .product => Leads productSigns (factor scope (expression scope bound)) .factor
  | .sum => Leads sumSigns (chain productSigns (factor scope (expression scope bound))) .product
  | .comparison => Reads (comparison scope (expression scope bound)) .comparison
  | .conjunction => Leads conjunctionSigns (comparison scope (expression scope bound)) .comparison
  | .expression => Leads disjunctionSigns
      (chain conjunctionSigns (comparison scope (expression scope bound))) .conjunction

/-- An expression inside of a factor is read, with a bound that leaves out the factor's own words. -/
theorem reads_inner {bound : ℕ} (h : ∀ n, ws.length ≤ n → Follows scope n .expression ws e)
    (hbound : ws.length < bound) : Reads (expression scope bound) .expression ws e := by
  cases bound with
  | zero => omega
  | succ bound => exact Leads.reads (h bound (by omega)) rfl

/-- The operands of an operation are within a bound when the words of all are. -/
theorem operands_within {bound : ℕ} (h : (as ++ w :: bs).length ≤ bound) :
    as.length ≤ bound ∧ bs.length ≤ bound := by
  rw [List.length_append, List.length_cons] at h
  omega

/-- The parser follows every derivation. -/
theorem follows_of_derives {level : Level} (h : (Grammar.bounded scope.bindings).Derives level ws e) :
    ∀ bound, ws.length ≤ bound → Follows scope bound level ws e := by
  induction h with
  | ofConjunction _ ih => exact fun bound hbound => Leads.one (Leads.reads (ih bound hbound) rfl)
  | or _ _ iha ihb =>
    intro bound hbound
    obtain ⟨has, hbs⟩ := operands_within hbound
    exact Leads.join (iha bound has) rfl (by decide) (Leads.reads (ihb bound hbs) rfl)
  | ofComparison _ ih => exact fun bound hbound => Leads.one (ih bound hbound)
  | and _ _ iha ihb =>
    intro bound hbound
    obtain ⟨has, hbs⟩ := operands_within hbound
    exact Leads.join (iha bound has) rfl (by decide) (ihb bound hbs)
  | ofSum _ ih => exact fun bound hbound => reads_comparison_one (Leads.reads (ih bound hbound) rfl)
  | compare op _ _ iha ihb =>
    intro bound hbound
    obtain ⟨has, hbs⟩ := operands_within hbound
    exact reads_comparison_two op (Leads.reads (iha bound has) rfl)
      (Leads.reads (ihb bound hbs) rfl)
  | ofProduct _ ih => exact fun bound hbound => Leads.one (Leads.reads (ih bound hbound) rfl)
  | add _ _ iha ihb =>
    intro bound hbound
    obtain ⟨has, hbs⟩ := operands_within hbound
    exact Leads.join (iha bound has) rfl (by decide) (Leads.reads (ihb bound hbs) rfl)
  | subtract _ _ iha ihb =>
    intro bound hbound
    obtain ⟨has, hbs⟩ := operands_within hbound
    exact Leads.join (iha bound has) rfl (by decide) (Leads.reads (ihb bound hbs) rfl)
  | ofFactor _ ih => exact fun bound hbound => Leads.one (ih bound hbound)
  | multiply _ _ iha ihb =>
    intro bound hbound
    obtain ⟨has, hbs⟩ := operands_within hbound
    exact Leads.join (iha bound has) rfl (by decide) (ihb bound hbs)
  | divide _ _ iha ihb =>
    intro bound hbound
    obtain ⟨has, hbs⟩ := operands_within hbound
    exact Leads.join (iha bound has) rfl (by decide) (ihb bound hbs)
  | number hl => exact fun bound _ rest _ => parses_factor_number (Grammar.numeral_bounded_iff.mp hl)
  | negative hl =>
    exact fun bound _ rest _ => parses_factor_negative (Grammar.numeral_bounded_iff.mp hl)
  | truth b => exact fun bound _ rest _ => parses_factor_name _ fun t ht => parses_named_truth ht
  | @parentheses ws e _ ih =>
    intro bound hbound rest _
    simp only [List.length_cons, List.length_append] at hbound
    have hinner : Reads (expression scope bound) .expression ws e := reads_inner ih (by omega)
    have := parses_factor_parens scope (hinner _ (ends_close rest))
    simpa using this
  | @choice as bs cs a b c _ _ _ iha ihb ihc =>
    intro bound hbound rest _
    simp only [List.length_cons, List.length_append] at hbound
    have ha : Reads (expression scope bound) .expression as a := reads_inner iha (by omega)
    have hb : Reads (expression scope bound) .expression bs b := reads_inner ihb (by omega)
    have hc : Reads (expression scope bound) .expression cs c := reads_inner ihc (by omega)
    have hbranches := parses_branches scope ha hb hc rest
    have := parses_factor_name "if" fun t ht => parses_named_choice (t := t) ht hbranches
    simpa using this
  | @call function e arguments hfunction hoperands _ ih =>
    intro bound hbound rest _
    have hinner : ∀ p ∈ arguments, Reads (expression scope bound) .expression p.1 p.2 := by
      intro p hp
      have hlength := (Grammar.sublist_separated (List.mem_map_of_mem (f := Prod.fst) hp)).length_le
      simp only [Word.call, List.length_cons, List.length_append] at hbound
      exact reads_inner (ih p hp) (by omega)
    have hcall := parses_call_node scope function hoperands hinner rest
    have := parses_factor_name function fun t ht =>
      parses_named_call (t := t) (by rw [ht]; exact hfunction) (ht ▸ hcall)
    simpa [Word.call] using this
  | @correlation function partner as bs cs a b c hfunction _ _ _ iha ihb ihc =>
    intro bound hbound rest _
    simp only [Word.call, separated, List.length_cons, List.length_append] at hbound
    have ha : Reads (expression scope bound) .expression as a := reads_inner iha (by omega)
    have hb : Reads (expression scope bound) .expression bs b := reads_inner ihb (by omega)
    have hc : Reads (expression scope bound) .expression cs c := reads_inner ihc (by omega)
    have hcall := parses_call_correlation scope function partner ha hb hc rest
    have := parses_factor_name function fun t ht =>
      parses_named_call (t := t) (by rw [ht]; exact hfunction) (ht ▸ hcall)
    simpa [Word.call] using this
  | field hfree hfield =>
    intro bound _ rest _
    refine parses_factor_name _ fun t ht => ?_
    subst ht
    refine parses_named_reference hfree.not_true hfree.not_false hfree.not_if hfree.not_function ?_
    unfold reference
    rw [hfield]
    exact Parses.pure _ rest
  | reference hfree hfield hv =>
    intro bound _ rest _
    refine parses_factor_name _ fun t ht => ?_
    subst ht
    refine parses_named_reference hfree.not_true hfree.not_false hfree.not_if hfree.not_function ?_
    unfold reference
    rw [hfield, show scope.bindings.get? t.text = _ from hv]
    exact Parses.pure _ rest

/-- Tokens that derive an expression are read as the expression. -/
theorem whole_of_derives (scope : Scope) {ts : List Token}
    (h : (Grammar.bounded scope.bindings).Derives .expression (ts.map Token.word) e) :
    whole scope ts = .ok e := by
  have hfollows := follows_of_derives h ts.length (by rw [List.length_map])
  have hreads : Reads (expression scope (ts.length + 1)) .expression (ts.map Token.word) e :=
    Leads.reads hfollows rfl
  obtain ⟨ts', hrun, hnil⟩ := hreads [] (ends_nil _) ts (List.append_nil _).symm
  obtain rfl := List.map_eq_nil_iff.mp hnil
  have hpos := h.length_pos
  have hempty : ¬ts.isEmpty = true := by
    rw [List.isEmpty_iff]
    rintro rfl
    exact absurd hpos (lt_irrefl _)
  unfold whole
  rw [if_neg hempty]
  show (expression scope (ts.length + 1) ts >>= _) = _
  rw [hrun]
  rfl

end Parse

/-! ## Texts -/

namespace Expr

open Parse

variable {text : String} {vs : Variables} {ts : List Token} {e : Expr}

/-- A text whose tokens derive an expression is read as the expression. -/
theorem read_of_derives (hts : tokens text = .ok ts)
    (h : (Grammar.bounded vs).Derives .expression (ts.map Token.word) e) : read text vs = .ok e := by
  unfold read
  rw [hts]
  exact whole_of_derives ⟨text, vs⟩ h

theorem Writable.spelled (h : e.Writable vs) : e.Named .spelled := by
  refine Named.mono (N := .readable vs) (fun _ _ hname => ?_) (fun _ hpartner => hpartner) h
  exact Lexer.tokens_eq_name_iff.mp (Variables.Refers.token hname)

/-- The text of an expression is read as the expression. -/
theorem read_text (h : e.Writable vs) : read e.text vs = .ok e := by
  obtain ⟨ts, hts, hwords⟩ := tokens_text h.spelled
  refine read_of_derives hts ?_
  rw [hwords]
  exact derives_expression (derives_words h)

/-- The text of a well-typed expression is parsed as the expression. -/
theorem parse_of_writable {k : Kind} (hk : e.HasKind k) (h : e.Writable vs) :
    parse e.text vs = .ok e := by
  have hcheck : e.check = .ok k := hk
  unfold parse parseKind
  rw [read_text h]
  show ((do let k ← e.check.mapError .mismatch; return (e, k)) : Except RuleError _).map _ = _
  rw [hcheck]
  rfl

end Expr

end TradeRules
