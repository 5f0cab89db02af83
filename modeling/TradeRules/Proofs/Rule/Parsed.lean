import TradeRules.Proofs.Rule.Parsing

/-!
# What is parsed is derived

`Takes p R` says that the words which a parser takes from the front of proper tokens stand in the relation
`R` to its result.  A parser is followed through its binds (`Takes.bind`), and each level of the grammar
takes words that derive its result (`Parse.takes_expression`).  So an expression that is read from a text
is derived by the tokens of the text (`Expr.derives_of_read`).

The parser asks for most words by their texts only.  Tokens of a text have the shapes of their kinds, so
the text determines the kind (`Lexer.IsProper.eq_of_text`).

A variable in a derived expression comes from a name that stands for nothing else, and a partner from a
string.  So the expression is `Writable` (`Expr.writable_of_read`), and its text is parsed as itself again.
-/

namespace TradeRules

namespace Parse

open Lexer Word Grammar

variable {α β : Type} {scope : Scope} {R : List Word → α → Prop} {S : List Word → β → Prop}

/-- Whether the words that a parser takes from proper tokens stand in a relation to its result. -/
def Takes (p : Parse α) (R : List Word → α → Prop) : Prop :=
  ∀ ts a ts', (∀ t ∈ ts, IsProper t.word) → p ts = .ok (a, ts') →
    ∃ us, ts = us ++ ts' ∧ R (us.map Token.word) a

/-! ## Structure -/

theorem Takes.pure {a : α} (h : R [] a) : Takes (pure a) R := by
  intro ts b ts' _ hrun
  cases hrun
  exact ⟨[], rfl, h⟩

theorem Takes.throw {e : SyntaxError} : Takes (throw e : Parse α) R := by
  intro ts b ts' _ hrun
  cases hrun

theorem Takes.bind {p : Parse α} {f : α → Parse β} (hp : Takes p R)
    (hf : ∀ us a, R us a → Takes (f a) fun vs b => S (us ++ vs) b) : Takes (p >>= f) S := by
  intro ts b ts' hts hrun
  obtain ⟨⟨a, rest⟩, ha, hb⟩ := bind_eq_ok.mp hrun
  obtain ⟨us, rfl, hR⟩ := hp _ _ _ hts ha
  obtain ⟨vs, rfl, hS⟩ := hf _ _ hR _ _ _ (fun t ht => hts t (List.mem_append_right _ ht)) hb
  exact ⟨us ++ vs, (List.append_assoc us vs ts').symm, by rwa [List.map_append]⟩

theorem Takes.ite {c : Prop} [Decidable c] {p q : Parse α} (hp : c → Takes p R)
    (hq : ¬c → Takes q R) : Takes (if c then p else q) R := by
  split_ifs with hc
  · exact hp hc
  · exact hq hc

theorem Takes.mono {R' : List Word → α → Prop} {p : Parse α} (hp : Takes p R)
    (h : ∀ us a, R us a → R' us a) : Takes p R' := by
  intro ts a ts' hts hrun
  obtain ⟨us, hsplit, ha⟩ := hp _ _ _ hts hrun
  exact ⟨us, hsplit, h _ _ ha⟩

theorem Takes.next_bind {f : Token → Parse β}
    (hf : ∀ t, IsProper t.word → Takes (f t) fun vs b => S (t.word :: vs) b) :
    Takes (next scope >>= f) S := by
  refine Takes.bind (R := fun us t => IsProper t.word ∧ us = [t.word]) ?_ ?_
  · intro ts t ts' hts hrun
    cases ts with
    | nil => cases hrun
    | cons t ts =>
      cases hrun
      exact ⟨[t], rfl, hts t List.mem_cons_self, rfl⟩
  · rintro us t ⟨ht, rfl⟩
    exact hf t ht

/-- The word that a parser asks for by its text. -/
theorem Takes.expect_bind {text : String} {f : Unit → Parse β} (kind : TokenKind)
    (hkind : text.toList.head?.map kindOf = some kind)
    (hf : Takes (f ()) fun vs b => S ((kind, text) :: vs) b) : Takes (expect scope text >>= f) S := by
  refine Takes.bind (R := fun us _ => us = [(kind, text)]) ?_ ?_
  · refine Takes.next_bind fun t ht => Takes.ite (fun _ => Takes.throw) fun htext => ?_
    exact Takes.pure (by rw [ht.eq_of_text kind (not_not.mp htext) hkind])
  · rintro us _ rfl
    exact hf

/-- The word whose absence is an error of its own. -/
theorem takes_accept {text : String} {e : SyntaxError} (kind : TokenKind)
    (hkind : text.toList.head?.map kindOf = some kind) :
    Takes (do if ← isAt text then skip else throw e) fun us _ => us = [(kind, text)] := by
  intro ts _ ts' hts hrun
  cases ts with
  | nil => cases hrun
  | cons t ts =>
    replace hrun : (if decide ((t.kind = .sign ∨ t.kind = .name) ∧ t.text = text) = true then skip
      else throw e : Parse Unit) (t :: ts) = .ok (_, ts') := hrun
    split_ifs at hrun with hfound
    · cases hrun
      have hword := (hts t List.mem_cons_self).eq_of_text kind (of_decide_eq_true hfound).2 hkind
      exact ⟨[t], rfl, congrArg (· :: []) hword⟩
    · cases hrun

/-! ## Operations between operands -/

variable {signs : Signs} {op : Binary} {w : Word}

/-- The operation of a level comes next, or the level ends. -/
theorem Takes.sign_bind {f : Option Binary → Parse β} {g : Binary → Parse β}
    (hf : ∀ op, f (some op) = skip >>= fun _ => g op) (hnone : Takes (f none) S)
    (hsome : ∀ w op, IsProper w → signAt signs [w] = some op →
      Takes (g op) fun vs b => S (w :: vs) b) : Takes (sign? signs >>= f) S := by
  intro ts b ts' hts hrun
  cases ts with
  | nil => exact hnone _ _ _ hts hrun
  | cons t ts =>
    obtain ⟨ht, htail⟩ := List.forall_mem_cons.mp hts
    cases hfound : signAt signs [t.word] with
    | none =>
      replace hrun : f (signAt signs [t.word]) (t :: ts) = .ok (b, ts') := hrun
      rw [hfound] at hrun
      exact hnone _ _ _ hts hrun
    | some op =>
      replace hrun : f (signAt signs [t.word]) (t :: ts) = .ok (b, ts') := hrun
      rw [hfound, hf] at hrun
      obtain ⟨us, rfl, hS⟩ := hsome _ _ ht hfound _ _ _ htail hrun
      exact ⟨t :: us, rfl, hS⟩

theorem mem_of_signAt (h : signAt signs [w] = some op) : (w.2, op) ∈ signs := by
  dsimp only [signAt] at h
  split_ifs at h
  obtain ⟨before, after, rfl, -⟩ := List.lookup_eq_some_iff.mp h
  exact List.mem_append_right _ List.mem_cons_self

variable {G : Grammar} {level outer : Level} {operand inner : Parse Expr}

/-- Whether an operation of a level joins what is derived at the level with an operand of the next one. -/
def Joins (G : Grammar) (signs : Signs) (outer level : Level) : Prop :=
  ∀ w op, IsProper w → signAt signs [w] = some op → ∀ as a bs b, G.Derives outer as a →
    G.Derives level bs b → G.Derives outer (as ++ w :: bs) (.binary op a b)

theorem takes_more (hjoins : Joins G signs outer level) (hoperand : Takes operand (G.Derives level))
    (bound : ℕ) {as : List Word} {a : Expr} (ha : G.Derives outer as a) :
    Takes (more signs operand bound a) fun us e => G.Derives outer (as ++ us) e := by
  induction bound generalizing as a with
  | zero => exact Takes.pure (by rwa [List.append_nil])
  | succ bound ih =>
    refine Takes.sign_bind (fun _ => rfl) (Takes.pure (by rwa [List.append_nil])) fun w op hw hop => ?_
    refine hoperand.bind fun bs b hb => (ih (hjoins w op hw hop _ _ _ _ ha hb)).mono fun us e he => ?_
    rwa [List.append_assoc] at he

/-- A chain takes words of its level. -/
theorem takes_chain (hone : ∀ ws e, G.Derives level ws e → G.Derives outer ws e)
    (hjoins : Joins G signs outer level) (hoperand : Takes operand (G.Derives level)) :
    Takes (chain signs operand) (G.Derives outer) := by
  refine hoperand.bind fun as a ha => ?_
  intro ts e ts' hts hrun
  exact takes_more hjoins hoperand ts.length (hone as a ha) _ _ _ hts hrun

theorem joins_product : Joins G productSigns .product .factor := by
  intro w op hw hop as a bs b ha hb
  have hmem := mem_of_signAt hop
  simp only [productSigns, List.map_cons, List.map_nil, List.mem_cons, List.not_mem_nil, or_false,
    Prod.mk.injEq] at hmem
  rcases hmem with ⟨htext, rfl⟩ | ⟨htext, rfl⟩
  · rw [hw.eq_of_text .sign htext rfl]
    exact .multiply ha hb
  · rw [hw.eq_of_text .sign htext rfl]
    exact .divide ha hb

theorem joins_sum : Joins G sumSigns .sum .product := by
  intro w op hw hop as a bs b ha hb
  have hmem := mem_of_signAt hop
  simp only [sumSigns, List.map_cons, List.map_nil, List.mem_cons, List.not_mem_nil, or_false,
    Prod.mk.injEq] at hmem
  rcases hmem with ⟨htext, rfl⟩ | ⟨htext, rfl⟩
  · rw [hw.eq_of_text .sign htext rfl]
    exact .add ha hb
  · rw [hw.eq_of_text .sign htext rfl]
    exact .subtract ha hb

theorem joins_conjunction : Joins G conjunctionSigns .conjunction .comparison := by
  intro w op hw hop as a bs b ha hb
  obtain ⟨htext, rfl⟩ := Prod.mk.inj (List.mem_singleton.mp (mem_of_signAt hop))
  rw [hw.eq_of_text .name htext rfl]
  exact .and ha hb

theorem joins_disjunction : Joins G disjunctionSigns .expression .conjunction := by
  intro w op hw hop as a bs b ha hb
  obtain ⟨htext, rfl⟩ := Prod.mk.inj (List.mem_singleton.mp (mem_of_signAt hop))
  rw [hw.eq_of_text .name htext rfl]
  exact .or ha hb

theorem takes_comparison (h : Takes (sum scope inner) (G.Derives .sum)) :
    Takes (comparison scope inner) (G.Derives .comparison) := by
  refine h.bind fun as a ha => Takes.sign_bind (fun _ => rfl) ?_ fun w op hw hop => ?_
  · exact Takes.pure (by rw [List.append_nil]; exact .ofSum ha)
  · refine h.bind fun bs b hb => Takes.pure ?_
    have hmem := mem_of_signAt hop
    obtain ⟨comparison, -, hentry⟩ := List.mem_map.mp hmem
    obtain ⟨htext, rfl⟩ := Prod.mk.inj hentry
    have hword : w = sign comparison.sign :=
      hw.eq_of_text .sign htext.symm (by cases comparison <;> rfl)
    rw [List.append_nil, hword]
    exact .compare comparison ha hb

/-! ## Calls and choices -/

variable {vs : Variables}

theorem takes_literal (vs : Variables) (negative : Bool) (t : Token) (position : ℕ) :
    Takes (literal negative t position) fun us e =>
      us = [] ∧ ∃ l, e = .number l ∧ (bounded vs).Numeral negative t.text l := by
  unfold literal
  split
  · next l hl => exact Takes.pure ⟨rfl, l, rfl, numeral_bounded_iff.mpr hl⟩
  · exact Takes.throw

theorem takes_branches (h : Takes inner (G.Derives .expression)) :
    Takes (branches scope inner) fun us e => G.Derives .factor (name "if" :: us) e :=
  Takes.expect_bind .sign rfl <| h.bind fun _ _ ha => Takes.expect_bind .sign rfl <|
    Takes.expect_bind .sign rfl <| h.bind fun _ _ hb => Takes.expect_bind .sign rfl <|
    Takes.expect_bind .name rfl <| Takes.expect_bind .sign rfl <| h.bind fun _ _ hc =>
    Takes.expect_bind .sign rfl <| Takes.pure <| .choice ha hb hc

/-- A comma is asked for between two arguments. -/
theorem isAt_bind (text : String) (e : SyntaxError) (p : Parse α) :
    (isAt text >>= fun found => if found then skip >>= fun _ => p
      else (throw e : Parse Unit) >>= fun _ => p) =
      (do if ← isAt text then skip else throw e) >>= fun _ => p := by
  rw [bind_assoc]
  exact congrArg (isAt text >>= ·) (funext fun found => by cases found <;> rfl)

theorem takes_arguments (function : String) (takes : ℕ) (h : Takes inner (G.Derives .expression))
    (missing before : ℕ) : Takes (arguments function takes inner missing before) fun us es =>
      ∃ args : List (List Word × Expr), args.length = missing ∧ us = separated (args.map Prod.fst) ∧
        es = args.map Prod.snd ∧ ∀ p ∈ args, G.Derives .expression p.1 p.2 := by
  induction missing generalizing before with
  | zero => exact Takes.pure ⟨[], rfl, rfl, rfl, List.forall_mem_nil _⟩
  | succ missing ih =>
    refine h.bind fun as a ha => Takes.ite (fun hmissing => ?_) fun hlast => ?_
    · rw [isAt_bind]
      refine (takes_accept .sign rfl).bind fun _ _ hcomma => (ih (before + 1)).bind ?_
      rintro us es ⟨args, hlength, rfl, rfl, hargs⟩
      subst hcomma
      refine Takes.pure ⟨(as, a) :: args, by rw [List.length_cons, hlength], ?_, rfl,
        List.forall_mem_cons.mpr ⟨ha, hargs⟩⟩
      cases args with
      | nil => exact absurd hlength.symm hmissing
      | cons p args => simp [separated, sign]
    · obtain rfl := not_not.mp hlast
      refine (ih (before + 1)).bind ?_
      rintro us es ⟨args, hlength, rfl, rfl, -⟩
      obtain rfl := List.eq_nil_of_length_eq_zero hlength
      refine Takes.pure ⟨[(as, a)], rfl, ?_, rfl, by simpa using ha⟩
      simp [separated]

theorem takes_closing (function : String) (takes : ℕ) :
    Takes (closing function takes) fun us _ => us = [sign ")"] :=
  takes_accept .sign rfl

theorem takes_partner (function : String) :
    Takes (partner scope function) fun us symbol => us = [quoted symbol, sign ","] := by
  refine Takes.next_bind fun t ht => Takes.ite (fun _ => ?_) fun hkind => ?_
  · exact Takes.throw.bind (R := fun _ _ => False) fun _ _ h => h.elim
  · refine Takes.expect_bind .sign rfl (Takes.pure ?_)
    obtain ⟨ds, -, htext⟩ := ht.string (not_not.mp hkind)
    have hword : t.word = quoted (String.ofList ((t.text.toList.drop 1).dropLast)) := by
      refine Prod.ext (not_not.mp hkind) (String.toList_injective ?_)
      replace htext : t.text.toList = '"' :: (ds ++ ['"']) := htext
      rw [quoted, String.toList_ofList, String.toList_ofList, htext, List.drop_one, List.tail_cons,
        List.dropLast_concat]
      exact htext
    exact congrArg (· :: [sign ","]) hword

theorem of_ofHead? : ∀ {head : Head} {es : List Expr} {e : Expr}, Expr.ofHead? head es = some e →
    e.head = head ∧ e.operands = es
  | .leaf _, [], _, h => by cases h; exact ⟨rfl, rfl⟩
  | .unary _, [_], _, h => by cases h; exact ⟨rfl, rfl⟩
  | .binary _, [_, _], _, h => by cases h; exact ⟨rfl, rfl⟩
  | .ternary _, [_, _, _], _, h => by cases h; exact ⟨rfl, rfl⟩
  | .quaternary _, [_, _, _, _], _, h => by cases h; exact ⟨rfl, rfl⟩

/-- The arguments of a function and the end of their list. -/
theorem takes_applied (function : String) (head : Head) (takes missing before : ℕ)
    (h : Takes inner (G.Derives .expression)) :
    Takes (do
      let operands ← arguments function takes inner missing before
      closing function takes
      match Expr.ofHead? head operands with
      | some e => return e
      | none => throw (.manyArguments function takes)) fun us e =>
      ∃ args : List (List Word × Expr), us = separated (args.map Prod.fst) ++ [sign ")"] ∧
        e.head = head ∧ args.map Prod.snd = e.operands ∧ ∀ p ∈ args, G.Derives .expression p.1 p.2 := by
  refine (takes_arguments function takes h missing before).bind ?_
  rintro us es ⟨args, -, rfl, rfl, hargs⟩
  refine (takes_closing function takes).bind ?_
  rintro _ _ rfl
  cases he : Expr.ofHead? head (args.map Prod.snd) with
  | none => exact Takes.throw
  | some e =>
    obtain ⟨hhead, hoperands⟩ := of_ofHead? he
    exact Takes.pure ⟨args, rfl, hhead, hoperands.symm, hargs⟩

theorem takes_call {function : String} {callee : Callee}
    (hcallee : Callee.ofName? function = some callee) (h : Takes inner (G.Derives .expression)) :
    Takes (call scope inner function callee) fun us e => G.Derives .factor (name function :: us) e := by
  refine Takes.expect_bind .sign rfl ?_
  cases callee with
  | node head =>
    refine (takes_applied function head _ _ _ h).mono ?_
    rintro us e ⟨args, rfl, rfl, hoperands, hargs⟩
    exact .call hcallee hoperands hargs
  | correlation =>
    refine (takes_partner function).bind ?_
    rintro _ symbol rfl
    refine (takes_applied function (.ternary (.correlation symbol)) _ _ _ h).mono ?_
    rintro us e ⟨args, rfl, hhead, hoperands, hargs⟩
    obtain ⟨a, b, c, rfl⟩ : ∃ a b c, e = .ternary (.correlation symbol) a b c := by
      cases e <;> cases hhead
      exact ⟨_, _, _, rfl⟩
    match args, hoperands, hargs with
    | [p, q, r], rfl, hargs =>
      simp only [List.forall_mem_cons] at hargs
      exact .correlation hcallee hargs.1 hargs.2.1 hargs.2.2.1

/-! ## Factors -/

theorem takes_reference {t : Token} (hfree : IsFree t.text) :
    Takes (reference scope t) fun us e =>
      (bounded scope.bindings).Derives .factor (name t.text :: us) e := by
  unfold reference
  cases hfield : Field.ofWord? t.text with
  | some f => exact Takes.pure (.field hfree hfield)
  | none =>
    cases hv : scope.bindings.get? t.text with
    | none => exact Takes.throw
    | some v => exact Takes.pure (.reference hfree hfield hv)

theorem takes_named (t : Token)
    (h : Takes inner ((bounded scope.bindings).Derives .expression)) :
    Takes (named scope inner t) fun us e =>
      (bounded scope.bindings).Derives .factor (name t.text :: us) e := by
  refine Takes.ite (fun htext => ?_) fun htrue => ?_
  · rw [htext]
    exact Takes.pure (.truth true)
  refine Takes.ite (fun htext => ?_) fun hfalse => ?_
  · rw [htext]
    exact Takes.pure (.truth false)
  refine Takes.ite (fun htext => ?_) fun hif => ?_
  · rw [htext]
    exact takes_branches h
  cases hcallee : Callee.ofName? t.text with
  | some callee => exact takes_call hcallee h
  | none => exact takes_reference ⟨htrue, hfalse, hif, hcallee⟩

theorem takes_signed {t : Token} (ht : IsProper t.word)
    (h : Takes inner ((bounded vs).Derives .expression)) :
    Takes (signed scope inner t) fun us e => (bounded vs).Derives .factor (t.word :: us) e := by
  refine Takes.ite (fun htext => ?_) fun _ => Takes.ite (fun htext => ?_) fun _ => Takes.throw
  · rw [ht.eq_of_text .sign htext rfl]
    refine Takes.next_bind fun number _ => Takes.ite (fun hkind => ?_) fun _ => Takes.throw
    refine (takes_literal vs true number t.position).mono ?_
    rintro _ _ ⟨rfl, l, rfl, hl⟩
    rw [show number.word = Word.number number.text from Prod.ext hkind rfl]
    exact .negative hl
  · rw [ht.eq_of_text .sign htext rfl]
    exact h.bind fun us e he => Takes.expect_bind .sign rfl (Takes.pure (.parentheses he))

theorem takes_factor (h : Takes inner ((bounded scope.bindings).Derives .expression)) :
    Takes (factor scope inner) ((bounded scope.bindings).Derives .factor) := by
  refine Takes.next_bind fun t ht => ?_
  cases hkind : t.kind with
  | number =>
    refine (takes_literal scope.bindings false t t.position).mono ?_
    rintro _ _ ⟨rfl, l, rfl, hl⟩
    rw [show t.word = Word.number t.text from Prod.ext hkind rfl]
    exact .number hl
  | sign => exact takes_signed ht h
  | string => exact Takes.throw
  | name =>
    rw [show t.word = Word.name t.text from Prod.ext hkind rfl]
    exact takes_named t h

/-! ## Expressions -/

/-- The parser of expressions takes words that derive its result. -/
theorem takes_expression (scope : Scope) (bound : ℕ) :
    Takes (expression scope bound) ((bounded scope.bindings).Derives .expression) := by
  induction bound with
  | zero => exact Takes.throw
  | succ bound ih =>
    have hproduct := takes_chain (fun _ _ => .ofFactor) joins_product (takes_factor ih)
    have hsum := takes_chain (fun _ _ => .ofProduct) joins_sum hproduct
    have hcomparison := takes_comparison hsum
    have hconjunction := takes_chain (fun _ _ => .ofComparison) joins_conjunction hcomparison
    exact takes_chain (fun _ _ => .ofConjunction) joins_disjunction hconjunction

end Parse

namespace Expr

open Parse Grammar

variable {text : String} {vs : Variables} {ts : List Token} {e : Expr}

/-- An expression that is read from a text is derived by its tokens. -/
theorem derives_of_read (hts : tokens text = .ok ts) (h : read text vs = .ok e) :
    (bounded vs).Derives .expression (ts.map Token.word) e := by
  unfold read at h
  rw [hts] at h
  replace h : whole ⟨text, vs⟩ ts = .ok e := h
  unfold whole at h
  split_ifs at h
  · cases h
  obtain ⟨⟨a, rest⟩, hrun, h⟩ := bind_eq_ok.mp h
  obtain ⟨us, hsplit, ha⟩ := takes_expression ⟨text, vs⟩ _ _ _ _ (Lexer.isProper_of_tokensFrom hts) hrun
  cases rest with
  | nil =>
    cases h
    rwa [hsplit, List.append_nil]
  | cons t rest => cases h

/-! ## Names -/

/-- Whether a node of a function has no text. -/
def isPlain : Callee → Bool
  | .node (.leaf (.variable _ _)) => false
  | .node (.ternary (.correlation _)) => false
  | _ => true

theorem named_of_isPlain {N : Naming} : ∀ {head : Head}, isPlain (.node head) = true → head.Named N
  | .leaf (.number _), _ => trivial
  | .leaf (.truth _), _ => trivial
  | .leaf (.quote _), _ => trivial
  | .leaf (.date _), _ => trivial
  | .unary _, _ => trivial
  | .binary _, _ => trivial
  | .ternary .choice, _ => trivial
  | .ternary (.statistic _), _ => trivial
  | .quaternary _, _ => trivial

theorem isPlain_of_ofName? {name : String} {callee : Callee}
    (h : Callee.ofName? name = some callee) : isPlain callee = true := by
  have hall : ∀ entry ∈ Callee.all, isPlain entry.2 = true := by decide
  obtain ⟨before, after, hsplit, -⟩ := List.lookup_eq_some_iff.mp h
  exact hall (name, callee) (hsplit ▸ List.mem_append_right _ List.mem_cons_self)

variable {G : Grammar} {level : Level} {ws : List Word}

theorem refers_of_free {name : String} {v : Variable} (hname : Lexer.isName name.toList = true)
    (hfree : IsFree name) (hfield : Field.ofWord? name = none) (hv : vs.get? name = some v) :
    vs.Refers v.name v.kind := by
  have hvname : v.name = name := by simpa using List.find?_some hv
  rw [hvname]
  exact ⟨Lexer.tokens_eq_name_iff.mpr hname, hfree.not_true, hfree.not_false, hfree.not_if,
    hfree.not_function, hfield, by rw [hv]; rfl⟩

theorem writable_infix {op : Binary} {a b : Expr} {as bs : List Word} {w : Word}
    (ha : (∀ u ∈ as, Lexer.IsProper u) → a.Writable vs)
    (hb : (∀ u ∈ bs, Lexer.IsProper u) → b.Writable vs)
    (hws : ∀ u ∈ as ++ w :: bs, Lexer.IsProper u) : (binary op a b).Writable vs := by
  obtain ⟨has, hbs⟩ := List.forall_mem_append.mp hws
  exact (ha has).binary (hb (List.forall_mem_cons.mp hbs).2)

/-- What proper words derive can be written. -/
theorem writable_of_derives (h : G.Derives level ws e) (hws : ∀ w ∈ ws, Lexer.IsProper w) :
    e.Writable G.bindings := by
  induction h with
  | ofConjunction _ ih => exact ih hws
  | ofComparison _ ih => exact ih hws
  | ofSum _ ih => exact ih hws
  | ofProduct _ ih => exact ih hws
  | ofFactor _ ih => exact ih hws
  | or _ _ iha ihb => exact writable_infix iha ihb hws
  | and _ _ iha ihb => exact writable_infix iha ihb hws
  | compare _ _ _ iha ihb => exact writable_infix iha ihb hws
  | add _ _ iha ihb => exact writable_infix iha ihb hws
  | subtract _ _ iha ihb => exact writable_infix iha ihb hws
  | multiply _ _ iha ihb => exact writable_infix iha ihb hws
  | divide _ _ iha ihb => exact writable_infix iha ihb hws
  | number _ => trivial
  | negative _ => trivial
  | truth b => trivial
  | field _ _ => trivial
  | reference hfree hfield hv =>
    exact refers_of_free ((hws _ List.mem_cons_self).name rfl) hfree hfield hv
  | parentheses _ ih => exact ih fun w hw => hws w (by simp [hw])
  | choice _ _ _ iha ihb ihc =>
    exact (iha fun w hw => hws w (by simp [hw])).choice (ihb fun w hw => hws w (by simp [hw]))
      (ihc fun w hw => hws w (by simp [hw]))
  | @call function e arguments hfunction hoperands _ ih =>
    refine named_iff.mpr ⟨named_of_isPlain (isPlain_of_ofName? hfunction), fun a ha => ?_⟩
    rw [← hoperands] at ha
    obtain ⟨p, hp, rfl⟩ := List.mem_map.mp ha
    refine ih p hp fun w hw => hws w ?_
    have hmem := (sublist_separated (List.mem_map_of_mem (f := Prod.fst) hp)).subset hw
    simp [Word.call, hmem]
  | @correlation function partner as bs cs a b c _ _ _ _ iha ihb ihc =>
    obtain ⟨ds, hds, htext⟩ := (hws (Word.quoted partner) (by simp [Word.call])).string rfl
    have hpartner : '"' ∉ partner.toList := by
      rw [Word.quoted, String.toList_ofList] at htext
      rwa [List.append_cancel_right (List.cons.inj htext).2]
    exact ⟨hpartner, iha fun w hw => hws w (by simp [Word.call, Word.separated, hw]),
      ihb fun w hw => hws w (by simp [Word.call, Word.separated, hw]),
      ihc fun w hw => hws w (by simp [Word.call, Word.separated, hw])⟩

/-- What is read from a text can be written. -/
theorem writable_of_read (h : read text vs = .ok e) : e.Writable vs := by
  obtain ⟨ts, hts, -⟩ := bind_eq_ok.mp h
  replace hts := mapError_eq_ok.mp hts
  refine writable_of_derives (derives_of_read hts h) fun w hw => ?_
  obtain ⟨t, ht, rfl⟩ := List.mem_map.mp hw
  exact Lexer.isProper_of_tokensFrom hts t ht

/-- What is parsed from a text is well typed and can be written. -/
theorem writable_of_parse (h : parse text vs = .ok e) : (∃ k, e.HasKind k) ∧ e.Writable vs := by
  unfold parse at h
  obtain ⟨⟨a, k⟩, hparse, rfl⟩ := map_eq_ok.mp h
  obtain ⟨b, hread, hparse⟩ := bind_eq_ok.mp hparse
  obtain ⟨j, hcheck, hparse⟩ := bind_eq_ok.mp hparse
  cases hparse
  exact ⟨⟨k, mapError_eq_ok.mp hcheck⟩, writable_of_read (mapError_eq_ok.mp hread)⟩

end Expr

end TradeRules
