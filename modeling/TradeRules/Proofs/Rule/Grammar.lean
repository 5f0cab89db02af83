import TradeRules.Proofs.Rule.Lexing

/-!
# The grammar

`Grammar.Derives` says which words derive which expression at which level, with one constructor for each
production.  It knows nothing of parsers.

The left operand of `or`, `and`, `+`, `-`, `*` and `/` is of the same level as the operation and the right
operand of the next tighter one, so a chain of them groups to the left.  Both operands of a comparison are
sums, so comparisons do not chain.  A minus sign alone stands before a number only.

A name is a truth value or the word of a choice if it can be, else a function, else a field, else a
variable (`IsFree` says that it is none of the first three).  A function has as many arguments as its node
has operands.  A number means a literal when the literal is finite, and a grammar may bound the digits of
an INTEGER literal (`Grammar.Numeral`).

The printed words of an expression derive it (`Expr.derives_words`).
-/

namespace TradeRules

open Word

/-! ## Derivations -/

/-- The levels of the grammar, from the loosest to the tightest. -/
inductive Level where
  | expression
  | conjunction
  | comparison
  | sum
  | product
  | factor

/-- What the language depends on besides the productions. -/
structure Grammar where
  /-- The most digits of an INTEGER literal. -/
  digits : ℕ∞
  /-- The variables that may be referred to. -/
  bindings : Variables

namespace Grammar

/-- The grammar with INTEGER literals of any length. -/
def unbounded (vs : Variables) : Grammar :=
  ⟨⊤, vs⟩

/-- The grammar with INTEGER literals of as many digits as are read. -/
def bounded (vs : Variables) : Grammar :=
  ⟨Literal.digitLimit, vs⟩

/-- Whether a number, negated when a minus sign stands before it, means a literal. -/
inductive Numeral (G : Grammar) (negative : Bool) (text : String) : Literal → Prop
  /-- Without point and exponent it is an INTEGER literal. -/
  | whole {n : ℤ} (finite : (Double.ofInt n).isFinite = true)
      (hplain : ∀ c ∈ text.toList, c ≠ '.' ∧ Decimal.isMark c = false)
      (hdigits : (text.toList.length : ℕ∞) ≤ G.digits)
      (hvalue : n = Double.signed negative (Text.numberOfDigits text.toList)) :
      Numeral G negative text (.whole n finite)
  /-- With a point or an exponent it is a FLOAT literal. -/
  | real {x y : Float} (finite : x.isFinite = true)
      (hmarked : ∃ c ∈ text.toList, c = '.' ∨ Decimal.isMark c = true)
      (hdecimal : y = (Decimal.ofChars text.toList).toDouble)
      (hvalue : x = if negative then -y else y) :
      Numeral G negative text (.real x finite)

/-- Whether a name is none of the words of the grammar and no function. -/
structure IsFree (text : String) : Prop where
  not_true : text ≠ "true"
  not_false : text ≠ "false"
  not_if : text ≠ "if"
  not_function : Callee.ofName? text = none

/-- Whether words derive an expression at a level. -/
inductive Derives (G : Grammar) : Level → List Word → Expr → Prop
  -- expression := conjunction ("or" conjunction)*
  | ofConjunction {ws e} : G.Derives .conjunction ws e → G.Derives .expression ws e
  | or {as bs a b} : G.Derives .expression as a → G.Derives .conjunction bs b →
      G.Derives .expression (as ++ name "or" :: bs) (.connective .or a b)
  -- conjunction := comparison ("and" comparison)*
  | ofComparison {ws e} : G.Derives .comparison ws e → G.Derives .conjunction ws e
  | and {as bs a b} : G.Derives .conjunction as a → G.Derives .comparison bs b →
      G.Derives .conjunction (as ++ name "and" :: bs) (.connective .and a b)
  -- comparison := sum [("<" | ">" | "<=" | ">=" | "==" | "!=") sum]
  | ofSum {ws e} : G.Derives .sum ws e → G.Derives .comparison ws e
  | compare {as bs a b} (op : Comparison) : G.Derives .sum as a → G.Derives .sum bs b →
      G.Derives .comparison (as ++ sign op.sign :: bs) (.comparison op a b)
  -- sum := product (("+" | "-") product)*
  | ofProduct {ws e} : G.Derives .product ws e → G.Derives .sum ws e
  | add {as bs a b} : G.Derives .sum as a → G.Derives .product bs b →
      G.Derives .sum (as ++ sign "+" :: bs) (.arithmetic .add a b)
  | subtract {as bs a b} : G.Derives .sum as a → G.Derives .product bs b →
      G.Derives .sum (as ++ sign "-" :: bs) (.arithmetic .subtract a b)
  -- product := factor (("*" | "/") factor)*
  | ofFactor {ws e} : G.Derives .factor ws e → G.Derives .product ws e
  | multiply {as bs a b} : G.Derives .product as a → G.Derives .factor bs b →
      G.Derives .product (as ++ sign "*" :: bs) (.arithmetic .multiply a b)
  | divide {as bs a b} : G.Derives .product as a → G.Derives .factor bs b →
      G.Derives .product (as ++ sign "/" :: bs) (.arithmetic .divide a b)
  -- factor := number | "-" number | "true" | "false"
  | number {text l} : G.Numeral false text l → G.Derives .factor [Word.number text] (.number l)
  | negative {text l} : G.Numeral true text l →
      G.Derives .factor [sign "-", Word.number text] (.number l)
  | truth (b : Bool) : G.Derives .factor [name (if b then "true" else "false")] (.truth b)
  -- | "(" expression ")"
  | parentheses {ws e} : G.Derives .expression ws e →
      G.Derives .factor (sign "(" :: (ws ++ [sign ")"])) e
  -- | "if" "(" expression ")" "{" expression "}" "else" "{" expression "}"
  | choice {as bs cs a b c} : G.Derives .expression as a → G.Derives .expression bs b →
      G.Derives .expression cs c →
      G.Derives .factor (name "if" :: sign "(" :: (as ++ sign ")" :: sign "\x7b" :: (bs ++
        sign "\x7d" :: name "else" :: sign "\x7b" :: (cs ++ [sign "\x7d"])))) (.choice a b c)
  -- | name "(" [argument ("," argument)*] ")"
  | call {function e} {arguments : List (List Word × Expr)}
      (hfunction : Callee.ofName? function = some (.node e.head))
      (hoperands : arguments.map Prod.snd = e.operands) :
      (∀ p ∈ arguments, G.Derives .expression p.1 p.2) →
      G.Derives .factor (Word.call function [] (arguments.map Prod.fst)) e
  | correlation {function partner as bs cs a b c}
      (hfunction : Callee.ofName? function = some .correlation) : G.Derives .expression as a →
      G.Derives .expression bs b → G.Derives .expression cs c →
      G.Derives .factor (Word.call function [quoted partner, sign ","] [as, bs, cs])
        (.ternary (.correlation partner) a b c)
  -- | field | variable
  | field {text f} (hfree : IsFree text) (hfield : Field.ofWord? text = some f) :
      G.Derives .factor [name text] (.quote f)
  | reference {text v} (hfree : IsFree text) (hfield : Field.ofWord? text = none)
      (hv : G.bindings.get? text = some v) :
      G.Derives .factor [name text] (.leaf (.variable v.name v.kind))

end Grammar

/-! ## Numbers -/

variable {G : Grammar} {vs : Variables} {negative : Bool} {text : String} {l : Literal}

namespace Literal

theorem ofInt?_eq_some {n : ℤ} : ofInt? n = some l ↔ ∃ h, whole n h = l := by
  unfold ofInt?
  split <;> simp_all

theorem ofDouble?_eq_some {x : Float} : ofDouble? x = some l ↔ ∃ h, real x h = l := by
  unfold ofDouble?
  split <;> simp_all

end Literal

namespace Grammar

/-- The numbers of the bounded grammar are the ones that are read. -/
theorem numeral_bounded_iff :
    (bounded vs).Numeral negative text l ↔ Literal.read? negative text = some l := by
  unfold Literal.read?
  dsimp only
  by_cases hany : (text.toList.any fun c => c == '.' || Decimal.isMark c) = true
  · have hmarked : ∃ c ∈ text.toList, c = '.' ∨ Decimal.isMark c = true := by
      simpa [List.any_eq_true] using hany
    rw [if_pos hany, Literal.ofDouble?_eq_some]
    constructor
    · rintro (⟨finite, hplain, -, -⟩ | ⟨finite, -, rfl, rfl⟩)
      · obtain ⟨c, hc, hmark⟩ := hmarked
        simp_all
      · exact ⟨finite, rfl⟩
    · rintro ⟨finite, rfl⟩
      exact .real finite hmarked rfl rfl
  · have hplain : ∀ c ∈ text.toList, c ≠ '.' ∧ Decimal.isMark c = false := by
      simpa [List.any_eq_true] using hany
    rw [if_neg hany]
    constructor
    · rintro (⟨finite, -, hdigits, rfl⟩ | ⟨finite, ⟨c, hc, hmark⟩, -, -⟩)
      · rw [if_neg (not_lt.mpr (ENat.natCast_le_natCast.mp hdigits)), Literal.ofInt?_eq_some]
        exact ⟨finite, rfl⟩
      · have := hplain c hc
        simp_all
    · intro h
      by_cases hlimit : Literal.digitLimit < text.toList.length
      · rw [if_pos hlimit] at h
        cases h
      · rw [if_neg hlimit] at h
        obtain ⟨finite, rfl⟩ := Literal.ofInt?_eq_some.mp h
        exact .whole finite hplain (ENat.natCast_le_natCast.mpr (not_lt.mp hlimit)) rfl

/-! ## Words of a derivation -/

variable {as bs ws : List Word} {a b c e : Expr} {w : Word}

/-- No words derive nothing. -/
theorem Derives.length_pos {level : Level} (h : G.Derives level ws e) : 0 < ws.length := by
  induction h with
  | ofConjunction _ ih => exact ih
  | ofComparison _ ih => exact ih
  | ofSum _ ih => exact ih
  | ofProduct _ ih => exact ih
  | ofFactor _ ih => exact ih
  | _ => simp [Word.call]

/-- Lists of words stand as they are among all of them with commas between. -/
theorem sublist_separated {wss : List (List Word)} (h : ws ∈ wss) : ws.Sublist (separated wss) := by
  fun_induction separated wss with
  | case1 => cases h
  | case2 as => rw [List.mem_singleton.mp h]
  | case3 as wss _ ih =>
    rcases List.mem_cons.mp h with rfl | h
    · exact List.sublist_append_left ws _
    · exact ((ih h).trans (List.sublist_cons_self _ _)).trans (List.sublist_append_right as _)

/-! ## Printed words -/

/-- A factor is an expression. -/
theorem Derives.expression_of_factor (h : G.Derives .factor ws e) : G.Derives .expression ws e :=
  .ofConjunction (.ofComparison (.ofSum (.ofProduct (.ofFactor h))))

/-- Two factors with an infix operation between them are an expression. -/
theorem derives_infix {op : Binary} (hw : op.infixWord? = some w) (ha : G.Derives .factor as a)
    (hb : G.Derives .factor bs b) : G.Derives .expression (as ++ w :: bs) (.binary op a b) := by
  cases op with
  | arithmetic op =>
    cases hw
    refine .ofConjunction (.ofComparison (.ofSum ?_))
    cases op with
    | add => exact .add (.ofProduct (.ofFactor ha)) (.ofFactor hb)
    | subtract => exact .subtract (.ofProduct (.ofFactor ha)) (.ofFactor hb)
    | multiply => exact .ofProduct (.multiply (.ofFactor ha) hb)
    | divide => exact .ofProduct (.divide (.ofFactor ha) hb)
  | comparison op =>
    cases hw
    exact .ofConjunction (.ofComparison (.compare op (.ofProduct (.ofFactor ha))
      (.ofProduct (.ofFactor hb))))
  | connective op =>
    cases hw
    have hb : G.Derives .comparison bs b := .ofSum (.ofProduct (.ofFactor hb))
    cases op with
    | and => exact .ofConjunction (.and (.ofComparison (.ofSum (.ofProduct (.ofFactor ha)))) hb)
    | or => exact .or ha.expression_of_factor (.ofComparison hb)
  | percent => cases hw
  | lag => cases hw
  | rsi => cases hw

end Grammar

/-- Whether a name refers to a variable of a kind and to nothing else. -/
structure Variables.Refers (vs : Variables) (name : String) (kind : ValueKind) : Prop where
  /-- It is one token, a name. -/
  token : tokens name = .ok [⟨.name, name, 0⟩]
  not_true : name ≠ "true"
  not_false : name ≠ "false"
  not_if : name ≠ "if"
  not_function : Callee.ofName? name = none
  not_field : Field.ofWord? name = none
  declared : (vs.get? name).map Variable.kind = some kind

/-- The texts that are read back. -/
def Naming.readable (vs : Variables) : Naming where
  isVariable := vs.Refers
  isPartner partner := '"' ∉ partner.toList

namespace Expr

open Grammar

/-- Whether all variables of an expression are declared with their kinds under names that stand for
nothing else, and no partner of a correlation has a quote in it. -/
def Writable (vs : Variables) (e : Expr) : Prop :=
  e.Named (.readable vs)

/-- The level of the printed words of an expression: only infix operations are not factors. -/
def level (e : Expr) : Level :=
  if e.isInfix then .expression else .factor

theorem level_eq_expression {op : Binary} (hw : op.infixWord? = some w) :
    (binary op a b).level = .expression := by
  cases op <;> first | rfl | cases hw

theorem level_eq_factor {op : Binary} (hw : op.infixWord? = none) :
    (binary op a b).level = .factor := by
  cases op <;> first | rfl | cases hw

/-- The words of an expression, whether a factor or not, derive it inside parentheses, braces or an
argument list. -/
theorem derives_expression (h : G.Derives e.level ws e) : G.Derives .expression ws e := by
  unfold level at h
  split_ifs at h
  · exact h
  · exact h.expression_of_factor

/-- An operand of an infix operation is a factor, in parentheses if need be. -/
theorem derives_enclosed (h : G.Derives e.level ws e) :
    G.Derives .factor (enclosed e.isInfix ws) e := by
  unfold level at h
  cases hjoins : e.isInfix with
  | true =>
    rw [hjoins, if_pos rfl] at h
    exact .parentheses h
  | false =>
    rw [hjoins, if_neg Bool.false_ne_true] at h
    exact h

theorem derives_number (l : Literal) : (bounded vs).Derives .factor l.words (.number l) := by
  have hread := Literal.read?_spelling l
  unfold Literal.words
  cases hnegative : l.isNegative with
  | false =>
    rw [hnegative] at hread
    exact .number (numeral_bounded_iff.mpr hread)
  | true =>
    rw [hnegative] at hread
    exact .negative (numeral_bounded_iff.mpr hread)

theorem derives_variable {name : String} {kind : ValueKind} (h : vs.Refers name kind) :
    (bounded vs).Derives .factor [Word.name name] (.leaf (.variable name kind)) := by
  obtain ⟨v, hv, rfl⟩ := Option.map_eq_some_iff.mp h.declared
  have hname : v.name = name := by simpa using List.find?_some hv
  have hfree : IsFree name := ⟨h.not_true, h.not_false, h.not_if, h.not_function⟩
  simpa [hname] using Derives.reference (G := bounded vs) hfree h.not_field hv

/-- The call of a function whose arguments are its operands. -/
theorem derives_call {function : String} (hcallee : Callee.ofName? function = some (.node e.head))
    (hes : ∀ a ∈ e.operands, G.Derives a.level a.words a) :
    G.Derives .factor (Word.call function [] (e.operands.map words)) e := by
  have hcall : G.Derives .factor
      (Word.call function [] ((e.operands.map fun a => (a.words, a)).map Prod.fst)) e :=
    .call hcallee (by simp [Function.comp_def])
      (by simpa using fun a ha => derives_expression (hes a ha))
  simpa [Function.comp_def] using hcall

theorem ofName?_date (part : DatePart) :
    Callee.ofName? part.word = some (.node (.leaf (.date part))) := by
  cases part <;> decide

theorem ofName?_unary (op : Unary) : Callee.ofName? op.word = some (.node (.unary op)) := by
  cases op <;> decide

theorem ofName?_binary {op : Binary} (h : op.infixWord? = none) :
    Callee.ofName? op.word = some (.node (.binary op)) := by
  cases op with
  | arithmetic op => cases h
  | comparison op => cases h
  | connective op => cases h
  | percent => decide
  | lag => decide
  | rsi => decide

theorem ofName?_ema : Callee.ofName? "ema" = some (.node (.quaternary .ema)) := by
  decide

theorem ofName?_statistic (s : Statistic) :
    Callee.ofName? s.word = some (.node (.ternary (.statistic s))) := by
  cases s <;> decide

/-- A field is no other name. -/
theorem field_word (f : Field) : IsFree f.word ∧ Field.ofWord? f.word = some f := by
  refine ⟨⟨?_, ?_, ?_, ?_⟩, ?_⟩ <;> cases f <;> decide

theorem derives_leaf : ∀ {l : Leaf}, (leaf l).Writable vs →
    (bounded vs).Derives .factor (leaf l).words (leaf l)
  | .number l, _ => derives_number l
  | .truth b, _ => .truth b
  | .variable _ _, h => derives_variable h
  | .quote f, _ => .field (field_word f).1 (field_word f).2
  | .date part, _ =>
    derives_call (e := leaf (.date part)) (ofName?_date part) fun _ h => by cases h

/-- The words of an expression derive it. -/
theorem derives_words (h : e.Writable vs) : (bounded vs).Derives e.level e.words e := by
  induction e with
  | leaf l => exact derives_leaf h
  | unary op a iha =>
    exact derives_call (e := unary op a) (ofName?_unary op) (by simpa [operands] using iha h.2)
  | binary op a b iha ihb =>
    have ha := iha h.2.1
    have hb := ihb h.2.2
    cases hw : op.infixWord? with
    | some w =>
      rw [level_eq_expression hw, words, hw]
      exact derives_infix hw (derives_enclosed ha) (derives_enclosed hb)
    | none =>
      rw [level_eq_factor hw, words, hw]
      exact derives_call (e := binary op a b) (ofName?_binary hw) (by simp [operands, ha, hb])
  | ternary op a b c iha ihb ihc =>
    have ha := iha h.2.1
    have hb := ihb h.2.2.1
    have hc := ihc h.2.2.2
    cases op with
    | choice =>
      exact .choice (derives_expression ha) (derives_expression hb) (derives_expression hc)
    | correlation partner =>
      exact .correlation (by decide) (derives_expression ha) (derives_expression hb)
        (derives_expression hc)
    | statistic s =>
      exact derives_call (e := ternary (.statistic s) a b c) (ofName?_statistic s)
        (by simp [operands, ha, hb, hc])
  | quaternary op a b c d iha ihb ihc ihd =>
    cases op
    exact derives_call (e := quaternary .ema a b c d) ofName?_ema
      (by simp [operands, iha h.2.1, ihb h.2.2.1, ihc h.2.2.2.1, ihd h.2.2.2.2])

end Expr

end TradeRules
