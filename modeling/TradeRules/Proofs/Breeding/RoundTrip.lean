import TradeRules.Proofs.Breeding.Programme
import TradeRules.Proofs.Rule.Parsed

/-!
# Texts mean the trees they are printed from

The text of a well-typed expression is parsed as the expression itself, node for node
(`Expr.parse_of_writable`), when its variables are declared and its partners have no quotes in them.  Three
sources give such expressions.  What is parsed from any text is one (`Expr.writable_of_parse`).
Simplification brings in no texts (`Expr.Named.simplify`).  And the programme breeds rules with the names
of their generators only (`Programme.Reaches.named`), so they can be read when these are declared
(`Generator.Declares`).

All of this is put together in `parse_text`.
-/

namespace TradeRules

/-- Whether a table declares the variables that a generator may read, and no symbol of it has a quote. -/
structure Generator.Declares (vs : Variables) (g : Generator) : Prop where
  held : g.allowHeld = true → (vs.get? Variables.heldName).map Variable.kind = some .integer
  order : g.allowOrder = true → (vs.get? Variables.orderName).map Variable.kind = some .integer
  symbols : ∀ symbol ∈ g.symbols, '"' ∉ symbol.code.toList

namespace Generator

variable {g : Generator} {vs : Variables} {e : Expr}

/-- The variables of rules can be referred to. -/
theorem refers_count {name : String} (hname : name = Variables.heldName ∨ name = Variables.orderName)
    (h : (vs.get? name).map Variable.kind = some .integer) : vs.Refers name .integer := by
  have hwords : Lexer.isName name.toList = true ∧ name ≠ "true" ∧ name ≠ "false" ∧ name ≠ "if" ∧
      Callee.ofName? name = none ∧ Field.ofWord? name = none := by
    rcases hname with rfl | rfl <;> decide
  obtain ⟨htoken, htrue, hfalse, hif, hfunction, hfield⟩ := hwords
  exact ⟨Lexer.tokens_eq_name_iff.mpr htoken, htrue, hfalse, hif, hfunction, hfield, h⟩

/-- Expressions with the names of a generator can be written when these are declared. -/
theorem Declares.writable (hg : g.Declares vs) (h : e.Named g.naming) : e.Writable vs := by
  refine Expr.Named.mono (N := g.naming) ?_ ?_ h
  · rintro name kind ⟨rfl, ⟨rfl, hheld⟩ | ⟨rfl, horder⟩⟩
    · exact refers_count (.inl rfl) (hg.held hheld)
    · exact refers_count (.inr rfl) (hg.order horder)
  · intro partner hpartner
    obtain ⟨symbol, hsymbol, rfl⟩ := List.mem_map.mp hpartner
    exact hg.symbols symbol hsymbol

end Generator

/-- Whether the texts of both rules of a strategy are parsed as the rules. -/
structure Strategy.ReadsBack (vs : Variables) (s : Strategy) : Prop where
  buy : Expr.parse s.rules.buy.text vs = .ok s.rules.buy
  sell : Expr.parse s.rules.sell.text vs = .ok s.rules.sell

theorem Strategy.readsBack {vs : Variables} {g : Generators} {s : Strategy}
    (hbuy : g.buy.Declares vs) (hsell : g.sell.Declares vs) (h : s.rules.Named g) :
    s.ReadsBack vs :=
  ⟨Expr.parse_of_writable s.buy_boolean (hbuy.writable h.buy),
    Expr.parse_of_writable s.sell_boolean (hsell.writable h.sell)⟩

/-- The text of a well-typed expression is parsed as the expression itself.  That goes for every parsed
expression, every simplified one, and the rules of every candidate and every kept strategy at all stages
that a programme reaches. -/
theorem parse_text (vs : Variables) :
    (∀ (e : Expr) k, e.HasKind k → e.Writable vs → Expr.parse e.text vs = .ok e) ∧
    (∀ text e, Expr.parse text vs = .ok e → Expr.parse e.text vs = .ok e) ∧
    (∀ (e : Expr) k, e.HasKind k → e.Writable vs →
      ∃ r, e.simplify = .ok r ∧ Expr.parse r.text vs = .ok r) ∧
    (∀ (σ : Type) (p : Programme σ), p.generators.buy.Declares vs → p.generators.sell.Declares vs →
      ∀ draws testing s, p.Reaches (p.start draws testing) s →
        (∀ d c d', (p.candidate s).run.run d = (.ok c, d') → c.ReadsBack vs) ∧
        s.All (Strategy.ReadsBack vs)) := by
  refine ⟨fun e k hk h => Expr.parse_of_writable hk h, fun text e h => ?_, fun e k hk h => ?_,
    fun σ p hbuy hsell draws testing s hs => ⟨fun d c d' hrun => ?_, ?_⟩⟩
  · obtain ⟨⟨k, hk⟩, hwritable⟩ := Expr.writable_of_parse h
    exact Expr.parse_of_writable hk hwritable
  · obtain ⟨r, hr, hkr⟩ := hk.simplify
    exact ⟨r, hr, Expr.parse_of_writable hkr (Expr.Named.simplify h hr)⟩
  · exact Strategy.readsBack hbuy hsell (Programme.named_of_candidate hs.named hrun)
  · exact ⟨fun entry hentry => Strategy.readsBack hbuy hsell (hs.named.parents entry hentry),
      fun entry hentry => Strategy.readsBack hbuy hsell (hs.named.survivors entry hentry)⟩

/-- A tree with a negative number behind a minus, and a rule that is bred from a tape, are read back. -/
theorem parse_text_sample :
    (∃ e : Expr, e.text = "(held--3)<order" ∧
      Expr.parse "(held--3)<order" (.ofRule 0.0 0.0) = .ok e) ∧
    ∃ c : Strategy, c.rules.sell.text =
        "ema(volume, day(), ema(volume, day(), order, 0.87625), 0.505)<=abs(order)" ∧
      Expr.parse c.rules.sell.text (.ofRule 0.0 0.0) = .ok c.rules.sell := by
  have hclosed := parse_text (.ofRule 0.0 0.0)
  constructor
  · let l : Literal := .whole (-3) (by decide +kernel)
    let e : Expr := .comparison .less
      (.arithmetic .subtract (.leaf (.variable "held" .integer)) (.number l))
      (.leaf (.variable "order" .integer))
    have htext : e.text = "(held--3)<order" := by decide +kernel
    have hwritable : e.Writable (.ofRule 0.0 0.0) :=
      ⟨trivial, ⟨trivial, Generator.refers_count (.inl rfl) rfl, trivial⟩,
        Generator.refers_count (.inr rfl) rfl⟩
    exact ⟨e, htext, htext ▸ hclosed.1 e .boolean (by rfl) hwritable⟩
  · let p : Programme Unit :=
      .make {} {} 0.0 true [⟨"AAA"⟩] fun _ testing => (.ok 1.0, testing)
    let tape := Draws.ofTape #[0.5, 0.75, 0.984375, 0.875]
    let run := (p.candidate (p.start tape ())).run.run tape
    have htext : run.1.toOption.map (fun c => c.rules.sell.text) = some
        "ema(volume, day(), ema(volume, day(), order, 0.87625), 0.505)<=abs(order)" := by
      decide +kernel
    have hsymbols : ∀ symbol ∈ [Symbol.mk "AAA"], '"' ∉ symbol.code.toList := by decide
    have hreads := hclosed.2.2.2 Unit p ⟨fun _ => rfl, fun _ => rfl, hsymbols⟩
      ⟨fun _ => rfl, fun _ => rfl, hsymbols⟩ tape () _ .refl
    cases hrun : run with
    | mk result d =>
      rw [hrun] at htext
      cases result with
      | error e => cases htext
      | ok c =>
        exact ⟨c, Option.some.inj htext, (hreads.1 tape c d hrun).sell⟩

end TradeRules
