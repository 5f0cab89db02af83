import TradeRules.Proofs.Breeding.Calls
import TradeRules.Proofs.Breeding.Mutation
import TradeRules.Proofs.Double.Number
import TradeRules.Proofs.Rule.Irreducible
import TradeRules.Proofs.Rule.Splicing

/-!
# What holds of a population

All strategies in both pools are fit (`Strategy.Fit`).  Their rules are well typed and simplified, lie
in the band of depths, and read only what they may, and the buy rule reads a quote if it has to.  Their
value exceeds the capital, if that is a number (`Strategy.Gains`).

Each part holds for its own reason.  A candidate is simplified last, and simplified forms are final
(`Expr.simplify_simplify`).  The depths and the quote are looked at before it is scored.  The names come
from the generators (`Programme.named_of_candidate`), since crossing, mutation and simplification bring
in no others.  And only what is not at most the capital enters the competition.
-/

namespace TradeRules

/-! ## Fit rules -/

/-- Whether a strategy is scored above the capital. -/
def Strategy.Gains (capital : Float) (s : Strategy) : Prop :=
  ∃ value, s.value = some value ∧ capital < value

namespace Expr

variable {e : Expr} {g : Generator}

theorem Named.partner (h : e.Named g.naming) {path : Path} {partner : String} {a b c : Expr}
    (hat : e.at? path = some (.ternary (.correlation partner) a b c)) :
    ∃ symbol ∈ g.symbols, symbol.code = partner :=
  List.mem_map.mp (Everywhere.root (h.at? hat))

theorem HasKind.countOf_pos_iff {j : Kind} (h : e.HasKind j) (k : Kind) :
    0 < (e.countOf k).toOption.getD 0 ↔ ∃ site ∈ e.sites, site.2.HasKind k := by
  rw [h.countOf_eq k]
  simp [Except.toOption, List.length_pos_iff_exists_mem, HasKind]

/-- The quotes that are counted in a well-typed rule are the fields in it. -/
theorem readsQuote_iff {j : Kind} (h : e.HasKind j) :
    Strategy.readsQuote e = true ↔ ∃ site ∈ e.sites, ∃ field, site.2 = .quote field := by
  simp only [Strategy.readsQuote, Bool.or_eq_true, decide_eq_true_eq, h.countOf_pos_iff]
  constructor
  · rintro (⟨site, hsite, hk⟩ | ⟨site, hsite, hk⟩)
    · obtain ⟨field, hfield, -⟩ := hk.eq_quote rfl
      exact ⟨site, hsite, field, hfield⟩
    · obtain ⟨field, hfield, -⟩ := hk.eq_quote rfl
      exact ⟨site, hsite, field, hfield⟩
  · rintro ⟨site, hsite, field, hfield⟩
    have hkind : site.2.HasKind field.kind := hfield ▸ hasKind_leaf.mpr rfl
    cases field with
    | opening | high | low | closing => exact .inl ⟨site, hsite, hkind⟩
    | volume => exact .inr ⟨site, hsite, hkind⟩

end Expr

/-! ## Candidates -/

/-- Whether no simplification is left to be done in either rule. -/
structure Rules.Irreducible (r : Rules) : Prop where
  buy : r.buy.Irreducible
  sell : r.sell.Irreducible

namespace Strategy

variable {g : Generators} {r : Rules} {c : Strategy} {d d' : Draws}

/-- The last that is done to the rules of a candidate is to simplify them. -/
theorem irreducible_of_ofRules (hrun : (ofRules r).run.run d = (.ok c, d')) :
    c.rules.Irreducible := by
  obtain ⟨hbuy, hsell⟩ := simplify_of_ofRules hrun
  exact ⟨Expr.irreducible_of_simplify hbuy, Expr.irreducible_of_simplify hsell⟩

theorem irreducible_of_random (hrun : (random g).run.run d = (.ok c, d')) :
    c.rules.Irreducible := by
  obtain ⟨buy, _, -, hrun⟩ := Draw.run_bind_eq_ok hrun
  obtain ⟨sell, _, -, hrun⟩ := Draw.run_bind_eq_ok hrun
  exact irreducible_of_ofRules hrun

theorem irreducible_of_breed {settings : BreedingSettings} {father mother : Strategy}
    (hrun : (breed g settings father mother).run.run d = (.ok c, d')) : c.rules.Irreducible := by
  obtain ⟨name, _, -, hrun⟩ := Draw.run_bind_eq_ok hrun
  obtain ⟨rules, _, -, hrun⟩ := Draw.run_bind_eq_ok hrun
  exact irreducible_of_ofRules hrun

end Strategy

namespace Programme

variable {σ : Type} {p : Programme σ} {s : Stage σ} {c : Strategy} {d d' : Draws}

theorem irreducible_of_candidate (hrun : (p.candidate s).run.run d = (.ok c, d')) :
    c.rules.Irreducible := by
  unfold candidate at hrun
  split_ifs at hrun
  · exact Strategy.irreducible_of_random hrun
  · obtain ⟨mother, _, -, hrun⟩ := Draw.run_bind_eq_ok hrun
    obtain ⟨father, _, -, hrun⟩ := Draw.run_bind_eq_ok hrun
    split at hrun
    · exact Strategy.irreducible_of_breed hrun
    · exact Strategy.irreducible_of_random hrun

/-! ## Populations -/

/-- What is known of the strategies in a pool. -/
structure Kept (p : Programme σ) (c : Strategy) : Prop where
  named : c.rules.Named p.generators
  irreducible : c.rules.Irreducible
  accepted : p.accepts c = true
  competes : ∃ value, c.value = some value ∧ value.isNaN = false ∧ ¬value ≤ p.capital

/-- What the pools of a stage satisfy. -/
structure Sound (p : Programme σ) (s : Stage σ) : Prop where
  kept : s.All p.Kept
  total : s.parentTotal = s.parents.total

/-- A new generation takes over the survivors and sums up their values. -/
theorem Sound.generation (h : p.Sound s) : p.Sound (nextGeneration s) :=
  ⟨⟨h.kept.survivors, h.kept.survivors⟩, rfl⟩

/-- A scored candidate joins the survivors only when it competes. -/
theorem Sound.compete (h : p.Sound s) (hrun : (p.candidate s).run.run d = (.ok c, d'))
    (haccepts : p.accepts c = true) {value : Float} (hvalue : value.isNaN = false) :
    (p.compete s.survivors (c.scored value) value).All p.Kept := by
  by_cases hloss : value ≤ p.capital
  · rw [Programme.compete, if_pos hloss]
    exact h.kept.survivors
  · have hnamed : s.All fun t => t.rules.Named p.generators :=
      ⟨fun entry hentry => (h.kept.parents entry hentry).named,
        fun entry hentry => (h.kept.survivors entry hentry).named⟩
    have hkept : p.Kept (c.scored value) :=
      { named := (named_of_candidate hnamed hrun : c.rules.Named p.generators)
        irreducible := (irreducible_of_candidate hrun : c.rules.Irreducible)
        accepted := haccepts
        competes := ⟨value, rfl, hvalue, hloss⟩ }
    exact all_compete h.kept.survivors hkept value

/-- A value that competes with a number exceeds it. -/
theorem Kept.gains (h : p.Kept c) (hcapital : p.capital.isNaN = false) : c.Gains p.capital := by
  obtain ⟨value, hvalue, hnan, hgain⟩ := h.competes
  exact ⟨value, hvalue, Double.lt_of_not_le hnan hcapital hgain⟩

end Programme

end TradeRules
