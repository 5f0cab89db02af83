import TradeRules.Proofs.Breeding.Mutation

/-!
# Breeding keeps kinds

A strategy is made of two BOOLEAN trees after they are simplified.  Simplification keeps kinds
(`Expr.HasKind.simplify`), so the strategy is never refused.  Random trees are BOOLEAN when they are
asked to be, and each step of a cross keeps the kinds of both rules (`Rules.AreBoolean`).

The operators on trees and the breeding of strategies come together in `breeding_keeps_kinds`.
-/

namespace TradeRules

open Draw

/-- Whether both rules are well typed and BOOLEAN. -/
structure Rules.AreBoolean (r : Rules) : Prop where
  buy : r.buy.HasKind .boolean
  sell : r.sell.HasKind .boolean

namespace Strategy

variable {g : Generators} {r : Rules}

theorem requireBoolean_eq_ok {side : Side} {rule : Expr} (h : rule.HasKind .boolean) :
    requireBoolean side rule = .ok ⟨h⟩ := by
  unfold requireBoolean
  revert h
  unfold Expr.HasKind
  generalize rule.check = checked
  rintro rfl
  rfl

/-- BOOLEAN rules make a strategy. -/
theorem make_eq_ok (h : r.AreBoolean) : ∃ s, make r = .ok s := by
  unfold make
  rw [requireBoolean_eq_ok h.buy, requireBoolean_eq_ok h.sell]
  exact ⟨_, rfl⟩

/-- The simplified form of a BOOLEAN rule is BOOLEAN. -/
theorem yields_simplified {e : Expr} (he : e.HasKind .boolean) :
    Yields (Draw.built e.simplify) (·.HasKind .boolean) :=
  yields_built fun _ => he.of_simplify

/-- BOOLEAN rules are never refused. -/
theorem yields_ofRules (h : r.AreBoolean) : Yields (ofRules r) fun _ => True := by
  refine (yields_simplified h.buy).bind fun buy hbuy => ?_
  refine (yields_simplified h.sell).bind fun sell hsell => ?_
  obtain ⟨s, hs⟩ := make_eq_ok (r := ⟨buy, sell⟩) ⟨hbuy, hsell⟩
  rw [hs]
  exact Yields.pure trivial

/-- The rules of a strategy are the simplified forms of those it is made of. -/
theorem simplify_of_ofRules {s : Strategy} {d d' : Draws}
    (hrun : (ofRules r).run.run d = (.ok s, d')) :
    r.buy.simplify = .ok s.rules.buy ∧ r.sell.simplify = .ok s.rules.sell := by
  have hbuilt : ∀ {e : Expr}, Yields (Draw.built e.simplify) (e.simplify = .ok ·) :=
    yields_built fun _ h => h
  obtain ⟨buy, _, hbuy, hrun⟩ := run_bind_eq_ok hrun
  obtain ⟨sell, _, hsell, hrun⟩ := run_bind_eq_ok hrun
  cases hmake : make ⟨buy, sell⟩ with
  | error e =>
    rw [hmake] at hrun
    cases hrun
  | ok t =>
    rw [hmake] at hrun
    cases hrun
    obtain ⟨_, -, hmake⟩ := bind_eq_ok.mp hmake
    obtain ⟨_, -, hmake⟩ := bind_eq_ok.mp hmake
    cases hmake
    exact ⟨hbuilt.ok hbuy, hbuilt.ok hsell⟩

theorem yields_random (hb : g.buy.KnowsQuotes) (hs : g.sell.KnowsQuotes) :
    Yields (random g) fun _ => True := by
  refine (Generator.yields_branch hb 0 fun _ h => by cases h).bind fun buy hbuy => ?_
  refine (Generator.yields_branch hs 0 fun _ h => by cases h).bind fun sell hsell => ?_
  exact yields_ofRules ⟨hbuy, hsell⟩

/-! ## Children -/

theorem yields_forceMutation (hb : g.buy.KnowsQuotes) (hs : g.sell.KnowsQuotes)
    (h : r.AreBoolean) : Yields (forceMutation g r) Rules.AreBoolean := by
  refine (yields_below 3).then fun which => ?_
  refine Yields.iteBind (P := (Expr.HasKind · .boolean))
    (fun _ => Generator.yields_mutateWithin hb _ _ h.buy) (fun _ => Yields.pure h.buy)
    fun buy hbuy => ?_
  exact Yields.iteBind (P := (Expr.HasKind · .boolean))
    (fun _ => Generator.yields_mutateWithin hs _ _ h.sell) (fun _ => Yields.pure h.sell)
    fun sell hsell => Yields.pure ⟨hbuy, hsell⟩

theorem yields_mayMutate (hb : g.buy.KnowsQuotes) (hs : g.sell.KnowsQuotes)
    (h : r.AreBoolean) : Yields (mayMutate g r) Rules.AreBoolean :=
  (Generator.yields_mutateWithin hb _ _ h.buy).bind fun _ ha =>
    (Generator.yields_mutateWithin hs _ _ h.sell).bind fun _ hb => Yields.pure ⟨ha, hb⟩

theorem yields_crossed (hb : g.buy.KnowsQuotes) (hs : g.sell.KnowsQuotes)
    (father mother : Strategy) (c : Cross) :
    Yields (crossed g father mother c) Rules.AreBoolean := by
  have hstart : (if c.swapsSell then mother.rules.sell else father.rules.sell).HasKind .boolean := by
    split_ifs
    · exact mother.sell_boolean
    · exact father.sell_boolean
  refine Yields.iteBind (P := (Expr.HasKind · .boolean))
    (fun _ => Generator.yields_recombine father.buy_boolean mother.buy_boolean)
    (fun _ => Yields.pure father.buy_boolean) fun buy hbuy => ?_
  refine Yields.iteBind (P := (Expr.HasKind · .boolean))
    (fun _ => Generator.yields_recombine hstart mother.sell_boolean)
    (fun _ => Yields.pure hstart) fun sell hsell => ?_
  exact Yields.ite (fun _ => yields_forceMutation hb hs ⟨hbuy, hsell⟩)
    fun _ => yields_mayMutate hb hs ⟨hbuy, hsell⟩

theorem yields_breed (hb : g.buy.KnowsQuotes) (hs : g.sell.KnowsQuotes)
    (settings : BreedingSettings) (father mother : Strategy) :
    Yields (breed g settings father mother) fun _ => True :=
  (yields_weighted _).bind fun _ _ =>
    (yields_crossed hb hs father mother _).bind fun _ h => yields_ofRules h

end Strategy

/-! ## All operators -/

/-- Whether a random operation on trees gives only trees of the kind of its argument. -/
def Draw.KeepsKind (f : Expr → Draw Expr) : Prop :=
  ∀ e k, e.HasKind k → ∀ d e' d', (f e).run.run d = (.ok e', d') → e'.HasKind k

/-- Whether a computation never fails for rules that are no strategy. -/
def Draw.NeverMistyped {α : Type} (m : Draw α) : Prop :=
  ∀ d e d', m.run.run d ≠ (.error (.strategy e), d')

theorem Draw.keepsKind_of_yields {f : Expr → Draw Expr}
    (h : ∀ e k, e.HasKind k → Yields (f e) (·.HasKind k)) : KeepsKind f :=
  fun e k he _ _ _ hrun => (h e k he).ok hrun

/-- The operators on trees keep kinds, at every site and for every stream of numbers, mutations however many
rounds they are given, and strategies made at random or bred are never refused for the kinds of their
rules. -/
theorem breeding_keeps_kinds (g : Generators) (hbuy : g.buy.KnowsQuotes)
    (hsell : g.sell.KnowsQuotes) :
    (∀ h : Generator, h.KnowsQuotes →
      (∀ path, KeepsKind (h.insertion · path)) ∧
      (∀ path, KeepsKind (h.deletion · path)) ∧
      (∀ path, KeepsKind (h.modification · path)) ∧
      (∀ rounds percent, KeepsKind (h.mutateWithin rounds percent)) ∧
      (∀ percent, KeepsKind (h.mutate percent)) ∧
      (∀ source j, source.HasKind j → KeepsKind (Generator.recombine · source))) ∧
    NeverMistyped (Strategy.random g) ∧
    (∀ settings father mother, NeverMistyped (Strategy.breed g settings father mother)) := by
  refine ⟨fun h hh => ⟨fun path => ?_, fun path => ?_, fun path => ?_, fun rounds percent => ?_,
    fun percent => ?_, fun source j hsource => ?_⟩, ?_, fun settings father mother => ?_⟩
  · exact keepsKind_of_yields fun e k he => Generator.yields_insertion hh he path
  · exact keepsKind_of_yields fun e k he => Generator.yields_deletion hh he path
  · exact keepsKind_of_yields fun e k he => Generator.yields_modification hh he path
  · exact keepsKind_of_yields fun e k he => Generator.yields_mutateWithin hh rounds percent he
  · exact keepsKind_of_yields fun e k he => Generator.yields_mutateWithin hh _ percent he
  · exact keepsKind_of_yields fun e k he => Generator.yields_recombine he hsource
  · exact fun d e d' => (Strategy.yields_random hbuy hsell).not_strategy
  · exact fun d e d' => (Strategy.yields_breed hbuy hsell settings father mother).not_strategy

/-- With the default weights, a deletion in two negations leaves one. -/
theorem breeding_keeps_kinds_negations :
    ∃ e d, (Generator.deletion {} (.not (.not (.truth true))) (some [0])).run.run
        (Draws.ofTape #[0.25]) = (.ok e, d) ∧
      e.HasKind .boolean ∧ NeverMistyped (Strategy.random ⟨{}, {}⟩) := by
  have hknows : Generator.KnowsQuotes {} := by
    unfold Generator.KnowsQuotes
    decide
  have hclosed := breeding_keeps_kinds ⟨{}, {}⟩ hknows hknows
  have hrun : (Generator.deletion {} (.not (.not (.truth true))) (some [0])).run.run
      (Draws.ofTape #[0.25]) = (.ok (.not (.truth true)), { Draws.ofTape #[0.25] with count := 1 }) :=
    rfl
  exact ⟨_, _, hrun, (hclosed.1 {} hknows).2.1 (some [0]) _ _ (by rfl) _ _ _ hrun, hclosed.2.1⟩

end TradeRules
