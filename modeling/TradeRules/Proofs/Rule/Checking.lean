import TradeRules.Proofs.Rule.Sites
import TradeRules.Proofs.Rule.Typing

/-!
# What the checker decides

`Typed e k` is the typing relation: one rule for each kind of node, in terms of the kinds of its
operands alone.  It says nothing of the order in which operands are looked at.

The checker decides the relation (`typed_iff`).  What it reports of a tree without a kind is the
first node of `Expr.postorder` that breaks its own rule: the operands of the node have kinds, and no
rule gives the node one (`Breaks`).  There may be several such nodes, on different branches.

* `check_eq_error` says where an error comes from: from the root, when its operands all pass, or from
  the first operand that does not pass.
* `first_breaks` follows the error down to the node it names.
-/

namespace TradeRules

namespace Expr

/-! ## The typing relation -/

/-- The typing rules. -/
inductive Typed : Expr → Kind → Prop
  | whole {n : Int} {finite : (Double.ofInt n).isFinite = true} :
      Typed (.number (.whole n finite)) .integer
  | real {x : Float} {finite : x.isFinite = true} : Typed (.number (.real x finite)) .float
  | truth {value : Bool} : Typed (.truth value) .boolean
  | declared {name : String} {kind : ValueKind} : Typed (.leaf (.variable name kind)) kind.kind
  | volume : Typed (.quote .volume) .integerQuote
  | price {f : Field} (hf : f ≠ .volume) : Typed (.quote f) .floatQuote
  | date {part : DatePart} : Typed (.leaf (.date part)) .integer
  | not {a : Expr} (ha : Typed a .boolean) : Typed (.not a) .boolean
  | sqrt {a : Expr} {k : Kind} (hk : k.isNumeric = true) (ha : Typed a k) :
      Typed (.unary .sqrt a) k
  | abs {a : Expr} {k : Kind} (hk : k.isNumeric = true) (ha : Typed a k) : Typed (.unary .abs a) k
  | arithmetic {op : Arithmetic} {a b : Expr} {k : Kind} (hk : k.isNumeric = true)
      (ha : Typed a k) (hb : Typed b k) : Typed (.arithmetic op a b) k
  | percent {a b : Expr} {j k : Kind} (hj : j.isNumeric = true) (hk : k.isNumeric = true)
      (ha : Typed a j) (hb : Typed b k) : Typed (.binary .percent a b) j
  | comparison {op : Comparison} {a b : Expr} {k : Kind} (hk : k.isNumeric = true)
      (ha : Typed a k) (hb : Typed b k) : Typed (.comparison op a b) .boolean
  | connective {op : Connective} {a b : Expr} (ha : Typed a .boolean) (hb : Typed b .boolean) :
      Typed (.connective op a b) .boolean
  | choice {c a b : Expr} {k : Kind} (hk : k.isQuote = false) (hc : Typed c .boolean)
      (ha : Typed a k) (hb : Typed b k) : Typed (.choice c a b) k
  | lag {q o : Expr} {j k : Kind} (hk : j.ofQuote? = some k) (hq : Typed q j)
      (ho : Typed o .integer) : Typed (.binary .lag q o) k
  | statistic {s : Statistic} {q p o : Expr} {j k : Kind} (hk : j.ofQuote? = some k)
      (hq : Typed q j) (hp : Typed p .integer) (ho : Typed o .integer) :
      Typed (.ternary (.statistic s) q p o) k
  | ema {q p o s : Expr} {j k : Kind} (hk : j.ofQuote? = some k) (hq : Typed q j)
      (hp : Typed p .integer) (ho : Typed o .integer) (hs : Typed s .float) :
      Typed (.quaternary .ema q p o s) k
  | rsi {p o : Expr} (hp : Typed p .integer) (ho : Typed o .integer) :
      Typed (.binary .rsi p o) .float
  | correlation {partner : String} {q p o : Expr} {j : Kind} (hj : j.isQuote = true)
      (hq : Typed q j) (hp : Typed p .integer) (ho : Typed o .integer) :
      Typed (.ternary (.correlation partner) q p o) .float

variable {a b e : Expr} {k : Kind} {m : Mismatch}

/-- The checker passes what the rules type. -/
theorem Typed.hasKind (h : Typed e k) : e.HasKind k := by
  induction h with
  | whole | real | truth | declared | volume | date => exact hasKind_leaf.mpr rfl
  | @price f hf =>
    refine hasKind_leaf.mpr ?_
    cases f with
    | volume => exact absurd rfl hf
    | opening | high | low | closing => rfl
  | not _ iha => exact hasKind_not iha
  | sqrt hk _ iha => exact hasKind_function nofun iha hk
  | abs hk _ iha => exact hasKind_function nofun iha hk
  | arithmetic hk _ _ iha ihb => exact hasKind_arithmetic iha ihb hk
  | comparison hk _ _ iha ihb => exact hasKind_comparison iha ihb hk
  | connective _ _ iha ihb => exact hasKind_connective iha ihb
  | percent hj hk _ _ iha ihb => exact hasKind_percent iha ihb hj hk
  | choice hk _ _ _ ihc iha ihb => exact hasKind_choice ihc iha ihb hk
  | lag hk _ _ iha ihb => exact hasKind_lag hk iha ihb
  | statistic hk _ _ _ iha ihb ihc => exact hasKind_statistic hk iha ihb ihc
  | ema hk _ _ _ _ iha ihb ihc ihd => exact hasKind_ema hk iha ihb ihc ihd
  | rsi _ _ iha ihb => exact hasKind_rsi iha ihb
  | correlation hj _ _ _ iha ihb ihc => exact hasKind_correlation hj iha ihb ihc

theorem typed_leaf : ∀ s : Leaf, Typed (.leaf s) s.kind
  | .number (.whole ..) => .whole
  | .number (.real ..) => .real
  | .truth _ => .truth
  | .variable .. => .declared
  | .quote .volume => .volume
  | .quote .opening | .quote .high | .quote .low | .quote .closing => .price (by decide)
  | .date _ => .date

/-- The rules type what the checker passes. -/
theorem HasKind.typed : ∀ {e : Expr} {k : Kind}, e.HasKind k → Typed e k
  | .leaf s, k, h => hasKind_leaf.mp h ▸ typed_leaf s
  | .unary op a, k, h => by
    obtain ⟨j, ha, hr⟩ := hasKind_unary.mp h
    cases op with
    | not =>
      obtain ⟨rfl, rfl⟩ := Unary.rule_not.mp hr
      exact .not ha.typed
    | sqrt =>
      obtain ⟨hj, rfl⟩ := Unary.rule_sqrt.mp hr
      exact .sqrt hj ha.typed
    | abs =>
      obtain ⟨hj, rfl⟩ := Unary.rule_abs.mp hr
      exact .abs hj ha.typed
  | .binary op a b, r, h => by
    obtain ⟨j, k, ha, hb, hr⟩ := hasKind_binary.mp h
    cases op with
    | arithmetic op =>
      obtain ⟨rfl, hj, rfl⟩ := Binary.rule_arithmetic.mp hr
      exact .arithmetic hj ha.typed hb.typed
    | comparison op =>
      obtain ⟨rfl, hj, rfl⟩ := Binary.rule_comparison.mp hr
      exact .comparison hj ha.typed hb.typed
    | connective op =>
      obtain ⟨rfl, rfl, rfl⟩ := Binary.rule_connective.mp hr
      exact .connective ha.typed hb.typed
    | percent =>
      obtain ⟨hj, hk, rfl⟩ := Binary.rule_percent.mp hr
      exact .percent hj hk ha.typed hb.typed
    | lag =>
      obtain ⟨hj, rfl⟩ := Binary.rule_lag.mp hr
      exact .lag hj ha.typed hb.typed
    | rsi =>
      obtain ⟨rfl, rfl, rfl⟩ := Binary.rule_rsi.mp hr
      exact .rsi ha.typed hb.typed
  | .ternary op a b c, r, h => by
    obtain ⟨j, k, l, ha, hb, hc, hr⟩ := hasKind_ternary.mp h
    cases op with
    | choice =>
      obtain ⟨rfl, rfl, hk, rfl⟩ := Ternary.rule_choice.mp hr
      exact .choice hk ha.typed hb.typed hc.typed
    | statistic s =>
      obtain ⟨hj, rfl, rfl⟩ := Ternary.rule_statistic.mp hr
      exact .statistic hj ha.typed hb.typed hc.typed
    | correlation partner =>
      obtain ⟨⟨number, hj⟩, rfl, rfl, rfl⟩ := Ternary.rule_correlation.mp hr
      exact .correlation (Kind.ofQuote?_eq_some hj).1 ha.typed hb.typed hc.typed
  | .quaternary .ema a b c d, r, h => by
    obtain ⟨j, k, l, m, ha, hb, hc, hd, hr⟩ := hasKind_quaternary.mp h
    obtain ⟨hj, rfl, rfl, rfl⟩ := Quaternary.rule_ema.mp hr
    exact .ema hj ha.typed hb.typed hc.typed hd.typed

/-- The checker decides the typing relation. -/
theorem typed_iff : Typed e k ↔ e.HasKind k :=
  ⟨Typed.hasKind, HasKind.typed⟩

/-! ## The nodes in the order they are checked -/

/-- All nodes of a tree, the operands of a node before the node. -/
def postorder : Expr → List Expr
  | .leaf l => [.leaf l]
  | .unary op a => a.postorder ++ [.unary op a]
  | .binary op a b => a.postorder ++ b.postorder ++ [.binary op a b]
  | .ternary op a b c => a.postorder ++ b.postorder ++ c.postorder ++ [.ternary op a b c]
  | .quaternary op a b c d =>
    a.postorder ++ b.postorder ++ c.postorder ++ d.postorder ++ [.quaternary op a b c d]

/-- Whether a node breaks its own rule: its operands have kinds and it has none. -/
def Breaks (e : Expr) : Prop :=
  (∀ a ∈ e.operands, ∃ k, Typed a k) ∧ ∀ k, ¬Typed e k

theorem postorder_eq (e : Expr) : e.postorder = e.operands.flatMap postorder ++ [e] := by
  cases e <;> simp [postorder, operands]

/-- The nodes of a typed tree are typed. -/
theorem Typed.of_mem_postorder (h : Typed e k) (hb : b ∈ e.postorder) : ∃ j, Typed b j := by
  induction e using operand_induction generalizing k with
  | step e ih =>
    rw [postorder_eq, List.mem_append, List.mem_flatMap, List.mem_singleton] at hb
    rcases hb with ⟨a, ha, hb⟩ | rfl
    · obtain ⟨j, hj⟩ := h.hasKind.of_mem_operands ha
      exact ih a ha hj.typed hb
    · exact ⟨k, h⟩

/-- No node of a typed tree breaks its rule. -/
theorem Typed.not_breaks (h : Typed e k) (hb : b ∈ e.postorder) : ¬b.Breaks := by
  obtain ⟨j, hj⟩ := h.of_mem_postorder hb
  exact fun hbreaks => hbreaks.2 j hj

/-! ## The first broken rule -/

/-- An error names the root when all operands pass, and else comes from the first that does not. -/
theorem check_eq_error (h : e.check = .error m) :
    (m.node = e ∧ ∀ a ∈ e.operands, ∃ k, a.HasKind k) ∨
      ∃ before a after, e.operands = before ++ a :: after ∧
        (∀ b ∈ before, ∃ k, b.HasKind k) ∧ a.check = .error m := by
  cases e with
  | leaf l => cases h
  | unary op a =>
    rcases bind_eq_error.mp h with ha | ⟨j, ha, h⟩
    · exact .inr ⟨[], a, [], rfl, by simp, ha⟩
    · obtain ⟨cause, -, rfl⟩ := mapError_eq_error.mp h
      exact .inl ⟨rfl, by simpa [operands] using ⟨j, ha⟩⟩
  | binary op a b =>
    rcases bind_eq_error.mp h with ha | ⟨j, ha, h⟩
    · exact .inr ⟨[], a, [b], rfl, by simp, ha⟩
    rcases bind_eq_error.mp h with hb | ⟨k, hb, h⟩
    · exact .inr ⟨[a], b, [], rfl, by simpa using ⟨j, ha⟩, hb⟩
    · obtain ⟨cause, -, rfl⟩ := mapError_eq_error.mp h
      exact .inl ⟨rfl, by simpa [operands] using ⟨⟨j, ha⟩, ⟨k, hb⟩⟩⟩
  | ternary op a b c =>
    rcases bind_eq_error.mp h with ha | ⟨j, ha, h⟩
    · exact .inr ⟨[], a, [b, c], rfl, by simp, ha⟩
    rcases bind_eq_error.mp h with hb | ⟨k, hb, h⟩
    · exact .inr ⟨[a], b, [c], rfl, by simpa using ⟨j, ha⟩, hb⟩
    rcases bind_eq_error.mp h with hc | ⟨l, hc, h⟩
    · exact .inr ⟨[a, b], c, [], rfl, by simpa using ⟨⟨j, ha⟩, ⟨k, hb⟩⟩, hc⟩
    · obtain ⟨cause, -, rfl⟩ := mapError_eq_error.mp h
      exact .inl ⟨rfl, by simpa [operands] using ⟨⟨j, ha⟩, ⟨k, hb⟩, ⟨l, hc⟩⟩⟩
  | quaternary op a b c d =>
    rcases bind_eq_error.mp h with ha | ⟨j, ha, h⟩
    · exact .inr ⟨[], a, [b, c, d], rfl, by simp, ha⟩
    rcases bind_eq_error.mp h with hb | ⟨k, hb, h⟩
    · exact .inr ⟨[a], b, [c, d], rfl, by simpa using ⟨j, ha⟩, hb⟩
    rcases bind_eq_error.mp h with hc | ⟨l, hc, h⟩
    · exact .inr ⟨[a, b], c, [d], rfl, by simpa using ⟨⟨j, ha⟩, ⟨k, hb⟩⟩, hc⟩
    rcases bind_eq_error.mp h with hd | ⟨n, hd, h⟩
    · exact .inr ⟨[a, b, c], d, [], rfl, by simpa using ⟨⟨j, ha⟩, ⟨k, hb⟩, ⟨l, hc⟩⟩, hd⟩
    · obtain ⟨cause, -, rfl⟩ := mapError_eq_error.mp h
      exact .inl ⟨rfl, by simpa [operands] using ⟨⟨j, ha⟩, ⟨k, hb⟩, ⟨l, hc⟩, ⟨n, hd⟩⟩⟩

/-- An error names the first node that breaks its rule. -/
theorem first_breaks (h : e.check = .error m) :
    ∃ before after, e.postorder = before ++ m.node :: after ∧ m.node.Breaks ∧
      ∀ a ∈ before, ¬a.Breaks := by
  induction e using operand_induction with
  | step e ih =>
    rcases check_eq_error h with ⟨hnode, hops⟩ | ⟨before, a, after, hops, hbefore, ha⟩
    · have htyped : ∀ a ∈ e.operands, ∃ k, Typed a k := fun a ha =>
        (hops a ha).imp fun _ => HasKind.typed
      refine ⟨e.operands.flatMap postorder, [], ?_, ?_, ?_⟩
      · rw [postorder_eq, hnode]
      · rw [hnode]
        exact ⟨htyped, fun k hk => by rw [hk.hasKind] at h; cases h⟩
      · intro b hb
        obtain ⟨a, ha, hb⟩ := List.mem_flatMap.mp hb
        obtain ⟨k, hk⟩ := htyped a ha
        exact hk.not_breaks hb
    · have hmem : a ∈ e.operands := hops ▸ List.mem_append_right before List.mem_cons_self
      obtain ⟨inner, rest, horder, hbreaks, hinner⟩ := ih a hmem ha
      refine ⟨before.flatMap postorder ++ inner, rest ++ (after.flatMap postorder ++ [e]),
        ?_, hbreaks, ?_⟩
      · rw [postorder_eq, hops]
        simp [horder]
      · intro b hb
        rcases List.mem_append.mp hb with hb | hb
        · obtain ⟨a, ha, hb⟩ := List.mem_flatMap.mp hb
          obtain ⟨k, hk⟩ := hbefore a ha
          exact hk.typed.not_breaks hb
        · exact hinner b hb

/-! ## The checker and the declared kinds -/

/-- In a typed tree each node passes with the kind it declares, and only fields have quote kinds. -/
theorem Typed.site (h : Typed e k) {site : Path × Expr} (hs : site ∈ e.sites) :
    ∃ j, site.2.check = .ok j ∧ site.2.declaredKind = .ok j ∧
      (j.isQuote = true → ∃ f, site.2 = .quote f) := by
  obtain ⟨j, hj⟩ := h.hasKind.at? site.1 (at?_of_mem_sites hs)
  refine ⟨j, hj, hj.declaredKind, fun hquote => ?_⟩
  obtain ⟨f, hf, -⟩ := hj.eq_quote hquote
  exact ⟨f, hf⟩

/-- The checker decides the typing rules.  It passes a tree with the kind that the rules give, which
is also the one that each of its nodes declares.  Of a tree without a kind it reports the first node
in post-order that breaks its own rule. -/
theorem check_decides_typing (e : Expr) :
    (∀ k, e.check = .ok k ↔ Typed e k) ∧
      (∀ k, Typed e k → e.declaredKind = .ok k ∧ ∀ site ∈ e.sites, ∃ j, site.2.check = .ok j ∧
        site.2.declaredKind = .ok j ∧ (j.isQuote = true → ∃ f, site.2 = .quote f)) ∧
      ((∀ k, ¬Typed e k) → ∃ m, e.check = .error m ∧
        (∃ reason, m.message = "Type mismatch in '" ++ m.node.text ++ "': " ++ reason) ∧
        ∃ before after, e.postorder = before ++ m.node :: after ∧ m.node.Breaks ∧
          ∀ a ∈ before, ¬a.Breaks) := by
  refine ⟨fun k => typed_iff.symm, fun k h => ⟨h.hasKind.declaredKind, fun _ hs => h.site hs⟩,
    fun huntyped => ?_⟩
  cases hcheck : e.check with
  | ok k => exact absurd (HasKind.typed hcheck) (huntyped k)
  | error m => exact ⟨m, rfl, ⟨_, rfl⟩, first_breaks hcheck⟩

/-- `not(close) and (true+volume)`, in which two nodes break their rules. -/
def twiceBroken : Expr :=
  .connective .and (.not (.quote .closing)) (.arithmetic .add (.truth true) (.quote .volume))

theorem check_decides_typing_twiceBroken :
    Typed (.binary .lag (.quote .volume) (.leaf (.date .day))) .integer ∧
      (∀ k, ¬Typed twiceBroken k) ∧
      ∃ m, twiceBroken.check = .error m ∧ m.node = .not (.quote .closing) := by
  have typed : Typed (.binary .lag (.quote .volume) (.leaf (.date .day))) .integer :=
    ((check_decides_typing _).1 .integer).mp rfl
  have untyped : ∀ k, ¬Typed twiceBroken k := fun k h => by
    cases ((check_decides_typing twiceBroken).1 k).mpr h
  obtain ⟨m, hm, -⟩ := (check_decides_typing twiceBroken).2.2 untyped
  exact ⟨typed, untyped, m, hm, by cases hm; rfl⟩

end Expr

end TradeRules
