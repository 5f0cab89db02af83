import Mathlib.Tactic.Common
import TradeRules.Rule.Path
import TradeRules.Rule.Typing

/-!
# Well-typed expressions

The kind of a node depends on the kinds of its operands alone.  The inversion lemmas read the rule
of each node off a checked tree (`hasKind_unary`, `hasKind_binary`, and so on) and the rules themselves
are inverted once, so later proofs never run the checker.  A node of operands that have the right kinds is
well typed by the rule of the node (`hasKind_arithmetic`, `hasKind_lag`, and so on).

A well-typed tree declares the kind it has (`HasKind.declaredKind`).  A tree of quote kind is a field
(`HasKind.eq_quote`).  Another tree of the same kind can stand at any site (`HasKind.replace?`).
-/

namespace TradeRules

/-! ## Computations that may fail -/

theorem mapError_eq_ok {α ε ε' : Type} {x : Except ε α} {f : ε → ε'} {a : α} :
    x.mapError f = .ok a ↔ x = .ok a := by
  cases x with
  | error e => simp [Except.mapError]
  | ok b => simp [Except.mapError]

theorem mapError_eq_error {α ε ε' : Type} {x : Except ε α} {f : ε → ε'} {m : ε'} :
    x.mapError f = .error m ↔ ∃ e, x = .error e ∧ f e = m := by
  cases x with
  | error e => simp [Except.mapError]
  | ok a => simp [Except.mapError]

theorem map_eq_ok {α β ε : Type} {x : Except ε α} {f : α → β} {b : β} :
    x.map f = .ok b ↔ ∃ a, x = .ok a ∧ f a = b := by
  cases x with
  | error e => simp [Except.map]
  | ok a => simp [Except.map]

theorem bind_eq_ok {α β ε : Type} {x : Except ε α} {f : α → Except ε β} {b : β} :
    (x >>= f) = .ok b ↔ ∃ a, x = .ok a ∧ f a = .ok b := by
  cases x with
  | error e => simp [bind, Except.bind]
  | ok a => simp [bind, Except.bind]

theorem bind_eq_error {α β ε : Type} {x : Except ε α} {f : α → Except ε β} {m : ε} :
    (x >>= f) = .error m ↔ x = .error m ∨ ∃ a, x = .ok a ∧ f a = .error m := by
  cases x with
  | error e => simp [bind, Except.bind]
  | ok a => simp [bind, Except.bind]

theorem bind_of_ok {α β ε : Type} {x : Except ε α} {f : α → Except ε β} {a : α} (h : x = .ok a) :
    (x >>= f) = f a := by
  rw [h]
  rfl

/-- The result at an index is that of the member there. -/
theorem getElem?_mapM {α β ε : Type} {f : α → Except ε β} {as : List α} {bs : List β}
    (h : as.mapM f = .ok bs) (i : ℕ) : as[i]?.map f = bs[i]?.map Except.ok := by
  induction as generalizing bs i with
  | nil =>
    cases h
    rfl
  | cons a as ih =>
    rw [List.mapM_cons] at h
    obtain ⟨b, hb, h⟩ := bind_eq_ok.mp h
    obtain ⟨rest, hrest, h⟩ := bind_eq_ok.mp h
    cases h
    cases i with
    | zero => exact congrArg some hb
    | succ i => exact ih hrest i

/-- A result of a list is the result of one of its members. -/
theorem exists_of_mem_mapM {α β ε : Type} {f : α → Except ε β} {as : List α} {bs : List β} {b : β}
    (h : as.mapM f = .ok bs) (hb : b ∈ bs) : ∃ a ∈ as, f a = .ok b := by
  obtain ⟨i, hi⟩ := List.mem_iff_getElem?.mp hb
  have hat := getElem?_mapM h i
  rw [hi] at hat
  obtain ⟨a, ha, hab⟩ := Option.map_eq_some_iff.mp hat
  exact ⟨a, List.mem_of_getElem? ha, hab⟩

theorem exists_mapM_eq_ok {α β ε : Type} {f : α → Except ε β} {as : List α}
    (h : ∀ a ∈ as, ∃ b, f a = .ok b) : ∃ bs, as.mapM f = .ok bs := by
  induction as with
  | nil => exact ⟨[], rfl⟩
  | cons a as ih =>
    obtain ⟨b, hb⟩ := h a List.mem_cons_self
    obtain ⟨bs, hbs⟩ := ih fun a' ha' => h a' (List.mem_cons_of_mem a ha')
    exact ⟨b :: bs, by rw [List.mapM_cons, hb, hbs]; rfl⟩

/-! ## The rules inverted -/

theorem Kind.ofQuote?_eq_some {k number : Kind} (h : k.ofQuote? = some number) :
    k.isQuote = true ∧ number.isNumeric = true := by
  cases k <;> cases h <;> exact ⟨rfl, rfl⟩

theorem Kind.ofQuote?_of_isQuote {k : Kind} (h : k.isQuote = true) :
    ∃ number, k.ofQuote? = some number := by
  cases k with
  | integerQuote => exact ⟨.integer, rfl⟩
  | floatQuote => exact ⟨.float, rfl⟩
  | boolean | integer | float => cases h

theorem Kind.isQuote_of_isNumeric {k : Kind} (h : k.isNumeric = true) : k.isQuote = false := by
  cases k <;> cases h <;> rfl

theorem commonNumber_eq_ok {j k r : Kind} :
    commonNumber j k = .ok r ↔ j = k ∧ j.isNumeric = true ∧ r = j := by
  unfold commonNumber
  split_ifs with hne hnum
  · exact iff_of_false (by simp) (fun h => hne h.1)
  · rw [Except.ok.injEq]
    exact ⟨fun h => ⟨not_not.mp hne, hnum, h.symm⟩, fun h => h.2.2.symm⟩
  · exact iff_of_false (by simp) (fun h => hnum h.2.1)

@[simp] theorem integerAt_eq_ok {position : Nat} {k : Kind} :
    integerAt position k = .ok () ↔ k = .integer := by
  unfold integerAt
  split_ifs with h <;> simp [h]

theorem quoteRule_eq_ok {k r : Kind} {rest : Except MismatchCause Unit} :
    quoteRule k rest = .ok r ↔ k.ofQuote? = some r ∧ rest = .ok () := by
  unfold quoteRule
  cases k.ofQuote? with
  | none => simp
  | some number =>
    rw [map_eq_ok, Option.some.injEq]
    exact ⟨fun ⟨_, hrest, h⟩ => ⟨h, hrest⟩, fun ⟨h, hrest⟩ => ⟨(), hrest, h⟩⟩

/-- A check after a check passes when both do. -/
theorem checkBoth_eq_ok {first second : Except MismatchCause Unit} :
    (do first; second : Except MismatchCause Unit) = .ok () ↔ first = .ok () ∧ second = .ok () := by
  cases first with
  | error e => simp [bind, Except.bind]
  | ok u => simp [bind, Except.bind]

namespace Unary

theorem rule_not {j k : Kind} : not.rule j = .ok k ↔ j = .boolean ∧ k = .boolean := by
  cases j <;> cases k <;> decide

theorem rule_sqrt {j k : Kind} : sqrt.rule j = .ok k ↔ j.isNumeric = true ∧ k = j := by
  cases j <;> cases k <;> decide

theorem rule_abs {j k : Kind} : abs.rule j = .ok k ↔ j.isNumeric = true ∧ k = j := by
  cases j <;> cases k <;> decide

end Unary

namespace Binary

theorem rule_arithmetic {op : Arithmetic} {j k r : Kind} :
    (arithmetic op).rule j k = .ok r ↔ j = k ∧ j.isNumeric = true ∧ r = j :=
  commonNumber_eq_ok

theorem rule_comparison {op : Comparison} {j k r : Kind} :
    (comparison op).rule j k = .ok r ↔ j = k ∧ j.isNumeric = true ∧ r = .boolean := by
  refine map_eq_ok.trans ?_
  constructor
  · rintro ⟨l, hl, rfl⟩
    obtain ⟨hjk, hnum, -⟩ := commonNumber_eq_ok.mp hl
    exact ⟨hjk, hnum, rfl⟩
  · rintro ⟨hjk, hnum, rfl⟩
    exact ⟨j, commonNumber_eq_ok.mpr ⟨hjk, hnum, rfl⟩, rfl⟩

theorem rule_connective {op : Connective} {j k r : Kind} :
    (connective op).rule j k = .ok r ↔ j = .boolean ∧ k = .boolean ∧ r = .boolean := by
  show (if j = .boolean ∧ k = .boolean then Except.ok Kind.boolean else _) = _ ↔ _
  split_ifs with h
  · rw [Except.ok.injEq]
    exact ⟨fun hr => ⟨h.1, h.2, hr.symm⟩, fun hr => hr.2.2.symm⟩
  · exact iff_of_false (by simp) (fun hr => h ⟨hr.1, hr.2.1⟩)

theorem rule_percent {j k r : Kind} :
    percent.rule j k = .ok r ↔ j.isNumeric = true ∧ k.isNumeric = true ∧ r = j := by
  show (if j.isNumeric && k.isNumeric then Except.ok j else _) = _ ↔ _
  split_ifs with h
  · obtain ⟨hj, hk⟩ := Bool.and_eq_true_iff.mp h
    rw [Except.ok.injEq]
    exact ⟨fun hr => ⟨hj, hk, hr.symm⟩, fun hr => hr.2.2.symm⟩
  · exact iff_of_false (by simp) (fun hr => h (Bool.and_eq_true_iff.mpr ⟨hr.1, hr.2.1⟩))

theorem rule_lag {j k r : Kind} :
    lag.rule j k = .ok r ↔ j.ofQuote? = some r ∧ k = .integer :=
  quoteRule_eq_ok.trans (and_congr_right fun _ => integerAt_eq_ok)

theorem rule_rsi {j k r : Kind} :
    rsi.rule j k = .ok r ↔ j = .integer ∧ k = .integer ∧ r = .float := by
  constructor
  · intro h
    obtain ⟨u, hj, h⟩ := bind_eq_ok.mp h
    obtain ⟨v, hk, h⟩ := bind_eq_ok.mp h
    exact ⟨integerAt_eq_ok.mp hj, integerAt_eq_ok.mp hk, (Except.ok.inj h).symm⟩
  · rintro ⟨rfl, rfl, rfl⟩
    rfl

end Binary

namespace Ternary

theorem rule_choice {c j k r : Kind} :
    choice.rule c j k = .ok r ↔ c = .boolean ∧ j = k ∧ j.isQuote = false ∧ r = j := by
  show (if c ≠ .boolean then Except.error _ else if j ≠ k then Except.error _
    else if j.isQuote then Except.error _ else Except.ok j) = _ ↔ _
  split_ifs with hc hjk hquote
  · exact iff_of_false (by simp) (fun h => hc h.1)
  · exact iff_of_false (by simp) (fun h => hjk h.2.1)
  · exact iff_of_false (by simp) (fun h => by simp [hquote] at h)
  · rw [Except.ok.injEq]
    exact ⟨fun h => ⟨not_not.mp hc, not_not.mp hjk, Bool.eq_false_iff.mpr hquote, h.symm⟩,
      fun h => h.2.2.2.symm⟩

theorem rule_statistic {s : Statistic} {j p o r : Kind} :
    (statistic s).rule j p o = .ok r ↔ j.ofQuote? = some r ∧ p = .integer ∧ o = .integer := by
  refine quoteRule_eq_ok.trans ?_
  rw [checkBoth_eq_ok, integerAt_eq_ok, integerAt_eq_ok]

theorem rule_correlation {partner : String} {j p o r : Kind} :
    (correlation partner).rule j p o = .ok r ↔
      (∃ number, j.ofQuote? = some number) ∧ p = .integer ∧ o = .integer ∧ r = .float := by
  refine map_eq_ok.trans ?_
  simp only [quoteRule_eq_ok, checkBoth_eq_ok, integerAt_eq_ok]
  constructor
  · rintro ⟨number, ⟨hj, hp, ho⟩, rfl⟩
    exact ⟨⟨number, hj⟩, hp, ho, rfl⟩
  · rintro ⟨⟨number, hj⟩, hp, ho, rfl⟩
    exact ⟨number, ⟨hj, hp, ho⟩, rfl⟩

end Ternary

theorem Quaternary.rule_ema {j p o s r : Kind} :
    ema.rule j p o s = .ok r ↔
      j.ofQuote? = some r ∧ p = .integer ∧ o = .integer ∧ s = .float := by
  refine quoteRule_eq_ok.trans ?_
  rw [checkBoth_eq_ok, checkBoth_eq_ok, integerAt_eq_ok, integerAt_eq_ok]
  split_ifs with hs <;> simp [hs]

/-! ## Checked trees inverted -/

namespace Expr

variable {a b c d e : Expr} {j k l m : Kind}

theorem hasKind_leaf {l : Leaf} : (leaf l).HasKind k ↔ l.kind = k := by
  show Except.ok l.kind = .ok k ↔ _
  rw [Except.ok.injEq]

theorem hasKind_unary {op : Unary} :
    (unary op a).HasKind k ↔ ∃ j, a.HasKind j ∧ op.rule j = .ok k :=
  bind_eq_ok.trans (exists_congr fun _ => and_congr_right fun _ => mapError_eq_ok)

theorem hasKind_binary {op : Binary} :
    (binary op a b).HasKind l ↔ ∃ j k, a.HasKind j ∧ b.HasKind k ∧ op.rule j k = .ok l := by
  constructor
  · intro h
    obtain ⟨j, ha, h⟩ := bind_eq_ok.mp h
    obtain ⟨k, hb, h⟩ := bind_eq_ok.mp h
    exact ⟨j, k, ha, hb, mapError_eq_ok.mp h⟩
  · rintro ⟨j, k, ha, hb, h⟩
    exact bind_eq_ok.mpr ⟨j, ha, bind_eq_ok.mpr ⟨k, hb, mapError_eq_ok.mpr h⟩⟩

theorem hasKind_ternary {op : Ternary} :
    (ternary op a b c).HasKind m ↔
      ∃ j k l, a.HasKind j ∧ b.HasKind k ∧ c.HasKind l ∧ op.rule j k l = .ok m := by
  constructor
  · intro h
    obtain ⟨j, ha, h⟩ := bind_eq_ok.mp h
    obtain ⟨k, hb, h⟩ := bind_eq_ok.mp h
    obtain ⟨l, hc, h⟩ := bind_eq_ok.mp h
    exact ⟨j, k, l, ha, hb, hc, mapError_eq_ok.mp h⟩
  · rintro ⟨j, k, l, ha, hb, hc, h⟩
    exact bind_eq_ok.mpr ⟨j, ha, bind_eq_ok.mpr ⟨k, hb, bind_eq_ok.mpr ⟨l, hc,
      mapError_eq_ok.mpr h⟩⟩⟩

theorem hasKind_quaternary {op : Quaternary} {r : Kind} :
    (quaternary op a b c d).HasKind r ↔
      ∃ j k l m, a.HasKind j ∧ b.HasKind k ∧ c.HasKind l ∧ d.HasKind m ∧
        op.rule j k l m = .ok r := by
  constructor
  · intro h
    obtain ⟨j, ha, h⟩ := bind_eq_ok.mp h
    obtain ⟨k, hb, h⟩ := bind_eq_ok.mp h
    obtain ⟨l, hc, h⟩ := bind_eq_ok.mp h
    obtain ⟨m, hd, h⟩ := bind_eq_ok.mp h
    exact ⟨j, k, l, m, ha, hb, hc, hd, mapError_eq_ok.mp h⟩
  · rintro ⟨j, k, l, m, ha, hb, hc, hd, h⟩
    exact bind_eq_ok.mpr ⟨j, ha, bind_eq_ok.mpr ⟨k, hb, bind_eq_ok.mpr ⟨l, hc,
      bind_eq_ok.mpr ⟨m, hd, mapError_eq_ok.mpr h⟩⟩⟩⟩

/-- A tree has at most one kind. -/
theorem HasKind.unique (h : e.HasKind j) (h' : e.HasKind k) : j = k :=
  Except.ok.inj (h.symm.trans h')

/-! ## The rules of the nodes -/

theorem hasKind_not (ha : a.HasKind .boolean) : (Expr.not a).HasKind .boolean :=
  hasKind_unary.mpr ⟨_, ha, Unary.rule_not.mpr ⟨rfl, rfl⟩⟩

/-- A function of a number has the kind of the number. -/
theorem hasKind_function {op : Unary} (hop : op ≠ .not) (ha : a.HasKind j)
    (hj : j.isNumeric = true) : (unary op a).HasKind j := by
  refine hasKind_unary.mpr ⟨j, ha, ?_⟩
  cases op with
  | not => exact absurd rfl hop
  | sqrt => exact Unary.rule_sqrt.mpr ⟨hj, rfl⟩
  | abs => exact Unary.rule_abs.mpr ⟨hj, rfl⟩

theorem hasKind_arithmetic {op : Arithmetic} (ha : a.HasKind j) (hb : b.HasKind j)
    (hj : j.isNumeric = true) : (arithmetic op a b).HasKind j :=
  hasKind_binary.mpr ⟨j, j, ha, hb, Binary.rule_arithmetic.mpr ⟨rfl, hj, rfl⟩⟩

theorem hasKind_comparison {op : Comparison} (ha : a.HasKind j) (hb : b.HasKind j)
    (hj : j.isNumeric = true) : (comparison op a b).HasKind .boolean :=
  hasKind_binary.mpr ⟨j, j, ha, hb, Binary.rule_comparison.mpr ⟨rfl, hj, rfl⟩⟩

theorem hasKind_connective {op : Connective} (ha : a.HasKind .boolean) (hb : b.HasKind .boolean) :
    (connective op a b).HasKind .boolean :=
  hasKind_binary.mpr ⟨_, _, ha, hb, Binary.rule_connective.mpr ⟨rfl, rfl, rfl⟩⟩

theorem hasKind_percent (ha : a.HasKind j) (hb : b.HasKind k) (hj : j.isNumeric = true)
    (hk : k.isNumeric = true) : (binary .percent a b).HasKind j :=
  hasKind_binary.mpr ⟨j, k, ha, hb, Binary.rule_percent.mpr ⟨hj, hk, rfl⟩⟩

theorem hasKind_choice (hc : c.HasKind .boolean) (ha : a.HasKind k) (hb : b.HasKind k)
    (hk : k.isQuote = false) : (choice c a b).HasKind k :=
  hasKind_ternary.mpr ⟨_, _, _, hc, ha, hb, Ternary.rule_choice.mpr ⟨rfl, rfl, hk, rfl⟩⟩

theorem hasKind_lag (hj : j.ofQuote? = some k) (ha : a.HasKind j) (hb : b.HasKind .integer) :
    (binary .lag a b).HasKind k :=
  hasKind_binary.mpr ⟨_, _, ha, hb, Binary.rule_lag.mpr ⟨hj, rfl⟩⟩

theorem hasKind_rsi (ha : a.HasKind .integer) (hb : b.HasKind .integer) :
    (binary .rsi a b).HasKind .float :=
  hasKind_binary.mpr ⟨_, _, ha, hb, Binary.rule_rsi.mpr ⟨rfl, rfl, rfl⟩⟩

theorem hasKind_statistic {s : Statistic} (hj : j.ofQuote? = some k) (ha : a.HasKind j)
    (hb : b.HasKind .integer) (hc : c.HasKind .integer) :
    (ternary (.statistic s) a b c).HasKind k :=
  hasKind_ternary.mpr ⟨_, _, _, ha, hb, hc, Ternary.rule_statistic.mpr ⟨hj, rfl, rfl⟩⟩

theorem hasKind_correlation {partner : String} (hj : j.isQuote = true) (ha : a.HasKind j)
    (hb : b.HasKind .integer) (hc : c.HasKind .integer) :
    (ternary (.correlation partner) a b c).HasKind .float :=
  hasKind_ternary.mpr ⟨_, _, _, ha, hb, hc,
    Ternary.rule_correlation.mpr ⟨Kind.ofQuote?_of_isQuote hj, rfl, rfl, rfl⟩⟩

theorem hasKind_ema (hj : j.ofQuote? = some k) (ha : a.HasKind j) (hb : b.HasKind .integer)
    (hc : c.HasKind .integer) (hd : d.HasKind .float) : (quaternary .ema a b c d).HasKind k :=
  hasKind_quaternary.mpr ⟨_, _, _, _, ha, hb, hc, hd, Quaternary.rule_ema.mpr ⟨hj, rfl, rfl, rfl⟩⟩

/-! ## The declared kind -/

/-- A well-typed tree declares the kind it has. -/
theorem HasKind.declaredKind : ∀ {e : Expr} {k : Kind}, e.HasKind k → e.declaredKind = .ok k
  | .leaf l, k, h => congrArg Except.ok (hasKind_leaf.mp h)
  | .unary .not a, k, h => by
    obtain ⟨j, -, hr⟩ := hasKind_unary.mp h
    rw [(Unary.rule_not.mp hr).2, Expr.declaredKind]
  | .unary .sqrt a, k, h => by
    obtain ⟨j, ha, hr⟩ := hasKind_unary.mp h
    rw [(Unary.rule_sqrt.mp hr).2, Expr.declaredKind, ha.declaredKind]
    exact fun h => by cases h
  | .unary .abs a, k, h => by
    obtain ⟨j, ha, hr⟩ := hasKind_unary.mp h
    rw [(Unary.rule_abs.mp hr).2, Expr.declaredKind, ha.declaredKind]
    exact fun h => by cases h
  | .binary (.arithmetic op) a b, k, h => by
    obtain ⟨j, l, ha, -, hr⟩ := hasKind_binary.mp h
    rw [(Binary.rule_arithmetic.mp hr).2.2, Expr.declaredKind, ha.declaredKind]
  | .binary (.comparison op) a b, k, h => by
    obtain ⟨j, l, -, -, hr⟩ := hasKind_binary.mp h
    rw [(Binary.rule_comparison.mp hr).2.2, Expr.declaredKind]
  | .binary (.connective op) a b, k, h => by
    obtain ⟨j, l, -, -, hr⟩ := hasKind_binary.mp h
    rw [(Binary.rule_connective.mp hr).2.2, Expr.declaredKind]
  | .binary .percent a b, k, h => by
    obtain ⟨j, l, ha, -, hr⟩ := hasKind_binary.mp h
    rw [(Binary.rule_percent.mp hr).2.2, Expr.declaredKind, ha.declaredKind]
  | .binary .lag a b, k, h => by
    obtain ⟨j, l, ha, -, hr⟩ := hasKind_binary.mp h
    rw [Expr.declaredKind, ha.declaredKind]
    simp [Except.bind, Kind.ofQuote, (Binary.rule_lag.mp hr).1]
  | .binary .rsi a b, k, h => by
    obtain ⟨j, l, -, -, hr⟩ := hasKind_binary.mp h
    rw [(Binary.rule_rsi.mp hr).2.2, Expr.declaredKind]
  | .ternary .choice c a b, k, h => by
    obtain ⟨j, l, m, -, ha, -, hr⟩ := hasKind_ternary.mp h
    rw [(Ternary.rule_choice.mp hr).2.2.2, Expr.declaredKind, ha.declaredKind]
  | .ternary (.statistic s) a b c, k, h => by
    obtain ⟨j, l, m, ha, -, -, hr⟩ := hasKind_ternary.mp h
    rw [Expr.declaredKind, ha.declaredKind]
    simp [Except.bind, Kind.ofQuote, (Ternary.rule_statistic.mp hr).1]
  | .ternary (.correlation partner) a b c, k, h => by
    obtain ⟨j, l, m, -, -, -, hr⟩ := hasKind_ternary.mp h
    rw [(Ternary.rule_correlation.mp hr).2.2.2, Expr.declaredKind]
  | .quaternary .ema a b c d, k, h => by
    obtain ⟨j, l, m, n, ha, -, -, -, hr⟩ := hasKind_quaternary.mp h
    rw [Expr.declaredKind, ha.declaredKind]
    simp [Except.bind, Kind.ofQuote, (Quaternary.rule_ema.mp hr).1]

theorem eq_quote_of_kind : ∀ {l : Leaf}, l.kind.isQuote = true → ∃ f, l = .quote f
  | .quote f, _ => ⟨f, rfl⟩
  | .number (.whole ..), h => by cases h
  | .number (.real ..), h => by cases h
  | .truth _, h => by cases h
  | .variable _ kind, h => by cases kind <;> cases h
  | .date _, h => by cases h

theorem isQuote_of_unary {op : Unary} (h : op.rule j = .ok k) : k.isQuote = false := by
  cases op with
  | not => rw [(Unary.rule_not.mp h).2]; rfl
  | sqrt => rw [(Unary.rule_sqrt.mp h).2]; exact Kind.isQuote_of_isNumeric (Unary.rule_sqrt.mp h).1
  | abs => rw [(Unary.rule_abs.mp h).2]; exact Kind.isQuote_of_isNumeric (Unary.rule_abs.mp h).1

theorem isQuote_of_binary {op : Binary} (h : op.rule j k = .ok l) : l.isQuote = false := by
  cases op with
  | arithmetic op =>
    obtain ⟨-, hj, rfl⟩ := Binary.rule_arithmetic.mp h
    exact Kind.isQuote_of_isNumeric hj
  | comparison op => rw [(Binary.rule_comparison.mp h).2.2]; rfl
  | connective op => rw [(Binary.rule_connective.mp h).2.2]; rfl
  | percent =>
    obtain ⟨hj, -, rfl⟩ := Binary.rule_percent.mp h
    exact Kind.isQuote_of_isNumeric hj
  | lag => exact Kind.isQuote_of_isNumeric (Kind.ofQuote?_eq_some (Binary.rule_lag.mp h).1).2
  | rsi => rw [(Binary.rule_rsi.mp h).2.2]; rfl

theorem isQuote_of_ternary {op : Ternary} (h : op.rule j k l = .ok m) : m.isQuote = false := by
  cases op with
  | choice =>
    obtain ⟨-, -, hk, rfl⟩ := Ternary.rule_choice.mp h
    exact hk
  | statistic s =>
    exact Kind.isQuote_of_isNumeric (Kind.ofQuote?_eq_some (Ternary.rule_statistic.mp h).1).2
  | correlation partner => rw [(Ternary.rule_correlation.mp h).2.2.2]; rfl

theorem isQuote_of_quaternary {op : Quaternary} {r : Kind} (h : op.rule j k l m = .ok r) :
    r.isQuote = false := by
  cases op with
  | ema => exact Kind.isQuote_of_isNumeric (Kind.ofQuote?_eq_some (Quaternary.rule_ema.mp h).1).2

/-- A well-typed tree of quote kind is a field. -/
theorem HasKind.eq_quote (h : e.HasKind k) (hk : k.isQuote = true) :
    ∃ f, e = .quote f ∧ f.kind = k := by
  cases e with
  | leaf l =>
    have hl := hasKind_leaf.mp h
    obtain ⟨f, rfl⟩ := eq_quote_of_kind (hl ▸ hk)
    exact ⟨f, rfl, hl⟩
  | unary op a =>
    obtain ⟨j, -, hr⟩ := hasKind_unary.mp h
    rw [isQuote_of_unary hr] at hk
    cases hk
  | binary op a b =>
    obtain ⟨j, l, -, -, hr⟩ := hasKind_binary.mp h
    rw [isQuote_of_binary hr] at hk
    cases hk
  | ternary op a b c =>
    obtain ⟨j, l, m, -, -, -, hr⟩ := hasKind_ternary.mp h
    rw [isQuote_of_ternary hr] at hk
    cases hk
  | quaternary op a b c d =>
    obtain ⟨j, l, m, n, -, -, -, -, hr⟩ := hasKind_quaternary.mp h
    rw [isQuote_of_quaternary hr] at hk
    cases hk

/-! ## Sites -/

/-- The operands of a well-typed tree are well typed. -/
theorem HasKind.operand {i : ℕ} (h : e.HasKind k) (ha : e.operands[i]? = some a) :
    ∃ j, a.HasKind j := by
  cases e with
  | leaf l => cases ha
  | unary op x =>
    obtain ⟨j, hx, -⟩ := hasKind_unary.mp h
    rcases i with _ | i
    · cases ha; exact ⟨j, hx⟩
    · cases ha
  | binary op x y =>
    obtain ⟨j, l, hx, hy, -⟩ := hasKind_binary.mp h
    rcases i with _ | _ | i
    · cases ha; exact ⟨j, hx⟩
    · cases ha; exact ⟨l, hy⟩
    · cases ha
  | ternary op x y z =>
    obtain ⟨j, l, m, hx, hy, hz, -⟩ := hasKind_ternary.mp h
    rcases i with _ | _ | _ | i
    · cases ha; exact ⟨j, hx⟩
    · cases ha; exact ⟨l, hy⟩
    · cases ha; exact ⟨m, hz⟩
    · cases ha
  | quaternary op x y z w =>
    obtain ⟨j, l, m, n, hx, hy, hz, hw, -⟩ := hasKind_quaternary.mp h
    rcases i with _ | _ | _ | _ | i
    · cases ha; exact ⟨j, hx⟩
    · cases ha; exact ⟨l, hy⟩
    · cases ha; exact ⟨m, hz⟩
    · cases ha; exact ⟨n, hw⟩
    · cases ha

theorem HasKind.of_mem_operands (h : e.HasKind k) (ha : a ∈ e.operands) : ∃ j, a.HasKind j := by
  obtain ⟨i, hi⟩ := List.mem_iff_getElem?.mp ha
  exact h.operand hi

/-- An operand can be exchanged for another of the same kind. -/
theorem HasKind.setOperand {i : ℕ} (h : e.HasKind k) (ha : e.operands[i]? = some a)
    (hj : a.HasKind j) (hb : b.HasKind j) : (e.setOperand i b).HasKind k := by
  cases e with
  | leaf l => cases ha
  | unary op x =>
    obtain ⟨j', hx, hr⟩ := hasKind_unary.mp h
    rcases i with _ | i
    · cases ha
      exact hasKind_unary.mpr ⟨j', hx.unique hj ▸ hb, hr⟩
    · cases ha
  | binary op x y =>
    obtain ⟨p, q, hx, hy, hr⟩ := hasKind_binary.mp h
    rcases i with _ | _ | i
    · cases ha
      exact hasKind_binary.mpr ⟨p, q, hx.unique hj ▸ hb, hy, hr⟩
    · cases ha
      exact hasKind_binary.mpr ⟨p, q, hx, hy.unique hj ▸ hb, hr⟩
    · cases ha
  | ternary op x y z =>
    obtain ⟨p, q, r, hx, hy, hz, hr⟩ := hasKind_ternary.mp h
    rcases i with _ | _ | _ | i
    · cases ha
      exact hasKind_ternary.mpr ⟨p, q, r, hx.unique hj ▸ hb, hy, hz, hr⟩
    · cases ha
      exact hasKind_ternary.mpr ⟨p, q, r, hx, hy.unique hj ▸ hb, hz, hr⟩
    · cases ha
      exact hasKind_ternary.mpr ⟨p, q, r, hx, hy, hz.unique hj ▸ hb, hr⟩
    · cases ha
  | quaternary op x y z w =>
    obtain ⟨p, q, r, s, hx, hy, hz, hw, hr⟩ := hasKind_quaternary.mp h
    rcases i with _ | _ | _ | _ | i
    · cases ha
      exact hasKind_quaternary.mpr ⟨p, q, r, s, hx.unique hj ▸ hb, hy, hz, hw, hr⟩
    · cases ha
      exact hasKind_quaternary.mpr ⟨p, q, r, s, hx, hy.unique hj ▸ hb, hz, hw, hr⟩
    · cases ha
      exact hasKind_quaternary.mpr ⟨p, q, r, s, hx, hy, hz.unique hj ▸ hb, hw, hr⟩
    · cases ha
      exact hasKind_quaternary.mpr ⟨p, q, r, s, hx, hy, hz, hw.unique hj ▸ hb, hr⟩
    · cases ha

/-- Each site of a well-typed tree is well typed. -/
theorem HasKind.at? {s : Expr} : ∀ {e : Expr} {k : Kind} (path : Path), e.HasKind k →
    e.at? path = some s → ∃ j, s.HasKind j
  | e, k, [], h, hs => ⟨k, by cases hs; exact h⟩
  | e, k, i :: rest, h, hs => by
    simp only [Expr.at?, Option.bind_eq_some_iff] at hs
    obtain ⟨a, ha, hrest⟩ := hs
    obtain ⟨j, hj⟩ := h.operand ha
    exact hj.at? rest hrest

/-- A site can be exchanged for another tree of the same kind. -/
theorem HasKind.replace? {s r : Expr} {j : Kind} (hs : s.HasKind j) (hr : r.HasKind j) :
    ∀ {e : Expr} {k : Kind} (path : Path), e.HasKind k → e.at? path = some s →
      ∃ e', e.replace? r path = some e' ∧ e'.HasKind k
  | e, k, [], h, hat => by
    cases hat
    exact ⟨r, rfl, h.unique hs ▸ hr⟩
  | e, k, i :: rest, h, hat => by
    simp only [Expr.at?, Option.bind_eq_some_iff] at hat
    obtain ⟨a, ha, hrest⟩ := hat
    obtain ⟨p, hp⟩ := h.operand ha
    obtain ⟨b, hb, hbk⟩ := HasKind.replace? hs hr rest hp hrest
    refine ⟨e.setOperand i b, ?_, h.setOperand ha hp hbk⟩
    simp [Expr.replace?, ha, hb]

end Expr

end TradeRules
