import TradeRules.Proofs.Double.Zeros
import TradeRules.Proofs.Rule.Equality
import TradeRules.Rule.Hash
import TradeRules.Rule.Path

/-!
# What equality identifies

Two trees are the same when the second comes of the first by exchanging the operands at some set of
nodes, and by turning some zeros into the other zero.  `Expr.rearrange` does so at the nodes that it
is told to, so the equality of trees, which tries both ways at every commutative node, is compared to
a choice made once for the whole tree (`same_iff_rearrange`).

The first of each class of same trees are those which none before them is the same as (`firsts`).
They are what is left when a list is run through a table keyed by trees, whatever the hashes are
(`keys_eq_firsts`), since trees that are the same have the same hash (`hashCode_eq_of_same`).
-/

namespace TradeRules

open Double

/-! ## Operations and literals -/

/-- The operations whose operands can be exchanged: `+`, `*`, `and`, `or`, `==` and `!=`. -/
def exchangeable : List Binary :=
  [.arithmetic .add, .arithmetic .multiply, .connective .and, .connective .or,
    .comparison .equal, .comparison .notEqual]

theorem Binary.mem_exchangeable {op : Binary} : op ∈ exchangeable ↔ op.commutative = true := by
  cases op with
  | arithmetic op => cases op <;> decide
  | comparison op => cases op <;> decide
  | connective op => cases op <;> decide
  | percent | lag | rsi => decide

namespace Literal

/-- A zero turned into the other zero.  Other literals stay as they are. -/
def otherZero : Literal → Literal
  | .real x finite => if x == 0.0 then .real (-x) (by rwa [neg_isFinite]) else .real x finite
  | l => l

variable {m n : Literal}

theorem same_otherZero (m : Literal) : m.same m.otherZero = true := by
  cases m with
  | whole n hn => exact same_refl _
  | real x hx =>
    show (real x hx).same (if x == 0.0 then _ else _) = true
    split_ifs with hzero
    · have hexact : exact x = 0 := ((beq_iff_exact hx zero_exact.1).mp hzero).trans zero_exact.2
      exact (beq_iff_exact hx (by rwa [neg_isFinite])).mpr (by rw [exact_neg, hexact, neg_zero])
    · exact same_refl _

/-- Doubles that stand for zero are the same or opposite. -/
theorem eq_or_neg_of_exact_zero {x y : Float} (hx : x.isFinite = true) (hy : y.isFinite = true)
    (hzero : exact x = 0) (hzero' : exact y = 0) : y = x ∨ y = -x := by
  obtain ⟨s, hs⟩ := unpack_of_exact_zero hx hzero
  obtain ⟨t, ht⟩ := unpack_of_exact_zero hy hzero'
  have hneg : (-x).toModel.unpack = .zero (-s) := by
    rw [unpack_neg, hs]
    rfl
  by_cases hst : t = s
  · exact .inl (eq_of_unpack_eq (by rw [hs, ht, hst]))
  · refine .inr (eq_of_unpack_eq ?_)
    rw [ht, hneg]
    cases s <;> cases t <;> first | rfl | exact absurd rfl hst

theorem eq_or_otherZero_of_same (h : m.same n = true) : n = m ∨ n = m.otherZero := by
  cases m with
  | whole m hm =>
    cases n with
    | whole n hn =>
      obtain rfl : m = n := by simpa [Literal.same] using h
      exact .inl rfl
    | real y hy => cases h
  | real x hx =>
    cases n with
    | whole n hn => cases h
    | real y hy =>
      have hexact : exact x = exact y := (beq_iff_exact hx hy).mp h
      by_cases hzero : exact x = 0
      · have hbeq : (x == 0.0) = true :=
          (beq_iff_exact hx zero_exact.1).mpr (hzero.trans zero_exact.2.symm)
        rcases eq_or_neg_of_exact_zero hx hy hzero (hexact ▸ hzero) with rfl | rfl
        · exact .inl rfl
        · exact .inr (by rw [otherZero, if_pos hbeq])
      · obtain rfl := eq_of_exact_eq hexact hzero
        exact .inl rfl

end Literal

namespace Expr

variable {a b c d e : Expr} {hashing : Hashing}

/-! ## Exchanging operands -/

/-- The tree with the operands exchanged at the chosen nodes, where they can be, and the chosen zeros
turned into the other zero. -/
def rearrange : Expr → (Path → Bool) → Expr
  | .leaf (.number l), chosen => .number (if chosen [] then l.otherZero else l)
  | .leaf l, _ => .leaf l
  | .unary op a, chosen => .unary op (a.rearrange fun path => chosen (0 :: path))
  | .binary op a b, chosen =>
    let a' := a.rearrange fun path => chosen (0 :: path)
    let b' := b.rearrange fun path => chosen (1 :: path)
    if chosen [] ∧ op ∈ exchangeable then .binary op b' a' else .binary op a' b'
  | .ternary op a b c, chosen =>
    .ternary op (a.rearrange fun path => chosen (0 :: path))
      (b.rearrange fun path => chosen (1 :: path)) (c.rearrange fun path => chosen (2 :: path))
  | .quaternary op a b c d, chosen =>
    .quaternary op (a.rearrange fun path => chosen (0 :: path))
      (b.rearrange fun path => chosen (1 :: path)) (c.rearrange fun path => chosen (2 :: path))
      (d.rearrange fun path => chosen (3 :: path))

/-- A choice of nodes from choices in the operands, with the root chosen or not. -/
def choose (root : Bool) (below : List (Path → Bool)) : Path → Bool
  | [] => root
  | i :: path =>
    match below[i]? with
    | some chosen => chosen path
    | none => false

theorem equal_rearrange (a : Expr) (chosen : Path → Bool) : Equal a (a.rearrange chosen) := by
  induction a generalizing chosen with
  | leaf s =>
    cases s with
    | number l =>
      refine .leaf ?_
      show l.same (if chosen [] then l.otherZero else l) = true
      split_ifs
      · exact Literal.same_otherZero l
      · exact Literal.same_refl l
    | truth | «variable» | quote | date => exact .refl _
  | unary op a iha => exact .unary op (iha _)
  | binary op a b iha ihb =>
    unfold rearrange
    split_ifs with h
    · exact .exchange (Binary.mem_exchangeable.mp h.2) (iha _) (ihb _)
    · exact .binary op (iha _) (ihb _)
  | ternary op a b c iha ihb ihc => exact .ternary op (iha _) (ihb _) (ihc _)
  | quaternary op a b c d iha ihb ihc ihd => exact .quaternary op (iha _) (ihb _) (ihc _) (ihd _)

theorem exists_rearrange (h : Equal a b) : ∃ chosen, a.rearrange chosen = b := by
  induction h with
  | @leaf s t h =>
    rcases Leaf.eq_or_number_of_same h with rfl | ⟨m, n, rfl, rfl, hmn⟩
    · exact ⟨fun _ => false, by cases s <;> rfl⟩
    · rcases Literal.eq_or_otherZero_of_same hmn with rfl | rfl
      · exact ⟨fun _ => false, rfl⟩
      · exact ⟨fun _ => true, rfl⟩
  | unary op _ iha =>
    obtain ⟨ca, rfl⟩ := iha
    exact ⟨choose false [ca], rfl⟩
  | binary op _ _ iha ihb =>
    obtain ⟨ca, rfl⟩ := iha
    obtain ⟨cb, rfl⟩ := ihb
    exact ⟨choose false [ca, cb], by simp [rearrange, choose]⟩
  | exchange hop _ _ iha ihb =>
    obtain ⟨ca, rfl⟩ := iha
    obtain ⟨cb, rfl⟩ := ihb
    exact ⟨choose true [ca, cb], by simp [rearrange, choose, Binary.mem_exchangeable.mpr hop]⟩
  | ternary op _ _ _ iha ihb ihc =>
    obtain ⟨ca, rfl⟩ := iha
    obtain ⟨cb, rfl⟩ := ihb
    obtain ⟨cc, rfl⟩ := ihc
    exact ⟨choose false [ca, cb, cc], rfl⟩
  | quaternary op _ _ _ _ iha ihb ihc ihd =>
    obtain ⟨ca, rfl⟩ := iha
    obtain ⟨cb, rfl⟩ := ihb
    obtain ⟨cc, rfl⟩ := ihc
    obtain ⟨cd, rfl⟩ := ihd
    exact ⟨choose false [ca, cb, cc, cd], rfl⟩

/-- Trees are the same when a choice of exchanges makes one of the other. -/
theorem same_iff_rearrange : a.same b = true ↔ ∃ chosen, a.rearrange chosen = b := by
  rw [same_iff]
  refine ⟨exists_rearrange, ?_⟩
  rintro ⟨chosen, rfl⟩
  exact equal_rearrange a chosen

theorem same_equivalence : Equivalence fun a b : Expr => a.same b = true :=
  ⟨same_refl, same_symm, same_trans⟩

/-- Nodes with the same head are the same when their operands are, one by one. -/
theorem same_of_operands (hhead : a.head = b.head)
    (h : List.Forall₂ (fun x y : Expr => x.same y = true) a.operands b.operands) :
    a.same b = true := by
  cases a <;> cases b <;> cases hhead
  · exact same_refl _
  all_goals
    simp only [operands, List.forall₂_cons] at h
    simp [same, h]

/-! ## Hashes -/

theorem mergeSort_pair (m n : ℤ) : [m, n].mergeSort = [n, m].mergeSort := by
  have hperm : [m, n].mergeSort.Perm [n, m].mergeSort :=
    ((List.mergeSort_perm _ _).trans (.swap n m [])).trans (List.mergeSort_perm _ _).symm
  exact hperm.eq_of_pairwise (fun _ _ _ _ h h' => le_antisymm h h')
    (List.pairwise_mergeSort' (· ≤ ·) _) (List.pairwise_mergeSort' (· ≤ ·) _)

/-- Trees that are the same have the same hash. -/
theorem hashCode_eq_of_same (h : a.same b = true) : a.hashCode hashing = b.hashCode hashing := by
  rw [same_iff] at h
  induction h with
  | leaf h => exact hashing.combine_leaf _ _ h
  | unary op _ iha => simp only [hashCode, iha]
  | binary op _ _ iha ihb => simp only [hashCode, iha, ihb]
  | exchange hop _ _ iha ihb => simp only [hashCode, iha, ihb, if_pos hop, mergeSort_pair]
  | ternary op _ _ _ iha ihb ihc => simp only [hashCode, iha, ihb, ihc]
  | quaternary op _ _ _ _ iha ihb ihc ihd => simp only [hashCode, iha, ihb, ihc, ihd]

/-! ## Lists without repetition -/

/-- The trees of a list that none before them is the same as. -/
def firsts (es : List Expr) : List Expr :=
  (es.zipIdx.filter fun p => (es.take p.2).all fun d => !d.same p.1).map Prod.fst

/-- A tree at the end of a list is a first if no tree of the list is the same. -/
theorem firsts_concat (es : List Expr) (e : Expr) :
    firsts (es ++ [e]) = firsts es ++ if es.any fun d => d.same e then [] else [e] := by
  have hbefore : es.zipIdx.filter (fun p => ((es ++ [e]).take p.2).all fun d => !d.same p.1) =
      es.zipIdx.filter fun p => (es.take p.2).all fun d => !d.same p.1 := by
    refine List.filter_congr fun p hp => ?_
    rw [List.take_append_of_le_length (List.snd_lt_of_mem_zipIdx hp).le]
  have hlast : (es.all fun d => !d.same e) = !es.any fun d => d.same e := by
    rw [List.all_eq_not_any_not]
    simp only [Bool.not_not]
  unfold firsts
  rw [List.zipIdx_append, List.filter_append, List.map_append, hbefore, List.zipIdx_singleton,
    List.filter_singleton, Nat.zero_add, List.take_left, hlast]
  cases es.any fun d => d.same e <;> rfl

/-- A tree is the same as one of a list if it is the same as one of the firsts. -/
theorem any_firsts (es : List Expr) (e : Expr) :
    ((firsts es).any fun d => d.same e) = es.any fun d => d.same e := by
  induction es using List.reverseRecOn with
  | nil => rfl
  | append_singleton es x ih =>
    rw [firsts_concat, List.any_append, List.any_append, ih]
    split_ifs with hx
    · -- Whatever `x` is the same as, the tree that `x` repeats is the same as, too.
      obtain ⟨d, hd, hdx⟩ := List.any_eq_true.mp hx
      cases hxe : x.same e with
      | false => simp [hxe]
      | true =>
        have hany : (es.any fun d => d.same e) = true :=
          List.any_eq_true.mpr ⟨d, hd, same_trans hdx hxe⟩
        rw [hany, Bool.true_or, Bool.true_or]
    · rfl

/-- Entering trees one after another, unless one is found that is the same, keeps the firsts. -/
theorem foldl_eq_firsts (found : Expr → Expr → Bool) (hfound : ∀ d e, found e d = d.same e)
    (es : List Expr) :
    es.foldl (fun kept e => if kept.any (found e) then kept else kept ++ [e]) [] = firsts es := by
  induction es using List.reverseRecOn with
  | nil => rfl
  | append_singleton es e ih =>
    have hany : (firsts es).any (found e) = es.any fun d => d.same e := by
      rw [← any_firsts, funext fun d => hfound d e]
    rw [List.foldl_concat, ih, hany, firsts_concat]
    split_ifs
    · rw [List.append_nil]
    · rfl

theorem distinct_eq_firsts (es : List Expr) : distinct es = firsts es :=
  foldl_eq_firsts same (fun d e => same_comm e d) es

/-- A table keyed by trees has the firsts for its keys. -/
theorem keys_eq_firsts (hashing : Hashing) (es : List Expr) : keys hashing es = firsts es := by
  refine foldl_eq_firsts (fun e d => d.hashCode hashing == e.hashCode hashing && d.same e)
    (fun d e => ?_) es
  cases h : d.same e with
  | true => simp [hashCode_eq_of_same h]
  | false => simp

/-- A hashing by the size of trees. -/
def bySize : Hashing :=
  ⟨fun _ hashes => 1 + hashes.sum, fun _ _ _ => rfl⟩

/-- Equality of trees is the exchange of operands of `+`, `*`, `and`, `or`, `==` and `!=`, up to the
sign of zeros.  It is an equivalence and a congruence, and removing repetitions by it, also through a
table keyed by trees, leaves the first of each class in order. -/
theorem same_is_exchange :
    (∀ a b : Expr, a.same b = true ↔ ∃ chosen, a.rearrange chosen = b) ∧
      (Equivalence fun a b : Expr => a.same b = true) ∧
      (∀ a b : Expr, a.head = b.head →
        List.Forall₂ (fun x y : Expr => x.same y = true) a.operands b.operands → a.same b = true) ∧
      ∀ es, distinct es = firsts es ∧ ∀ hashing, keys hashing es = firsts es :=
  ⟨fun _ _ => same_iff_rearrange, same_equivalence, fun _ _ => same_of_operands,
    fun es => ⟨distinct_eq_firsts es, fun hashing => keys_eq_firsts hashing es⟩⟩

/-- `(0.0>lag(close, day())) and (day()==month())`, with operands to exchange and a zero. -/
def exchangeSample : Expr :=
  .connective .and
    (.comparison .greater (.number (.real 0.0 zero_isFinite))
      (.binary .lag (.quote .closing) (.leaf (.date .day))))
    (.comparison .equal (.leaf (.date .day)) (.leaf (.date .month)))

theorem same_is_exchange_sample :
    exchangeSample.same (exchangeSample.rearrange fun _ => true) = true ∧
      (Expr.not exchangeSample).same (.not (exchangeSample.rearrange fun _ => true)) = true ∧
      keys bySize [exchangeSample, exchangeSample.rearrange fun _ => true] = [exchangeSample] := by
  have hsame := (same_is_exchange.1 exchangeSample _).mpr ⟨fun _ => true, rfl⟩
  refine ⟨hsame, same_is_exchange.2.2.1 _ _ rfl (.cons hsame .nil), ?_⟩
  rw [(same_is_exchange.2.2.2 _).2 bySize]
  show firsts ([exchangeSample] ++ [_]) = [exchangeSample]
  rw [firsts_concat, if_pos (by simpa using hsame)]
  rfl

end Expr

end TradeRules
