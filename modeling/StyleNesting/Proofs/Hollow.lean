/-
  StyleNesting/Proofs/Hollow.lean
  ===============================
  **Which rules go away when empty rules are removed.**  A rule is *hollow* if
  nothing but rules is reached from it, going down through rules.  The hollow
  rules that are reached from the top through rules and at-rules go away, and
  nothing else does (`exists_former_iff`); every node that stays keeps its
  fields, its parent and its place among its siblings.

  Two nodes of a tree may be equal, so a node is named by its address: the
  indices of the children on the way down to it.  `former` tells for every
  address of the tree afterwards which node it was before.
-/
import Mathlib.Order.Monotone.Basic
import StyleNesting.Proofs.Depth
import StyleNesting.Proofs.Unshared

namespace StyleNesting

namespace Node

/-! ### Addresses -/

/-- The node at an address: the indices of the children on the way, from the top down. -/
def at? : List Nat → Node → Option Node
  | [], n => some n
  | i :: a, n => n.nodes[i]?.bind (at? a)

/-- `n.Below through a m`: the address `a` leads from `n` down to `m`, and all nodes
    between the two are `through`. -/
inductive Below (through : Node → Bool) : Node → List Nat → Node → Prop where
  | child {n m : Node} {i : Nat} (hm : n.nodes[i]? = some m) : Below through n [i] m
  | inside {n k m : Node} {i : Nat} {a : List Nat} (hk : n.nodes[i]? = some k)
      (hthrough : through k = true) (hm : Below through k a m) : Below through n (i :: a) m

section Below

variable {through through' : Node → Bool} {n m : Node} {i : Nat} {a : List Nat}

theorem Below.mono (h : ∀ k, through k = true → through' k = true) (hm : n.Below through a m) :
    n.Below through' a m := by
  induction hm with
  | child hm => exact .child hm
  | inside hk hthrough _ ih => exact .inside hk (h _ hthrough) ih

theorem not_below_nil : ¬ n.Below through [] m := by
  intro h
  cases h

theorem below_cons {k : Node} (hk : n.nodes[i]? = some k) :
    n.Below through (i :: a) m ↔ (a = [] ∧ k = m) ∨ (through k = true ∧ k.Below through a m) := by
  constructor
  · intro h
    cases h with
    | child hm =>
      rw [hk, Option.some.injEq] at hm
      exact Or.inl ⟨rfl, hm⟩
    | inside hk' hthrough hm =>
      rw [hk, Option.some.injEq] at hk'
      subst hk'
      exact Or.inr ⟨hthrough, hm⟩
  · rintro (⟨rfl, rfl⟩ | ⟨hthrough, hm⟩)
    · exact .child hk
    · exact .inside hk hthrough hm

end Below

/-! ### Hollow rules -/

/-- Going down from a rule through rules, nothing but rules is reached. -/
def Hollow (n : Node) : Prop :=
  n.isRule = true ∧ ∀ a m, n.Below isRule a m → m.isRule = true

mutual
/-- Whether a node is a hollow rule. -/
def isHollow : Node → Bool
  | .block _ (.rule _) ns => areHollow ns
  | _ => false
def areHollow : List Node → Bool
  | [] => true
  | n :: ns => isHollow n && areHollow ns
end

theorem areHollow_iff {ns : List Node} : areHollow ns = true ↔ ∀ n ∈ ns, n.isHollow = true := by
  induction ns with
  | nil => simp [areHollow]
  | cons n ns ih => rw [areHollow, Bool.and_eq_true, ih, List.forall_mem_cons]

/-- A hollow rule is a rule that holds hollow rules only. -/
theorem isHollow_iff {n : Node} :
    n.isHollow = true ↔ n.isRule = true ∧ ∀ m ∈ n.nodes, m.isHollow = true := by
  by_cases hrule : n.isRule = true
  · obtain ⟨o, s, ns, rfl⟩ := exists_of_isRule hrule
    rw [isHollow, areHollow_iff]
    exact ⟨fun h => ⟨rfl, h⟩, fun h => h.2⟩
  · refine ⟨fun h => ?_, fun h => absurd h.1 hrule⟩
    unfold isHollow at h
    split at h
    · exact absurd rfl hrule
    · cases h

/-- Everything below a hollow rule is hollow, and is reached through rules. -/
theorem isHollow_at? {a : List Nat} {n m : Node} (hn : n.isHollow = true) (hm : n.at? a = some m) :
    m.isHollow = true ∧ (a ≠ [] → n.Below isRule a m) := by
  induction a generalizing n with
  | nil =>
    cases hm
    exact ⟨hn, fun h => absurd rfl h⟩
  | cons i a ih =>
    obtain ⟨k, hk, hkm⟩ := Option.bind_eq_some_iff.mp hm
    have hhollow : k.isHollow = true := (isHollow_iff.mp hn).2 k (List.mem_of_getElem? hk)
    obtain ⟨hmhollow, hbelow⟩ := ih hhollow hkm
    refine ⟨hmhollow, fun _ => (below_cons hk).mpr ?_⟩
    by_cases ha : a = []
    · subst ha
      exact Or.inl ⟨rfl, Option.some.inj hkm⟩
    · exact Or.inr ⟨(isHollow_iff.mp hhollow).1, hbelow ha⟩

theorem Below.at? {through : Node → Bool} {n m : Node} {a : List Nat} (h : n.Below through a m) :
    n.at? a = some m := by
  induction h with
  | child hm => simp [Node.at?, hm]
  | inside hk _ _ ih => simp [Node.at?, hk, ih]

/-- **The hollow rules are those that `isHollow` finds.** -/
theorem isHollow_iff_hollow {n : Node} : n.isHollow = true ↔ n.Hollow := by
  constructor
  · intro h
    refine ⟨(isHollow_iff.mp h).1, fun a m hm => ?_⟩
    exact (isHollow_iff.mp (isHollow_at? h hm.at?).1).1
  · revert n
    apply nodes_induction
    rintro n ih ⟨hrule, hbelow⟩
    refine isHollow_iff.mpr ⟨hrule, fun m hm => ?_⟩
    obtain ⟨i, hi⟩ := List.mem_iff_getElem?.mp hm
    have hmrule : m.isRule = true := hbelow [i] m (.child hi)
    apply ih m hm
    exact ⟨hmrule, fun a k hk => hbelow (i :: a) k (.inside hi hmrule hk)⟩

theorem isRule_of_isHollow {n : Node} (h : n.isHollow = true) : n.isRule = true :=
  (isHollow_iff.mp h).1

/-- A rule is hollow unless some other node is reached from it through rules. -/
theorem not_isHollow_iff {n : Node} (hn : n.isRule = true) :
    n.isHollow = false ↔ ∃ a m, n.Below isRule a m ∧ m.isRule = false := by
  rw [← Bool.not_eq_true, isHollow_iff_hollow, Hollow]
  constructor
  · intro h
    by_contra hnone
    refine h ⟨hn, fun a m hm => ?_⟩
    by_contra hrule
    exact hnone ⟨a, m, hm, eq_false_of_ne_true hrule⟩
  · rintro ⟨a, m, hm, hrule⟩ ⟨-, hall⟩
    rw [hall a m hm] at hrule
    cases hrule

end Node

open Node

/-! ### What is left, as a tree -/

namespace Cleanup

-- a rule is empty after its content is cleaned if it was hollow before
mutual
theorem isEmptyRule_inside : ∀ (p : Progress) (n : Node), (inside p n).1.isEmptyRule = n.isHollow
  | p, .block _ (.rule _) ns => by
    have hnil := among_eq_nil p ns
    rw [isHollow, Bool.eq_iff_iff, isEmptyRule_iff, ← hnil]
    exact ⟨fun h => h.2, fun h => ⟨rfl, h⟩⟩
  | _, .block _ (.atRule _ _ _) _ => rfl
  | _, .block _ .sheet _ => rfl
  | _, .block _ .group _ => rfl
  | _, .declaration _ _ => rfl
  | _, .leaf _ => rfl
theorem among_eq_nil : ∀ (p : Progress) (ns : List Node),
    (among p ns).1 = [] ↔ areHollow ns = true
  | _, [] => ⟨fun _ => rfl, fun _ => rfl⟩
  | p, n :: ns => by
    have hn := isEmptyRule_inside p n
    rw [among, areHollow]
    simp only [hn]
    split
    · rename_i hhollow
      rw [hhollow, Bool.true_and]
      exact among_eq_nil _ ns
    · rename_i hhollow
      simp [hhollow]
end

end Cleanup

/-- A node after the empty rules below it are removed. -/
def Node.cleaned (n : Node) : Node := (Cleanup.inside {} n).1

/-- The nodes that stay of some siblings. -/
def Node.stay (ns : List Node) : List Node := ns.filter (!·.isHollow)

namespace Cleanup

mutual
/-- What is left of a node does not depend on the run so far. -/
theorem inside_fst : ∀ (p : Progress) (n : Node), (inside p n).1 = n.cleaned
  | p, .block _ (.rule _) ns => by
    simp only [cleaned, inside, among_fst p ns, among_fst {} ns]
  | p, .block _ (.atRule _ _ _) ns => by
    simp only [cleaned, inside, among_fst p ns, among_fst {} ns]
  | _, .block _ .sheet _ => rfl
  | _, .block _ .group _ => rfl
  | _, .declaration _ _ => rfl
  | _, .leaf _ => rfl
/-- The hollow rules among siblings go away, and the others are cleaned. -/
theorem among_fst : ∀ (p : Progress) (ns : List Node), (among p ns).1 = (stay ns).map cleaned
  | _, [] => rfl
  | p, n :: ns => by
    have hn := inside_fst p n
    have hhollow := isEmptyRule_inside p n
    rw [among, stay]
    simp only [hhollow]
    split
    · rename_i h
      rw [List.filter_cons_of_neg (by simp [h])]
      exact among_fst _ ns
    · rename_i h
      rw [List.filter_cons_of_pos (by simp [h]), List.map_cons, hn]
      exact congrArg (n.cleaned :: ·) (among_fst _ ns)
end

end Cleanup

/-- A block with the empty rules below it removed. -/
def Node.thinned (n : Node) : Node := n.setNodes ((stay n.nodes).map cleaned)

theorem cleaned_of_isStyleBlock {n : Node} (h : n.isStyleBlock = true) : n.cleaned = n.thinned := by
  match n, h with
  | .block o (.rule s) ns, _ => simp only [cleaned, Cleanup.inside, Cleanup.among_fst]; rfl
  | .block o (.atRule name params b) ns, _ =>
    simp only [cleaned, Cleanup.inside, Cleanup.among_fst]
    rfl

theorem cleaned_of_not_isStyleBlock {n : Node} (h : n.isStyleBlock = false) : n.cleaned = n := by
  match n, h with
  | .block _ .sheet _, _ => rfl
  | .block _ .group _, _ => rfl
  | .declaration _ _, _ => rfl
  | .leaf _, _ => rfl

theorem removeEmptyRules_fst {p : Progress} (hp : p.stopped = false) (n : Node) :
    (removeEmptyRules p n).1 = n.thinned := by
  cases n with
  | block o h ns =>
    rw [removeEmptyRules_block, hp, if_neg Bool.false_ne_true, Cleanup.among_fst]
    rfl
  | declaration o d => rfl
  | leaf o => rfl

theorem nodes_thinned (n : Node) : n.thinned.nodes = (stay n.nodes).map cleaned := by
  cases n <;> rfl

/-! ### Where the nodes were before -/

section KeptIndex

variable {α : Type} (keep : α → Bool)

/-- The index that the `i`-th element of those that are kept had before. -/
def keptIndex : List α → Nat → Nat
  | [], i => i
  | x :: xs, i =>
    if keep x then
      match i with
      | 0 => 0
      | i + 1 => keptIndex xs i + 1
    else keptIndex xs i + 1

theorem strictMono_keptIndex (xs : List α) : StrictMono (keptIndex keep xs) := by
  induction xs with
  | nil => exact strictMono_id
  | cons x xs ih =>
    intro i j hij
    by_cases hx : keep x = true
    · cases j with
      | zero => exact absurd hij (Nat.not_lt_zero i)
      | succ j =>
        cases i with
        | zero => simp [keptIndex, hx]
        | succ i => simpa [keptIndex, hx] using ih (Nat.lt_of_succ_lt_succ hij)
    · simpa [keptIndex, hx] using ih hij

theorem getElem?_keptIndex (xs : List α) (i : Nat) :
    xs[keptIndex keep xs i]? = (xs.filter keep)[i]? := by
  induction xs generalizing i with
  | nil => rfl
  | cons x xs ih =>
    by_cases hx : keep x = true
    · cases i with
      | zero => simp [keptIndex, hx]
      | succ i => simpa [keptIndex, hx] using ih i
    · simpa [keptIndex, hx] using ih i

/-- The elements that are kept are those that `keep` says. -/
theorem exists_keptIndex_iff {xs : List α} {j : Nat} {x : α} (hx : xs[j]? = some x) :
    (∃ i, keptIndex keep xs i = j) ↔ keep x = true := by
  constructor
  · rintro ⟨i, rfl⟩
    rw [getElem?_keptIndex] at hx
    exact (List.mem_filter.mp (List.mem_of_getElem? hx)).2
  · intro hkeep
    induction xs generalizing j with
    | nil => simp at hx
    | cons y xs ih =>
      cases j with
      | zero =>
        cases hx
        exact ⟨0, by simp [keptIndex, hkeep]⟩
      | succ j =>
        obtain ⟨i, hi⟩ := ih hx
        by_cases hy : keep y = true
        · exact ⟨i + 1, by simp [keptIndex, hy, hi]⟩
        · exact ⟨i, by simp [keptIndex, hy, hi]⟩

end KeptIndex

namespace Node

/-- The index that the `i`-th child had before. -/
def formerIndex (n : Node) (i : Nat) : Nat := keptIndex (!·.isHollow) n.nodes i

/-- The address at which the node stood that stands at the given address after the
    empty rules below `n` are removed. -/
def former : List Nat → Node → List Nat
  | [], _ => []
  | i :: a, n =>
    n.formerIndex i ::
      match n.nodes[n.formerIndex i]? with
      | some m => if m.isStyleBlock then former a m else a
      | none => a

/-- One tree is what is left of another: `origin` tells for every address where the
    node that stands there stood before. -/
structure Remains (n n' : Node) (origin : List Nat → List Nat) : Prop where
  top : origin [] = []
  /-- Every node keeps its fields. -/
  fields : ∀ a, (n'.at? a).map (setNodes []) = (n.at? (origin a)).map (setNodes [])
  /-- Every node keeps its parent, and siblings keep their order. -/
  siblings : ∀ a, ∃ index : Nat → Nat, StrictMono index ∧
    ∀ i, origin (a ++ [i]) = origin a ++ [index i]

theorem setNodes_setNodes (ns ms : List Node) (n : Node) :
    (n.setNodes ns).setNodes ms = n.setNodes ms := by
  cases n <;> rfl

theorem getElem?_nodes_thinned (n : Node) (i : Nat) :
    n.thinned.nodes[i]? = n.nodes[n.formerIndex i]?.map cleaned := by
  rw [nodes_thinned, List.getElem?_map, formerIndex, getElem?_keptIndex]
  rfl

theorem fields_thinned (a : List Nat) (n : Node) :
    (n.thinned.at? a).map (setNodes []) = (n.at? (former a n)).map (setNodes []) := by
  induction a generalizing n with
  | nil => simp [at?, former, thinned, setNodes_setNodes]
  | cons i a ih =>
    rw [at?, getElem?_nodes_thinned, former, at?]
    cases hm : n.nodes[n.formerIndex i]? with
    | none => rfl
    | some m =>
      simp only [Option.map_some, Option.bind_some]
      by_cases hstyle : m.isStyleBlock = true
      · rw [if_pos hstyle, cleaned_of_isStyleBlock hstyle]
        exact ih m
      · rw [if_neg hstyle, cleaned_of_not_isStyleBlock (eq_false_of_ne_true hstyle)]

theorem siblings_former (a : List Nat) (n : Node) :
    ∃ index : Nat → Nat, StrictMono index ∧
      ∀ i, former (a ++ [i]) n = former a n ++ [index i] := by
  induction a generalizing n with
  | nil =>
    refine ⟨n.formerIndex, strictMono_keptIndex _ _, fun i => ?_⟩
    rw [List.nil_append, former, former]
    cases n.nodes[n.formerIndex i]? with
    | none => rfl
    | some m =>
      simp only [former]
      split <;> rfl
  | cons j a ih =>
    simp only [List.cons_append, former]
    cases n.nodes[n.formerIndex j]? with
    | none => exact ⟨id, strictMono_id, fun i => rfl⟩
    | some m =>
      by_cases hstyle : m.isStyleBlock = true
      · obtain ⟨index, hmono, hindex⟩ := ih m
        refine ⟨index, hmono, fun i => ?_⟩
        simp only [if_pos hstyle, hindex]
      · refine ⟨id, strictMono_id, fun i => ?_⟩
        simp only [if_neg hstyle, id]

theorem remains_thinned (n : Node) : n.Remains n.thinned (former · n) :=
  ⟨rfl, (fields_thinned · n), (siblings_former · n)⟩

/-- What is left of a child, one level further down. -/
theorem exists_former_cons {n m : Node} {j : Nat} (hm : n.nodes[j]? = some m) (a : List Nat) :
    (∃ b, former b n = j :: a) ↔
      m.isHollow = false ∧ (m.isStyleBlock = true → ∃ b, former b m = a) := by
  have hkept := exists_keptIndex_iff (!·.isHollow) hm
  rw [Bool.not_eq_true'] at hkept
  constructor
  · rintro ⟨b, hb⟩
    cases b with
    | nil => cases hb
    | cons i b =>
      rw [former, List.cons.injEq] at hb
      obtain ⟨hi, hb⟩ := hb
      refine ⟨hkept.mp ⟨i, hi⟩, fun hstyle => ⟨b, ?_⟩⟩
      rw [hi, hm] at hb
      simpa only [hstyle, if_true] using hb
  · rintro ⟨hhollow, hinside⟩
    obtain ⟨i, hi⟩ := hkept.mpr hhollow
    have hi' : n.formerIndex i = j := hi
    by_cases hstyle : m.isStyleBlock = true
    · obtain ⟨b, hb⟩ := hinside hstyle
      exact ⟨i :: b, by simp [former, hi', hm, hstyle, hb]⟩
    · exact ⟨i :: a, by simp [former, hi', hm, hstyle]⟩

/-- **A node goes away exactly if it is a hollow rule that is reached through rules and
    at-rules.** -/
theorem exists_former_iff {a : List Nat} {n m : Node} (hm : n.at? a = some m) :
    (∃ b, former b n = a) ↔ ¬ (n.Below isStyleBlock a m ∧ m.isHollow = true) := by
  induction a generalizing n with
  | nil =>
    refine ⟨fun _ h => not_below_nil h.1, fun _ => ⟨[], rfl⟩⟩
  | cons j a ih =>
    obtain ⟨k, hk, hkm⟩ := Option.bind_eq_some_iff.mp hm
    rw [exists_former_cons hk, below_cons hk]
    by_cases hhollow : k.isHollow = true
    · -- everything below `k` goes away with it
      obtain ⟨hmhollow, hbelow⟩ := isHollow_at? hhollow hkm
      have hreached : (a = [] ∧ k = m) ∨ (k.isStyleBlock = true ∧ k.Below isStyleBlock a m) := by
        by_cases ha : a = []
        · subst ha
          exact Or.inl ⟨rfl, Option.some.inj hkm⟩
        · refine Or.inr ⟨isStyleBlock_of_isRule (isRule_of_isHollow hhollow), ?_⟩
          exact (hbelow ha).mono fun _ => isStyleBlock_of_isRule
      simp [hhollow, hreached, hmhollow]
    · have hhollow' := eq_false_of_ne_true hhollow
      constructor
      · rintro ⟨-, hinside⟩ ⟨⟨rfl, rfl⟩ | ⟨hstyle, hbelow⟩, hmhollow⟩
        · exact hhollow hmhollow
        · exact (ih hkm).mp (hinside hstyle) ⟨hbelow, hmhollow⟩
      · intro hnot
        refine ⟨hhollow', fun hstyle => (ih hkm).mpr fun h => ?_⟩
        exact hnot ⟨Or.inr ⟨hstyle, h.1⟩, h.2⟩

end Node

/-! ### Cleaning up as a whole -/

theorem filled_thinned (n : Node) : Filled n.thinned.nodes := by
  rw [nodes_thinned, ← Cleanup.among_fst {}]
  exact Cleanup.filled_among _ _

theorem removeEmptyRules_eq_self {n : Node} (h : Filled n.nodes) (p : Progress) :
    removeEmptyRules p n = (n, p) := by
  cases n with
  | block o hd ns =>
    simp only [removeEmptyRules]
    split
    · rfl
    · rw [Cleanup.among_eq_self p ns h]
  | declaration o d => rfl
  | leaf o => rfl

/-- **Cleaning up removes the hollow rules, in one run.**  Of the rules that are reached
    through rules and at-rules those stay from which some other node is reached through
    rules; all other nodes stay; what stays keeps its fields, its parent and its order.  No
    rule that is reached is empty afterwards, and another run changes nothing.  So no run of
    passes and transforms that comes to its end leaves an empty rule within reach. -/
theorem removeEmptyRules_exact :
    (∀ (p : Progress) (n : Node), p.stopped = false →
      (∃ origin, n.Remains (removeEmptyRules p n).1 origin ∧
        (∀ a r, n.Below isStyleBlock a r → r.isRule = true →
          ((∃ b, origin b = a) ↔ ∃ c m, r.Below isRule c m ∧ m.isRule = false)) ∧
        ∀ a m, n.at? a = some m → (m.isRule = true → ¬ n.Below isStyleBlock a m) →
          ∃ b, origin b = a) ∧
      Filled (removeEmptyRules p n).1.nodes ∧
      ∀ q, removeEmptyRules q (removeEmptyRules p n).1 = ((removeEmptyRules p n).1, q)) ∧
    ∀ (o : Options) (f : Factory) (custom : List Transform) (n : Node),
      (applyTransforms o f custom n).2.failure = none →
        Filled (applyTransforms o f custom n).1.nodes := by
  constructor
  · intro p n hp
    rw [removeEmptyRules_fst hp]
    refine ⟨⟨(former · n), remains_thinned n, ?_, ?_⟩, filled_thinned n,
      removeEmptyRules_eq_self (filled_thinned n)⟩
    · intro a r hr hrule
      rw [exists_former_iff hr.at?, ← not_isHollow_iff hrule]
      simp [hr]
    · intro a m hm hnot
      refine (exists_former_iff hm).mpr fun ⟨hbelow, hhollow⟩ => ?_
      exact hnot (isRule_of_isHollow hhollow) hbelow
  · intro o f custom n hnone
    simp only [applyTransforms] at hnone ⊢
    rw [failure_removeEmptyRules] at hnone
    rw [removeEmptyRules_fst (by rw [Progress.stopped, hnone]; rfl)]
    exact filled_thinned _

/-- A hollow rule at the top of a sheet, and an at-rule with another one beside a rule that
    holds a declaration two levels down. -/
def hollowSheet : Node :=
  .block {} .sheet
    [.block {} (.rule ['a']) [.block {} (.rule ['b']) [], .block {} (.rule ['b']) []],
     .block {} (.atRule ['m'] [] true)
       [.block {} (.rule ['c']) [],
        .block {} (.rule ['d'])
          [.block {} (.rule ['e']) [],
           .block {} (.rule ['f']) [.declaration {} ⟨['p'], ['v'], false⟩]]]]

/-- A transform that puts an empty rule at the end of a tree. -/
def emptyRuleAdder : Transform :=
  ⟨"EmptyRuleAdder", fun p n => (n.append [.block {} (.rule ['z']) []], p)⟩

theorem removeEmptyRules_exact_hollowSheet :
    (∃ origin, hollowSheet.Remains (removeEmptyRules {} hollowSheet).1 origin ∧
      (¬ ∃ b, origin b = [0]) ∧ (∃ b, origin b = [1, 1]) ∧ ∃ b, origin b = [1, 1, 1, 0]) ∧
    (applyTransforms ⟨false, false, false, false⟩ Factory.clone [emptyRuleAdder]
      hollowSheet).2.failure = none ∧
    Filled (applyTransforms ⟨false, false, false, false⟩ Factory.clone [emptyRuleAdder]
      hollowSheet).1.nodes := by
  have hfailure : (applyTransforms ⟨false, false, false, false⟩ Factory.clone [emptyRuleAdder]
      hollowSheet).2.failure = none := rfl
  obtain ⟨⟨origin, hremains, hrules, hothers⟩, -⟩ := removeEmptyRules_exact.1 {} hollowSheet rfl
  refine ⟨⟨origin, hremains, ?_, ?_, ?_⟩, hfailure, removeEmptyRules_exact.2 _ _ _ _ hfailure⟩
  · rw [hrules [0] _ (.child rfl) rfl, ← not_isHollow_iff rfl]
    decide
  · apply (hrules [1, 1] _ (.inside rfl rfl (.child rfl)) rfl).mpr
    exact ⟨[1, 0], _, .inside rfl rfl (.child rfl), rfl⟩
  · exact hothers [1, 1, 1, 0] _ rfl fun h => absurd h (by decide)

end StyleNesting
