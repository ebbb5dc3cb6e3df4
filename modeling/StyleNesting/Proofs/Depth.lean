/-
  StyleNesting/Proofs/Depth.lean
  ==============================
  **How deep nesting by descent goes.**  The depth of a tree is the largest number
  of blocks on a path down the tree.  Content that is taken out of a rule goes
  two levels down instead of one, and the pass then enters what it has just made
  deeper.  It does not get out of hand, because the inner of the two new rules is
  a single compound: a rule can make its path longer once.  So the depth of the
  result is bounded by a weighted depth of the tree before, in which a rule that
  can be taken apart counts for two (`Node.stretch`).

  The weighted depth is the measure that makes the recursion end as well; here
  it is told by the paths of the tree (`Node.toll_le_stretch`).
-/
import StyleNesting.Proofs.Settled

namespace StyleNesting

namespace Node

/-! ### Paths down a tree -/

mutual
/-- What holds of a node whenever it holds of its children holds of every node. -/
theorem nodes_induction {motive : Node → Prop}
    (step : ∀ n, (∀ m ∈ n.nodes, motive m) → motive n) : ∀ n, motive n
  | .block _ _ ns => step _ (nodes_inductionAll step ns)
  | .declaration _ _ => step _ (List.forall_mem_nil _)
  | .leaf _ => step _ (List.forall_mem_nil _)
theorem nodes_inductionAll {motive : Node → Prop}
    (step : ∀ n, (∀ m ∈ n.nodes, motive m) → motive n) : ∀ ns : List Node, ∀ m ∈ ns, motive m
  | [] => List.forall_mem_nil _
  | n :: ns => List.forall_mem_cons.mpr ⟨nodes_induction step n, nodes_inductionAll step ns⟩
end

mutual
/-- The paths from a node down to a node without children. -/
def paths : Node → List (List Node)
  | .block o h ns =>
    if ns.isEmpty then [[.block o h ns]] else (pathsAll ns).map (.block o h ns :: ·)
  | .declaration o d => [[.declaration o d]]
  | .leaf o => [[.leaf o]]
def pathsAll : List Node → List (List Node)
  | [] => []
  | n :: ns => paths n ++ pathsAll ns
end

theorem mem_pathsAll {ns : List Node} {q : List Node} :
    q ∈ pathsAll ns ↔ ∃ n ∈ ns, q ∈ n.paths := by
  induction ns with
  | nil => simp [pathsAll]
  | cons n ns ih => simp [pathsAll, ih]

theorem mem_paths_iff {n : Node} {q : List Node} :
    q ∈ n.paths ↔ (n.nodes = [] ∧ q = [n]) ∨ ∃ m ∈ n.nodes, ∃ r ∈ m.paths, q = n :: r := by
  cases n with
  | declaration o d => simp [paths, nodes]
  | leaf o => simp [paths, nodes]
  | block o h ns =>
    rw [paths, nodes]
    by_cases hns : ns = []
    · simp [hns]
    · rw [if_neg (by simpa using hns), List.mem_map]
      constructor
      · rintro ⟨r, hr, rfl⟩
        obtain ⟨m, hm, hr⟩ := mem_pathsAll.mp hr
        exact Or.inr ⟨m, hm, r, hr, rfl⟩
      · rintro (⟨hnil, -⟩ | ⟨m, hm, r, hr, rfl⟩)
        · exact absurd hnil hns
        · exact ⟨r, mem_pathsAll.mpr ⟨m, hm, hr⟩, rfl⟩

/-! ### The heaviest path -/

/-- The sum of the weights on a path. -/
def load (weight : Node → Nat) : List Node → Nat
  | [] => 0
  | n :: q => weight n + load weight q

/-- The largest sum of weights on a path down a tree. -/
def heaviest (weight : Node → Nat) (n : Node) : Nat := (n.paths.map (load weight)).foldr max 0

section Heaviest

variable {weight weight' : Node → Nat} {n m : Node} {b : Nat}

theorem heaviest_le_iff : n.heaviest weight ≤ b ↔ ∀ q ∈ n.paths, load weight q ≤ b := by
  rw [heaviest]
  induction n.paths with
  | nil => simp
  | cons q qs ih => rw [List.map_cons, List.foldr_cons, Nat.max_le, ih, List.forall_mem_cons]

theorem load_le_heaviest {q : List Node} (hq : q ∈ n.paths) :
    load weight q ≤ n.heaviest weight :=
  heaviest_le_iff.mp (Nat.le_refl _) q hq

theorem exists_path (n : Node) : ∃ r, n :: r ∈ n.paths := by
  induction n using nodes_induction with
  | step n ih =>
    by_cases hnodes : n.nodes = []
    · exact ⟨[], mem_paths_iff.mpr (Or.inl ⟨hnodes, rfl⟩)⟩
    · obtain ⟨m, hm⟩ := List.exists_mem_of_ne_nil _ hnodes
      obtain ⟨r, hr⟩ := ih m hm
      exact ⟨m :: r, mem_paths_iff.mpr (Or.inr ⟨m, hm, m :: r, hr, rfl⟩)⟩

/-- A path goes through the node and then down one of its children. -/
theorem heaviest_le_iff_nodes :
    n.heaviest weight ≤ b ↔
      weight n ≤ b ∧ ∀ m ∈ n.nodes, weight n + m.heaviest weight ≤ b := by
  constructor
  · intro h
    have hn : weight n ≤ b := by
      obtain ⟨r, hr⟩ := exists_path n
      have hload := heaviest_le_iff.mp h _ hr
      rw [load] at hload
      exact (Nat.le_add_right _ _).trans hload
    refine ⟨hn, ?_⟩
    intro m hm
    have hbelow : m.heaviest weight ≤ b - weight n := by
      apply heaviest_le_iff.mpr
      intro r hr
      have hload := heaviest_le_iff.mp h _ (mem_paths_iff.mpr (Or.inr ⟨m, hm, r, hr, rfl⟩))
      rw [load] at hload
      omega
    omega
  · rintro ⟨hn, hbelow⟩
    apply heaviest_le_iff.mpr
    intro q hq
    rcases mem_paths_iff.mp hq with ⟨-, rfl⟩ | ⟨m, hm, r, hr, rfl⟩
    · exact hn
    · rw [load]
      exact (Nat.add_le_add_left (load_le_heaviest hr) _).trans (hbelow m hm)

theorem weight_add_heaviest_le (weight : Node → Nat) (hm : m ∈ n.nodes) :
    weight n + m.heaviest weight ≤ n.heaviest weight :=
  (heaviest_le_iff_nodes.mp (Nat.le_refl _)).2 m hm

theorem weight_le_heaviest (weight : Node → Nat) (n : Node) : weight n ≤ n.heaviest weight :=
  (heaviest_le_iff_nodes.mp (Nat.le_refl _)).1

theorem heaviest_le_mul {c : Nat} (h : ∀ m, weight' m ≤ c * weight m) (n : Node) :
    n.heaviest weight' ≤ c * n.heaviest weight := by
  apply heaviest_le_iff.mpr
  intro q hq
  have hload : load weight' q ≤ c * load weight q := by
    clear hq
    induction q with
    | nil => exact Nat.le_refl 0
    | cons m q ih =>
      have hm := h m
      rw [load, load, Nat.mul_add]
      omega
  exact hload.trans (Nat.mul_le_mul_left c (load_le_heaviest hq))

end Heaviest

/-- The largest number of blocks on a path down a tree. -/
def depth (n : Node) : Nat := n.heaviest fun m => m.isBlock.toNat

/-- The levels that a node can take up on a path: one if it is a block, and one more if it is a
    rule that can be taken apart. -/
def levels (n : Node) : Nat := n.isBlock.toNat + n.splits.toNat

/-- The largest number of levels that can be taken up on a path down a tree. -/
def stretch (n : Node) : Nat := n.heaviest levels

theorem splits_le_isBlock (n : Node) : n.splits.toNat ≤ n.isBlock.toNat := by
  cases n with
  | block o h ns => exact Bool.toNat_le _
  | declaration o d => exact Nat.le_refl _
  | leaf o => exact Nat.le_refl _

theorem stretch_le_mul_depth (n : Node) : n.stretch ≤ 2 * n.depth := by
  apply heaviest_le_mul
  intro m
  have hm := splits_le_isBlock m
  rw [levels]
  omega

/-! ### Paths and the measure of the recursion -/

theorem toll_eq (n : Node) : n.toll = n.descent + n.splits.toNat := by
  rw [toll]
  cases n.splits <;> rfl

theorem depth_le_descent (n : Node) : n.depth ≤ n.descent := by
  induction n using nodes_induction with
  | step n ih =>
    apply heaviest_le_iff_nodes.mpr
    cases n with
    | declaration o d => exact ⟨Nat.le_refl _, List.forall_mem_nil _⟩
    | leaf o => exact ⟨Nat.le_refl _, List.forall_mem_nil _⟩
    | block o h ns =>
      refine ⟨Nat.le_add_right _ _, ?_⟩
      intro m hm
      have htoll := (ih m hm).trans m.descent_le_toll
      exact Nat.add_le_add_left (htoll.trans (toll_le_descentAll hm)) 1

theorem toll_le_stretch (n : Node) : n.toll ≤ n.stretch := by
  induction n using nodes_induction with
  | step n ih =>
    cases n with
    | declaration o d => exact Nat.zero_le _
    | leaf o => exact Nat.zero_le _
    | block o h ns =>
      have hself : 1 + (Node.block o h ns).splits.toNat ≤ (Node.block o h ns).stretch :=
        weight_le_heaviest levels (.block o h ns)
      have hbelow : descentAll ns ≤
          (Node.block o h ns).stretch - (1 + (Node.block o h ns).splits.toNat) := by
        apply descentAll_le_iff.mpr
        intro m hm
        have htoll := ih m hm
        have hadd : 1 + (Node.block o h ns).splits.toNat + m.stretch ≤
            (Node.block o h ns).stretch := weight_add_heaviest_le levels (n := .block o h ns) hm
        omega
      rw [toll_eq, descent]
      omega

end Node

/-! ### Whole runs -/

/-- What is made of a tree is no deeper than its measure. -/
theorem follows_depth {f : Factory} (hf : f.Obliging) :
    Follows (fun _ => Descendants.level f) fun n m => m.depth ≤ n.descent where
  goes_on _ p ns hgo := Descendants.level_goes_on hf p ns hgo
  plain n _ := n.depth_le_descent
  block o h p ns ms _ hms := by
    apply Node.heaviest_le_iff_nodes.mpr
    refine ⟨Nat.le_add_right _ _, ?_⟩
    intro m hm
    obtain ⟨n, hn, hnm⟩ := exists_of_mem_forall₂ hms hm
    have hlevel := Descendants.level_descent f p ns n hn
    have hdepth : m.depth ≤ n.descent := by
      rcases hnm with ⟨-, hdeep⟩ | ⟨-, rfl⟩
      · exact hdeep
      · exact m.depth_le_descent
    exact Nat.add_le_add_left (hdepth.trans hlevel) 1

/-- **Nesting by descent ends, and makes no path longer than it can be stretched.**  On every
    tree the recursion gets to the bottom; the depth of the result is at most the largest number
    of blocks on a path of the tree before, where a rule that can be taken apart counts for two;
    so the depth at most doubles. -/
theorem depth_nestDescendants_le (n : Node) :
    Ends (fun _ => Descendants.level Factory.clone) {} n (nestDescendants Factory.clone {} n) ∧
      (nestDescendants Factory.clone {} n).2.failure = none ∧
      (nestDescendants Factory.clone {} n).1.depth ≤ n.stretch ∧
      (nestDescendants Factory.clone {} n).1.depth ≤ 2 * n.depth := by
  have hends : Ends (fun _ => Descendants.level Factory.clone) {} n
      (nestDescendants Factory.clone {} n) := Pass.ends_run Factory.clone .descendants rfl n
  have hdescent := (hends.follows (follows_depth Factory.clone_obliging) rfl).1
  have hstretch : (nestDescendants Factory.clone {} n).1.depth ≤ n.stretch :=
    (hdescent.trans n.descent_le_toll).trans n.toll_le_stretch
  refine ⟨hends, ?_, hstretch, hstretch.trans n.stretch_le_mul_depth⟩
  exact failure_of_goes_on (nestDescendants_goes_on Factory.clone_obliging {} n rfl)

-- the bound is reached: `a b {c d {}}` gets deeper by two
example :
    let n : Node := .block {} .sheet
      [.block {} (.rule ['a', ' ', 'b']) [.block {} (.rule ['c', ' ', 'd']) []]]
    n.depth = 3 ∧ n.stretch = 5 ∧ (nestDescendants Factory.clone {} n).1.depth = 5 := by
  decide +kernel

end StyleNesting
