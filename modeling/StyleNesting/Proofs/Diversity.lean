/-
  StyleNesting/Proofs/Diversity.lean
  ==================================
  **How far a run of sibling collapsing gets.**  Siblings are compared before the
  run goes on inside of them, so two rules can become equal after they were
  compared, and one run need not be enough (`collapse_twinsSheet_ne`).  But where
  nothing is left to merge inside of siblings, they stay what they were when they
  were compared.  So a run finishes one more level, from the inside out: told by
  the rules around a place (`DiverseFrom`), where nothing further in is left to
  merge, and told by the rules inside of the siblings (`DiverseUnder`), whatever
  stands next to them.  A run changes nothing exactly if there is nothing left
  to merge anywhere.
-/
import StyleNesting.Proofs.Grouping
import StyleNesting.Proofs.Settled

namespace StyleNesting

open Node

/-! ### Rules around and inside of a place -/

namespace Node

/-- What a block counts for among the rules around the nodes inside of it. -/
def layer (n : Node) : Nat := if n.isRule then 1 else 0

/-- `k` is a rule or an at-rule somewhere below `n`, and there are `i` rules around it there. -/
inductive Within : Nat → Node → Node → Prop where
  | child {n k : Node} : k ∈ n.nodes → k.isStyleBlock = true → Within 0 n k
  | inside {i : Nat} {n m k : Node} : m ∈ n.nodes → m.isStyleBlock = true → Within i m k →
      Within (i + m.layer) n k

mutual
/-- The largest number of rules below a node that are nested in each other. -/
def ruleDepth : Node → Nat
  | .block _ _ ns => ruleDepthAll ns
  | .declaration _ _ => 0
  | .leaf _ => 0
def ruleDepthAll : List Node → Nat
  | [] => 0
  | n :: ns => max (if n.isStyleBlock then ruleDepth n + n.layer else 0) (ruleDepthAll ns)
end

variable {n m k : Node} {i b : Nat}

theorem ruleDepthAll_le_iff {ns : List Node} :
    ruleDepthAll ns ≤ b ↔ ∀ n ∈ ns, n.isStyleBlock = true → n.ruleDepth + n.layer ≤ b := by
  induction ns with
  | nil => simp [ruleDepthAll]
  | cons n ns ih =>
    rw [ruleDepthAll, Nat.max_le, ih, List.forall_mem_cons]
    apply and_congr_left
    intro _
    by_cases hstyle : n.isStyleBlock = true
    · simp [hstyle]
    · simp [hstyle]

theorem ruleDepth_eq (n : Node) : n.ruleDepth = ruleDepthAll n.nodes := by
  cases n <;> rfl

theorem ruleDepth_lt_of_mem (hm : m ∈ n.nodes) (hstyle : m.isStyleBlock = true) :
    m.ruleDepth + m.layer ≤ n.ruleDepth := by
  rw [ruleDepth_eq n]
  exact ruleDepthAll_le_iff.mp (Nat.le_refl _) m hm hstyle

theorem Within.ruleDepth_le (h : Within i n k) : i + (k.ruleDepth + k.layer) ≤ n.ruleDepth := by
  induction h with
  | child hk hstyle =>
    rw [Nat.zero_add]
    exact ruleDepth_lt_of_mem hk hstyle
  | inside hm hstyle _ ih =>
    have hdepth := ruleDepth_lt_of_mem hm hstyle
    omega

/-- A rule in a rule counts for one more. -/
theorem ruleDepth_lt_of_isRule (hm : m ∈ n.nodes) (hrule : m.isRule = true) :
    m.ruleDepth < n.ruleDepth := by
  have hdepth := ruleDepth_lt_of_mem hm (isStyleBlock_of_isRule hrule)
  have hlayer : m.layer = 1 := if_pos hrule
  omega

end Node

/-! ### Signatures tell how deep rules are nested -/

mutual
/-- What a child with a given fingerprint counts for in the depth of its block. -/
def Fingerprint.depth : Fingerprint → Nat
  | .rule _ _ gs => Fingerprint.depthAll gs + 1
  | .atRule _ _ _ _ gs => Fingerprint.depthAll gs
  | .plain _ => 0
def Fingerprint.depthAll : List Fingerprint → Nat
  | [] => 0
  | g :: gs => max (Fingerprint.depth g) (Fingerprint.depthAll gs)
end

namespace Node

mutual
theorem depth_fingerprint? : ∀ n : Node,
    (n.fingerprint?.map Fingerprint.depth).getD 0 =
      if n.isStyleBlock then n.ruleDepth + n.layer else 0
  | .block _ (.rule _) ns => by
    simp [fingerprint?, Fingerprint.depth, isStyleBlock, ruleDepth, layer, isRule,
      depthAll_fingerprints ns]
  | .block _ (.atRule _ _ _) ns => by
    simp [fingerprint?, Fingerprint.depth, isStyleBlock, ruleDepth, layer, isRule,
      depthAll_fingerprints ns]
  | .block _ .sheet _ => rfl
  | .block _ .group _ => rfl
  | .declaration _ _ => rfl
  | .leaf _ => rfl
theorem depthAll_fingerprints : ∀ ns : List Node,
    Fingerprint.depthAll (fingerprints ns) = ruleDepthAll ns
  | [] => rfl
  | n :: ns => by
    rw [fingerprints, ruleDepthAll, ← depth_fingerprint? n, ← depthAll_fingerprints ns]
    cases n.fingerprint? with
    | none => simp
    | some g => rfl
end

theorem ruleDepth_of_signature {n m : Node} (h : n.signature = m.signature) :
    n.ruleDepth = m.ruleDepth := by
  have hnested : fingerprints n.nodes = fingerprints m.nodes := congrArg Signature.nested h
  rw [ruleDepth_eq, ruleDepth_eq, ← depthAll_fingerprints, ← depthAll_fingerprints, hnested]

/-! ### Copies -/

theorem isRule_copy (n : Node) : n.copy.isRule = n.isRule := by
  cases n with
  | block o h ns => cases h <;> rfl
  | declaration o d => rfl
  | leaf o => rfl

theorem isStyleBlock_copy (n : Node) : n.copy.isStyleBlock = n.isStyleBlock := by
  cases n with
  | block o h ns => cases h <;> rfl
  | declaration o d => rfl
  | leaf o => rfl

theorem nodes_copy (n : Node) : n.copy.nodes = copyAll n.nodes := by
  cases n <;> rfl

theorem signature_copy (n : Node) : n.copy.signature = n.signature :=
  signature_of_copyAll (nodes_copy n)

/-- What stands in copies is a copy of what stands in the originals. -/
theorem Within.exists_of_copyAll {n m k : Node} {i : Nat} (h : Within i m k)
    (hm : m.nodes = copyAll n.nodes) : ∃ k', Within i n k' ∧ k = k'.copy := by
  induction h generalizing n with
  | @child m k hk hstyle =>
    rw [hm, copyAll_eq_map, List.mem_map] at hk
    obtain ⟨k', hk', rfl⟩ := hk
    rw [isStyleBlock_copy] at hstyle
    exact ⟨k', .child hk' hstyle, rfl⟩
  | @inside i m l k hl hstyle _ ih =>
    rw [hm, copyAll_eq_map, List.mem_map] at hl
    obtain ⟨l', hl', rfl⟩ := hl
    rw [isStyleBlock_copy] at hstyle
    obtain ⟨k', hk', rfl⟩ := ih (nodes_copy l')
    have hlayer : l'.copy.layer = l'.layer := by rw [layer, layer, isRule_copy]
    rw [hlayer]
    exact ⟨k', .inside hl' hstyle hk', rfl⟩

end Node

theorem filter_isRule_copyAll (ns : List Node) :
    (copyAll ns).filter isRule = copyAll (ns.filter isRule) := by
  have hrules : isRule ∘ copy = isRule := funext isRule_copy
  rw [copyAll_eq_map, copyAll_eq_map, List.filter_map, hrules]

/-! ### Different siblings -/

/-- The rules among some siblings have different signatures. -/
def Diverse (ns : List Node) : Prop :=
  (ns.filter isRule).Pairwise fun n m => n.signature ≠ m.signature

/-- So have those that hold less than `r` rules nested in each other. -/
def DiverseUpTo (r : Nat) (ns : List Node) : Prop :=
  (ns.filter isRule).Pairwise fun n m => n.ruleDepth < r → m.ruleDepth < r →
    n.signature ≠ m.signature

theorem Diverse.copyAll {ns : List Node} (h : Diverse ns) : Diverse (copyAll ns) := by
  rw [Diverse, filter_isRule_copyAll, copyAll_eq_map, List.pairwise_map]
  simp only [signature_copy]
  exact h

theorem DiverseUpTo.copyAll {r : Nat} {ns : List Node} (h : DiverseUpTo r ns) :
    DiverseUpTo r (copyAll ns) := by
  have hdepth : ∀ n : Node, n.copy.ruleDepth = n.ruleDepth :=
    fun n => ruleDepth_of_signature (signature_copy n)
  rw [DiverseUpTo, filter_isRule_copyAll, copyAll_eq_map, List.pairwise_map]
  simp only [signature_copy, hdepth]
  exact h

namespace Node

variable {P : Nat → List Node → Prop} {n m : Node} {i r : Nat}

/-- What the rules below a node hold is good for the number of rules around them. -/
def EveryRule (P : Nat → List Node → Prop) (n : Node) : Prop :=
  ∀ j k, Within j n k → k.isRule = true → P j k.nodes

theorem everyRule_iff : n.EveryRule P ↔ ∀ m ∈ n.nodes, m.isStyleBlock = true →
    (m.isRule = true → P 0 m.nodes) ∧ m.EveryRule fun j => P (j + m.layer) := by
  constructor
  · intro h m hm hstyle
    constructor
    · intro hrule
      exact h 0 m (.child hm hstyle) hrule
    · intro j k hk hrule
      exact h (j + m.layer) k (.inside hm hstyle hk) hrule
  · intro h j k hk hrule
    cases hk with
    | child hm hstyle => exact (h k hm hstyle).1 hrule
    | @inside j n m k hm hstyle hk => exact (h m hm hstyle).2 j k hk hrule

theorem EveryRule.of_copyAll (h : n.EveryRule P)
    (hP : ∀ j ns, P j ns → P j (Node.copyAll ns)) (hm : m.nodes = Node.copyAll n.nodes) :
    m.EveryRule P := by
  intro j k hk hrule
  obtain ⟨k', hk', rfl⟩ := hk.exists_of_copyAll hm
  rw [isRule_copy] at hrule
  rw [nodes_copy]
  exact hP j k'.nodes (h j k' hk' hrule)

/-- The rules below a block that have at least `i` rules around them there hold no two rules
    with the same signature. -/
def DiverseFrom (i : Nat) : Node → Prop := EveryRule fun j ns => i ≤ j → Diverse ns

/-- No rule below a block holds two rules with the same signature that have less than `r` rules
    nested in each other. -/
def DiverseUnder (r : Nat) : Node → Prop := EveryRule fun _ ns => DiverseUpTo r ns

/-- A child of a block that is diverse from `i` on. -/
structure Diversified (i : Nat) (n : Node) : Prop where
  own : i = 0 → n.isRule = true → Diverse n.nodes
  below : n.DiverseFrom (i - n.layer)

/-- A child of a block that is diverse under `r`. -/
structure DiversifiedUnder (r : Nat) (n : Node) : Prop where
  own : n.isRule = true → DiverseUpTo r n.nodes
  below : n.DiverseUnder r

theorem diverseFrom_iff :
    n.DiverseFrom i ↔ ∀ m ∈ n.nodes, m.isStyleBlock = true → m.Diversified i := by
  have hshift : ∀ m : Node, (m.EveryRule fun j ns => i ≤ j + m.layer → Diverse ns) ↔
      m.DiverseFrom (i - m.layer) := by
    intro m
    simp only [DiverseFrom, Nat.sub_le_iff_le_add]
  rw [DiverseFrom, everyRule_iff]
  simp only [hshift, Nat.le_zero]
  constructor
  · intro h m hm hstyle
    exact ⟨fun hi hrule => (h m hm hstyle).1 hrule hi, (h m hm hstyle).2⟩
  · intro h m hm hstyle
    exact ⟨fun hrule hi => (h m hm hstyle).own hi hrule, (h m hm hstyle).below⟩

theorem diverseUnder_iff :
    n.DiverseUnder r ↔ ∀ m ∈ n.nodes, m.isStyleBlock = true → m.DiversifiedUnder r := by
  rw [DiverseUnder, everyRule_iff]
  constructor
  · intro h m hm hstyle
    exact ⟨(h m hm hstyle).1, (h m hm hstyle).2⟩
  · intro h m hm hstyle
    exact ⟨(h m hm hstyle).own, (h m hm hstyle).below⟩

theorem DiverseFrom.mono (h : n.DiverseFrom i) {j : Nat} (hij : i ≤ j) : n.DiverseFrom j := by
  intro l k hk hrule hjl
  exact h l k hk hrule (hij.trans hjl)

theorem diversified_rule {o : Origin} {s : Text} {ns : List Node} :
    (Node.block o (.rule s) ns).Diversified i ↔ (i = 0 → Diverse ns) ∧
      ∀ m ∈ ns, m.isStyleBlock = true → m.Diversified (i - 1) := by
  have hbelow := diverseFrom_iff (n := Node.block o (.rule s) ns) (i := i - 1)
  constructor
  · intro h
    exact ⟨fun hi => h.own hi rfl, hbelow.mp h.below⟩
  · intro h
    exact ⟨fun hi _ => h.1 hi, hbelow.mpr h.2⟩

theorem diversified_of_not_isRule (hrule : n.isRule = false) :
    n.Diversified i ↔ ∀ m ∈ n.nodes, m.isStyleBlock = true → m.Diversified i := by
  have hlayer : n.layer = 0 := by simp [layer, hrule]
  rw [← diverseFrom_iff]
  constructor
  · intro h
    have hbelow := h.below
    rwa [hlayer, Nat.sub_zero] at hbelow
  · intro h
    refine ⟨fun _ hn => ?_, ?_⟩
    · rw [hrule] at hn
      cases hn
    · rwa [hlayer, Nat.sub_zero]

theorem Diversified.of_copyAll (h : n.Diversified i) (hrule : m.isRule = n.isRule)
    (hm : m.nodes = Node.copyAll n.nodes) : m.Diversified i := by
  have hlayer : m.layer = n.layer := by rw [layer, layer, hrule]
  constructor
  · intro hi hmrule
    rw [hm]
    exact (h.own hi (hrule ▸ hmrule)).copyAll
  · rw [hlayer]
    exact h.below.of_copyAll (fun j ns hns hj => (hns hj).copyAll) hm

theorem DiversifiedUnder.of_copyAll (h : n.DiversifiedUnder r) (hrule : m.isRule = n.isRule)
    (hm : m.nodes = Node.copyAll n.nodes) : m.DiversifiedUnder r := by
  constructor
  · intro hmrule
    rw [hm]
    exact (h.own (hrule ▸ hmrule)).copyAll
  · exact h.below.of_copyAll (fun j ns hns => hns.copyAll) hm

end Node

/-- Where all siblings are shallow enough, there is no difference. -/
theorem DiverseUpTo.diverse {r : Nat} {n : Node} (h : DiverseUpTo r n.nodes)
    (hdepth : n.ruleDepth ≤ r) : Diverse n.nodes := by
  apply List.Pairwise.imp_of_mem _ h
  intro a b ha hb hab
  have hshallow : ∀ c ∈ n.nodes.filter isRule, c.ruleDepth < r := by
    intro c hc
    obtain ⟨hc, hrule⟩ := List.mem_filter.mp hc
    exact Nat.lt_of_lt_of_le (ruleDepth_lt_of_isRule hc hrule) hdepth
  exact hab (hshallow a ha) (hshallow b hb)

theorem Node.DiversifiedUnder.diversified {r : Nat} {n : Node} (h : n.DiversifiedUnder r)
    (hdepth : n.ruleDepth ≤ r) : n.Diversified 0 := by
  constructor
  · intro _ hrule
    exact (h.own hrule).diverse hdepth
  · intro j k hk hrule _
    have hkdepth := hk.ruleDepth_le
    exact (h.below j k hk hrule).diverse (by omega)

/-! ### What a run finishes -/

/-- What going on inside of a block does: it changes nothing exactly if there is nothing to
    merge, and it finishes one more level. -/
structure Refined (n m : Node) : Prop where
  isRule : m.isRule = n.isRule
  isStyleBlock : m.isStyleBlock = n.isStyleBlock
  depth : n.ruleDepth ≤ m.ruleDepth
  same_iff : m = n ↔ n.Diversified 0
  finished : ∀ i, n.Diversified (i + 1) → m.Diversified i
  finishedUnder : ∀ r, n.DiversifiedUnder r → m.DiversifiedUnder (r + 1)

section Entering

variable {ns ms : List Node}

theorem eq_iff_of_entered (h : List.Forall₂ (Entered Refined) ns ms) :
    ms = ns ↔ ∀ n ∈ ns, n.isStyleBlock = true → n.Diversified 0 := by
  induction h with
  | nil => simp
  | @cons n m ns ms hnm _ ih =>
    rw [List.cons.injEq, ih, List.forall_mem_cons]
    rcases hnm with ⟨hstyle, hrefined⟩ | ⟨hstyle, rfl⟩
    · rw [hrefined.same_iff]
      simp [hstyle]
    · simp [hstyle]

/-- What a run makes of every rule and at-rule, it makes of siblings. -/
theorem forall_of_entered (h : List.Forall₂ (Entered Refined) ns ms) {P Q : Node → Prop}
    (hPQ : ∀ n m, Refined n m → P n → Q m) (hns : ∀ n ∈ ns, n.isStyleBlock = true → P n) :
    ∀ m ∈ ms, m.isStyleBlock = true → Q m := by
  intro m hm hstyle
  obtain ⟨n, hn, ⟨hnstyle, hrefined⟩ | ⟨hnstyle, rfl⟩⟩ := exists_of_mem_forall₂ h hm
  · exact hPQ n m hrefined (hns n hn hnstyle)
  · rw [hstyle] at hnstyle
    cases hnstyle

theorem forall_of_level {p : Progress} (hgo : p.stopped = false) {P : Node → Prop}
    (hcopy : ∀ n m : Node, m.isRule = n.isRule → m.nodes = copyAll n.nodes → P n → P m)
    (hns : ∀ n ∈ ns, n.isStyleBlock = true → P n) :
    ∀ m ∈ (Collapse.level Factory.clone p ns).1, m.isStyleBlock = true → P m := by
  intro m hm hstyle
  obtain ⟨n, hn, rfl | ⟨hnrule, hmrule, hnodes⟩⟩ := Collapse.exists_of_mem_level hgo hm
  · exact hns m hn hstyle
  · exact hcopy n m (hmrule.trans hnrule.symm) hnodes (hns n hn (isStyleBlock_of_isRule hnrule))

/-! ### Depths -/

theorem ruleDepthAll_level {p : Progress} (hgo : p.stopped = false) (ns : List Node) :
    ruleDepthAll ns ≤ ruleDepthAll (Collapse.level Factory.clone p ns).1 := by
  rw [ruleDepthAll_le_iff]
  intro n hn hstyle
  obtain ⟨m, hm, hmn⟩ := Collapse.exists_mem_level hgo hn
  have hle := ruleDepthAll_le_iff.mp (Nat.le_refl _) m hm
  rcases hmn with rfl | ⟨hmrule, hnrule, hsignature⟩
  · exact hle hstyle
  · have hdepth := ruleDepth_of_signature hsignature
    have hlayer : m.layer = n.layer := by rw [layer, layer, hmrule, hnrule]
    rw [← hdepth, ← hlayer]
    exact hle (isStyleBlock_of_isRule hmrule)

theorem ruleDepthAll_of_entered (h : List.Forall₂ (Entered Refined) ns ms) :
    ruleDepthAll ns ≤ ruleDepthAll ms := by
  induction h with
  | nil => exact Nat.le_refl _
  | @cons n m ns ms hnm _ ih =>
    rw [ruleDepthAll, ruleDepthAll]
    apply max_le_max _ ih
    rcases hnm with ⟨hstyle, hrefined⟩ | ⟨-, rfl⟩
    · have hlayer : m.layer = n.layer := by rw [layer, layer, hrefined.isRule]
      rw [if_pos hstyle, if_pos (hrefined.isStyleBlock.trans hstyle), hlayer]
      exact Nat.add_le_add_right hrefined.depth _
    · exact Nat.le_refl _

/-- Shallow siblings that there is nothing to merge inside of stay as different as they are. -/
theorem diverseUpTo_of_entered (h : List.Forall₂ (Entered Refined) ns ms) {r : Nat}
    (hdiverse : Diverse ns) (hns : ∀ n ∈ ns, n.isStyleBlock = true → n.DiversifiedUnder r) :
    DiverseUpTo (r + 1) ms := by
  -- a rule that is shallow after the run was as shallow before, and is still the same
  have hsame : ∀ n m, n ∈ ns → Entered Refined n m → m.isRule = true → m.ruleDepth < r + 1 →
      m = n := by
    rintro n m hn (⟨hstyle, hrefined⟩ | ⟨-, rfl⟩) hrule hdepth
    · rw [hrefined.same_iff]
      apply (hns n hn hstyle).diversified
      exact hrefined.depth.trans (Nat.le_of_lt_succ hdepth)
    · rfl
  rw [Diverse, List.pairwise_filter] at hdiverse
  rw [DiverseUpTo, List.pairwise_filter]
  clear hns
  induction h with
  | nil => exact List.Pairwise.nil
  | @cons n m ns ms hnm h ih =>
    rw [List.pairwise_cons] at hdiverse ⊢
    constructor
    · intro m' hm' hrule hrule' hdepth hdepth'
      obtain ⟨n', hn', hnm'⟩ := exists_of_mem_forall₂ h hm'
      obtain rfl := hsame n m List.mem_cons_self hnm hrule hdepth
      obtain rfl := hsame n' m' (List.mem_cons_of_mem m hn') hnm' hrule' hdepth'
      exact hdiverse.1 m' hn' hrule hrule'
    · exact ih hdiverse.2 fun n m hn => hsame n m (List.mem_cons_of_mem _ hn)

/-! ### Blocks -/

/-- A rule whose children are collapsed before the run goes on inside of them. -/
theorem refined_rule (o : Origin) (s : Text) {p : Progress} (hgo : p.stopped = false)
    (h : List.Forall₂ (Entered Refined) (Collapse.level Factory.clone p ns).1 ms) :
    Refined (.block o (.rule s) ns) (.block o (.rule s) ms) where
  isRule := rfl
  isStyleBlock := rfl
  depth := (ruleDepthAll_level hgo ns).trans (ruleDepthAll_of_entered h)
  same_iff := by
    rw [diversified_rule, Node.block.injEq]
    constructor
    · rintro ⟨-, -, rfl⟩
      -- as many children as before: nothing was merged
      have hdiverse : Diverse ms := Collapse.pairwise_of_length_level hgo h.length_eq
      rw [Collapse.level_eq_self hgo hdiverse] at h
      exact ⟨fun _ => hdiverse, (eq_iff_of_entered h).mp rfl⟩
    · rintro ⟨hdiverse, hbelow⟩
      rw [Collapse.level_eq_self hgo (hdiverse rfl)] at h
      exact ⟨rfl, rfl, (eq_iff_of_entered h).mpr hbelow⟩
  finished i hi := by
    rw [diversified_rule] at hi ⊢
    have hlevel := forall_of_level hgo (fun n m hrule hm hn => hn.of_copyAll hrule hm) hi.2
    rw [Nat.add_sub_cancel] at hlevel
    cases i with
    | zero =>
      -- inside of the children there is nothing to do, so they stay as different as they are
      obtain rfl := (eq_iff_of_entered h).mpr hlevel
      exact ⟨fun _ => Collapse.pairwise_level hgo ns, hlevel⟩
    | succ j =>
      exact ⟨fun hj => absurd hj (Nat.succ_ne_zero j),
        forall_of_entered h (fun n m hnm => hnm.finished j) hlevel⟩
  finishedUnder r hr := by
    have hlevel := forall_of_level hgo (fun n m hrule hm hn => hn.of_copyAll hrule hm)
      (diverseUnder_iff.mp hr.below)
    constructor
    · intro _
      exact diverseUpTo_of_entered h (Collapse.pairwise_level hgo ns) hlevel
    · exact diverseUnder_iff.mpr (forall_of_entered h (fun n m hnm => hnm.finishedUnder r) hlevel)

theorem refined_other (o : Origin) {hd : Header}
    (hrule : ∀ ns, (Node.block o hd ns).isRule = false)
    (hstyle : (Node.block o hd ms).isStyleBlock = (Node.block o hd ns).isStyleBlock)
    (h : List.Forall₂ (Entered Refined) ns ms) :
    Refined (.block o hd ns) (.block o hd ms) where
  isRule := by rw [hrule, hrule]
  isStyleBlock := hstyle
  depth := ruleDepthAll_of_entered h
  same_iff := by
    rw [diversified_of_not_isRule (hrule ns), Node.block.injEq, nodes, ← eq_iff_of_entered h]
    simp
  finished i hi := by
    rw [diversified_of_not_isRule (hrule _)] at hi ⊢
    exact forall_of_entered h (fun n m hnm => hnm.finished i) hi
  finishedUnder r hr := by
    constructor
    · intro htrue
      rw [hrule] at htrue
      cases htrue
    · exact diverseUnder_iff.mpr (forall_of_entered h (fun n m hnm => hnm.finishedUnder r)
        (diverseUnder_iff.mp hr.below))

end Entering

theorem refined_plain {n : Node} (hn : n.isBlock = false) : Refined n n := by
  have hnodes := nodes_of_not_isBlock hn
  have hrule : n.isRule = false := by
    cases n with
    | block o h ns => cases hn
    | declaration o d => rfl
    | leaf o => rfl
  have hall : ∀ i, n.Diversified i := by
    intro i
    rw [diversified_of_not_isRule hrule, hnodes]
    exact List.forall_mem_nil _
  exact
    { isRule := rfl
      isStyleBlock := rfl
      depth := Nat.le_refl _
      same_iff := iff_of_true rfl (hall 0)
      finished := fun i _ => hall i
      finishedUnder := fun r hr => by
        refine ⟨fun htrue => ?_, diverseUnder_iff.mpr ?_⟩
        · rw [hrule] at htrue
          cases htrue
        · rw [hnodes]
          exact List.forall_mem_nil _ }

theorem follows_collapse : Follows (Collapse.levelUnder Factory.clone) Refined where
  goes_on h p ns hgo := Collapse.levelUnder_goes_on Factory.clone_obliging h p ns hgo
  plain n hn := refined_plain hn
  block o h p ns ms hgo hms := by
    cases h with
    | rule s => exact refined_rule o s hgo hms
    | sheet => exact refined_other o (fun _ => rfl) rfl hms
    | group => exact refined_other o (fun _ => rfl) rfl hms
    | atRule name params b => exact refined_other o (fun _ => rfl) rfl hms

/-! ### One run after the other -/

section Runs

variable {p : Progress} (hgo : p.stopped = false) (n : Node)
include hgo

/-- The children of the block that the run starts from are only gone into. -/
theorem collapseSiblings_entered : ∃ ms, List.Forall₂ (Entered Refined) n.nodes ms ∧
    (collapseSiblings Factory.clone p n).1 = n.setNodes ms ∧
    (collapseSiblings Factory.clone p n).1.nodes = ms := by
  obtain ⟨ms, p', hends, hrun⟩ := Pass.ends_run Factory.clone .collapse hgo n
  have hrun : collapseSiblings Factory.clone p n = (n.setNodes ms, p') := hrun
  have hms := (hends.follows follows_collapse hgo).1
  refine ⟨ms, hms, by rw [hrun], ?_⟩
  rw [hrun]
  cases n with
  | block o h ns => rfl
  | declaration o d => exact (List.forall₂_nil_left_iff.mp hms).symm
  | leaf o => exact (List.forall₂_nil_left_iff.mp hms).symm

theorem collapseSiblings_eq_self_iff :
    (collapseSiblings Factory.clone p n).1 = n ↔ n.DiverseFrom 0 := by
  obtain ⟨ms, hms, hrun, -⟩ := collapseSiblings_entered hgo n
  rw [hrun, diverseFrom_iff, ← eq_iff_of_entered hms]
  cases n with
  | block o h ns => simp [setNodes, nodes]
  | declaration o d => exact iff_of_true rfl (List.forall₂_nil_left_iff.mp hms)
  | leaf o => exact iff_of_true rfl (List.forall₂_nil_left_iff.mp hms)

/-- **Every run finishes one more level**, counted from outside. -/
theorem diverseFrom_collapseSiblings {i : Nat} (h : n.DiverseFrom (i + 1)) :
    (collapseSiblings Factory.clone p n).1.DiverseFrom i := by
  obtain ⟨ms, hms, -, hnodes⟩ := collapseSiblings_entered hgo n
  rw [diverseFrom_iff] at h
  rw [diverseFrom_iff, hnodes]
  exact forall_of_entered hms (fun n m hnm => hnm.finished i) h

/-- **Every run finishes one more level**, counted from inside. -/
theorem diverseUnder_collapseSiblings {r : Nat} (h : n.DiverseUnder r) :
    (collapseSiblings Factory.clone p n).1.DiverseUnder (r + 1) := by
  obtain ⟨ms, hms, -, hnodes⟩ := collapseSiblings_entered hgo n
  rw [diverseUnder_iff] at h
  rw [diverseUnder_iff, hnodes]
  exact forall_of_entered hms (fun n m hnm => hnm.finishedUnder r) h

end Runs

/-- The innermost rules hold no rules at all. -/
theorem diverseFrom_ruleDepth (n : Node) : n.DiverseFrom (n.ruleDepth - 1) := by
  intro j k hk hrule hj
  have hnone : k.nodes.filter isRule = [] := by
    apply List.filter_eq_nil_iff.mpr
    intro m hm hmrule
    have hdepth := hk.ruleDepth_le
    have hdepth' := ruleDepth_lt_of_isRule hm hmrule
    have hlayer : k.layer = 1 := if_pos hrule
    omega
  rw [Diverse, hnone]
  exact List.Pairwise.nil

theorem diverseFrom_repeated (n : Node) (k : Nat) :
    (Pass.collapse.repeated n k).DiverseFrom (n.ruleDepth - 1 - k) := by
  induction k with
  | zero => exact diverseFrom_ruleDepth n
  | succ k ih =>
    apply diverseFrom_collapseSiblings rfl
    exact ih.mono (by omega)

theorem diverseUnder_repeated (n : Node) (k : Nat) :
    (Pass.collapse.repeated n k).DiverseUnder k := by
  induction k with
  | zero =>
    intro j m _ _
    apply List.pairwise_of_forall
    intro a b ha
    exact absurd ha (Nat.not_lt_zero _)
  | succ k ih => exact diverseUnder_collapseSiblings rfl _ ih

/-- **Collapsing goes from the inside out.**  A run comes to its end, and it changes nothing
    exactly if no rule at any depth holds two rules with the same signature.  If that is so
    wherever there are more than `i` rules around, then after the run it is so wherever there are
    at least `i`.  After `k` runs no rule holds two rules with the same signature that have less
    than `k` rules nested in each other: after one run, none that hold no rules.  And as many
    runs as rules are nested in each other, less one, leave no two at all. -/
theorem collapseSiblings_finishes (n : Node) :
    (collapseSiblings Factory.clone {} n).2.failure = none ∧
      ((collapseSiblings Factory.clone {} n).1 = n ↔ n.DiverseFrom 0) ∧
      (∀ i, n.DiverseFrom (i + 1) → (collapseSiblings Factory.clone {} n).1.DiverseFrom i) ∧
      (∀ k, (Pass.collapse.repeated n k).DiverseUnder k) ∧
      (Pass.collapse.repeated n (n.ruleDepth - 1)).DiverseFrom 0 := by
  refine ⟨?_, collapseSiblings_eq_self_iff rfl n, ?_, diverseUnder_repeated n, ?_⟩
  · exact failure_of_goes_on (Pass.run_goes_on Factory.clone_obliging .collapse {} n rfl)
  · intro i
    exact diverseFrom_collapseSiblings rfl n
  · have hfinished := diverseFrom_repeated n (n.ruleDepth - 1)
    rwa [Nat.sub_self] at hfinished

/-- The sheet `p{a{x{c:r}y{c:r}}b{x,y{c:r}}}`. -/
def twinsSheet : Text :=
  ['p', '{', 'a', '{', 'x', '{', 'c', ':', 'r', '}', 'y', '{', 'c', ':', 'r', '}', '}',
   'b', '{', 'x', ',', 'y', '{', 'c', ':', 'r', '}', '}', '}']

/-- **One run need not be enough**: the rules `a` and `b` are compared while there are still two
    rules in `a`, and become equal when these are merged. -/
theorem collapse_twinsSheet_ne :
    ∃ root, Source.parse twinsSheet = .ok root ∧
      ¬ (Pass.collapse.repeated root 1).DiverseFrom 0 ∧
      Pass.collapse.repeated root 2 ≠ Pass.collapse.repeated root 1 := by
  have hruns : ∃ root, Source.parse twinsSheet = .ok root ∧
      Pass.collapse.repeated root 2 ≠ Pass.collapse.repeated root 1 := ⟨_, rfl, by decide +kernel⟩
  obtain ⟨root, hparse, hne⟩ := hruns
  refine ⟨root, hparse, ?_, hne⟩
  intro hdiverse
  exact hne ((collapseSiblings_eq_self_iff rfl _).mpr hdiverse)

end StyleNesting
