/-
  StyleNesting/Proofs/Termination.lean
  ====================================
  **A run comes to its end.**  A pass works a tree from the top and enters what it
  has just made, so it is not plain that it ever gets to the bottom: rules are moved
  into rules, and rules that were taken apart leave deeper ones behind.  `Ends` is
  the recursion without any bound on its depth.  A pass gets to the bottom if some
  measure of what it enters is smaller than that of the block it was working on
  (`ends_topDown`), and the bounds that the passes are given are measures of this
  kind:

    * collapsing and factoring make no group of siblings higher;
    * pseudo nesting moves rules with all they hold, and adds no nodes;
    * nesting by descent makes the tree higher, but a rule `child` that it makes
      cannot be taken apart again.  So every level can grow once (`Node.descent`),
      and twice the height is enough.

  Together with `failure_nest`: nothing stops a run, and no bound cuts it short
  (`nest_comes_to_its_end`).
-/
import StyleNesting.Proofs.Conservation
import StyleNesting.Proofs.Idiom

namespace StyleNesting

open Node

/-! ### Recursion without a bound -/

section Recursion

variable (level : Header → Progress → List Node → List Node × Progress)

mutual
/-- Working a tree from the top gets to the bottom and ends with a result. -/
inductive Ends : Progress → Node → Node × Progress → Prop where
  | declaration {p : Progress} {o : Origin} {d : Declaration} :
      Ends p (.declaration o d) (.declaration o d, p)
  | leaf {p : Progress} {o : Origin} : Ends p (.leaf o) (.leaf o, p)
  | block {p p' : Progress} {o : Origin} {h : Header} {ns ms : List Node} :
      EndsAll (level h p ns).2 (level h p ns).1 (ms, p') →
      Ends p (.block o h ns) (.block o h ms, p')
/-- So does entering the rules and at-rules of a list, one after the other. -/
inductive EndsAll : Progress → List Node → List Node × Progress → Prop where
  | nil {p : Progress} : EndsAll p [] ([], p)
  | enter {p p' p'' : Progress} {n m : Node} {ns ms : List Node} :
      n.isStyleBlock = true → p.stopped = false → Ends p n (m, p') →
      EndsAll p' ns (ms, p'') → EndsAll p (n :: ns) (m :: ms, p'')
  | pass {p p' : Progress} {n : Node} {ns ms : List Node} :
      (n.isStyleBlock = false ∨ p.stopped = true) → EndsAll p ns (ms, p') →
      EndsAll p (n :: ns) (n :: ms, p')
end

variable {level}

theorem endsAll_visitAll {step : Step} {ns : List Node}
    (h : ∀ p, ∀ n ∈ ns, Ends level p n (step p n)) (p : Progress) :
    EndsAll level p ns (visitAll (enter step) p ns) := by
  induction ns generalizing p with
  | nil => exact .nil
  | cons n ns ih =>
    have hrest := ih (fun p m hm => h p m (by simp [hm])) (enter step p n).2
    by_cases hn : (n.isStyleBlock && !p.stopped) = true
    · have hentered : enter step p n = step p n := if_pos hn
      rw [Bool.and_eq_true, Bool.not_eq_true'] at hn
      rw [visitAll, hentered]
      rw [hentered] at hrest
      exact .enter hn.1 hn.2 (h p n (by simp)) hrest
    · have hpassed : enter step p n = (n, p) := if_neg hn
      rw [Bool.not_eq_true, Bool.and_eq_false_iff, Bool.not_eq_false'] at hn
      rw [visitAll, hpassed]
      rw [hpassed] at hrest
      exact .pass hn hrest

/-- **A pass gets to the bottom** if what it enters always measures less than the block
    it comes from; the measure of the tree is then enough of a bound. -/
theorem ends_topDown (measure : Node → Nat) (hpos : ∀ o h ns, 0 < measure (.block o h ns))
    (hless : ∀ o h p ns, ∀ m ∈ (level h p ns).1, measure m < measure (.block o h ns))
    {fuel : Nat} {n : Node} (hn : measure n ≤ fuel) (p : Progress) :
    Ends level p n (topDown level fuel p n) := by
  induction fuel generalizing n p with
  | zero =>
    cases n with
    | block o h ns => exact absurd hn (Nat.not_le.mpr (hpos o h ns))
    | declaration o d => exact .declaration
    | leaf o => exact .leaf
  | succ fuel ih =>
    cases n with
    | block o h ns =>
      refine .block (endsAll_visitAll (fun p' m hm => ih ?_ p') _)
      have hm := hless o h p ns m hm
      omega
    | declaration o d => exact .declaration
    | leaf o => exact .leaf

end Recursion

/-! ### Measures of trees -/

namespace Node

theorem heightAll_le_iff {ns : List Node} {b : Nat} :
    heightAll ns ≤ b ↔ ∀ n ∈ ns, n.height ≤ b := by
  induction ns with
  | nil => simp [heightAll]
  | cons n ns ih => rw [heightAll, Nat.max_le, ih, List.forall_mem_cons]

theorem height_le_heightAll {ns : List Node} {n : Node} (h : n ∈ ns) : n.height ≤ heightAll ns :=
  heightAll_le_iff.mp (Nat.le_refl _) n h

theorem height_eq (n : Node) : n.height = 1 + heightAll n.nodes := by cases n <;> rfl

mutual
theorem height_copy : ∀ n : Node, n.copy.height = n.height
  | .block _ _ ns => by rw [copy, height, height, heightAll_copyAll ns]
  | .declaration _ _ => rfl
  | .leaf _ => rfl
theorem heightAll_copyAll : ∀ ns : List Node, heightAll (copyAll ns) = heightAll ns
  | [] => rfl
  | n :: ns => by rw [copyAll, heightAll, heightAll, height_copy n, heightAll_copyAll ns]
end

theorem size_eq (n : Node) : n.size = 1 + sizeAll n.nodes := by cases n <;> rfl

theorem sizeAll_append (ns ms : List Node) : sizeAll (ns ++ ms) = sizeAll ns + sizeAll ms := by
  induction ns with
  | nil => simp [sizeAll]
  | cons n ns ih => rw [List.cons_append, sizeAll, sizeAll, ih, Nat.add_assoc]

theorem sizeAll_perm {ns ms : List Node} (h : ns.Perm ms) : sizeAll ns = sizeAll ms := by
  induction h with
  | nil => rfl
  | cons n _ ih => rw [sizeAll, sizeAll, ih]
  | swap n m ns =>
    simp only [sizeAll]
    omega
  | trans _ _ ih ih' => rw [ih, ih']

theorem size_le_sizeAll {ns : List Node} {n : Node} (h : n ∈ ns) : n.size ≤ sizeAll ns := by
  obtain ⟨l, r, rfl⟩ := List.append_of_mem h
  rw [sizeAll_append, sizeAll]
  omega

theorem size_append_le (n : Node) (ms : List Node) : (n.append ms).size ≤ n.size + sizeAll ms := by
  cases n with
  | block o h ns =>
    rw [append, size, size, sizeAll_append]
    omega
  | declaration o d => exact Nat.le_add_right _ _
  | leaf o => exact Nat.le_add_right _ _

mutual
theorem size_copy : ∀ n : Node, n.copy.size = n.size
  | .block _ _ ns => by rw [copy, size, size, sizeAll_copyAll ns]
  | .declaration _ _ => rfl
  | .leaf _ => rfl
theorem sizeAll_copyAll : ∀ ns : List Node, sizeAll (copyAll ns) = sizeAll ns
  | [] => rfl
  | n :: ns => by rw [copyAll, sizeAll, sizeAll, size_copy n, sizeAll_copyAll ns]
end

/-! ### How deep nesting by descent goes -/

mutual
/-- The height that a tree can get by taking rules apart: a rule that can be taken
    apart counts for one level more. -/
def descent : Node → Nat
  | .block _ _ ns => 1 + descentAll ns
  | .declaration _ _ => 0
  | .leaf _ => 0
def descentAll : List Node → Nat
  | [] => 0
  | n :: ns => max (descent n + if n.splits then 1 else 0) (descentAll ns)
end

/-- What a node counts for among its siblings. -/
def toll (n : Node) : Nat := n.descent + if n.splits then 1 else 0

theorem descentAll_le_iff {ns : List Node} {b : Nat} :
    descentAll ns ≤ b ↔ ∀ n ∈ ns, n.toll ≤ b := by
  induction ns with
  | nil => simp [descentAll]
  | cons n ns ih => rw [descentAll, Nat.max_le, ih, List.forall_mem_cons, toll]

theorem toll_le_descentAll {ns : List Node} {n : Node} (h : n ∈ ns) : n.toll ≤ descentAll ns :=
  descentAll_le_iff.mp (Nat.le_refl _) n h

theorem descent_le_toll (n : Node) : n.descent ≤ n.toll := Nat.le_add_right _ _

theorem toll_of_splits {n : Node} (h : n.splits = true) : n.toll = n.descent + 1 := by
  rw [toll, if_pos h]

theorem toll_of_not_splits {n : Node} (h : n.splits = false) : n.toll = n.descent := by
  simp [toll, h]

theorem descentAll_nodes_lt {n : Node} {b : Nat} (h : n.descent ≤ b + 1) :
    descentAll n.nodes ≤ b := by
  cases n with
  | block o hd ns =>
    rw [descent] at h
    rw [nodes]
    omega
  | declaration o d => exact Nat.zero_le b
  | leaf o => exact Nat.zero_le b

theorem descent_setNodes_le (n : Node) (ms : List Node) :
    (n.setNodes ms).descent ≤ 1 + descentAll ms := by
  cases n with
  | block o h ns => exact Nat.le_refl _
  | declaration o d => exact Nat.zero_le _
  | leaf o => exact Nat.zero_le _

theorem descent_append_le {n : Node} {ms : List Node} {b : Nat} (hn : n.descent ≤ b + 1)
    (hms : ∀ m ∈ ms, m.toll ≤ b) : (n.append ms).descent ≤ b + 1 := by
  have hall : descentAll (n.nodes ++ ms) ≤ b := by
    refine descentAll_le_iff.mpr fun m hm => ?_
    rcases List.mem_append.mp hm with hold | hnew
    · exact (toll_le_descentAll hold).trans (descentAll_nodes_lt hn)
    · exact hms m hnew
  rw [append_eq_setNodes]
  have hset := descent_setNodes_le n (n.nodes ++ ms)
  omega

theorem descent_setSelector (s : Text) (n : Node) : (n.setSelector s).descent = n.descent := by
  cases n with
  | block o h ns => cases h <;> rfl
  | declaration o d => rfl
  | leaf o => rfl

theorem splits_copy (n : Node) : n.copy.splits = n.splits := by
  cases n with
  | block o h ns => cases h <;> rfl
  | declaration o d => rfl
  | leaf o => rfl

mutual
theorem descent_copy : ∀ n : Node, n.copy.descent = n.descent
  | .block _ _ ns => by rw [copy, descent, descent, descentAll_copyAll ns]
  | .declaration _ _ => rfl
  | .leaf _ => rfl
theorem descentAll_copyAll : ∀ ns : List Node, descentAll (copyAll ns) = descentAll ns
  | [] => rfl
  | n :: ns => by
    rw [copyAll, descentAll, descentAll, descent_copy n, splits_copy, descentAll_copyAll ns]
end

mutual
/-- Every level can grow once, so it never gets to more than twice the height. -/
theorem descent_le_height : ∀ n : Node, n.descent ≤ 2 * n.height
  | .block _ _ ns => by
    have hns := descentAll_le_heightAll ns
    rw [descent, height]
    omega
  | .declaration _ _ => Nat.zero_le _
  | .leaf _ => Nat.zero_le _
theorem descentAll_le_heightAll : ∀ ns : List Node, descentAll ns ≤ 2 * heightAll ns + 1
  | [] => Nat.zero_le _
  | n :: ns => by
    have hn := descent_le_height n
    have hns := descentAll_le_heightAll ns
    have htoll : (if n.splits then 1 else 0) ≤ 1 := by split <;> omega
    rw [descentAll, heightAll]
    omega
end

end Node

/-! ### Nesting by descent -/

namespace Selector

/-- The pieces of a text that has no separators of one kind have none either. -/
theorem unbroken_of_mem_cut_other {isSep isSep' : Char → Bool}
    (hplain : ∀ c, isSep' c = true → isPlain c = true) {t p : Text}
    (ht : unbroken isSep Scan.start t = true) (hp : p ∈ cut isSep' Scan.start t) :
    unbroken isSep Scan.start p = true := by
  induction t using cut_induction isSep' with
  | whole t hwhole =>
    rw [cut_of_unbroken hwhole, List.mem_singleton] at hp
    exact hp ▸ ht
  | sep a c b ha hbal hc ih =>
    rw [unbroken_append, balanced_iff.mp hbal, unbroken, Scan.step_start_plain (hplain c hc),
      Bool.and_eq_true, Bool.and_eq_true] at ht
    rw [cut_append_sep ha (balanced_iff.mp hbal) hc] at hp
    rcases List.mem_cons.mp hp with rfl | hmem
    · exact ht.1
    · exact ih ht.2.2 hmem

theorem splitDescendant?_of_unbroken {p : Text} (hp : unbroken Text.isBlank Scan.start p = true) :
    splitDescendant? p = none := by
  have hone : (compounds (Text.trim p)).length < 2 := by
    rw [compounds, cut_of_unbroken (unbroken_trim hp)]
    exact Nat.lt_of_le_of_lt (List.length_filter_le _ _) (by simp)
  unfold splitDescendant?
  simp only [hone, decide_true, Bool.true_or, if_true]
  split <;> rfl

/-- The last compound of a part is not taken apart again, nor is a part of it. -/
theorem splitDescendant?_child {p parent child : Text}
    (h : splitDescendant? p = some (parent, child)) {q : Text} (hq : q ∈ parts child) :
    splitDescendant? q = none := by
  have hchild : unbroken Text.isBlank Scan.start child = true := by
    unfold splitDescendant? at h
    simp only at h
    split at h
    · cases h
    · rename_i last hlast
      split at h
      · cases h
      · cases h
        exact unbroken_of_mem_cut (List.mem_of_mem_filter (List.mem_of_getLast? hlast))
  obtain ⟨piece, hpiece, rfl, -⟩ := mem_parts.mp hq
  refine splitDescendant?_of_unbroken (unbroken_trim ?_)
  exact unbroken_of_mem_cut_other (fun c hc => isPlain_of_isComma hc) hchild hpiece

end Selector

namespace Descendants

open Selector

variable {f : Factory} {w : Work} {waiting : List Nat} {rule : Node} {part parent child : Text}
  {b : Nat}

theorem splits_child (hsplit : splitDescendant? part = some (parent, child)) (o : Origin)
    (ns : List Node) : (Node.block o (.rule child) ns).splits = false := by
  rw [Node.splits, List.any_eq_false]
  intro q hq
  rw [splitDescendant?_child hsplit hq]
  decide

theorem updateParent_descent {g : Node → Node} (hw : w.All (·.descent ≤ b))
    (hg : ∀ n : Node, n.descent ≤ b → (g n).descent ≤ b) :
    (updateParent waiting parent g w).All (·.descent ≤ b) :=
  Idiom.forall_updateLast hw fun s _ hs => hg s.node hs

theorem ensureParent_descent (hw : w.All (·.descent ≤ b + 1)) :
    (ensureParent f waiting rule parent w).All (·.descent ≤ b + 1) := by
  unfold ensureParent
  split
  · exact hw
  · split
    · rename_i n p hnew
      obtain ⟨⟨o, rfl⟩, -, -⟩ := Progress.eq_of_newRule_some hnew
      refine Work.All.push (w := ⟨w.slots, p⟩) hw ?_
      simp [descent, descentAll]
    · exact hw

theorem ensureChild_descent (hsplit : splitDescendant? part = some (parent, child))
    (hb : 1 ≤ b) (hw : w.All (·.descent ≤ b + 1)) :
    (ensureChild f waiting rule parent child w).All (·.descent ≤ b + 1) := by
  unfold ensureChild
  split
  · exact hw
  · split
    · rename_i n p hnew
      obtain ⟨⟨o, rfl⟩, -, -⟩ := Progress.eq_of_newRule_some hnew
      have htoll : (Node.block o (.rule child) []).toll ≤ b := by
        rw [toll_of_not_splits (splits_child hsplit o [])]
        simpa [descent, descentAll] using hb
      refine updateParent_descent (w := ⟨w.slots, p⟩) hw fun n hn => descent_append_le hn ?_
      intro m hm
      rwa [List.mem_singleton.mp hm]
    · exact hw

/-- Content goes two levels down, into a rule that cannot be taken apart. -/
theorem fill_descent (hsplit : splitDescendant? part = some (parent, child))
    (hrule : rule.descent ≤ b) (hrules : rule.isRule = true) (hw : w.All (·.descent ≤ b + 1)) :
    (fill waiting rule parent child w).All (·.descent ≤ b + 1) := by
  unfold fill
  split
  · exact hw
  · obtain ⟨c, rfl⟩ : ∃ c, b = c + 1 := by
      match rule, hrules, hrule with
      | .block o (.rule s) ns, _, hrule =>
        rw [descent] at hrule
        exact ⟨b - 1, by omega⟩
    have hcontent : ∀ m ∈ copyAll rule.nodes, m.toll ≤ c := by
      refine descentAll_le_iff.mp ?_
      rw [descentAll_copyAll]
      exact descentAll_nodes_lt hrule
    have hfilled : ∀ n : Node, n.descent ≤ c + 1 + 1 → (filled rule child n).descent ≤ c + 1 + 1 := by
      intro n hn
      have hall : ∀ m ∈ updateLast (Node.hasSelector child) (Node.append (copyAll rule.nodes))
          n.nodes, m.toll ≤ c + 1 := by
        refine Idiom.forall_updateLast (descentAll_le_iff.mp (descentAll_nodes_lt hn)) ?_
        intro m hm htoll
        obtain ⟨o, ms, rfl⟩ := exists_of_hasSelector hm
        rw [toll_of_not_splits (splits_child hsplit o _)] at htoll
        have happended := descent_append_le htoll hcontent
        rw [Node.append] at happended ⊢
        rwa [toll_of_not_splits (splits_child hsplit o _)]
      have hset := descent_setNodes_le n
        (updateLast (Node.hasSelector child) (Node.append (copyAll rule.nodes)) n.nodes)
      have hle := descentAll_le_iff.mpr hall
      rw [filled]
      omega
    exact updateParent_descent hw hfilled

theorem splitRule_descent (t : Nat) (hw : w.All (·.descent ≤ b))
    (hget : ∀ n, w.get? t = some n → n.isRule = true ∧ n.descent < b) :
    (splitRule f waiting t w).All (·.descent ≤ b) := by
  unfold splitRule
  split
  · exact hw
  · cases hrule : w.get? t with
    | none => exact hw
    | some rule =>
      obtain ⟨hrules, hless⟩ := hget rule hrule
      obtain ⟨c, rfl⟩ : ∃ c, b = c + 1 := ⟨b - 1, by omega⟩
      have hle : rule.descent ≤ c := Nat.le_of_lt_succ hless
      have hpos : 1 ≤ c := by
        match rule, hrules, hle with
        | .block o (.rule s) ns, _, hle =>
          rw [descent] at hle
          omega
      have hplaced := List.foldlRecOn (motive := fun w => w.All (·.descent ≤ c + 1))
        ((distinct rule.parts).filterMap splitDescendant?) (place f waiting rule) hw ?_
      · simp only
        split
        · exact hplaced
        · split
          · exact hplaced.remove t
          · refine hplaced.modify fun s hs _ => ?_
            rw [descent_setSelector]
            exact hplaced s hs
      · rintro w' hw' ⟨parent, child⟩ hmem
        obtain ⟨part, -, hsplit⟩ := List.mem_filterMap.mp hmem
        exact fill_descent hsplit hle hrules
          (ensureChild_descent hsplit hpos (ensureParent_descent hw'))

theorem splitAll_descent {ts : List Nat} (hd : w.Distinct) (hnodup : ts.Nodup)
    (hw : w.All (·.descent ≤ b))
    (hts : ∀ k ∈ ts, ∀ n, w.get? k = some n → n.isRule = true ∧ n.descent < b) :
    (splitAll f ts w).All (·.descent ≤ b) := by
  induction ts generalizing w with
  | nil => exact hw
  | cons t later ih =>
    obtain ⟨hlater, hnodup⟩ := List.nodup_cons.mp hnodup
    have hframe : (splitRule f (t :: later) t w).Distinct ∧ _ := splitRule_frame f hd
    obtain ⟨hd', hkept⟩ := hframe
    apply ih hd' hnodup (splitRule_descent t hw (hts t (by simp)))
    intro k hk n hn
    -- a rule that still waits has taken no content, so it is as shallow as it was
    rw [hkept k (by simp [hk]) fun e => hlater (e ▸ hk)] at hn
    exact hts k (by simp [hk]) n hn

theorem level_descent (f : Factory) (p : Progress) (ns : List Node) :
    ∀ m ∈ (level f p ns).1, m.descent ≤ descentAll ns := by
  have htoll : (Work.start p ns).All (·.toll ≤ descentAll ns) :=
    Work.all_start fun n hn => toll_le_descentAll hn
  refine Work.all_iff_nodes.mp (splitAll_descent (Work.distinct_start p ns)
    (nodup_splitTickets p ns) (fun s hs => (descent_le_toll s.node).trans (htoll s hs)) ?_)
  intro k hk n hn
  obtain ⟨s, hs, hsk, hsplits⟩ := exists_of_mem_splitTickets hk
  have hnode : s.node = n := (Work.distinct_start p ns).node_eq hn hs hsk
  have hless : s.node.toll ≤ descentAll ns := htoll s hs
  rw [toll_of_splits hsplits] at hless
  exact hnode ▸ ⟨isRule_of_splits hsplits, hless⟩

end Descendants

/-! ### Collapsing and factoring -/

namespace Cleanup

mutual
theorem height_inside : ∀ (p : Progress) (n : Node), (inside p n).1.height ≤ n.height
  | p, .block _ (.rule _) ns => Nat.add_le_add_left (heightAll_among p ns) 1
  | p, .block _ (.atRule _ _ _) ns => Nat.add_le_add_left (heightAll_among p ns) 1
  | _, .block _ .sheet _ => Nat.le_refl _
  | _, .block _ .group _ => Nat.le_refl _
  | _, .declaration _ _ => Nat.le_refl _
  | _, .leaf _ => Nat.le_refl _
theorem heightAll_among : ∀ (p : Progress) (ns : List Node),
    heightAll (among p ns).1 ≤ heightAll ns
  | _, [] => Nat.le_refl _
  | p, n :: ns => by
    have hn := height_inside p n
    rw [among]
    simp only
    split
    · have hns := heightAll_among ((inside p n).2.prune (inside p n).1) ns
      rw [heightAll]
      omega
    · have hns := heightAll_among (inside p n).2 ns
      rw [heightAll, heightAll]
      omega
end

end Cleanup

namespace Collapse

variable {w : Work} {b : Nat}

theorem merge_height (f : Factory) {members : List Slot} (hc : Class w.slots members)
    (hw : w.All (·.height ≤ b)) : (merge f w members).All (·.height ≤ b) := by
  rcases merge_slots f hc with hnone | ⟨o, p, t, first, hfirst, -, -, hslots⟩
  · rwa [Work.All, hnone]
  · have hnew : (Node.block o (.rule (jointSelector (members.map (·.node))))
        (copyAll first.node.nodes)).height ≤ b := by
      rw [height, heightAll_copyAll, ← height_eq]
      exact hw first (hc.present first hfirst)
    rw [Work.All, hslots]
    exact List.foldlRecOn (motive := fun w => w.All (·.height ≤ b)) _ Work.remove
      (Work.All.insertBefore (w := ⟨w.slots, p⟩) hw t hnew) fun w' hw' k _ => hw'.remove k

theorem levelUnder_height (f : Factory) (h : Header) (p : Progress) (ns : List Node) :
    ∀ m ∈ (levelUnder f h p ns).1, m.height ≤ heightAll ns := by
  refine levelUnder_preserves (P := fun ms => ∀ m ∈ ms, m.height ≤ heightAll ns) f
    (fun w members _ hc hw => ?_) h p fun n hn => height_le_heightAll hn
  exact Work.all_iff_nodes.mp (merge_height f hc (Work.all_iff_nodes.mpr hw))

end Collapse

namespace Factoring

variable {w : Work} {b : Nat}

theorem height_stripped (ds : List Declaration) (n : Node) : (stripped ds n).height ≤ n.height := by
  rw [height_eq, height_eq n, nodes_stripped]
  have hle : heightAll (n.nodes.filter (!isOneOf ds ·)) ≤ heightAll n.nodes :=
    heightAll_le_iff.mpr fun m hm => height_le_heightAll (List.mem_of_mem_filter hm)
  omega

/-- A rule with declarations that another rule holds is no higher than that rule. -/
theorem height_drafted {ds : List Declaration} {drafted : List Node} {first : Node}
    (hdrafted : drafted.map content? = ds.map some) (hds : ∀ d ∈ ds, d ∈ first.declarations)
    (o : Origin) (s : Text) : (Node.block o (.rule s) drafted).height ≤ first.height := by
  have hle : heightAll drafted ≤ heightAll first.nodes := by
    refine heightAll_le_iff.mpr fun m hm => ?_
    have hcontent : m.content? ∈ ds.map some := hdrafted ▸ List.mem_map_of_mem hm
    obtain ⟨d, hd, hmd⟩ := List.mem_map.mp hcontent
    obtain ⟨c, hc, -⟩ := List.mem_filterMap.mp (hds d hd)
    have hfirst := height_le_heightAll hc
    rw [height_eq c] at hfirst
    match m, hmd with
    | .declaration _ _, _ =>
      rw [height]
      omega
  rw [height, height_eq first]
  omega

theorem factorGroup_height (f : Factory) (tickets : List Nat) (g : SharingGroup)
    (hholds : ∀ t ∈ memberTickets tickets g, Holds w g.declarations t)
    (hw : w.All (·.height ≤ b)) : (factorGroup f tickets w g).All (·.height ≤ b) := by
  have htickets : ∀ t ∈ memberTickets tickets g, t ∈ w.tickets :=
    fun t ht => (hholds t ht).mem_tickets
  rcases factorGroup_slots f tickets g rfl htickets with
    ⟨hnone, -⟩ | ⟨o, p, drafted, t, ht, hgo, hdrafted, hslots⟩
  · rwa [Work.All, hnone]
  · obtain ⟨first, hfirst, -, hdecls⟩ := hholds t ht
    intro r hr
    rw [hslots] at hr
    rcases (mem_slots_moved (w := ⟨w.slots, p⟩) hgo htickets (htickets t ht)).mp hr with
      rfl | ⟨s, hs, rfl⟩
    · exact (height_drafted hdrafted hdecls o _).trans (hw.get? hfirst)
    · unfold mark
      split
      · exact (height_stripped _ _).trans (hw s hs)
      · exact hw s hs

theorem level_height (f : Factory) (p : Progress) (ns : List Node) :
    ∀ m ∈ (level f p ns).1, m.height ≤ heightAll ns := by
  have hns : ∀ n ∈ ns, n.height ≤ heightAll ns := fun n hn => height_le_heightAll hn
  have hfactored : ∀ m ∈ (factorSiblings f p ns).1, m.height ≤ heightAll ns := by
    refine factorSiblings_preserves (P := fun ms => ∀ m ∈ ms, m.height ≤ heightAll ns) f
      (fun tickets w g _ hholds hw => ?_) p hns
    exact Work.all_iff_nodes.mp
      (factorGroup_height f tickets g hholds (Work.all_iff_nodes.mpr hw))
  rw [level]
  split
  · exact hns
  · simp only
    split
    · exact hfactored
    · refine heightAll_le_iff.mp ?_
      exact (Cleanup.heightAll_among _ _).trans (heightAll_le_iff.mpr hfactored)

end Factoring

/-! ### Pseudo nesting -/

namespace Pseudos

variable {w : Work} {cs : List Candidate} {b c : Candidate}

/-- A rule that is moved takes its nodes along. -/
theorem absorb_size (f : Factory) (htracked : Tracked cs w) (hb : b ∈ cs) (hc : c ∈ cs)
    (part : Text) : sizeAll (absorb f b.ticket part w c).nodes ≤ sizeAll w.nodes := by
  rcases absorb_nodes f htracked hb hc part with
    hsame | ⟨o, base, moved, rest, -, -, -, -, hbefore, hafter⟩
  · rw [hsame]
  · have hnested : (nested o c part moved).size = moved.size := by
      rw [nested, size, sizeAll_copyAll, ← size_eq]
    have hgrown := size_append_le base [nested o c part moved]
    rw [sizeAll_perm hbefore, sizeAll_perm hafter]
    simp only [sizeAll, Nat.add_zero] at hgrown ⊢
    omega

theorem level_size (f : Factory) (p : Progress) (ns : List Node) :
    sizeAll (level f p ns).1 ≤ sizeAll ns :=
  level_preserves (P := fun ms => sizeAll ms ≤ sizeAll ns) f
    (fun _ _ _ _ part htracked hb hc _ hw => (absorb_size f htracked hb hc part).trans hw) p
    (Nat.le_refl _)

end Pseudos

/-! ### Whole runs -/

/-- A pass ends with the result `r`, its recursion bounded by nothing. -/
def Pass.Ends (f : Factory) (pass : Pass) (p : Progress) (n : Node) (r : Node × Progress) : Prop :=
  match pass with
  | .descendants => StyleNesting.Ends (fun _ => Descendants.level f) p n r
  | .collapse => ∃ ns p', EndsAll (Collapse.levelUnder f) p n.nodes (ns, p') ∧
      r = (n.setNodes ns, p')
  | .factor => StyleNesting.Ends (fun _ => Factoring.level f) p n r
  | .pseudos => StyleNesting.Ends (fun _ => Pseudos.level f) p n r
  | .cleanup => r = removeEmptyRules p n

/-- Passes that are announced and run one after another end with a result. -/
inductive RunEnds (f : Factory) : List Pass → Progress → Node → Node × Progress → Prop where
  | done {p : Progress} {n : Node} : RunEnds f [] p n (n, p)
  | next {pass : Pass} {passes : List Pass} {p p' : Progress} {n n' : Node} {r : Node × Progress} :
      pass.Ends f (p.log (.running pass.transformName)) n (n', p') → RunEnds f passes p' n' r →
      RunEnds f (pass :: passes) p n r

/-- A pass that makes no group of siblings higher gets to the bottom. -/
theorem ends_of_height {level : Header → Progress → List Node → List Node × Progress}
    (hlevel : ∀ h p ns, ∀ m ∈ (level h p ns).1, m.height ≤ heightAll ns) {fuel : Nat} {n : Node}
    (hn : n.height ≤ fuel) (p : Progress) : Ends level p n (topDown level fuel p n) := by
  refine ends_topDown height (fun o h ns => ?_) (fun o h p ns m hm => ?_) hn p
  · rw [height]
    omega
  · have hm := hlevel h p ns m hm
    rw [height]
    omega

/-- **No bound cuts a pass short.** -/
theorem Pass.ends_run (f : Factory) (pass : Pass) {p : Progress} (hgo : p.stopped = false)
    (n : Node) : pass.Ends f p n (pass.run f p n) := by
  cases pass with
  | descendants =>
    have hrun : Pass.run .descendants f p n =
        topDown (fun _ => Descendants.level f) (2 * n.height) p n := if_neg (by simp [hgo])
    rw [Pass.Ends, hrun]
    refine ends_topDown descent (fun o h ns => ?_) (fun o h p ns m hm => ?_)
      (descent_le_height n) p
    · rw [descent]
      omega
    · have hm := Descendants.level_descent f p ns m hm
      rw [descent]
      omega
  | collapse =>
    cases n with
    | block o h ns =>
      refine ⟨_, _, endsAll_visitAll (fun p m hm => ?_) p, rfl⟩
      exact ends_of_height (Collapse.levelUnder_height f) (height_le_heightAll hm) p
    | declaration o d => exact ⟨[], p, .nil, rfl⟩
    | leaf o => exact ⟨[], p, .nil, rfl⟩
  | factor =>
    have hrun : Pass.run .factor f p n = topDown (fun _ => Factoring.level f) n.height p n :=
      if_neg (by simp [hgo])
    rw [Pass.Ends, hrun]
    exact ends_of_height (fun _ => Factoring.level_height f) (Nat.le_refl _) p
  | pseudos =>
    have hrun : Pass.run .pseudos f p n = topDown (fun _ => Pseudos.level f) n.size p n :=
      if_neg (by simp [hgo])
    rw [Pass.Ends, hrun]
    refine ends_topDown size (fun o h ns => ?_) (fun o h p ns m hm => ?_) (Nat.le_refl _) p
    · rw [size]
      omega
    · have hm := (size_le_sizeAll hm).trans (Pseudos.level_size f p ns)
      rw [size]
      omega
  | cleanup => rfl

theorem runEnds_runAll {f : Factory} (hf : f.Obliging) (passes : List Pass) {p : Progress}
    (hgo : p.stopped = false) (n : Node) :
    RunEnds f passes p n (runAll (passes.map (·.transform f)) p n) := by
  induction passes generalizing p n with
  | nil => exact .done
  | cons pass passes ih =>
    have hrun : (pass.transform f).run p n =
        pass.run f (p.log (.running pass.transformName)) n := if_neg (by simp [hgo])
    have hgo' := Pass.run_goes_on hf pass (p.log (.running pass.transformName)) n hgo
    rw [List.map_cons, runAll, hrun]
    exact .next (pass.ends_run f (p := p.log _) hgo n) (ih hgo' _)

/-- Compacting a stylesheet comes to its end with the result `r`: the enabled passes
    end, and the empty rules are removed; nothing has failed on the way. -/
structure NestEnds (o : Options) (f : Factory) (n : Node) (r : Node × Progress) : Prop where
  ends : ∃ n' p, RunEnds f o.passes {} n (n', p) ∧ r = removeEmptyRules p n'
  failure : r.2.failure = none

theorem nestEnds_nest {f : Factory} (hf : f.Obliging) (o : Options) (n : Node) :
    NestEnds o f n (nest o f n) := by
  refine ⟨⟨_, _, runEnds_runAll hf o.passes rfl n, ?_⟩, failure_nest hf o n⟩
  rw [nest, applyTransforms, List.append_nil]

/-- **Compacting always comes to its end**, whatever the tree, the selectors in it and
    the options, with either of the two ways to build nodes: no construction is refused,
    every child that is to be moved, replaced or taken out is found in its block, and
    every declaration that is to be moved is found in its rule. -/
theorem nest_comes_to_its_end (o : Options) (n : Node) :
    NestEnds o Factory.clone n (nest o Factory.clone n) ∧
      NestEnds o Factory.literal n (nest o Factory.literal n) :=
  ⟨nestEnds_nest Factory.clone_obliging o n, nestEnds_nest (fun _ _ => rfl) o n⟩

end StyleNesting
