/-
  StyleNesting/Proofs/Settled.lean
  ================================
  **What a pass leaves behind.**  A pass works the siblings of a block, and then
  goes on inside the rules and at-rules among them.  If the work settles some
  question about the siblings, and going on inside of them does not open it
  again, then the question is settled everywhere that the pass got to
  (`Ends.settled`).  Siblings that are settled in a strong enough sense are left
  as they are, and a pass that has nothing to do anywhere changes nothing
  (`topDown_eq_self`): this is how a second run ends where the first one did.
-/
import StyleNesting.Proofs.Termination

namespace StyleNesting

open Node

/-- The blocks that a pass gets to from a block: itself, and what is reached through rules
    and at-rules. -/
inductive Node.Reaches : Node → Node → Prop where
  | here {n : Node} : Reaches n n
  | inside {n m k : Node} : m ∈ n.nodes → m.isStyleBlock = true → Reaches m k → Reaches n k

theorem isStyleBlock_of_isRule {n : Node} (h : n.isRule = true) : n.isStyleBlock = true := by
  obtain ⟨o, s, ns, rfl⟩ := exists_of_isRule h
  rfl

theorem content_of_isStyleBlock {n : Node} (h : n.isStyleBlock = true) : n.content? = none := by
  cases n with
  | block o hd ns => rfl
  | declaration o d => cases h
  | leaf o => rfl

theorem content_of_isRule {n : Node} (h : n.isRule = true) : n.content? = none :=
  content_of_isStyleBlock (isStyleBlock_of_isRule h)

/-! ### Trees before and after a pass -/

section Before

variable {level : Header → Progress → List Node → List Node × Progress} {P Q : Node → Node → Prop}

/-- A sibling after a pass went on inside of it, which it does in rules and at-rules only. -/
def Entered (P : Node → Node → Prop) (n m : Node) : Prop :=
  (n.isStyleBlock = true ∧ P n m) ∨ (n.isStyleBlock = false ∧ m = n)

theorem Entered.mono (h : ∀ n m, P n m → Q n m) {n m : Node} (hnm : Entered P n m) :
    Entered Q n m := by
  rcases hnm with ⟨hn, hp⟩ | hsame
  · exact Or.inl ⟨hn, h n m hp⟩
  · exact Or.inr hsame

theorem exists_of_mem_forall₂ {R : Node → Node → Prop} {ns ms : List Node}
    (h : List.Forall₂ R ns ms) {m : Node} (hm : m ∈ ms) : ∃ n ∈ ns, R n m := by
  induction h with
  | nil => cases hm
  | cons hnm _ ih =>
    rcases List.mem_cons.mp hm with rfl | hrest
    · exact ⟨_, by simp, hnm⟩
    · obtain ⟨n, hn, hnm⟩ := ih hrest
      exact ⟨n, List.mem_cons_of_mem _ hn, hnm⟩

theorem map_of_same_view {α : Type} {view : Node → α} {ns ms : List Node}
    (h : List.Forall₂ (fun n m => view m = view n) ns ms) : ms.map view = ns.map view := by
  induction h with
  | nil => rfl
  | cons hnm _ ih => rw [List.map_cons, List.map_cons, hnm, ih]

/-- What is said of pairs of siblings by some view of them holds again of siblings that
    offer the same view. -/
theorem pairwise_of_same_view {α : Type} (view : Node → α) (R : α → α → Prop) {ns ms : List Node}
    (h : List.Forall₂ (fun n m => view m = view n) ns ms)
    (hns : ns.Pairwise fun n n' => R (view n) (view n')) :
    ms.Pairwise fun m m' => R (view m) (view m') := by
  rw [← List.pairwise_map (R := R), map_of_same_view h, List.pairwise_map]
  exact hns

theorem nodes_of_not_isBlock {n : Node} (h : n.isBlock = false) : n.nodes = [] := by
  cases n with
  | block o hd ns => cases h
  | declaration o d => rfl
  | leaf o => rfl

/-- A pass that never stops, and a relation between trees that follows its recursion. -/
structure Follows (level : Header → Progress → List Node → List Node × Progress)
    (P : Node → Node → Prop) : Prop where
  goes_on : ∀ h p ns, p.stopped = false → (level h p ns).2.stopped = false
  plain : ∀ n, n.isBlock = false → P n n
  block : ∀ o h p ns ms, p.stopped = false → List.Forall₂ (Entered P) (level h p ns).1 ms →
    P (.block o h ns) (.block o h ms)

-- the run does not stop, so whatever can be entered is entered
mutual
theorem Ends.follows (h : Follows level P) : ∀ {p : Progress} {n : Node} {r : Node × Progress},
    Ends level p n r → p.stopped = false → P n r.1 ∧ r.2.stopped = false
  | _, _, _, .declaration, hp => ⟨h.plain _ rfl, hp⟩
  | _, _, _, .leaf, hp => ⟨h.plain _ rfl, hp⟩
  | p, .block o hd ns, _, .block hends, hp => by
    obtain ⟨hall, hp'⟩ := EndsAll.follows h hends (h.goes_on hd p ns hp)
    exact ⟨h.block o hd p ns _ hp hall, hp'⟩
theorem EndsAll.follows (h : Follows level P) :
    ∀ {p : Progress} {ns : List Node} {r : List Node × Progress},
    EndsAll level p ns r → p.stopped = false →
      List.Forall₂ (Entered P) ns r.1 ∧ r.2.stopped = false
  | _, _, _, .nil, hp => ⟨.nil, hp⟩
  | _, _, _, .enter hn _ hends hrest, hp => by
    obtain ⟨hm, hp'⟩ := Ends.follows h hends hp
    obtain ⟨hms, hp''⟩ := EndsAll.follows h hrest hp'
    exact ⟨.cons (Or.inl ⟨hn, hm⟩) hms, hp''⟩
  | _, _, _, .pass hn hrest, hp => by
    obtain ⟨hms, hp'⟩ := EndsAll.follows h hrest hp
    rcases hn with hn | hstopped
    · exact ⟨.cons (Or.inr ⟨hn, rfl⟩) hms, hp'⟩
    · rw [hp] at hstopped
      cases hstopped
end

/-- **What a pass settles among siblings is settled wherever it got to**, if it is not
    opened again by the changes further down, of which `P` says what is needed. -/
theorem Ends.settled (Settled : List Node → Prop) (hP : Follows level P) (hnil : Settled [])
    (hlevel : ∀ h p ns, p.stopped = false → Settled (level h p ns).1)
    (hkept : ∀ ns ms, List.Forall₂ (Entered P) ns ms → Settled ns → Settled ms)
    {p : Progress} {n : Node} {r : Node × Progress} (hends : Ends level p n r)
    (hgo : p.stopped = false) : ∀ k, r.1.Reaches k → Settled k.nodes := by
  have hboth : Follows level fun n m => P n m ∧ ∀ k, m.Reaches k → Settled k.nodes := by
    refine ⟨hP.goes_on, fun n hn => ⟨hP.plain n hn, ?_⟩, fun o h p ns ms hgo hms => ⟨?_, ?_⟩⟩
    · have hnodes := nodes_of_not_isBlock hn
      intro k hk
      cases hk with
      | here => rwa [hnodes]
      | inside hm _ _ =>
        rw [hnodes] at hm
        cases hm
    · exact hP.block o h p ns ms hgo (hms.imp fun n m => Entered.mono fun _ _ h => h.1)
    · intro k hk
      cases hk with
      | here =>
        apply hkept (level h p ns).1 ms (hms.imp fun n m => Entered.mono fun _ _ h => h.1)
        exact hlevel h p ns hgo
      | @inside _ m _ hm hstyle hk =>
        obtain ⟨n, -, hnm⟩ := exists_of_mem_forall₂ hms hm
        rcases hnm with ⟨-, -, hbelow⟩ | ⟨hn, rfl⟩
        · exact hbelow k hk
        · rw [hstyle] at hn
          cases hn
  exact (hends.follows hboth hgo).1.2

end Before

/-! ### Nothing left to do -/

theorem visitAll_eq_self {step : Step} {p : Progress} {ns : List Node}
    (h : ∀ n ∈ ns, step p n = (n, p)) : visitAll step p ns = (ns, p) := by
  induction ns with
  | nil => rfl
  | cons n ns ih =>
    rw [visitAll, h n (by simp)]
    simp only
    rw [ih fun m hm => h m (by simp [hm])]

/-- **A pass that has nothing to do anywhere changes nothing.** -/
theorem topDown_eq_self {level : Header → Progress → List Node → List Node × Progress}
    {p : Progress} {n : Node} (h : ∀ k, n.Reaches k → ∀ hd, level hd p k.nodes = (k.nodes, p))
    (fuel : Nat) : topDown level fuel p n = (n, p) := by
  induction fuel generalizing n with
  | zero => rfl
  | succ fuel ih =>
    cases n with
    | declaration o d => rfl
    | leaf o => rfl
    | block o hd ns =>
      have hlevel : level hd p ns = (ns, p) := h _ .here hd
      have hvisit : visitAll (enter (topDown level fuel)) p ns = (ns, p) := by
        apply visitAll_eq_self
        intro m hm
        unfold enter
        split
        · rename_i hentered
          rw [Bool.and_eq_true] at hentered
          exact ih fun k hk => h k (.inside hm hentered.1 hk)
        · rfl
      rw [topDown, hlevel]
      simp only
      rw [hvisit]

/-! ### One run after the other -/

/-- A tree after a number of runs of a pass, each on what the one before has left. -/
def Pass.repeated (pass : Pass) (n : Node) : Nat → Node
  | 0 => n
  | k + 1 => (pass.run Factory.clone {} (pass.repeated n k)).1

end StyleNesting
