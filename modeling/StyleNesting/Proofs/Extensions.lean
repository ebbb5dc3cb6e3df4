/-
  StyleNesting/Proofs/Extensions.lean
  ===================================
  **Pseudo nesting leaves no rule beside a rule that it extends.**  Among the
  siblings of a block every rule has its turn as a base, if it is still there,
  and takes in all rules that extend one of its parts.  Rules only ever go away
  during this, and what stays keeps its selector: so whatever is left at the end
  was there at every turn, and was not taken in by any of the others
  (`Pseudos.level_apart`).

  Work further down changes no selector, so siblings that are apart stay apart;
  and where no rule extends another, there is nothing to move.  Hence a second
  run changes nothing.
-/
import Mathlib.Data.List.Pairwise
import StyleNesting.Proofs.Settled

namespace StyleNesting

open Node

/-- Every part of a selector list, which has one, extends the same part of another list. -/
def Selector.Extend (ps qs : List Text) : Prop :=
  ∃ q ∈ qs, ps ≠ [] ∧ ∀ p ∈ ps, isPseudoOf q p = true

/-- Neither of two rules extends the other. -/
def Node.Apart (n m : Node) : Prop :=
  ¬ Selector.Extend m.parts n.parts ∧ ¬ Selector.Extend n.parts m.parts

instance : Std.Symm Node.Apart := ⟨fun _ _ h => ⟨h.2, h.1⟩⟩

/-- What holds of an element right after its step, and is kept by the other steps, holds of
    all elements after the whole fold. -/
theorem foldl_done {σ α : Type} (step : σ → α → σ) (as : List α) (Inv : σ → Prop)
    (Done : α → σ → Prop) (hinv : ∀ s, ∀ a ∈ as, Inv s → Inv (step s a))
    (hdone : ∀ s, ∀ a ∈ as, Inv s → Done a (step s a))
    (hkept : ∀ s, ∀ b ∈ as, ∀ a, Inv s → Done a s → Done a (step s b)) {s : σ} (hs : Inv s) :
    Inv (as.foldl step s) ∧ ∀ a ∈ as, Done a (as.foldl step s) := by
  have hfold : ∀ (bs : List α) (s : σ), (∀ b ∈ bs, b ∈ as) → Inv s → ∀ a, (Done a s ∨ a ∈ bs) →
      Done a (bs.foldl step s) := by
    intro bs
    induction bs with
    | nil =>
      intro s _ _ a ha
      rcases ha with ha | ha
      · exact ha
      · cases ha
    | cons b bs ih =>
      intro s hbs hs a ha
      have hb : b ∈ as := hbs b (by simp)
      apply ih _ (fun c hc => hbs c (by simp [hc])) (hinv s b hb hs)
      rcases ha with ha | ha
      · exact Or.inl (hkept s b hb a hs ha)
      · rcases List.mem_cons.mp ha with rfl | hrest
        · exact Or.inl (hdone s a hb hs)
        · exact Or.inr hrest
  refine ⟨List.foldlRecOn as step hs fun s hs a ha => hinv s a ha hs, fun a ha => ?_⟩
  exact hfold as s (fun _ hb => hb) hs a (Or.inr ha)

namespace Pseudos

variable {f : Factory} {cs : List Candidate} {w : Work} {b c : Candidate} {part : Text} {t : Nat}

/-! ### Rules only go away -/

theorem tickets_absorb (f : Factory) (t : Nat) (part : Text) (w : Work) (c : Candidate) :
    (absorb f t part w c).tickets = w.tickets ∨
      (c.ticket ≠ t ∧ (absorb f t part w c).tickets = w.tickets.filter (· != c.ticket)) := by
  rcases absorb_slots f t part w c with
    ⟨hslots, -⟩ | ⟨o, p, base, moved, hne, -, -, hmoved, -, hgo, hslots, -⟩
  · exact Or.inl (by rw [Work.tickets, hslots, Work.tickets])
  · refine Or.inr ⟨hne, ?_⟩
    have hgo : Work.stopped ⟨w.slots, p⟩ = false := hgo
    have hfound := (Work.get?_modify_ne (w := ⟨w.slots, p⟩)
      (f := Node.append [nested o c part moved]) hne).trans hmoved
    rw [Work.tickets, hslots, ← Work.tickets,
      Work.tickets_remove ((Work.stopped_modify ..).trans hgo) hfound, Work.tickets_modify]
    rfl

theorem tickets_absorb_subset (f : Factory) (t : Nat) (part : Text) (w : Work) (c : Candidate) :
    (absorb f t part w c).tickets ⊆ w.tickets := by
  rcases tickets_absorb f t part w c with hsame | ⟨-, hfiltered⟩
  · rw [hsame]
    exact fun _ h => h
  · rw [hfiltered]
    exact List.filter_sublist.subset

theorem base_mem_absorb (h : t ∈ w.tickets) : t ∈ (absorb f t part w c).tickets := by
  rcases tickets_absorb f t part w c with hsame | ⟨hne, hfiltered⟩
  · rwa [hsame]
  · rw [hfiltered, List.mem_filter]
    exact ⟨h, by simpa using hne.symm⟩

theorem tickets_foldl_absorb_subset (f : Factory) (t : Nat) (part : Text) (w : Work)
    (cs : List Candidate) : (cs.foldl (absorb f t part) w).tickets ⊆ w.tickets :=
  List.foldlRecOn (motive := fun w' : Work => w'.tickets ⊆ w.tickets) _ _ (fun _ h => h)
    fun w' hw' c _ => List.Subset.trans (tickets_absorb_subset f t part w' c) hw'

theorem tickets_absorbAll_subset (f : Factory) (cs : List Candidate) (w : Work) (b : Candidate) :
    (absorbAll f cs w b).tickets ⊆ w.tickets := by
  unfold absorbAll
  split
  · refine List.foldlRecOn (motive := fun w' : Work => w'.tickets ⊆ w.tickets) _ _
      (fun _ h => h) fun w' hw' part _ => ?_
    exact List.Subset.trans (tickets_foldl_absorb_subset f b.ticket part w' cs) hw'
  · exact fun _ h => h

/-! ### A base takes in all that extends it -/

theorem absorb_running (hf : f.Obliging) (hw : Running cs w) (part : Text) (hc : c ∈ cs) :
    Running cs (absorb f b.ticket part w c) :=
  ⟨absorb_tracked f hw.1 part c, absorb_goes_on hf hw.1 hw.2 hc part⟩

theorem absorb_takes (hf : f.Obliging) (hw : Running cs w) (hb : b.ticket ∈ w.tickets)
    (hc : c ∈ cs) (hne : c.ticket ≠ b.ticket) (hext : c.extendsPart part = true) :
    c.ticket ∉ (absorb f b.ticket part w c).tickets := by
  obtain ⟨htracked, hgo⟩ := hw
  obtain ⟨base, hbase⟩ := Work.exists_get?_of_mem_tickets hb
  by_cases hpresent : c.ticket ∈ w.tickets
  · obtain ⟨moved, hmoved⟩ := Work.exists_get?_of_mem_tickets hpresent
    obtain ⟨n, p, hnew⟩ := Progress.newRule_of_obliging hf hgo (htracked.known c hc moved hmoved).1
      (c.relativeSelector part)
    have hgo' : Work.stopped ⟨w.slots, p⟩ = false := (Progress.eq_of_newRule_some hnew).2.2
    have hfound := fun m => (Work.get?_modify_ne (w := ⟨w.slots, p⟩) (f := Node.append [m])
      hne).trans hmoved
    have hguard : (w.stopped || c.ticket == b.ticket || !c.extendsPart part) = false := by
      simp [hgo, hne, hext]
    simp only [absorb, hguard, Bool.false_eq_true, if_false, hbase, hmoved, hnew]
    intro hmem
    change c.ticket ∈ Work.tickets (Work.remove _ c.ticket) at hmem
    rw [Work.tickets_remove ((Work.stopped_modify ..).trans hgo') (hfound _),
      List.mem_filter] at hmem
    simp at hmem
  · exact fun hmem => hpresent (tickets_absorb_subset f b.ticket part w c hmem)

/-- None of the candidates that extend the part is left, other than the base itself. -/
def Cleared (cs : List Candidate) (b : Candidate) (w : Work) (part : Text) : Prop :=
  ∀ c ∈ cs, c.ticket ≠ b.ticket → c.extendsPart part = true → c.ticket ∉ w.tickets

theorem foldl_absorb_clears (hf : f.Obliging) (hw : Running cs w) (hb : b.ticket ∈ w.tickets)
    (part : Text) :
    (Running cs (cs.foldl (absorb f b.ticket part) w) ∧
        b.ticket ∈ (cs.foldl (absorb f b.ticket part) w).tickets) ∧
      Cleared cs b (cs.foldl (absorb f b.ticket part) w) part := by
  refine foldl_done (absorb f b.ticket part) cs (fun w => Running cs w ∧ b.ticket ∈ w.tickets)
    (fun c w => c.ticket ≠ b.ticket → c.extendsPart part = true → c.ticket ∉ w.tickets)
    ?_ ?_ ?_ ⟨hw, hb⟩
  · intro w' c hc hw'
    exact ⟨absorb_running hf hw'.1 part hc, base_mem_absorb hw'.2⟩
  · intro w' c hc hw' hne hext
    exact absorb_takes hf hw'.1 hw'.2 hc hne hext
  · intro w' d _ c _ hgone hne hext hmem
    exact hgone hne hext (tickets_absorb_subset f b.ticket part w' d hmem)

theorem absorbAll_clears (hf : f.Obliging) (hw : Running cs w) :
    b.ticket ∈ (absorbAll f cs w b).tickets → ∀ part ∈ b.parts,
      Cleared cs b (absorbAll f cs w b) part := by
  intro hmem
  have hb : b.ticket ∈ w.tickets := tickets_absorbAll_subset f cs w b hmem
  rw [absorbAll, if_pos (Work.contains_iff.mpr hb)]
  have hfold := foldl_done (fun w part => cs.foldl (absorb f b.ticket part) w) b.parts
    (fun w => Running cs w ∧ b.ticket ∈ w.tickets) (fun part w => Cleared cs b w part)
    ?_ ?_ ?_ ⟨hw, hb⟩
  · exact hfold.2
  · intro w' part _ hw'
    exact (foldl_absorb_clears hf hw'.1 hw'.2 part).1
  · intro w' part _ hw'
    exact (foldl_absorb_clears hf hw'.1 hw'.2 part).2
  · intro w' part' _ part _ hclear c hc hne hext hmem
    exact hclear c hc hne hext (tickets_foldl_absorb_subset f b.ticket part' w' cs hmem)

/-! ### What is left -/

/-- Every rule among the children is one of the candidates. -/
def Known (cs : List Candidate) (w : Work) : Prop :=
  ∀ s ∈ w.slots, s.node.isRule = true → ∃ c ∈ cs, s.has c.ticket = true

theorem known_start (p : Progress) (ns : List Node) :
    Known (candidates (Work.start p ns)) (Work.start p ns) := by
  intro s hs hrule
  obtain ⟨t, ht⟩ := Slot.exists_ticket_of_mem_numberFrom hs
  refine ⟨⟨t, s.node.parts⟩, List.mem_filterMap.mpr ⟨s, hs, ?_⟩, Slot.has_iff.mpr ht⟩
  simp [ht, hrule]

theorem Known.absorb (h : Known cs w) (f : Factory) (t : Nat) (part : Text) (c : Candidate) :
    Known cs (absorb f t part w c) := by
  have hmodify : ∀ p m, Known cs (Work.modify ⟨w.slots, p⟩ t (Node.append [m])) := by
    intro p m s hs hrule
    obtain ⟨r, hr, rfl⟩ := List.mem_map.mp hs
    split at hrule
    · rw [append_eq_setNodes, isRule_setNodes] at hrule
      rename_i hrt
      simp only [hrt, if_true]
      exact h r hr hrule
    · rename_i hrt
      simp only [hrt]
      exact h r hr hrule
  rcases absorb_slots f t part w c with hsame | ⟨o, p, base, moved, -, -, -, -, -, -, hslots, -⟩
  · rw [Known, hsame.1]
    exact h
  · rw [Known, hslots]
    intro s hs
    unfold Work.remove at hs
    split at hs
    · exact hmodify p _ s hs
    · split at hs
      · exact hmodify p _ s (List.mem_of_mem_filter hs)
      · exact hmodify p _ s hs

theorem Known.absorbAll (h : Known cs w) (f : Factory) (b : Candidate) :
    Known cs (absorbAll f cs w b) := by
  unfold Pseudos.absorbAll
  split
  · exact List.foldlRecOn _ _ h fun w' hw' part _ =>
      List.foldlRecOn _ _ hw' fun w'' hw'' c _ => hw''.absorb f b.ticket part c
  · exact h

theorem extendsPart_iff {n : Node} (hc : n.parts = c.parts) :
    c.extendsPart part = true ↔
      n.parts ≠ [] ∧ ∀ p ∈ n.parts, Selector.isPseudoOf part p = true := by
  simp [Candidate.extendsPart, hc]

theorem not_extends_of_cleared (hw : Tracked cs w) {r s : Slot} (hr : r ∈ w.slots)
    (hs : s ∈ w.slots) (hb : b ∈ cs) (hc : c ∈ cs) (hrb : r.has b.ticket = true)
    (hsc : s.has c.ticket = true) (hne : c.ticket ≠ b.ticket)
    (hclear : ∀ part ∈ b.parts, Cleared cs b w part) :
    ¬ Selector.Extend s.node.parts r.node.parts := by
  rintro ⟨part, hpart, hext⟩
  obtain ⟨-, hbparts⟩ := hw.known b hb r.node (hw.distinct.get?_eq hr hrb)
  obtain ⟨-, hcparts⟩ := hw.known c hc s.node (hw.distinct.get?_eq hs hsc)
  apply hclear part (hbparts ▸ hpart) c hc hne ((extendsPart_iff hcparts).mpr hext)
  exact Work.mem_tickets.mpr ⟨s, hs, hsc⟩

/-- **Siblings are apart after the moves among them.** -/
theorem level_apart (hf : f.Obliging) {p : Progress} (hgo : p.stopped = false) (ns : List Node) :
    ((level f p ns).1.filter isRule).Pairwise Apart := by
  have hfold := foldl_done (absorbAll f (candidates (Work.start p ns)))
    (candidates (Work.start p ns))
    (fun w => Running (candidates (Work.start p ns)) w ∧ Known (candidates (Work.start p ns)) w)
    (fun b w => b.ticket ∈ w.tickets → ∀ part ∈ b.parts,
      Cleared (candidates (Work.start p ns)) b w part)
    (fun w b _ hw => ⟨absorbAll_running hf hw.1, hw.2.absorbAll f b⟩)
    (fun w b _ hw => absorbAll_clears hf hw.1)
    (fun w b' _ b _ hclear hb part hpart c hc hne hext hmem =>
      have hsub := tickets_absorbAll_subset f (candidates (Work.start p ns)) w b'
      hclear (hsub hb) part hpart c hc hne hext (hsub hmem))
    ⟨⟨tracked_start p ns, hgo⟩, known_start p ns⟩
  change (List.filter isRule (List.map Slot.node _)).Pairwise Apart
  generalize candidates (Work.start p ns) = cs at hfold ⊢
  generalize cs.foldl (absorbAll f cs) (Work.start p ns) = w at hfold ⊢
  obtain ⟨⟨⟨hw, -⟩, hknown⟩, hclear⟩ := hfold
  rw [List.pairwise_filter, List.pairwise_map]
  have hdistinct : w.slots.Pairwise fun r s => ∀ t, r.ticket = some t → ∀ u, s.ticket = some u →
      t ≠ u := List.pairwise_filterMap.mp hw.distinct
  refine hdistinct.imp_of_mem fun {r s} hr hs hticket hrrule hsrule => ?_
  obtain ⟨b, hb, hrb⟩ := hknown r hr hrrule
  obtain ⟨c, hc, hsc⟩ := hknown s hs hsrule
  have hne : b.ticket ≠ c.ticket := hticket _ (Slot.has_iff.mp hrb) _ (Slot.has_iff.mp hsc)
  have hbclear := hclear b hb (Work.mem_tickets.mpr ⟨r, hr, hrb⟩)
  have hcclear := hclear c hc (Work.mem_tickets.mpr ⟨s, hs, hsc⟩)
  exact ⟨not_extends_of_cleared hw hr hs hb hc hrb hsc hne.symm hbclear,
    not_extends_of_cleared hw hs hr hc hb hsc hrb hne hcclear⟩

/-! ### Nothing left to move -/

theorem mem_candidates (hc : c ∈ candidates w) :
    ∃ s ∈ w.slots, s.ticket = some c.ticket ∧ s.node.isRule = true ∧ c.parts = s.node.parts := by
  obtain ⟨s, hs, hcand⟩ := List.mem_filterMap.mp hc
  split at hcand
  · rename_i t hticket
    split at hcand
    · rename_i hrule
      cases hcand
      exact ⟨s, hs, hticket, hrule, rfl⟩
    · cases hcand
  · cases hcand

theorem candidates_apart {p : Progress} {ns : List Node}
    (h : (ns.filter isRule).Pairwise Apart) (hb : b ∈ candidates (Work.start p ns))
    (hc : c ∈ candidates (Work.start p ns)) (hne : c.ticket ≠ b.ticket) (hpart : part ∈ b.parts) :
    c.extendsPart part = false := by
  have hsymm : Std.Symm fun r s : Slot => r.node.isRule = true → s.node.isRule = true →
      r.node.Apart s.node := ⟨fun _ _ h hs hr => symm (h hr hs)⟩
  have hslots : (Work.start p ns).slots.Pairwise fun r s => r.node.isRule = true →
      s.node.isRule = true → r.node.Apart s.node := by
    rw [← List.pairwise_map (f := Slot.node) (R := fun n m => n.isRule = true → m.isRule = true →
      n.Apart m), ← List.pairwise_filter]
    have hnodes : (Work.start p ns).slots.map Slot.node = ns := Work.nodes_start p ns
    rwa [hnodes]
  obtain ⟨r, hr, hrt, hrrule, hrparts⟩ := mem_candidates hb
  obtain ⟨s, hs, hst, hsrule, hsparts⟩ := mem_candidates hc
  have hrs : r ≠ s := by
    rintro rfl
    rw [hrt] at hst
    exact hne (Option.some.inj hst).symm
  have hapart := hslots.forall hr hs hrs hrrule hsrule
  rw [Bool.eq_false_iff]
  intro hext
  exact hapart.1 ⟨part, hrparts ▸ hpart, (extendsPart_iff hsparts.symm).mp hext⟩

/-- Siblings that are apart are left as they are. -/
theorem level_eq_self (f : Factory) (p : Progress) {ns : List Node}
    (h : (ns.filter isRule).Pairwise Apart) : level f p ns = (ns, p) := by
  have hstay : ∀ b ∈ candidates (Work.start p ns),
      absorbAll f (candidates (Work.start p ns)) (Work.start p ns) b = Work.start p ns := by
    intro b hb
    unfold absorbAll
    split
    · refine List.foldlRecOn (motive := (· = Work.start p ns)) _ _ rfl fun w hw part hpart => ?_
      refine List.foldlRecOn (motive := (· = Work.start p ns)) _ _ hw fun w' hw' c hc => ?_
      subst hw'
      rw [absorb, if_pos]
      by_cases hne : c.ticket = b.ticket
      · simp [hne]
      · simp [candidates_apart h hb hc hne hpart]
    · rfl
  have hfold : (candidates (Work.start p ns)).foldl (absorbAll f (candidates (Work.start p ns)))
      (Work.start p ns) = Work.start p ns := by
    refine List.foldlRecOn (motive := (· = Work.start p ns)) _ _ rfl fun w hw b hb => ?_
    rw [hw, hstay b hb]
  rw [level, hfold, Work.finish, Work.nodes_start]
  rfl

end Pseudos

/-! ### Whole trees -/

theorem pairwise_apart_of_entered {ns ms : List Node}
    (h : List.Forall₂ (Entered fun n m => m = n.setNodes m.nodes) ns ms)
    (hns : (ns.filter isRule).Pairwise Apart) : (ms.filter isRule).Pairwise Apart := by
  have hviews :
      List.Forall₂ (fun n m : Node => (m.isRule, m.parts) = (n.isRule, n.parts)) ns ms := by
    refine h.imp fun n m hnm => ?_
    rcases hnm with ⟨-, hset⟩ | ⟨-, rfl⟩
    · rw [hset, isRule_setNodes, parts_setNodes]
    · rfl
  rw [List.pairwise_filter] at hns ⊢
  exact pairwise_of_same_view (fun n => (n.isRule, n.parts))
    (fun v u => v.1 = true → u.1 = true →
      ¬ Selector.Extend u.2 v.2 ∧ ¬ Selector.Extend v.2 u.2) hviews hns

theorem follows_pseudos {f : Factory} (hf : f.Obliging) :
    Follows (fun _ => Pseudos.level f) fun n m => m = n.setNodes m.nodes := by
  refine ⟨fun _ p ns hp => Pseudos.level_goes_on hf p ns hp, fun n hn => ?_,
    fun _ _ _ _ _ _ _ => rfl⟩
  cases n with
  | block o h ns => cases hn
  | declaration o d => rfl
  | leaf o => rfl

/-- Wherever pseudo nesting got to, siblings are apart. -/
theorem apart_of_reaches {f : Factory} (hf : f.Obliging) {p : Progress} (hgo : p.stopped = false)
    (n : Node) : ∀ k, (nestPseudos f p n).1.Reaches k → k.rules.Pairwise Apart := by
  have hends : Ends (fun _ => Pseudos.level f) p n (nestPseudos f p n) :=
    Pass.ends_run f .pseudos hgo n
  exact hends.settled (fun ns => (ns.filter isRule).Pairwise Apart) (follows_pseudos hf)
    .nil (fun _ p ns hp => Pseudos.level_apart hf hp ns)
    (fun ns ms => pairwise_apart_of_entered) hgo

/-- **Pseudo nesting is complete, and done with in one run.**  It comes to its end; after it,
    no rule stands beside another rule that it extends, wherever the run got to; and another
    run leaves the tree exactly as it is. -/
theorem nestPseudos_complete (n : Node) :
    (nestPseudos Factory.clone {} n).2.failure = none ∧
      (∀ k, (nestPseudos Factory.clone {} n).1.Reaches k → k.rules.Pairwise fun b c =>
        (¬ ∃ s ∈ b.parts, c.parts ≠ [] ∧ ∀ p ∈ c.parts, Selector.isPseudoOf s p = true) ∧
        ¬ ∃ s ∈ c.parts, b.parts ≠ [] ∧ ∀ p ∈ b.parts, Selector.isPseudoOf s p = true) ∧
      (nestPseudos Factory.clone {} (nestPseudos Factory.clone {} n).1).1 =
        (nestPseudos Factory.clone {} n).1 := by
  have hapart := apart_of_reaches Factory.clone_obliging (p := {}) rfl n
  refine ⟨?_, hapart, ?_⟩
  · exact failure_of_goes_on (nestPseudos_goes_on Factory.clone_obliging {} n rfl)
  · generalize (nestPseudos Factory.clone {} n).1 = m at hapart ⊢
    rw [nestPseudos, if_neg (by decide), topDown_eq_self]
    intro k hk _
    exact Pseudos.level_eq_self Factory.clone {} (hapart k hk)

end StyleNesting
