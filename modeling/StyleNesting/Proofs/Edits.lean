/-
  StyleNesting/Proofs/Edits.lean
  ==============================
  **What the passes can do to the children of a block, said once.**  Every pass
  that reworks siblings does so by three kinds of edit: it puts a rule in front
  of another rule or at the end, takes a rule out, or exchanges a rule for
  another one.  Nodes that are no rules are left where they are.  With a factory
  that keeps places, whatever comes in has the *stamp* of a node that was there
  when the work began: its place in the source, what it declares, and whether it
  is a rule.  `Edited ns` are the lists of siblings that can come of `ns` in this
  way, and each of the four passes is shown to stay within it.

  What holds of edits and is not disturbed by work further down holds of whole
  runs (`Stable.nest`).  The first use of this is `nest_provenance`: every
  declaration of a compacted stylesheet, and every rule, stands for one of the
  source.
-/
import StyleNesting.Proofs.Conservation
import StyleNesting.Proofs.Idiom

namespace StyleNesting

open Node

/-! ### Stamps -/

namespace Node

/-- What a node carries along when it is moved or copied. -/
def stamp (n : Node) : Option Position × Option Declaration × Bool :=
  (n.origin.source, n.content?, n.isRule)

@[simp]
theorem stamp_setNodes (ns : List Node) (n : Node) : (n.setNodes ns).stamp = n.stamp := by
  cases n with
  | block o h ms => cases h <;> rfl
  | declaration o d => rfl
  | leaf o => rfl

@[simp]
theorem stamp_setSelector (s : Text) (n : Node) : (n.setSelector s).stamp = n.stamp := by
  cases n with
  | block o h ms => cases h <;> rfl
  | declaration o d => rfl
  | leaf o => rfl

@[simp]
theorem stamp_copy (n : Node) : n.copy.stamp = n.stamp := by
  cases n with
  | block o h ms => cases h <;> rfl
  | declaration o d => rfl
  | leaf o => rfl

theorem stamp_rule {n : Node} (h : n.isRule = true) (s : Text) (ns : List Node) :
    (Node.block n.origin.ofCopy (.rule s) ns).stamp = n.stamp := by
  match n, h with
  | .block o (.rule _) ms, _ => rfl

theorem nodes_setSelector (s : Text) (n : Node) : (n.setSelector s).nodes = n.nodes := by
  cases n with
  | block o h ms => cases h <;> rfl
  | declaration o d => rfl
  | leaf o => rfl

theorem isRule_setSelector (s : Text) (n : Node) : (n.setSelector s).isRule = n.isRule := by
  cases n with
  | block o h ms => cases h <;> rfl
  | declaration o d => rfl
  | leaf o => rfl

theorem isRule_append (ms : List Node) (n : Node) : (n.append ms).isRule = n.isRule := by
  rw [append_eq_setNodes, isRule_setNodes]

end Node

/-- Every node of the trees `ms` has the stamp of a node of the trees `ns`. -/
def Traces (ns ms : List Node) : Prop := ∀ m ∈ walkAll ms, ∃ k ∈ walkAll ns, k.stamp = m.stamp

namespace Traces

variable {ns ms ms' : List Node} {n : Node}

theorem refl (ns : List Node) : Traces ns ns := fun m hm => ⟨m, hm, rfl⟩

theorem nil (ns : List Node) : Traces ns [] := fun m hm => by cases hm

theorem trans (h : Traces ns ms) (h' : Traces ms ms') : Traces ns ms' := by
  intro m hm
  obtain ⟨k, hk, hkm⟩ := h' m hm
  obtain ⟨j, hj, hjk⟩ := h k hk
  exact ⟨j, hj, hjk.trans hkm⟩

theorem iff_forall : Traces ns ms ↔ ∀ m ∈ ms, Traces ns [m] := by
  simp only [Traces, walkAll_eq_flatMap, List.mem_flatMap, List.mem_singleton, exists_eq_left]
  constructor
  · intro h m hm k hk
    exact h k ⟨m, hm, hk⟩
  · rintro h k ⟨m, hm, hk⟩
    exact h m hm k hk

theorem of_mem (h : Traces ns ms) (hn : n ∈ ms) : Traces ns [n] := iff_forall.mp h n hn

theorem mono (h : Traces ns ms) (hsub : ms' ⊆ ms) : Traces ns ms' :=
  iff_forall.mpr fun _ hm => h.of_mem (hsub hm)

theorem append (h : Traces ns ms) (h' : Traces ns ms') : Traces ns (ms ++ ms') := by
  refine iff_forall.mpr fun m hm => ?_
  rcases List.mem_append.mp hm with hm | hm
  · exact h.of_mem hm
  · exact h'.of_mem hm

theorem cons (h : Traces ns [n]) (h' : Traces ns ms) : Traces ns (n :: ms) := h.append h'

/-- A tree is traced if its top and its children are. -/
theorem singleton_iff :
    Traces ns [n] ↔ (∃ k ∈ walkAll ns, k.stamp = n.stamp) ∧ Traces ns n.nodes := by
  have hwalk : walkAll [n] = n :: walkAll n.nodes := by
    rw [walkAll, walkAll, List.append_nil, walk_eq_walkAll]
  rw [Traces, hwalk, List.forall_mem_cons]
  exact Iff.rfl

theorem nodes (h : Traces ns [n]) : Traces ns n.nodes := (singleton_iff.mp h).2

theorem setNodes (h : Traces ns [n]) (hms : Traces ns ms) : Traces ns [n.setNodes ms] := by
  cases n with
  | block o hd ks =>
    refine singleton_iff.mpr ⟨?_, hms⟩
    rw [stamp_setNodes]
    exact (singleton_iff.mp h).1
  | declaration o d => exact h
  | leaf o => exact h

theorem append_nodes (h : Traces ns [n]) (hms : Traces ns ms) : Traces ns [n.append ms] := by
  rw [append_eq_setNodes]
  exact h.setNodes (h.nodes.append hms)

theorem setSelector (h : Traces ns [n]) (s : Text) : Traces ns [n.setSelector s] := by
  refine singleton_iff.mpr ⟨?_, ?_⟩
  · rw [stamp_setSelector]
    exact (singleton_iff.mp h).1
  · rw [nodes_setSelector]
    exact h.nodes

theorem copyAll (h : Traces ns ms) : Traces ns (copyAll ms) := by
  intro m hm
  rw [walkAll_copyAll] at hm
  obtain ⟨k, hk, rfl⟩ := List.mem_map.mp hm
  rw [stamp_copy]
  exact h k hk

/-- Content under a header like that of a traced rule. -/
theorem rule (h : Traces ns [n]) (hn : n.isRule = true) (s : Text) (hms : Traces ns ms) :
    Traces ns [.block n.origin.ofCopy (.rule s) ms] := by
  refine singleton_iff.mpr ⟨?_, hms⟩
  rw [stamp_rule hn]
  exact (singleton_iff.mp h).1

theorem updateLast {p : Node → Bool} {g : Node → Node} (h : Traces ns ms)
    (hg : ∀ m, Traces ns [m] → Traces ns [g m]) : Traces ns (updateLast p g ms) :=
  iff_forall.mpr (Idiom.forall_updateLast (iff_forall.mp h) fun m _ hm => hg m hm)

end Traces

/-! ### Nodes from a factory that keeps places -/

section Keeping

variable {f : Factory} (hf : f.keepsSource = true) {p p' : Progress} {reference n : Node}
include hf

theorem newDeclaration_eq {d : Declaration} (href : reference.content? = some d)
    (h : p.newDeclaration f reference d = (some n, p')) :
    n = .declaration reference.origin.ofCopy d := by
  have horigin : f.originFrom? (Factory.declarationTemplate? reference reference) =
      some reference.origin.ofCopy := by
    have hsome : reference.content?.isSome = true := by rw [href]; rfl
    rw [Factory.originFrom?, Factory.declarationTemplate?, if_pos hsome, if_pos hf]
    rfl
  unfold Progress.newDeclaration at h
  split at h
  · cases h
  · simp only [Factory.declaration, horigin] at h
    cases hrefused : f.refusal? .declaration p.declarationCalls with
    | some reason => simp [hrefused] at h
    | none =>
      simp only [hrefused, Prod.mk.injEq, Option.some.injEq] at h
      exact h.1.symm

end Keeping

/-! ### Edits -/

/-- The siblings that can come of `ns` by edits of rules. -/
inductive Edited (ns : List Node) : List Node → Prop where
  | start : Edited ns ns
  | insert {l r : List Node} {n : Node} : Edited ns (l ++ r) → n.isRule = true →
      (∀ m ∈ r.head?, m.isRule = true) → Traces ns [n] → Edited ns (l ++ n :: r)
  | remove {l r : List Node} {n : Node} : Edited ns (l ++ n :: r) → n.isRule = true →
      Edited ns (l ++ r)
  | change {l r : List Node} {n n' : Node} : Edited ns (l ++ n :: r) → n.isRule = true →
      n'.isRule = true → Traces ns [n'] → Edited ns (l ++ n' :: r)

theorem Edited.traces {ns ms : List Node} (h : Edited ns ms) : Traces ns ms := by
  induction h with
  | start => exact Traces.refl ns
  | insert _ _ _ hn ih =>
    exact (ih.mono (by simp)).append (hn.cons (ih.mono (by simp)))
  | remove _ _ ih => exact ih.mono (by simp)
  | change _ _ _ hn ih => exact (ih.mono (by simp)).append (hn.cons (ih.mono (by simp)))

namespace Work

variable {w : Work} {t : Nat} {n : Node} {ns : List Node}

theorem edited_push (h : Edited ns w.nodes) {m : Node} (hm : m.isRule = true)
    (htraces : Traces ns [m]) : Edited ns (w.push m).nodes := by
  rw [nodes_push]
  refine .insert ?_ hm (by simp) htraces
  rwa [List.append_nil]

theorem edited_modify (hd : w.Distinct) (h : Edited ns w.nodes) {g : Node → Node}
    (hget : w.get? t = some n) (hn : n.isRule = true) (hg : (g n).isRule = true)
    (htraces : Traces ns [g n]) : Edited ns (w.modify t g).nodes := by
  obtain ⟨l, r, hbefore, hafter⟩ := hd.nodes_modify hget g
  rw [hbefore] at h
  rw [hafter]
  exact h.change hn hg htraces

theorem edited_remove (hd : w.Distinct) (h : Edited ns w.nodes)
    (hrule : ∀ n, w.get? t = some n → n.isRule = true) : Edited ns (w.remove t).nodes := by
  by_cases hgo : w.stopped = true
  · rwa [remove, if_pos hgo]
  · have hgo : w.stopped = false := eq_false_of_ne_true hgo
    cases hget : w.get? t with
    | none =>
      simp only [remove, hgo, hget]
      exact h
    | some n =>
      obtain ⟨l, r, hbefore, hafter⟩ := hd.nodes_remove hgo hget
      rw [hbefore] at h
      rw [hafter]
      exact h.remove (hrule n hget)

theorem edited_insertBefore (hd : w.Distinct) (h : Edited ns w.nodes)
    (hget : w.get? t = some n) (hn : n.isRule = true) {m : Node} (hm : m.isRule = true)
    (htraces : Traces ns [m]) : Edited ns (w.insertBefore t m).nodes := by
  by_cases hgo : w.stopped = true
  · rwa [insertBefore, if_pos hgo]
  · obtain ⟨l, r, hbefore, hafter⟩ := hd.nodes_insertBefore (eq_false_of_ne_true hgo) hget m
    rw [hbefore] at h
    rw [hafter]
    refine h.insert hm ?_ htraces
    rintro _ ⟨⟩
    exact hn

/-- The children with a ticket of `ts` are rules. -/
def Rules (ts : List Nat) (w : Work) : Prop :=
  ∀ s ∈ w.slots, ∀ t ∈ ts, s.has t = true → s.node.isRule = true

variable {ts : List Nat}

theorem Rules.get? (h : w.Rules ts) (ht : t ∈ ts) (hget : w.get? t = some n) :
    n.isRule = true := by
  obtain ⟨s, hs, hst, rfl⟩ := exists_of_get? hget
  exact h s hs t ht hst

theorem Rules.insertBefore (h : w.Rules ts) (t : Nat) (m : Node) :
    (w.insertBefore t m).Rules ts := by
  unfold Work.insertBefore
  split
  · exact h
  · split
    · intro r hr k hk hrk
      obtain ⟨s, hs, hr⟩ := List.mem_flatMap.mp hr
      split at hr
      · rcases List.mem_pair.mp hr with rfl | rfl
        · cases hrk
        · exact h r hs k hk hrk
      · rw [List.mem_singleton.mp hr] at hrk ⊢
        exact h s hs k hk hrk
    · exact h

theorem Rules.remove (h : w.Rules ts) (t : Nat) : (w.remove t).Rules ts := by
  unfold Work.remove
  split
  · exact h
  · split
    · exact fun s hs => h s (List.mem_of_mem_filter hs)
    · exact h

theorem Rules.modify (h : w.Rules ts) (t : Nat) {g : Node → Node}
    (hg : ∀ n, (g n).isRule = n.isRule) : (w.modify t g).Rules ts := by
  intro r hr k hk hrk
  obtain ⟨s, hs, rfl⟩ := List.mem_map.mp hr
  by_cases hst : s.has t = true
  · rw [if_pos hst] at hrk ⊢
    exact (hg s.node).trans (h s hs k hk hrk)
  · rw [if_neg hst] at hrk ⊢
    exact h s hs k hk hrk

end Work

/-! ### The passes edit -/

section Descendants

open Descendants

variable {f : Factory} (hf : f.keepsSource = true) {ns : List Node} {w : Work} {waiting : List Nat}
  {rule : Node} {parent child : Text}

theorem edited_updateParent {g : Node → Node} (h : Edited ns w.nodes)
    (hrule : ∀ n, n.isRule = true → (g n).isRule = true)
    (htraces : ∀ n, Traces ns [n] → Traces ns [g n]) :
    Edited ns (updateParent waiting parent g w).nodes := by
  rcases none_or_last (isParent waiting parent) w.slots with hnone | ⟨l, s, r, hslots, hs, hr⟩
  · rw [updateParent, updateLast, updateLast?_eq_none hnone]
    exact h
  · have hlast : LastParent waiting parent w l s r := ⟨hslots, hs, hr⟩
    obtain ⟨o, ms, hnode⟩ := hlast.selector
    have hs : s.node.isRule = true := by rw [hnode]; rfl
    rw [Work.nodes_of_slots (hlast.updateParent g)]
    rw [Work.nodes_of_slots hslots] at h
    exact h.change hs (hrule _ hs) (htraces _ (h.traces.of_mem (by simp)))

theorem edited_fill (htraces : Traces ns [rule]) (h : Edited ns w.nodes) :
    Edited ns (fill waiting rule parent child w).nodes := by
  unfold fill
  split
  · exact h
  · have hfilled : Edited ns (updateParent waiting parent (filled rule child) w).nodes := by
      refine edited_updateParent h (fun n hn => (isRule_setNodes _ n).trans hn) fun n hn => ?_
      exact hn.setNodes (hn.nodes.updateLast fun m hm => hm.append_nodes htraces.nodes.copyAll)
    exact hfilled

include hf

theorem edited_ensureParent (hrule : rule.isRule = true) (htraces : Traces ns [rule])
    (h : Edited ns w.nodes) : Edited ns (ensureParent f waiting rule parent w).nodes := by
  unfold ensureParent
  split
  · exact h
  · split
    · rename_i m p hnew
      rw [newRule_eq hf hrule hnew]
      exact Work.edited_push (w := ⟨w.slots, p⟩) h rfl (htraces.rule hrule _ (Traces.nil ns))
    · exact h

theorem edited_ensureChild (hrule : rule.isRule = true) (htraces : Traces ns [rule])
    (h : Edited ns w.nodes) : Edited ns (ensureChild f waiting rule parent child w).nodes := by
  unfold ensureChild
  split
  · exact h
  · split
    · rename_i m p hnew
      rw [newRule_eq hf hrule hnew]
      refine edited_updateParent (w := ⟨w.slots, p⟩) h (fun n hn => (isRule_append _ n).trans hn) ?_
      exact fun n hn => hn.append_nodes (htraces.rule hrule _ (Traces.nil ns))
    · exact h

theorem edited_place (hrule : rule.isRule = true) (htraces : Traces ns [rule])
    (h : Edited ns w.nodes) (split : Text × Text) :
    Edited ns (place f waiting rule w split).nodes :=
  edited_fill htraces
    (edited_ensureChild hf hrule htraces (edited_ensureParent hf hrule htraces h))

theorem edited_splitRule {t : Nat} (ht : t ∈ waiting) (hd : w.Distinct)
    (hpresent : Present waiting w) (h : Edited ns w.nodes) :
    Edited ns (splitRule f waiting t w).nodes := by
  obtain ⟨rule, hget, hrule⟩ := hpresent t ht
  have htraces : Traces ns [rule] := h.traces.of_mem (Work.mem_nodes_of_get? hget)
  have hframe : Frame waiting w _ :=
    foldl_place_frame f rule ((Selector.distinct rule.parts).filterMap Selector.splitDescendant?)
  have hplaced := List.foldlRecOn (motive := fun w => Edited ns w.nodes)
    ((Selector.distinct rule.parts).filterMap Selector.splitDescendant?) (place f waiting rule) h
    fun w' hw' split _ => edited_place hf hrule htraces hw' split
  -- the rule itself waits, so it is still there and takes no content meanwhile
  have hfound := (hframe.kept t ht).trans hget
  simp only [splitRule, hget]
  split
  · exact h
  · split
    · exact hplaced
    · split
      · refine Work.edited_remove (hframe.distinct hd) hplaced fun n hn => ?_
        rw [hfound] at hn
        cases hn
        exact hrule
      · refine Work.edited_modify (hframe.distinct hd) hplaced hfound hrule ?_ ?_
        · rwa [isRule_setSelector]
        · exact htraces.setSelector _

theorem edited_splitAll (hd : w.Distinct) (hnodup : waiting.Nodup) (hpresent : Present waiting w)
    (h : Edited ns w.nodes) : Edited ns (splitAll f waiting w).nodes := by
  induction waiting generalizing w with
  | nil => exact h
  | cons t later ih =>
    obtain ⟨hlater, hnodup⟩ := List.nodup_cons.mp hnodup
    apply ih (splitRule_frame f hd).1 hnodup (hpresent.after_splitRule f hd hlater)
    exact edited_splitRule hf (by simp) hd hpresent h

theorem Descendants.edited_level (p : Progress) (ns : List Node) :
    Edited ns (Descendants.level f p ns).1 := by
  apply edited_splitAll hf (Work.distinct_start p ns) (nodup_splitTickets p ns)
    (present_splitTickets p ns)
  rw [Work.nodes_start]
  exact .start

end Descendants

section Collapse

open Collapse

variable {f : Factory} (hf : f.keepsSource = true) {ns : List Node} {w : Work}

theorem edited_removeAll {ts : List Nat} (hd : w.Distinct) (hrules : w.Rules ts)
    (h : Edited ns w.nodes) : Edited ns (ts.foldl Work.remove w).nodes := by
  have hall := List.foldlRecOn
    (motive := fun w => w.Distinct ∧ w.Rules ts ∧ Edited ns w.nodes) ts Work.remove
    ⟨hd, hrules, h⟩ ?_
  · exact hall.2.2
  · rintro w' ⟨hd', hrules', h'⟩ t ht
    exact ⟨hd'.remove t, hrules'.remove t, Work.edited_remove hd' h' fun n => hrules'.get? ht⟩

theorem Class.rules {members : List Slot} (hd : w.Distinct) (hc : Class w.slots members) :
    w.Rules (members.filterMap (·.ticket)) := by
  intro s hs t ht hst
  obtain ⟨s', hs', ht'⟩ := List.mem_filterMap.mp ht
  rw [hd.eq_of_has hs (hc.present s' hs') hst (Slot.has_iff.mpr ht')]
  exact hc.isRule s' hs'

include hf

theorem edited_merge {members : List Slot} (hd : w.Distinct) (hc : Class w.slots members)
    (h : Edited ns w.nodes) : Edited ns (merge f w members).nodes := by
  have hrules := Class.rules hd hc
  unfold merge
  split
  · rename_i t first second rest
    have hfirst : (⟨some t, first⟩ : Slot) ∈ ⟨some t, first⟩ :: second :: rest := by simp
    have hrule : first.isRule = true := hc.isRule _ hfirst
    have hget : w.get? t = some first := hd.get?_eq (hc.present _ hfirst) (by simp [Slot.has])
    have htraces : Traces ns [first] := h.traces.of_mem (Work.mem_nodes_of_get? hget)
    simp only
    split
    · exact h
    · rename_i m p hnew
      rw [newRule_eq hf hrule hnew]
      have hinserted := Work.edited_insertBefore (w := ⟨w.slots, p⟩) hd h hget hrule rfl
        (htraces.rule hrule (jointSelector ((⟨some t, first⟩ :: second :: rest).map (·.node)))
          htraces.nodes.copyAll)
      have hreplaced := edited_removeAll
        (by rw [Work.Distinct, Work.tickets_insertBefore]; exact hd)
        (Work.Rules.insertBefore (w := ⟨w.slots, p⟩) hrules t _) hinserted
      split
      · exact hreplaced
      · exact hreplaced
  · exact h

theorem Collapse.edited_levelUnder (h : Header) (p : Progress) (ns : List Node) :
    Edited ns (levelUnder f h p ns).1 :=
  levelUnder_preserves f (fun _ _ hd hc hw => edited_merge hf hd hc hw) h p .start

end Collapse

section Factoring

open Factoring

variable {f : Factory} (hf : f.keepsSource = true) {ns : List Node} {w : Work}

theorem edited_strip {ts : List Nat} {t : Nat} (ht : t ∈ ts) (ds : List Declaration)
    (hd : w.Distinct) (hrules : w.Rules ts) (h : Edited ns w.nodes) :
    Edited ns (strip ds w t).nodes := by
  unfold strip
  split
  · exact h
  · split
    · exact h
    · rename_i n hget
      have hrule : n.isRule = true := hrules.get? ht hget
      have htraces : Traces ns [n] := h.traces.of_mem (Work.mem_nodes_of_get? hget)
      refine Work.edited_modify (g := stripped ds) hd h hget hrule ?_ (htraces.setNodes ?_)
      · exact (isRule_setNodes _ n).trans hrule
      · exact htraces.nodes.mono List.filter_sublist.subset

theorem strip_frame {ts : List Nat} (ds : List Declaration) (t : Nat) (hd : w.Distinct)
    (hrules : w.Rules ts) : (strip ds w t).Distinct ∧ (strip ds w t).Rules ts := by
  unfold strip
  split
  · exact ⟨hd, hrules⟩
  · split
    · exact ⟨hd, hrules⟩
    · exact ⟨hd.modify t (stripped ds),
        hrules.modify (g := stripped ds) t fun n => isRule_setNodes _ n⟩

theorem edited_stripAll {ts : List Nat} (ds : List Declaration) (hd : w.Distinct)
    (hrules : w.Rules ts) (h : Edited ns w.nodes) :
    Edited ns (ts.foldl (strip ds) w).nodes := by
  have hall := List.foldlRecOn
    (motive := fun w => w.Distinct ∧ w.Rules ts ∧ Edited ns w.nodes) ts (strip ds)
    ⟨hd, hrules, h⟩ ?_
  · exact hall.2.2
  · rintro w' ⟨hd', hrules', h'⟩ t ht
    obtain ⟨hd'', hrules''⟩ := strip_frame ds t hd' hrules'
    exact ⟨hd'', hrules'', edited_strip ht ds hd' hrules' h'⟩

include hf

theorem traces_drafts {first : Node} (h : Traces ns first.nodes) (ds : List Declaration)
    (p : Progress) : Traces ns (drafts f first p ds).1 := by
  induction ds generalizing p with
  | nil => exact Traces.nil ns
  | cons d ds ih =>
    rw [drafts]
    split
    · exact Traces.nil ns
    · cases href : first.nodes.find? (·.content? == some d) with
      | none => exact Traces.nil ns
      | some reference =>
        have hcontent : reference.content? = some d := by simpa using List.find?_some href
        rcases hnew : p.newDeclaration f reference d with ⟨_ | m, p'⟩
        · simp only [hnew]
          exact Traces.nil ns
        · simp only [hnew]
          rw [newDeclaration_eq hf hcontent hnew]
          -- the new declaration stands where the first one with its content stood
          refine Traces.cons ?_ (ih p')
          have hreference := h.of_mem (List.mem_of_find?_eq_some href)
          cases reference with
          | declaration o d' =>
            cases hcontent
            exact hreference.copyAll
          | block o h ns => cases hcontent
          | leaf o => cases hcontent

theorem edited_factorGroup (tickets : List Nat) (g : SharingGroup) (hd : w.Distinct)
    (hholds : ∀ t ∈ memberTickets tickets g, Holds w g.declarations t) (h : Edited ns w.nodes) :
    Edited ns (factorGroup f tickets w g).nodes := by
  have hrules : w.Rules (memberTickets tickets g) := by
    intro s hs t ht hst
    obtain ⟨n, hn, hrule, -⟩ := hholds t ht
    rwa [hd.node_eq hn hs hst]
  rw [memberTickets] at hholds hrules
  unfold factorGroup
  generalize g.members.filterMap (tickets[·]?) = members at hholds hrules ⊢
  cases members with
  | nil => exact h
  | cons t rest =>
    obtain ⟨first, hfirst, hrule, -⟩ := hholds t (by simp)
    have htraces : Traces ns [first] := h.traces.of_mem (Work.mem_nodes_of_get? hfirst)
    simp only [hfirst]
    split
    · exact h
    · rename_i m p hnew
      rw [newRule_eq hf hrule hnew]
      have hinserted := Work.edited_insertBefore
        (w := ⟨w.slots, (drafts f first p g.declarations).2⟩) hd h hfirst hrule rfl
        (htraces.rule hrule (Collapse.jointSelector ((t :: rest).filterMap w.get?))
          (traces_drafts hf htraces.nodes g.declarations p))
      have hmoved := edited_stripAll g.declarations
        (by rw [Work.Distinct, Work.tickets_insertBefore]; exact hd)
        (Work.Rules.insertBefore (w := ⟨w.slots, (drafts f first p g.declarations).2⟩) hrules t _)
        hinserted
      split
      · exact hmoved
      · exact hmoved

theorem Factoring.edited_factorSiblings (p : Progress) (ns : List Node) :
    Edited ns (factorSiblings f p ns).1 :=
  factorSiblings_preserves f
    (fun tickets _ g hd hholds hw => edited_factorGroup hf tickets g hd hholds hw) p .start

end Factoring

section Pseudos

open Pseudos

variable {f : Factory} (hf : f.keepsSource = true) {ns : List Node} {w : Work}
  {cs : List Candidate} {b c : Candidate}
include hf

theorem edited_absorb (htracked : Tracked cs w) (hb : b ∈ cs) (hc : c ∈ cs) (part : Text)
    (h : Edited ns w.nodes) : Edited ns (absorb f b.ticket part w c).nodes := by
  unfold absorb
  split
  · exact h
  · rename_i hguard
    simp only [Bool.or_eq_true, beq_iff_eq, not_or] at hguard
    have hne : c.ticket ≠ b.ticket := hguard.1.2
    split
    · rename_i base moved hbase hmoved
      obtain ⟨hbrule, -⟩ := htracked.known b hb base hbase
      obtain ⟨hcrule, -⟩ := htracked.known c hc moved hmoved
      have hbtraces : Traces ns [base] := h.traces.of_mem (Work.mem_nodes_of_get? hbase)
      have hctraces : Traces ns [moved] := h.traces.of_mem (Work.mem_nodes_of_get? hmoved)
      simp only
      split
      · exact h
      · rename_i m p hnew
        rw [newRule_eq hf hcrule hnew]
        refine Work.edited_remove (htracked.distinct.modify _ _) ?_ fun n hn => ?_
        · refine Work.edited_modify (w := ⟨w.slots, p⟩) htracked.distinct h hbase hbrule ?_ ?_
          · rwa [isRule_append]
          · exact hbtraces.append_nodes (hctraces.rule hcrule _ hctraces.nodes.copyAll)
        · have hsame : w.get? c.ticket = some n := (Work.get?_modify_ne hne).symm.trans hn
          exact (htracked.known c hc n hsame).1
    · exact h

theorem Pseudos.edited_level (p : Progress) (ns : List Node) :
    Edited ns (Pseudos.level f p ns).1 :=
  level_preserves f
    (fun _ _ _ _ part htracked hb hc _ hw => edited_absorb hf htracked hb hc part hw) p .start

end Pseudos

/-! ### Whole trees -/

/-- A relation between siblings before and after some work that allows edits, and that
    work further down does not disturb. -/
structure Stable (R : List Node → List Node → Prop) : Prop where
  edited : ∀ {ns ms : List Node}, Edited ns ms → R ns ms
  trans : ∀ {ns ms ks : List Node}, R ns ms → R ms ks → R ns ks
  inside : ∀ {l r : List Node} {n : Node} {ms : List Node}, n.isStyleBlock = true →
    R n.nodes ms → R (l ++ n :: r) (l ++ n.setNodes ms :: r)

/-- A step on trees changes nothing but the children, and these as the relation allows. -/
def Reworks (R : List Node → List Node → Prop) (step : Step) : Prop :=
  ∀ p n, (step p n).1 = n.setNodes (step p n).1.nodes ∧ R n.nodes (step p n).1.nodes

theorem isRule_of_isEmptyRule {n : Node} (h : n.isEmptyRule = true) : n.isRule = true := by
  match n, h with
  | .block o (.rule s) [], _ => rfl

namespace Stable

variable {R : List Node → List Node → Prop} (hR : Stable R)
include hR

theorem refl (ns : List Node) : R ns ns := hR.edited .start

theorem reworks_nothing (p : Progress) (n : Node) :
    (n, p).1 = n.setNodes (n, p).1.nodes ∧ R n.nodes (n, p).1.nodes :=
  ⟨by cases n <;> rfl, hR.refl n.nodes⟩

theorem visitAll {step : Step} (hstep : Reworks R step) (p : Progress) (l ns : List Node) :
    R (l ++ ns) (l ++ (visitAll (enter step) p ns).1) := by
  induction ns generalizing l p with
  | nil => exact hR.refl _
  | cons n ns ih =>
    have hfirst : R (l ++ n :: ns) (l ++ (enter step p n).1 :: ns) := by
      unfold enter
      split
      · rename_i hentered
        rw [Bool.and_eq_true] at hentered
        rw [(hstep p n).1]
        exact hR.inside hentered.1 (hstep p n).2
      · exact hR.refl _
    -- what was visited already stands in front of what is still to come
    have hrest := ih (enter step p n).2 (l ++ [(enter step p n).1])
    rw [List.append_assoc, List.append_assoc] at hrest
    exact hR.trans hfirst hrest

theorem topDown {level : Header → Progress → List Node → List Node × Progress}
    (hlevel : ∀ h p ns, R ns (level h p ns).1) (fuel : Nat) : Reworks R (topDown level fuel) := by
  induction fuel with
  | zero => exact hR.reworks_nothing
  | succ fuel ih =>
    intro p n
    cases n with
    | block o h ns => exact ⟨rfl, hR.trans (hlevel h p ns) (hR.visitAll ih _ [] _)⟩
    | declaration o d => exact hR.reworks_nothing p (.declaration o d)
    | leaf o => exact hR.reworks_nothing p (.leaf o)

theorem unless_stopped {step : Step} (hstep : Reworks R step) :
    Reworks R fun p n => if p.stopped then (n, p) else step p n := by
  intro p n
  beta_reduce
  by_cases hstop : p.stopped = true
  · rw [if_pos hstop]
    exact hR.reworks_nothing p n
  · rw [if_neg hstop]
    exact hstep p n

theorem everywhere {level : Header → Progress → List Node → List Node × Progress}
    (hlevel : ∀ h p ns, R ns (level h p ns).1) (fuel : Node → Nat) :
    Reworks R fun p n => if p.stopped then (n, p) else StyleNesting.topDown level (fuel n) p n := by
  intro p n
  exact hR.unless_stopped (hR.topDown hlevel (fuel n)) p n

mutual
theorem cleanup_inside : ∀ (p : Progress) (n : Node) (l r : List Node),
    R (l ++ n :: r) (l ++ (Cleanup.inside p n).1 :: r)
  | p, .block _ (.rule _) ns, _, _ => hR.inside rfl (cleanup_among p ns [])
  | p, .block _ (.atRule _ _ _) ns, _, _ => hR.inside rfl (cleanup_among p ns [])
  | _, .block _ .sheet _, _, _ => hR.refl _
  | _, .block _ .group _, _, _ => hR.refl _
  | _, .declaration _ _, _, _ => hR.refl _
  | _, .leaf _, _, _ => hR.refl _
theorem cleanup_among : ∀ (p : Progress) (ns l : List Node),
    R (l ++ ns) (l ++ (Cleanup.among p ns).1)
  | _, [], _ => hR.refl _
  | p, n :: ns, l => by
    have hfirst := cleanup_inside p n l ns
    rw [Cleanup.among]
    simp only
    split
    · rename_i hempty
      have hremoved : R (l ++ (Cleanup.inside p n).1 :: ns) (l ++ ns) :=
        hR.edited (.remove .start (isRule_of_isEmptyRule hempty))
      exact hR.trans hfirst (hR.trans hremoved (cleanup_among _ ns l))
    · have hrest := cleanup_among (Cleanup.inside p n).2 ns (l ++ [(Cleanup.inside p n).1])
      rw [List.append_assoc, List.append_assoc] at hrest
      exact hR.trans hfirst hrest
end

theorem removeEmptyRules : Reworks R removeEmptyRules := by
  intro p n
  cases n with
  | block o h ns =>
    rw [removeEmptyRules_block]
    refine ⟨rfl, ?_⟩
    by_cases hstop : p.stopped = true
    · rw [if_pos hstop]
      exact hR.refl ns
    · rw [if_neg hstop]
      exact hR.cleanup_among p ns []
  | declaration o d => exact hR.reworks_nothing p (.declaration o d)
  | leaf o => exact hR.reworks_nothing p (.leaf o)

variable {f : Factory} (hf : f.keepsSource = true)
include hf

theorem factoring_level (p : Progress) (ns : List Node) : R ns (Factoring.level f p ns).1 := by
  have hfactored := hR.edited (Factoring.edited_factorSiblings hf p ns)
  rw [Factoring.level]
  split
  · exact hR.refl ns
  · simp only
    split
    · exact hfactored
    · exact hR.trans hfactored (hR.cleanup_among _ _ [])

/-- **Every pass reworks trees as the relation allows.** -/
theorem pass (pass : Pass) : Reworks R (pass.run f) := by
  cases pass with
  | descendants =>
    exact hR.everywhere (fun _ p ns => hR.edited (Descendants.edited_level hf p ns)) (2 * ·.height)
  | collapse =>
    intro p n
    cases n with
    | block o h ns =>
      have hlevel := fun hd p ns => hR.edited (Collapse.edited_levelUnder hf hd p ns)
      exact ⟨rfl, hR.visitAll (hR.topDown hlevel (heightAll ns)) p [] ns⟩
    | declaration o d => exact hR.reworks_nothing p (.declaration o d)
    | leaf o => exact hR.reworks_nothing p (.leaf o)
  | factor => exact hR.everywhere (fun _ => hR.factoring_level hf) height
  | pseudos => exact hR.everywhere (fun _ p ns => hR.edited (Pseudos.edited_level hf p ns)) size
  | cleanup => exact hR.removeEmptyRules

theorem runAll (passes : List Pass) : Reworks R (runAll (passes.map (·.transform f))) := by
  induction passes with
  | nil => exact hR.reworks_nothing
  | cons pass passes ih =>
    intro p n
    have hrun : Reworks R (pass.transform f).run :=
      hR.unless_stopped fun p => hR.pass hf pass (p.log (.running pass.transformName))
    obtain ⟨hset, hfirst⟩ := hrun p n
    obtain ⟨hset', hrest⟩ := ih ((pass.transform f).run p n).2 ((pass.transform f).run p n).1
    refine ⟨?_, hR.trans hfirst hrest⟩
    rw [List.map_cons, StyleNesting.runAll]
    simp only
    rw [hset', hset]
    cases n <;> rfl

/-- **A run reworks a stylesheet as the relation allows**, and leaves its top alone. -/
theorem nest (options : Options) (n : Node) :
    (nest options f n).1 = n.setNodes (nest options f n).1.nodes ∧
      R n.nodes (nest options f n).1.nodes := by
  obtain ⟨hset, hpasses⟩ := hR.runAll hf options.passes {} n
  obtain ⟨hset', hclean⟩ := hR.removeEmptyRules
    (StyleNesting.runAll (options.passes.map (·.transform f)) {} n).2
    (StyleNesting.runAll (options.passes.map (·.transform f)) {} n).1
  simp only [StyleNesting.nest, applyTransforms, List.append_nil]
  refine ⟨?_, hR.trans hpasses hclean⟩
  rw [hset', hset]
  cases n <;> rfl

end Stable

/-! ### Where nodes come from -/

theorem stable_traces : Stable Traces := by
  refine ⟨Edited.traces, Traces.trans, ?_⟩
  intro l r n ms _ hms
  have hwhole : Traces (l ++ n :: r) (l ++ n :: r) := Traces.refl _
  have hn : Traces (l ++ n :: r) [n] := hwhole.of_mem (by simp)
  refine (hwhole.mono (by simp)).append ?_
  exact (hn.setNodes (hn.nodes.trans hms)).cons (hwhole.mono (by simp))

/-- **Nothing in a compacted stylesheet is invented.**  The run comes to its end; every
    declaration of the result stands at the place of a declaration of the source that
    says the same, and every rule at the place of a rule. -/
theorem nest_provenance (options : Options) (n : Node) :
    (nest options Factory.clone n).2.failure = none ∧
      ∀ m ∈ (nest options Factory.clone n).1 :: (nest options Factory.clone n).1.walk,
        (∀ d, m.content? = some d → ∃ k ∈ n :: n.walk,
          k.content? = some d ∧ k.origin.source = m.origin.source) ∧
        (m.isRule = true → ∃ k ∈ n :: n.walk,
          k.isRule = true ∧ k.origin.source = m.origin.source) := by
  obtain ⟨hset, htraces⟩ := stable_traces.nest (f := Factory.clone) rfl options n
  refine ⟨failure_nest Factory.clone_obliging options n, fun m hm => ?_⟩
  -- the top keeps its stamp, and below it every node has the stamp of one that was there
  have hstamp : ∃ k ∈ n :: n.walk, k.stamp = m.stamp := by
    rcases List.mem_cons.mp hm with rfl | hbelow
    · refine ⟨n, by simp, ?_⟩
      rw [hset, stamp_setNodes]
    · rw [walk_eq_walkAll] at hbelow
      obtain ⟨k, hk, hkm⟩ := htraces m hbelow
      exact ⟨k, by rw [walk_eq_walkAll]; exact List.mem_cons_of_mem n hk, hkm⟩
  obtain ⟨k, hk, hkm⟩ := hstamp
  simp only [Node.stamp, Prod.mk.injEq] at hkm
  obtain ⟨hsource, hcontent, hrule⟩ := hkm
  exact ⟨fun d hd => ⟨k, hk, hcontent.trans hd, hsource⟩,
    fun hm => ⟨k, hk, hrule.trans hm, hsource⟩⟩

/-- The sheet `a{d:e;c:r}b{c:r}`, in which two rules share a declaration. -/
def sharedSheet : Text :=
  ['a', '{', 'd', ':', 'e', ';', 'c', ':', 'r', '}', 'b', '{', 'c', ':', 'r', '}']

/-- The shared declaration is built anew, at the place of its first occurrence. -/
theorem nest_provenance_sharedSheet :
    ∃ root, Source.parse sharedSheet = .ok root ∧
      .declaration ⟨some ⟨1, 7⟩, none⟩ ⟨['c'], ['r'], false⟩ ∈
        (nest {} Factory.clone root).1 :: (nest {} Factory.clone root).1.walk ∧
      ∃ k ∈ root :: root.walk,
        k.content? = some ⟨['c'], ['r'], false⟩ ∧ k.origin.source = some ⟨1, 7⟩ := by
  have hsheet : ∃ root, Source.parse sharedSheet = .ok root ∧
      .declaration ⟨some ⟨1, 7⟩, none⟩ ⟨['c'], ['r'], false⟩ ∈
        (nest {} Factory.clone root).1 :: (nest {} Factory.clone root).1.walk :=
    ⟨_, rfl, by decide +kernel⟩
  obtain ⟨root, hparse, hmem⟩ := hsheet
  exact ⟨root, hparse, hmem, ((nest_provenance {} root).2 _ hmem).1 _ rfl⟩

end StyleNesting
