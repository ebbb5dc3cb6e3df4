/-
  StyleNesting/Proofs/Factored.lean
  =================================
  **What factoring makes of some siblings.**  Every sibling stays where it is, and
  a rule loses the declarations that other rules hold too.  What a set of rules
  shares goes into one new rule, in front of the first of them; where several new
  rules stand in front of the same rule, they are in the order of their sets
  (`factorSiblings_layout`).

  Groups are moved one after another.  What has become of a sibling is told by the
  groups that were moved so far: those that it leads have left a rule in front of
  it, and those that it is a member of have taken their declarations
  (`placeOf`).  Moving a group adds it to this list and nothing else (`Moved.step`),
  whatever sets overlap, because a group asks its members for their tickets and
  for their parts only, and both stay.
-/
import StyleNesting.Proofs.Sharing

namespace StyleNesting

open Node Sharing

namespace Factoring

/-! ### The layout -/

/-- Children with new rules in front of the rules among them, and with the rules themselves
    changed.  Rules are counted from `k`. -/
def fronted (fronts : Nat → List Node) (change : Node → Node) (k : Nat) : List Node → List Node
  | [] => []
  | n :: ns =>
    if n.isRule then fronts k ++ change n :: fronted fronts change (k + 1) ns
    else n :: fronted fronts change k ns

/-- A rule without the declarations that two or more of the rules hold. -/
def unshared (rules : List Node) (n : Node) : Node :=
  n.setNodes (n.nodes.filter fun m =>
    !m.content?.any fun d => 2 ≤ rules.countP fun r => d ∈ r.declarations)

/-- The node `n` is a rule for what just the rules at the positions `members` share: it has the
    parts of all of them, and each of these declarations once, in the order of their first
    occurrence. -/
structure StandsFor (rules : List Node) (members : List Nat) (n : Node) : Prop where
  selector : n.selector? = some (Selector.joined ((members.filterMap (rules[·]?)).flatMap parts))
  content : ∃ ds : List Declaration, n.nodes.map content? = ds.map some ∧
    (∀ d, d ∈ ds ↔ HeldBy rules d members) ∧
    ds.Pairwise fun d d' => (declared rules).idxOf d < (declared rules).idxOf d'

/-- A new rule and the positions of the rules it stands for. -/
structure Front where
  members : List Nat
  rule : Node

/-- The new rules in front of the rule at position `k`: one for each set of two or more rules that
    are all the holders of some declaration and of which this is the first, in lexicographic
    order. -/
structure Fronts (rules : List Node) (k : Nat) (fronts : List Front) : Prop where
  ordered : fronts.Pairwise fun a b => List.Lex (· < ·) a.members b.members
  complete : ∀ members, (∃ a ∈ fronts, a.members = members) ↔
    members.head? = some k ∧ 2 ≤ members.length ∧ ∃ d, HeldBy rules d members
  standsFor : ∀ a ∈ fronts, StandsFor rules a.members a.rule

/-! ### Positions and tickets -/

section Tickets

variable {p : Progress} {ns : List Node} {g : SharingGroup} {i t : Nat} {s : Slot}

theorem nodup_ruleTickets (p : Progress) (ns : List Node) :
    (Work.start p ns).ruleTickets.Nodup :=
  (Work.distinct_start p ns).sublist (List.filter_sublist.filterMap _)

/-- A position with a rule has a ticket. -/
theorem exists_ticket (hi : ∃ r, (ns.filter isRule)[i]? = some r) (p : Progress) :
    ∃ t, (Work.start p ns).ruleTickets[i]? = some t := by
  obtain ⟨r, hr⟩ := hi
  rw [← bind_ruleTickets p ns i] at hr
  obtain ⟨t, ht, -⟩ := Option.bind_eq_some_iff.mp hr
  exact ⟨t, ht⟩

theorem exists_rule_of_mem_members (hg : g ∈ sharingGroups (ns.filter isRule))
    (hi : i ∈ g.members) : ∃ r, (ns.filter isRule)[i]? = some r := by
  obtain ⟨-, d, hd⟩ := exists_group_iff.mp ⟨g, hg, rfl⟩
  obtain ⟨r, hr, -⟩ := (hd.2 i).mp hi
  exact ⟨r, hr⟩

theorem eq_of_ruleTickets {j : Nat} (hi : (Work.start p ns).ruleTickets[i]? = some t)
    (hj : (Work.start p ns).ruleTickets[j]? = some t) : i = j := by
  have hlt := (List.getElem?_eq_some_iff.mp hi).1
  exact (List.getElem?_inj hlt (nodup_ruleTickets p ns)).mp (hi.trans hj.symm)

/-- The sibling with the ticket of the rule at position `i` is a member if `i` is. -/
theorem any_memberTickets_iff (hi : (Work.start p ns).ruleTickets[i]? = some t)
    (hs : s.ticket = some t) :
    (memberTickets (Work.start p ns).ruleTickets g).any s.has = true ↔ i ∈ g.members := by
  rw [List.any_eq_true]
  constructor
  · rintro ⟨k, hk, hsk⟩
    obtain ⟨j, hj, hjk⟩ := List.mem_filterMap.mp hk
    obtain rfl : t = k := Option.some.inj (hs.symm.trans (Slot.has_iff.mp hsk))
    rwa [eq_of_ruleTickets hi hjk]
  · intro hmem
    exact ⟨t, List.mem_filterMap.mpr ⟨i, hmem, hi⟩, Slot.has_iff.mpr hs⟩

/-- Whether a sibling is the first member of a group. -/
def leads (tickets : List Nat) (g : SharingGroup) (s : Slot) : Bool :=
  (memberTickets tickets g).head?.any s.has

theorem leads_iff (hg : g ∈ sharingGroups (ns.filter isRule))
    (hi : (Work.start p ns).ruleTickets[i]? = some t) (hs : s.ticket = some t) :
    leads (Work.start p ns).ruleTickets g s = true ↔ g.members.head? = some i := by
  have hlength := two_le_length_members hg
  cases hmembers : g.members with
  | nil => simp [hmembers] at hlength
  | cons j rest =>
    obtain ⟨k, hk⟩ := exists_ticket (exists_rule_of_mem_members hg (i := j) (by simp [hmembers])) p
    rw [leads, memberTickets, hmembers, List.filterMap_cons_some hk, List.head?_cons,
      List.head?_cons, Option.any_some, Slot.has_iff, hs, Option.some.injEq, Option.some.injEq]
    constructor
    · rintro rfl
      exact eq_of_ruleTickets hk hi
    · rintro rfl
      exact Option.some.inj (hi.symm.trans hk)

end Tickets

/-! ### One group after the other -/

section Moving

variable {tickets : List Nat} {made : List (SharingGroup × Node)} {s : Slot}

/-- The declarations that the groups moved so far have taken from a sibling. -/
def taken (tickets : List Nat) (made : List (SharingGroup × Node)) (s : Slot) :
    List Declaration :=
  (made.filter fun x => (memberTickets tickets x.1).any s.has).flatMap (·.1.declarations)

/-- What stands in the place of a sibling, with the groups that were moved so far and the rules
    made for them. -/
def placeOf (tickets : List Nat) (made : List (SharingGroup × Node)) (s : Slot) : List Slot :=
  (made.filter fun x => leads tickets x.1 s).map (fun x => ⟨none, x.2⟩) ++
    [{ s with node := stripped (taken tickets made s) s.node }]

theorem any_of_leads {g : SharingGroup} (h : leads tickets g s = true) :
    (memberTickets tickets g).any s.has = true := by
  rw [leads, Option.any_eq_true] at h
  obtain ⟨t, ht, hst⟩ := h
  exact List.any_eq_true.mpr ⟨t, List.mem_of_mem_head? ht, hst⟩

theorem stripped_nil (n : Node) : stripped [] n = n := by
  have hnone : ∀ m : Node, isOneOf [] m = false := by
    intro m
    unfold isOneOf
    cases m.content? <;> rfl
  cases n <;> simp [stripped, setNodes, nodes, hnone]

theorem stripped_append (ds ds' : List Declaration) (n : Node) :
    stripped ds' (stripped ds n) = stripped (ds ++ ds') n := by
  have hone : ∀ m : Node, isOneOf (ds ++ ds') m = (isOneOf ds m || isOneOf ds' m) := by
    intro m
    unfold isOneOf
    cases m.content? <;> simp
  cases n <;> simp [stripped, setNodes, nodes, List.filter_filter, hone, Bool.and_comm]

/-- A sibling that is in no group stays as it is. -/
theorem placeOf_of_no_group (h : ∀ g, (memberTickets tickets g).any s.has = false) :
    placeOf tickets made s = [s] := by
  have hleads : ∀ g, leads tickets g s = false := by
    intro g
    apply eq_false_of_ne_true
    intro hlead
    have hmember := any_of_leads hlead
    rw [h g] at hmember
    cases hmember
  simp [placeOf, taken, h, hleads, stripped_nil]

theorem taken_append (g : SharingGroup) (m : Node) :
    taken tickets (made ++ [(g, m)]) s = taken tickets made s ++
      if (memberTickets tickets g).any s.has then g.declarations else [] := by
  rw [taken, List.filter_append, List.flatMap_append, taken]
  by_cases hmember : (memberTickets tickets g).any s.has = true
  · rw [if_pos hmember, List.filter_cons_of_pos (by exact hmember)]
    simp
  · rw [if_neg hmember, List.filter_cons_of_neg (by exact hmember)]
    simp

theorem mark_taken (g : SharingGroup) (m : Node) :
    mark g.declarations (memberTickets tickets g)
        { s with node := stripped (taken tickets made s) s.node } =
      { s with node := stripped (taken tickets (made ++ [(g, m)]) s) s.node } := by
  have hhas : (memberTickets tickets g).any
      (Slot.has · { s with node := stripped (taken tickets made s) s.node }) =
        (memberTickets tickets g).any s.has := rfl
  rw [mark, hhas, taken_append]
  by_cases hmember : (memberTickets tickets g).any s.has = true
  · rw [if_pos hmember, if_pos hmember, stripped_append]
  · rw [if_neg hmember, if_neg hmember, List.append_nil]

/-- Moving a group does to the place of a sibling what it says. -/
theorem placeOf_append (g : SharingGroup) (m : Node) {t : Nat}
    (ht : (memberTickets tickets g).head? = some t) :
    ((placeOf tickets made s).flatMap fun r => if r.has t then [⟨none, m⟩, r] else [r]).map
        (mark g.declarations (memberTickets tickets g)) =
      placeOf tickets (made ++ [(g, m)]) s := by
  have hleads : leads tickets g s = s.has t := by rw [leads, ht, Option.any_some]
  have hnew : ∀ n : Node, mark g.declarations (memberTickets tickets g) ⟨none, n⟩ = ⟨none, n⟩ := by
    intro n
    simp [mark, Slot.has]
  -- the rules that are in front already stay there
  have hfronts : (((made.filter fun x => leads tickets x.1 s).map fun x => Slot.mk none x.2).flatMap
      fun r => if r.has t then [⟨none, m⟩, r] else [r]).map
        (mark g.declarations (memberTickets tickets g)) =
      (made.filter fun x => leads tickets x.1 s).map fun x => Slot.mk none x.2 := by
    rw [List.flatMap_map, List.map_flatMap, List.map_eq_flatMap]
    apply List.flatMap_congr
    intro x _
    simp [Slot.has, hnew]
  have hself : ([{ s with node := stripped (taken tickets made s) s.node }].flatMap
      fun r => if r.has t then [⟨none, m⟩, r] else [r]).map
        (mark g.declarations (memberTickets tickets g)) =
      ([(g, m)].filter fun x => leads tickets x.1 s).map (fun x => Slot.mk none x.2) ++
        [{ s with node := stripped (taken tickets (made ++ [(g, m)]) s) s.node }] := by
    rw [List.flatMap_singleton, ← mark_taken]
    by_cases hfirst : s.has t = true
    · rw [if_pos (by exact hfirst), List.filter_cons_of_pos (by exact hleads.trans hfirst)]
      simp [hnew]
    · rw [if_neg (by exact hfirst), List.filter_cons_of_neg (by rwa [hleads])]
      rfl
  rw [placeOf, List.flatMap_append, List.map_append, hfronts, hself, placeOf, List.filter_append,
    List.map_append, List.append_assoc]

end Moving

/-- A sibling that is no rule is in no group. -/
theorem any_memberTickets_of_not_isRule {p : Progress} {ns : List Node} {s : Slot}
    (hs : s ∈ Slot.number ns) (hother : s.node.isRule = false) (g : SharingGroup) :
    (memberTickets (Work.start p ns).ruleTickets g).any s.has = false := by
  apply List.any_eq_false.mpr
  intro t ht hst
  obtain ⟨i, -, hi⟩ := List.mem_filterMap.mp ht
  obtain ⟨n, hget, hn⟩ := exists_of_ruleTickets hi
  rw [(Work.distinct_start p ns).node_eq hget hs hst,
    (List.mem_filter.mp (List.mem_of_getElem? hn)).2] at hother
  cases hother

/-- The siblings after some groups were moved, with the rules made for them. -/
structure Moved (p : Progress) (ns : List Node) (made : List (SharingGroup × Node)) (w : Work) :
    Prop where
  slots : w.slots = (Slot.number ns).flatMap (placeOf (Work.start p ns).ruleTickets made)
  standsFor : ∀ x ∈ made, StandsFor (ns.filter isRule) x.1.members x.2

section Moved

variable {p : Progress} {ns : List Node} {made : List (SharingGroup × Node)} {w : Work}
  {g : SharingGroup}

theorem moved_start (p : Progress) (ns : List Node) : Moved p ns [] (Work.start p ns) := by
  refine ⟨?_, List.forall_mem_nil _⟩
  have hplace : placeOf (Work.start p ns).ruleTickets [] = fun s => [s] := by
    funext s
    simp [placeOf, taken, stripped_nil]
  rw [hplace, List.flatMap_singleton']
  rfl

/-- A rule still has its parts. -/
theorem Moved.parts_get? (h : Moved p ns made w) (hd : w.Distinct) {i t : Nat}
    (hi : (Work.start p ns).ruleTickets[i]? = some t) :
    (w.get? t).map parts = ((ns.filter isRule)[i]?).map parts := by
  have hrule := bind_ruleTickets p ns i
  rw [hi, Option.bind_some] at hrule
  obtain ⟨n, hn, -⟩ := exists_of_ruleTickets hi
  obtain ⟨s, hs, hst, rfl⟩ := Work.exists_of_get? hn
  have hmem : { s with node := stripped (taken (Work.start p ns).ruleTickets made s) s.node } ∈
      w.slots := by
    rw [h.slots]
    exact List.mem_flatMap.mpr ⟨s, hs, by simp [placeOf]⟩
  rw [← hrule, hn, hd.get?_eq hmem hst, Option.map_some, Option.map_some, stripped, parts_setNodes]

theorem Moved.jointSelector (h : Moved p ns made w) (hd : w.Distinct)
    (hg : g ∈ sharingGroups (ns.filter isRule)) :
    Collapse.jointSelector
        ((memberTickets (Work.start p ns).ruleTickets g).filterMap w.get?) =
      Selector.joined ((g.members.filterMap ((ns.filter isRule)[·]?)).flatMap parts) := by
  rw [Collapse.jointSelector, List.flatMap_def, List.flatMap_def, memberTickets,
    List.filterMap_filterMap, List.map_filterMap, List.map_filterMap]
  congr 2
  apply List.filterMap_congr
  intro i hi
  obtain ⟨t, ht⟩ := exists_ticket (exists_rule_of_mem_members hg hi) p
  rw [ht, Option.bind_some]
  exact h.parts_get? hd ht

/-- **Moving one group** puts a rule for it in front of its first member, takes its declarations
    from its members, and changes nothing else. -/
theorem Moved.step {f : Factory} (hf : f.Obliging) (h : Moved p ns made w) (hd : w.Distinct)
    (hgo : w.stopped = false) (hg : g ∈ sharingGroups (ns.filter isRule))
    (hholds : ∀ t ∈ memberTickets (Work.start p ns).ruleTickets g, Holds w g.declarations t) :
    ∃ m, Moved p ns (made ++ [(g, m)]) (factorGroup f (Work.start p ns).ruleTickets w g) := by
  have htickets : ∀ t ∈ memberTickets (Work.start p ns).ruleTickets g, t ∈ w.tickets :=
    fun t ht => (hholds t ht).mem_tickets
  have hne : memberTickets (Work.start p ns).ruleTickets g ≠ [] := by
    have hlength := two_le_length_members hg
    obtain ⟨i, hi⟩ := List.exists_mem_of_ne_nil _
      (List.ne_nil_of_length_pos (show 0 < g.members.length by omega))
    obtain ⟨t, ht⟩ := exists_ticket (exists_rule_of_mem_members hg hi) p
    exact List.ne_nil_of_mem (List.mem_filterMap.mpr ⟨i, hi, ht⟩)
  rcases factorGroup_slots_head f _ g (rfl : _ = memberTickets _ g) htickets with
    ⟨-, hnone⟩ | ⟨o, p', drafted, t, ht, hgo', hcontent, hslots⟩
  · rcases hnone with hempty | hstopped
    · exact absurd hempty hne
    · rw [factorGroup_goes_on hf _ g hgo hholds] at hstopped
      cases hstopped
  · have hin : t ∈ w.tickets := htickets t (List.mem_of_mem_head? ht)
    have hstarted : Work.stopped ⟨w.slots, p'⟩ = false := hgo'
    refine ⟨.block o (.rule (Collapse.jointSelector
      ((memberTickets (Work.start p ns).ruleTickets g).filterMap w.get?))) drafted, ?_, ?_⟩
    · rw [hslots, (foldl_strip_slots (Work.stopped_insertBefore hstarted hin)
        fun k hk => by rw [Work.tickets_insertBefore]; exact htickets k hk).2,
        Work.slots_insertBefore hstarted hin, h.slots, List.flatMap_assoc, List.map_flatMap]
      apply List.flatMap_congr
      intro s _
      exact placeOf_append g _ ht
    · intro x hx
      rcases List.mem_append.mp hx with hold | hnew
      · exact h.standsFor x hold
      · obtain rfl := List.mem_singleton.mp hnew
        refine ⟨congrArg some (h.jointSelector hd hg), g.declarations, hcontent, ?_,
          pairwise_declarations hg⟩
        intro d
        exact mem_declarations_iff hg

/-- All groups have been moved in the end, each of them once and in order. -/
theorem exists_moved {f : Factory} (hf : f.Obliging) {p : Progress} (hgo : p.stopped = false)
    (ns : List Node) : ∃ made w, made.map (·.1) = sharingGroups (ns.filter isRule) ∧
      Moved p ns made w ∧ factorSiblings f p ns = w.finish := by
  obtain ⟨w, ⟨-, made, hmade, hmoved⟩, hfinish⟩ := factorSiblings_induction f p ns
    (fun gs w => w.stopped = false ∧ ∃ made : List (SharingGroup × Node),
      made.map (·.1) ++ gs = sharingGroups (ns.filter isRule) ∧ Moved p ns made w)
    (fun w g gs hstopped hw => by rw [hw.1] at hstopped; cases hstopped)
    (fun w g gs hd hgo hholds _ hw => by
      obtain ⟨-, made, hmade, hmoved⟩ := hw
      have hg : g ∈ sharingGroups (ns.filter isRule) := by
        rw [← hmade]
        exact List.mem_append_right _ (List.mem_cons_self ..)
      obtain ⟨m, hmoved'⟩ := hmoved.step hf hd hgo hg hholds
      refine ⟨factorGroup_goes_on hf _ g hgo hholds, made ++ [(g, m)], ?_, hmoved'⟩
      rw [List.map_append, List.append_assoc]
      exact hmade)
    ⟨hgo, [], rfl, moved_start p ns⟩
  rw [List.append_nil] at hmade
  exact ⟨made, w, hmade, hmoved, hfinish⟩

end Moved

/-! ### From places to positions -/

/-- Siblings that are replaced one by one, told by the positions of the rules among them. -/
theorem flatMap_numberFrom (tickets : List Nat) {place : Slot → List Node}
    {fronts : Nat → List Node} {change : Node → Node} {k i : Nat} {ns : List Node}
    (hrule : ∀ s ∈ Slot.numberFrom k ns, s.node.isRule = true → ∀ j, tickets[j]? = s.ticket →
      place s = fronts j ++ [change s.node])
    (hother : ∀ s ∈ Slot.numberFrom k ns, s.node.isRule = false → place s = [s.node])
    (hdrop : tickets.drop i =
      ((Slot.numberFrom k ns).filter (·.node.isRule)).filterMap (·.ticket)) :
    (Slot.numberFrom k ns).flatMap place = fronted fronts change i ns := by
  induction ns generalizing k i with
  | nil => rfl
  | cons n ns ih =>
    rw [Slot.numberFrom, List.forall_mem_cons] at hrule hother
    rw [Slot.numberFrom] at hdrop
    rw [Slot.numberFrom, List.flatMap_cons, fronted]
    by_cases hn : n.isRule = true
    · have hcons : tickets.drop i =
          k :: ((Slot.numberFrom (k + 1) ns).filter (·.node.isRule)).filterMap (·.ticket) := by
        rw [hdrop, List.filter_cons_of_pos (by exact hn)]
        rfl
      have hi : tickets[i]? = some k := by rw [← List.head?_drop, hcons, List.head?_cons]
      have hrest : tickets.drop (i + 1) =
          ((Slot.numberFrom (k + 1) ns).filter (·.node.isRule)).filterMap (·.ticket) := by
        rw [← List.tail_drop, hcons, List.tail_cons]
      rw [if_pos hn, hrule.1 hn i hi, ih hrule.2 hother.2 hrest, List.append_assoc]
      rfl
    · rw [List.filter_cons_of_neg (by exact hn)] at hdrop
      rw [if_neg hn, hother.1 (eq_false_of_ne_true hn), ih hrule.2 hother.2 hdrop]
      rfl

section Layout

variable {p : Progress} {ns : List Node} {made : List (SharingGroup × Node)}

/-- The rules made for the groups that the rule at position `k` leads. -/
def frontsAt (made : List (SharingGroup × Node)) (k : Nat) : List Front :=
  (made.filter fun x => x.1.members.head? == some k).map fun x => ⟨x.1.members, x.2⟩

theorem fronts_frontsAt {rules : List Node} (hmade : made.map (·.1) = sharingGroups rules)
    (hstands : ∀ x ∈ made, StandsFor rules x.1.members x.2) (k : Nat) :
    Fronts rules k (frontsAt made k) where
  ordered := by
    have hordered := ordered_sharingGroups rules
    rw [← hmade, List.pairwise_map] at hordered
    rw [frontsAt, List.pairwise_map]
    exact hordered.filter _
  complete members := by
    constructor
    · rintro ⟨a, ha, rfl⟩
      obtain ⟨x, hx, rfl⟩ := List.mem_map.mp ha
      obtain ⟨hx, hhead⟩ := List.mem_filter.mp hx
      have hgroup : x.1 ∈ sharingGroups rules := hmade ▸ List.mem_map_of_mem hx
      exact ⟨beq_iff_eq.mp hhead, exists_group_iff.mp ⟨x.1, hgroup, rfl⟩⟩
    · rintro ⟨hhead, hshared⟩
      obtain ⟨g, hg, rfl⟩ := exists_group_iff.mpr hshared
      rw [← hmade] at hg
      obtain ⟨x, hx, rfl⟩ := List.mem_map.mp hg
      exact ⟨_, List.mem_map.mpr ⟨x, List.mem_filter.mpr ⟨hx, by simpa using hhead⟩, rfl⟩, rfl⟩
  standsFor a ha := by
    obtain ⟨x, hx, rfl⟩ := List.mem_map.mp ha
    exact hstands x (List.mem_of_mem_filter hx)

variable (hmade : made.map (·.1) = sharingGroups (ns.filter isRule)) {s : Slot} {i t : Nat}
  (hi : (Work.start p ns).ruleTickets[i]? = some t) (hs : s.ticket = some t)
include hmade hi hs

theorem filter_leads : (made.filter fun x => leads (Work.start p ns).ruleTickets x.1 s).map (·.2) =
    (frontsAt made i).map Front.rule := by
  rw [frontsAt, List.map_map]
  apply congrArg (List.map _)
  apply List.filter_congr
  intro x hx
  have hgroup : x.1 ∈ sharingGroups (ns.filter isRule) := hmade ▸ List.mem_map_of_mem hx
  rw [Bool.eq_iff_iff, leads_iff hgroup hi hs, beq_iff_eq]

/-- All groups together take from a rule what it shares. -/
theorem stripped_taken (hnode : (ns.filter isRule)[i]? = some s.node) :
    stripped (taken (Work.start p ns).ruleTickets made s) s.node =
      unshared (ns.filter isRule) s.node := by
  have htaken : ∀ d ∈ s.node.declarations, d ∈ taken (Work.start p ns).ruleTickets made s ↔
      2 ≤ (ns.filter isRule).countP fun r => d ∈ r.declarations := by
    intro d hd
    rw [← exists_mem_declarations_iff, taken]
    simp only [List.mem_flatMap, List.mem_filter, any_memberTickets_iff hi hs]
    constructor
    · rintro ⟨x, ⟨hx, -⟩, hdx⟩
      exact ⟨x.1, hmade ▸ List.mem_map_of_mem hx, hdx⟩
    · rintro ⟨g, hg, hdg⟩
      -- the rule holds the declaration, so it is a member of its group
      have hmember : i ∈ g.members := ((heldBy_of_mem_group hg hdg).2 i).mpr ⟨_, hnode, hd⟩
      rw [← hmade] at hg
      obtain ⟨x, hx, rfl⟩ := List.mem_map.mp hg
      exact ⟨x, ⟨hx, hmember⟩, hdg⟩
  rw [stripped, unshared]
  congr 1
  apply List.filter_congr
  intro m hm
  cases hcontent : m.content? with
  | none => simp [isOneOf, hcontent]
  | some d =>
    have hd : d ∈ s.node.declarations := List.mem_filterMap.mpr ⟨m, hm, hcontent⟩
    simp [isOneOf, hcontent, htaken d hd]

end Layout

/-- **What factoring makes of some siblings.**  It comes to its end.  The siblings stay where they
    are; rules lose just the declarations that two or more of them hold.  In front of the rule at
    position `k` stand new rules, one for each set of two or more rules that are all the holders of
    some declaration and of which this is the first; they are in the lexicographic order of these
    sets.  Each has the parts of the rules in its set, and each declaration that just they hold
    once, in the order of first occurrence. -/
theorem factorSiblings_layout {p : Progress} (hgo : p.stopped = false) (ns : List Node) :
    (factorSiblings Factory.clone p ns).2.stopped = false ∧
      ∃ fronts : Nat → List Front, (∀ k, Fronts (ns.filter isRule) k (fronts k)) ∧
        (factorSiblings Factory.clone p ns).1 =
          fronted (fun k => (fronts k).map Front.rule) (unshared (ns.filter isRule)) 0 ns := by
  obtain ⟨made, w, hmade, hmoved, hfinish⟩ := exists_moved Factory.clone_obliging hgo ns
  refine ⟨factorSiblings_goes_on Factory.clone_obliging p ns hgo, frontsAt made,
    fronts_frontsAt hmade hmoved.standsFor, ?_⟩
  rw [hfinish, Work.finish, Work.nodes, hmoved.slots, List.map_flatMap]
  refine flatMap_numberFrom (Work.start p ns).ruleTickets ?_ ?_ rfl
  · intro s hs _ i hi
    obtain ⟨t, ht⟩ := Slot.exists_ticket_of_mem_numberFrom hs
    rw [ht] at hi
    obtain ⟨n, hget, hnode⟩ := exists_of_ruleTickets hi
    obtain rfl := (Work.distinct_start p ns).node_eq hget hs (Slot.has_iff.mpr ht)
    rw [placeOf, List.map_append, List.map_map, ← filter_leads hmade hi ht,
      ← stripped_taken hmade hi ht hnode]
    rfl
  · intro s hs hother
    rw [placeOf_of_no_group (any_memberTickets_of_not_isRule hs hother)]
    rfl

/-- The children `s: t; a {x: y; z: w} b {x: y} @c {} d {z: w; u: v; x: y}`: all three rules hold
    `x: y`, and the outer two hold `z: w`. -/
def overlappingChildren : List Node :=
  [.declaration {} ⟨['s'], ['t'], false⟩,
    .block {} (.rule ['a'])
      [.declaration {} ⟨['x'], ['y'], false⟩, .declaration {} ⟨['z'], ['w'], false⟩],
    .block {} (.rule ['b']) [.declaration {} ⟨['x'], ['y'], false⟩],
    .block {} (.atRule ['c'] [] true) [],
    .block {} (.rule ['d'])
      [.declaration {} ⟨['z'], ['w'], false⟩, .declaration {} ⟨['u'], ['v'], false⟩,
        .declaration {} ⟨['x'], ['y'], false⟩]]

theorem factorSiblings_overlappingChildren :
    Progress.stopped {} = false ∧
      (∃ fronts : Nat → List Front,
        (∀ k, Fronts (overlappingChildren.filter isRule) k (fronts k)) ∧
          (factorSiblings Factory.clone {} overlappingChildren).1 =
            fronted (fun k => (fronts k).map Front.rule)
              (unshared (overlappingChildren.filter isRule)) 0 overlappingChildren) ∧
      (factorSiblings Factory.clone {} overlappingChildren).1.map selector? =
        [none, some "a, b, d".toList, some "a, d".toList, some ['a'], some ['b'], none,
          some ['d']] :=
  ⟨rfl, (factorSiblings_layout rfl overlappingChildren).2, by decide +kernel⟩

end Factoring

end StyleNesting
