/-
  StyleNesting/Proofs/Unshared.lean
  =================================
  **Factoring leaves no declaration in two sibling rules.**  While the groups of
  some siblings are moved one after the other, whatever two rules still share is
  in a group that is yet to be moved, and is held by members of that group only
  (`Factoring.Unfinished`).  So nothing is shared when all groups are done.

  What goes on further down touches no declaration of the siblings, and empties
  no rule that held something: where a first run has removed the empty rules, a
  second one finds none (`Filled`).  With nothing shared and nothing empty there
  is nothing to do, and the second run changes nothing.
-/
import StyleNesting.Proofs.Edits
import StyleNesting.Proofs.Settled

namespace StyleNesting

open Node

/-- No two of some siblings are rules that hold a declaration in common. -/
def Unshared (ns : List Node) : Prop :=
  (ns.filter isRule).Pairwise fun n m => ∀ d ∈ n.declarations, d ∉ m.declarations

/-- What matters of siblings is which of them are rules, and what these declare. -/
def ruled (ns : List Node) : List (Bool × List Declaration) :=
  ns.map fun n => (n.isRule, n.declarations)

theorem unshared_iff {ns : List Node} :
    Unshared ns ↔ (ruled ns).Pairwise fun a b => a.1 = true → b.1 = true → ∀ d ∈ a.2, d ∉ b.2 := by
  rw [Unshared, List.pairwise_filter, ruled, List.pairwise_map]

theorem contents_eq (ns : List Node) :
    ns.filterMap content? = (ns.map content?).filterMap id := by
  rw [List.filterMap_map, Function.id_comp]

/-! ### Cleaning up -/

/-- No rule is empty that is reached from some siblings through rules and at-rules. -/
def Filled (ns : List Node) : Prop :=
  ∀ n ∈ ns, n.isStyleBlock = true → ∀ k, n.Reaches k → k.isEmptyRule = false

theorem filled_iff {ns : List Node} :
    Filled ns ↔ ∀ n ∈ ns, n.isStyleBlock = true → n.isEmptyRule = false ∧ Filled n.nodes := by
  constructor
  · intro h n hn hstyle
    refine ⟨h n hn hstyle n .here, ?_⟩
    intro m hm hmstyle k hk
    exact h n hn hstyle k (.inside hm hmstyle hk)
  · intro h n hn hstyle k hk
    obtain ⟨hempty, hfilled⟩ := h n hn hstyle
    cases hk with
    | here => exact hempty
    | inside hm hmstyle hk => exact hfilled _ hm hmstyle k hk

theorem filled_cons {n : Node} {ns : List Node} :
    Filled (n :: ns) ↔
      (n.isStyleBlock = true → n.isEmptyRule = false ∧ Filled n.nodes) ∧ Filled ns := by
  rw [filled_iff, List.forall_mem_cons, ← filled_iff]

theorem isEmptyRule_iff {n : Node} : n.isEmptyRule = true ↔ n.isRule = true ∧ n.nodes = [] := by
  constructor
  · intro h
    match n, h with
    | .block _ (.rule _) [], _ => exact ⟨rfl, rfl⟩
  · rintro ⟨hrule, hnil⟩
    match n, hrule, hnil with
    | .block _ (.rule _) _, _, rfl => rfl

theorem isEmptyRule_of_declarations {n : Node} {d : Declaration} (hd : d ∈ n.declarations) :
    n.isEmptyRule = false := by
  unfold isEmptyRule
  split
  · cases hd
  · rfl

namespace Cleanup

theorem isStyleBlock_inside (p : Progress) (n : Node) :
    (inside p n).1.isStyleBlock = n.isStyleBlock := by
  unfold inside
  split <;> rfl

theorem isRule_inside (p : Progress) (n : Node) : (inside p n).1.isRule = n.isRule := by
  unfold inside
  split <;> rfl

theorem content_inside (p : Progress) (n : Node) : (inside p n).1.content? = n.content? := by
  unfold inside
  split <;> rfl

mutual
theorem filled_inside : ∀ (p : Progress) (n : Node), n.isStyleBlock = true →
    Filled (inside p n).1.nodes
  | p, .block _ (.rule _) ns, _ => filled_among p ns
  | p, .block _ (.atRule _ _ _) ns, _ => filled_among p ns
theorem filled_among : ∀ (p : Progress) (ns : List Node), Filled (among p ns).1
  | _, [] => by
    intro n hn
    cases hn
  | p, n :: ns => by
    rw [among]
    simp only
    split
    · exact filled_among _ ns
    · rename_i hempty
      refine filled_cons.mpr ⟨fun hstyle => ⟨eq_false_of_ne_true hempty, ?_⟩, filled_among _ ns⟩
      rw [isStyleBlock_inside] at hstyle
      exact filled_inside p n hstyle
end

mutual
theorem inside_eq_self : ∀ (p : Progress) (n : Node), (n.isStyleBlock = true → Filled n.nodes) →
    inside p n = (n, p)
  | p, .block _ (.rule _) ns, h => by rw [inside, among_eq_self p ns (h rfl)]
  | p, .block _ (.atRule _ _ _) ns, h => by rw [inside, among_eq_self p ns (h rfl)]
  | _, .block _ .sheet _, _ => rfl
  | _, .block _ .group _, _ => rfl
  | _, .declaration _ _, _ => rfl
  | _, .leaf _, _ => rfl
theorem among_eq_self : ∀ (p : Progress) (ns : List Node), Filled ns → among p ns = (ns, p)
  | _, [], _ => rfl
  | p, n :: ns, h => by
    obtain ⟨hn, hns⟩ := filled_cons.mp h
    have hempty : n.isEmptyRule = false := by
      cases hstyle : n.isStyleBlock with
      | true => exact (hn hstyle).1
      | false =>
        match n, hstyle with
        | .block _ .sheet _, _ => rfl
        | .block _ .group _, _ => rfl
        | .declaration _ _, _ => rfl
        | .leaf _, _ => rfl
    rw [among, inside_eq_self p n fun hstyle => (hn hstyle).2]
    simp only [hempty, Bool.false_eq_true, if_false]
    rw [among_eq_self p ns hns]
end

theorem contents_among (p : Progress) (ns : List Node) :
    (among p ns).1.filterMap content? = ns.filterMap content? := by
  induction ns generalizing p with
  | nil => rfl
  | cons n ns ih =>
    rw [among]
    simp only
    split
    · rename_i hempty
      have hrule := isRule_of_isEmptyRule hempty
      have hcontent : n.content? = none := by
        rw [← content_inside p n]
        match (inside p n).1, hrule with
        | .block _ (.rule _) _, _ => rfl
      rw [ih, List.filterMap_cons_none hcontent]
    · rw [List.filterMap_cons, List.filterMap_cons, content_inside, ih]

theorem declarations_inside (p : Progress) (n : Node) :
    (inside p n).1.declarations = n.declarations := by
  unfold inside
  split
  · exact contents_among p _
  · exact contents_among p _
  all_goals rfl

/-- What is left after the cleanup are some of the siblings, as far as rules and their
    declarations are concerned. -/
theorem sublist_among (p : Progress) (ns : List Node) :
    (ruled (among p ns).1).Sublist (ruled ns) := by
  induction ns generalizing p with
  | nil => exact List.Sublist.slnil
  | cons n ns ih =>
    rw [among]
    simp only
    split
    · exact (ih _).cons _
    · rw [ruled, List.map_cons, isRule_inside, declarations_inside]
      exact (ih _).cons_cons _

/-- A sibling that holds a declaration stays. -/
theorem exists_mem_among {d : Declaration} (p : Progress) {ns : List Node}
    (h : ∃ n ∈ ns, d ∈ n.declarations) : ∃ n ∈ (among p ns).1, d ∈ n.declarations := by
  induction ns generalizing p with
  | nil =>
    obtain ⟨n, hn, -⟩ := h
    cases hn
  | cons n ns ih =>
    obtain ⟨m, hm, hd⟩ := h
    rw [among]
    simp only
    rcases List.mem_cons.mp hm with rfl | hrest
    · rw [← declarations_inside p] at hd
      rw [if_neg (by simp [isEmptyRule_of_declarations hd])]
      exact ⟨_, by simp, hd⟩
    · split
      · exact ih _ ⟨m, hrest, hd⟩
      · obtain ⟨k, hk, hdk⟩ := ih (inside p n).2 ⟨m, hrest, hd⟩
        exact ⟨k, List.mem_cons_of_mem _ hk, hdk⟩

end Cleanup

/-! ### Groups of shared declarations -/

theorem two_le_countP_iff {α : Type} {p : α → Bool} {l : List α} :
    2 ≤ l.countP p ↔ ∃ a b, [a, b].Sublist l ∧ p a = true ∧ p b = true := by
  constructor
  · intro h
    rw [List.countP_eq_length_filter] at h
    have hsub : (l.filter p).Sublist l := List.filter_sublist
    have hall : ∀ x ∈ l.filter p, p x = true := fun x hx => (List.mem_filter.mp hx).2
    generalize l.filter p = found at h hsub hall
    match found, h with
    | a :: b :: rest, _ =>
      refine ⟨a, b, List.Sublist.trans ?_ hsub, hall a (by simp), hall b (by simp)⟩
      exact ((List.nil_sublist rest).cons_cons b).cons_cons a
  · rintro ⟨a, b, hsub, ha, hb⟩
    have hle := hsub.countP_le (p := p)
    simpa [ha, hb] using hle

theorem Sharing.length_holders (contents : List (List Declaration)) (d : Declaration) :
    (holders contents d).length = contents.countP (·.contains d) := by
  have hfrom : ∀ k, (holdersFrom d k contents).length = contents.countP (·.contains d) := by
    induction contents with
    | nil => exact fun _ => rfl
    | cons ds rest ih =>
      intro k
      rw [holdersFrom, List.countP_cons]
      split
      · rw [List.length_cons, ih]
      · rw [ih, Nat.add_zero]
  exact hfrom 0

theorem two_le_length_holders_iff {rules : List Node} {d : Declaration} :
    2 ≤ (Sharing.holders (rules.map declarations) d).length ↔
      ∃ a b, [a, b].Sublist rules ∧ d ∈ a.declarations ∧ d ∈ b.declarations := by
  rw [Sharing.length_holders, List.countP_map, two_le_countP_iff]
  simp

theorem exists_sharingGroup {rules : List Node} {d : Declaration} {a b : Node}
    (hsub : [a, b].Sublist rules) (ha : d ∈ a.declarations) (hb : d ∈ b.declarations) :
    ∃ g ∈ sharingGroups rules, d ∈ g.declarations := by
  have hflat : d ∈ (rules.map declarations).flatten :=
    List.mem_flatten.mpr ⟨_, List.mem_map_of_mem (hsub.subset (by simp)), ha⟩
  have hshared : (d, Sharing.holders (rules.map declarations) d) ∈
      Sharing.shared (rules.map declarations) := by
    refine List.mem_filter.mpr ⟨List.mem_map.mpr ⟨d, List.mem_eraseDups.mpr hflat, rfl⟩, ?_⟩
    simpa using two_le_length_holders_iff.mpr ⟨a, b, hsub, ha, hb⟩
  refine ⟨_, List.mem_map.mpr ⟨Sharing.holders (rules.map declarations) d, ?_, rfl⟩, ?_⟩
  · rw [Selector.mem_sortBy, List.mem_eraseDups]
    exact List.mem_map_of_mem hshared
  · exact List.mem_map.mpr ⟨_, List.mem_filter.mpr ⟨hshared, by simp⟩, rfl⟩

theorem sharingGroups_of_unshared {ns : List Node} (h : Unshared ns) :
    sharingGroups (ns.filter isRule) = [] := by
  have hshared : Sharing.shared ((ns.filter isRule).map declarations) = [] := by
    rw [Sharing.shared, List.filter_eq_nil_iff]
    intro s hs hlength
    obtain ⟨d, -, rfl⟩ := List.mem_map.mp hs
    obtain ⟨a, b, hsub, ha, hb⟩ := two_le_length_holders_iff.mp (by simpa using hlength)
    exact List.pairwise_iff_forall_sublist.mp h hsub d ha hb
  simp [sharingGroups, hshared, Text.sortBy]

namespace Factoring

variable {f : Factory} {w : Work} {tickets : List Nat} {g : SharingGroup} {gs : List SharingGroup}

/-- What is left to do while the groups `gs` are still to be moved. -/
structure Unfinished (tickets : List Nat) (gs : List SharingGroup) (w : Work) : Prop where
  /-- Whatever two rules share is in one of the groups. -/
  shared : w.slots.Pairwise fun r s => r.node.isRule = true → s.node.isRule = true →
    ∀ d ∈ r.node.declarations, d ∈ s.node.declarations → ∃ g ∈ gs, d ∈ g.declarations
  /-- Only the members of a group hold its declarations. -/
  members : ∀ g ∈ gs, ∀ d ∈ g.declarations, ∀ s ∈ w.slots, s.node.isRule = true →
    d ∈ s.node.declarations → (memberTickets tickets g).any s.has = true

theorem mem_declarations_of_stripped {ds : List Declaration} {n : Node} {d : Declaration}
    (h : d ∈ (stripped ds n).declarations) : d ∈ n.declarations ∧ d ∉ ds := by
  obtain ⟨c, hc, hcd⟩ := List.mem_filterMap.mp h
  rw [nodes_stripped, List.mem_filter] at hc
  refine ⟨List.mem_filterMap.mpr ⟨c, hc.1, hcd⟩, fun hd => ?_⟩
  have hone : isOneOf ds c = true := isOneOf_iff.mpr ⟨d, hd, hcd⟩
  simp [hone] at hc

/-- A rule that was worked on holds only what it held before, and none of the declarations of
    its group if it is a member. -/
theorem mark_rule {ds : List Declaration} {ts : List Nat} {s : Slot} {d : Declaration}
    (hrule : (mark ds ts s).node.isRule = true) (hd : d ∈ (mark ds ts s).node.declarations) :
    s.node.isRule = true ∧ d ∈ s.node.declarations ∧ (ts.any s.has = true → d ∉ ds) := by
  unfold mark at hrule hd
  split at hd
  · rename_i hmember
    rw [if_pos hmember] at hrule
    obtain ⟨hd, hout⟩ := mem_declarations_of_stripped hd
    exact ⟨(isRule_setNodes _ s.node).symm.trans hrule, hd, fun _ => hout⟩
  · rename_i hother
    rw [if_neg hother] at hrule
    exact ⟨hrule, hd, fun hmember => absurd hmember hother⟩

theorem contents_drafted {ds : List Declaration} {drafted : List Node}
    (h : drafted.map content? = ds.map some) : drafted.filterMap content? = ds := by
  rw [contents_eq, h, List.filterMap_map, Function.id_comp, List.filterMap_some]

theorem unfinished_start (p : Progress) (ns : List Node) :
    Unfinished (Work.start p ns).ruleTickets (sharingGroups (ns.filter isRule))
      (Work.start p ns) := by
  constructor
  · rw [List.pairwise_iff_forall_sublist]
    intro r s hsub hr hs d hdr hds
    have hrules : ([r.node, s.node].filter isRule).Sublist (ns.filter isRule) := by
      have hnodes := hsub.map (·.node)
      rw [← Work.nodes, Work.nodes_start] at hnodes
      exact hnodes.filter isRule
    rw [List.filter_eq_self.mpr (by simp [hr, hs])] at hrules
    exact exists_sharingGroup hrules hdr hds
  · intro g hg d hdg s hs hrule hds
    have hfiltered : s ∈ (Work.start p ns).slots.filter (·.node.isRule) :=
      List.mem_filter.mpr ⟨hs, hrule⟩
    obtain ⟨i, hi⟩ := List.mem_iff_getElem?.mp hfiltered
    obtain ⟨t, ht⟩ := Slot.exists_ticket_of_mem_numberFrom hs
    have hticket : (Work.start p ns).ruleTickets[i]? = some t := by
      rw [Work.ruleTickets, getElem?_filterMap_ticket, hi]
      · exact ht
      · exact fun r hr => Slot.exists_ticket_of_mem_numberFrom (List.mem_of_mem_filter hr)
    obtain ⟨n, hget, hn⟩ := exists_of_ruleTickets hticket
    have hnode : s.node = n :=
      (Work.distinct_start p ns).node_eq hget hs (Slot.has_iff.mpr ht)
    have hmember : i ∈ g.members := by
      rw [members_of_mem_sharingGroups hg hdg, Sharing.mem_holders]
      exact ⟨n.declarations, by rw [List.getElem?_map, hn]; rfl, hnode ▸ hds⟩
    refine List.any_eq_true.mpr ⟨t, ?_, Slot.has_iff.mpr ht⟩
    exact List.mem_filterMap.mpr ⟨i, hmember, hticket⟩

/-- Once its members are stripped, no rule holds a declaration of the group. -/
theorem Unfinished.not_mem_mark (h : Unfinished tickets (g :: gs) w) {s : Slot} (hs : s ∈ w.slots)
    {d : Declaration} (hrule : (mark g.declarations (memberTickets tickets g) s).node.isRule = true)
    (hd : d ∈ (mark g.declarations (memberTickets tickets g) s).node.declarations) :
    d ∉ g.declarations := by
  obtain ⟨hrule', hd', hout⟩ := mark_rule hrule hd
  intro hdg
  exact hout (h.members g (by simp) d hdg s hs hrule' hd') hdg

theorem Unfinished.marked (h : Unfinished tickets (g :: gs) w) {w' : Work}
    (hslots : w'.slots = w.slots.map (mark g.declarations (memberTickets tickets g))) :
    Unfinished tickets gs w' := by
  constructor
  · rw [hslots, List.pairwise_map]
    refine h.shared.imp_of_mem fun {r s} hr hs hshared hrrule hsrule d hdr hds => ?_
    obtain ⟨hrrule', hdr', -⟩ := mark_rule hrrule hdr
    obtain ⟨hsrule', hds', -⟩ := mark_rule hsrule hds
    obtain ⟨g', hg', hdg'⟩ := hshared hrrule' hsrule' d hdr' hds'
    rcases List.mem_cons.mp hg' with rfl | hrest
    · exact absurd hdg' (h.not_mem_mark hr hrrule hdr)
    · exact ⟨g', hrest, hdg'⟩
  · intro g' hg' d hdg' r hr hrule hdr
    rw [hslots] at hr
    obtain ⟨s, hs, rfl⟩ := List.mem_map.mp hr
    obtain ⟨hrule', hds, -⟩ := mark_rule hrule hdr
    have hmember := h.members g' (by simp [hg']) d hdg' s hs hrule' hds
    rw [List.any_eq_true] at hmember ⊢
    simpa using hmember

/-- A new sibling with declarations of its own, in none of the groups, changes nothing. -/
theorem Unfinished.insert {l r : List Slot} {p : Progress} (h : Unfinished tickets gs ⟨l ++ r, p⟩)
    {x : Slot} (hgroups : ∀ g ∈ gs, ∀ d ∈ x.node.declarations, d ∉ g.declarations)
    (hothers : ∀ s ∈ l ++ r, s.node.isRule = true → ∀ d ∈ x.node.declarations,
      d ∉ s.node.declarations) {w' : Work} (hslots : w'.slots = l ++ x :: r) :
    Unfinished tickets gs w' := by
  constructor
  · rw [hslots, List.pairwise_middle fun hrs hs hr d hds hdr => hrs hr hs d hdr hds,
      List.pairwise_cons]
    exact ⟨fun s hs _ hrule d hdx hds => absurd hds (hothers s hs hrule d hdx), h.shared⟩
  · intro g hg d hdg s hs hrule hds
    rw [hslots, List.mem_append, List.mem_cons, or_left_comm] at hs
    rcases hs with rfl | hold
    · exact absurd hdg (hgroups g hg d hds)
    · exact h.members g hg d hdg s (List.mem_append.mpr hold) hrule hds

theorem Unfinished.factorGroup (hd : w.Distinct)
    (hholds : ∀ t ∈ memberTickets tickets g, Holds w g.declarations t)
    (hapart : ∀ g' ∈ gs, ∀ d ∈ g.declarations, d ∉ g'.declarations)
    (hgo : (factorGroup f tickets w g).stopped = false) (h : Unfinished tickets (g :: gs) w) :
    Unfinished tickets gs (factorGroup f tickets w g) := by
  have htickets : ∀ t ∈ memberTickets tickets g, t ∈ w.tickets :=
    fun t ht => (hholds t ht).mem_tickets
  rcases factorGroup_slots f tickets g (rfl : _ = memberTickets tickets g) htickets with
    ⟨hslots, hnone⟩ | ⟨o, p, drafted, t, ht, hgo', hcontent, hslots⟩
  · rcases hnone with hempty | hstopped
    · apply h.marked
      have hid : mark g.declarations [] = id := funext fun _ => rfl
      rw [hslots, hempty, hid, List.map_id]
    · rw [hgo] at hstopped
      cases hstopped
  · have hstarted : Work.stopped ⟨w.slots, p⟩ = false := hgo'
    obtain ⟨n, hn⟩ := Work.exists_get?_of_mem_tickets (htickets t ht)
    obtain ⟨l, s, r, hsplit, -, hst, -, -⟩ := hd.exists_split hn
    have hinserted := Work.Distinct.slots_insertBefore (w := ⟨w.slots, p⟩) hd hstarted hsplit hst
      (.block o (.rule (Collapse.jointSelector ((memberTickets tickets g).filterMap w.get?)))
        drafted)
    have hnew : ∀ m, mark g.declarations (memberTickets tickets g) ⟨none, m⟩ = ⟨none, m⟩ :=
      fun m => by simp [mark, Slot.has]
    rw [(foldl_strip_slots (Work.stopped_insertBefore hstarted (htickets t ht))
      fun k hk => by rw [Work.tickets_insertBefore]; exact htickets k hk).2, hinserted,
      List.map_append, List.map_cons, hnew] at hslots
    have hold : Unfinished tickets gs
        ⟨l.map (mark g.declarations (memberTickets tickets g)) ++
          (s :: r).map (mark g.declarations (memberTickets tickets g)), p⟩ := by
      apply h.marked
      rw [hsplit, List.map_append]
    -- the new rule is the only one to hold the declarations of the group
    apply hold.insert _ _ hslots
    · intro g' hg' d hdm
      rw [declarations, nodes, contents_drafted hcontent] at hdm
      exact hapart g' hg' d hdm
    · intro r' hr' hrule d hdm hdr
      rw [declarations, nodes, contents_drafted hcontent] at hdm
      rw [← List.map_append, ← hsplit] at hr'
      obtain ⟨s', hs', rfl⟩ := List.mem_map.mp hr'
      exact h.not_mem_mark hs' hrule hdr hdm

/-- **Factoring leaves no declaration in two of the siblings.** -/
theorem unshared_factorSiblings (hf : f.Obliging) (p : Progress) (ns : List Node)
    (hgo : p.stopped = false) : Unshared (factorSiblings f p ns).1 := by
  obtain ⟨w, ⟨-, hw⟩, hfinish⟩ := factorSiblings_induction f p ns
    (fun gs w => w.stopped = false ∧ Unfinished (Work.start p ns).ruleTickets gs w)
    (fun w g gs hstopped hw => by rw [hw.1] at hstopped; cases hstopped)
    (fun w g gs hd hgo hholds hapart hw =>
      have hgo' := factorGroup_goes_on hf _ g hgo hholds
      ⟨hgo', hw.2.factorGroup hd hholds hapart hgo'⟩)
    ⟨hgo, unfinished_start p ns⟩
  rw [hfinish, Work.finish, Unshared, List.pairwise_filter, Work.nodes, List.pairwise_map]
  refine hw.shared.imp fun {r s} hshared hr hs d hdr hds => ?_
  obtain ⟨g, hg, -⟩ := hshared hr hs d hdr hds
  cases hg

/-! ### One level -/

theorem factorGroup_keeps_declaration
    (hholds : ∀ t ∈ memberTickets tickets g, Holds w g.declarations t) {d : Declaration}
    (h : ∃ n ∈ w.nodes, d ∈ n.declarations) :
    ∃ n ∈ (factorGroup f tickets w g).nodes, d ∈ n.declarations := by
  have htickets : ∀ t ∈ memberTickets tickets g, t ∈ w.tickets :=
    fun t ht => (hholds t ht).mem_tickets
  rcases factorGroup_slots f tickets g (rfl : _ = memberTickets tickets g) htickets with
    ⟨hslots, -⟩ | ⟨o, p, drafted, t, ht, hgo, hcontent, hslots⟩
  · rwa [Work.nodes, hslots]
  · rw [Work.nodes, hslots]
    by_cases hdg : d ∈ g.declarations
    · refine ⟨_, List.mem_map_of_mem ((mem_slots_moved (w := ⟨w.slots, p⟩) hgo htickets
        (htickets t ht)).mpr (Or.inl rfl)), ?_⟩
      rwa [declarations, nodes, contents_drafted hcontent]
    · obtain ⟨n, hn, hdn⟩ := h
      obtain ⟨s, hs, rfl⟩ := List.mem_map.mp hn
      refine ⟨_, List.mem_map_of_mem ((mem_slots_moved (w := ⟨w.slots, p⟩) hgo htickets
        (htickets t ht)).mpr (Or.inr ⟨s, hs, rfl⟩)), ?_⟩
      unfold mark
      split
      · exact mem_declarations_stripped hdn hdg
      · exact hdn

theorem exists_mem_factorSiblings {d : Declaration} (p : Progress) {ns : List Node}
    (h : ∃ n ∈ ns, d ∈ n.declarations) :
    ∃ n ∈ (factorSiblings f p ns).1, d ∈ n.declarations :=
  factorSiblings_preserves (P := fun ms => ∃ n ∈ ms, d ∈ n.declarations) f
    (fun _ _ _ _ hholds hw => factorGroup_keeps_declaration hholds hw) p h

/-- Siblings that factoring is done with: they share nothing, and there are no empty rules
    to remove if there are rules enough to look for any. -/
structure Done (ns : List Node) : Prop where
  unshared : Unshared ns
  filled : 2 ≤ (ns.filter isRule).length → Filled ns

theorem unshared_of_length {ns : List Node} (h : (ns.filter isRule).length < 2) :
    Unshared ns := by
  unfold Unshared
  match ns.filter isRule, h with
  | [], _ => exact .nil
  | [n], _ => exact List.pairwise_singleton _ n

theorem level_cases (hf : f.Obliging) (p : Progress) (ns : List Node) (hgo : p.stopped = false) :
    ((ns.filter isRule).length < 2 ∧ level f p ns = (ns, p)) ∨
      (2 ≤ (ns.filter isRule).length ∧
        level f p ns = Cleanup.among (factorSiblings f p ns).2 (factorSiblings f p ns).1) := by
  simp only [level]
  split
  · rename_i hfew
    exact Or.inl ⟨hfew, rfl⟩
  · rename_i hmany
    rw [if_neg (by simp [factorSiblings_goes_on hf p ns hgo])]
    exact Or.inr ⟨Nat.not_lt.mp hmany, rfl⟩

theorem level_done (hf : f.Obliging) (p : Progress) (ns : List Node) (hgo : p.stopped = false) :
    Done (level f p ns).1 := by
  rcases level_cases hf p ns hgo with ⟨hfew, hlevel⟩ | ⟨-, hlevel⟩
  · rw [hlevel]
    exact ⟨unshared_of_length hfew, fun h => absurd h (Nat.not_le.mpr hfew)⟩
  · rw [hlevel]
    refine ⟨unshared_iff.mpr ?_, fun _ => Cleanup.filled_among _ _⟩
    exact (unshared_iff.mp (unshared_factorSiblings hf p ns hgo)).sublist
      (Cleanup.sublist_among _ _)

theorem level_eq_self (hf : f.Obliging) {p : Progress} {ns : List Node} (hgo : p.stopped = false)
    (h : Done ns) : level f p ns = (ns, p) := by
  rcases level_cases hf p ns hgo with ⟨-, hlevel⟩ | ⟨hmany, hlevel⟩
  · exact hlevel
  · have hfactored : factorSiblings f p ns = (ns, p) := by
      rw [factorSiblings, sharingGroups_of_unshared h.unshared, List.foldl_nil, Work.finish,
        Work.nodes_start]
      rfl
    rw [hlevel, hfactored]
    exact Cleanup.among_eq_self p ns (h.filled hmany)

theorem level_filled (hf : f.Obliging) {p : Progress} {ns : List Node} (hgo : p.stopped = false)
    (h : Filled ns) : Filled (level f p ns).1 := by
  rcases level_cases hf p ns hgo with ⟨-, hlevel⟩ | ⟨-, hlevel⟩
  · rwa [hlevel]
  · rw [hlevel]
    exact Cleanup.filled_among _ _

/-- A block is not emptied: either its rules share nothing, and all stays as it is, or there
    is a declaration to keep. -/
theorem level_ne_nil (hf : f.Obliging) {p : Progress} {ns : List Node} (hgo : p.stopped = false)
    (h : Filled ns) (hne : ns ≠ []) : (level f p ns).1 ≠ [] := by
  by_cases hunshared : Unshared ns
  · rwa [level_eq_self hf hgo ⟨hunshared, fun _ => h⟩]
  · have hheld : ∃ d, ∃ n ∈ ns, d ∈ n.declarations := by
      by_contra hnone
      apply hunshared
      refine List.pairwise_of_forall_mem_list fun n hn m _ d hd _ => hnone ⟨d, n, ?_, hd⟩
      exact List.mem_of_mem_filter hn
    obtain ⟨d, hd⟩ := hheld
    rcases level_cases hf p ns hgo with ⟨-, hlevel⟩ | ⟨-, hlevel⟩
    · rwa [hlevel]
    · obtain ⟨n, hn, -⟩ := Cleanup.exists_mem_among (factorSiblings f p ns).2
        (exists_mem_factorSiblings (f := f) p hd)
      rw [hlevel]
      exact List.ne_nil_of_mem hn

end Factoring

/-! ### Whole trees -/

theorem isStyleBlock_setNodes (ns : List Node) (n : Node) :
    (n.setNodes ns).isStyleBlock = n.isStyleBlock := by
  cases n with
  | block o h ms => cases h <;> rfl
  | declaration o d => rfl
  | leaf o => rfl

/-- Passes move rules, and leave the declarations beside them alone. -/
theorem stable_contents :
    Stable fun ns ms => ms.filterMap content? = ns.filterMap content? := by
  constructor
  · intro ns ms h
    induction h with
    | start => rfl
    | insert _ hn _ _ ih => simpa [content_of_isRule hn] using ih
    | remove _ hn ih => simpa [content_of_isRule hn] using ih
    | change _ hn hn' _ ih => simpa [content_of_isRule hn, content_of_isRule hn'] using ih
  · exact fun h h' => h'.trans h
  · intro l r n ms hstyle _
    have hset : (n.setNodes ms).isStyleBlock = true := (isStyleBlock_setNodes ms n).trans hstyle
    simp [content_of_isStyleBlock hstyle, content_of_isStyleBlock hset]

/-- What factoring further down leaves of a sibling. -/
structure Deepened (n m : Node) : Prop where
  same : m = n.setNodes m.nodes
  declarations : m.declarations = n.declarations
  filled : Filled n.nodes → Filled m.nodes
  ne_nil : Filled n.nodes → n.nodes ≠ [] → m.nodes ≠ []

theorem filled_of_entered {ns ms : List Node} (h : List.Forall₂ (Entered Deepened) ns ms)
    (hns : Filled ns) : Filled ms := by
  rw [filled_iff] at hns ⊢
  intro m hm hstyle
  obtain ⟨n, hn, hnm⟩ := exists_of_mem_forall₂ h hm
  rcases hnm with ⟨hstyle', hdeep⟩ | ⟨-, rfl⟩
  · obtain ⟨hempty, hfilled⟩ := hns n hn hstyle'
    refine ⟨?_, hdeep.filled hfilled⟩
    apply eq_false_of_ne_true
    rw [isEmptyRule_iff]
    rintro ⟨hrule, hnil⟩
    apply hdeep.ne_nil hfilled _ hnil
    rw [hdeep.same, isRule_setNodes] at hrule
    intro hnil'
    rw [isEmptyRule_iff.mpr ⟨hrule, hnil'⟩] at hempty
    cases hempty
  · exact hns _ hn hstyle

theorem done_of_entered {ns ms : List Node} (h : List.Forall₂ (Entered Deepened) ns ms)
    (hns : Factoring.Done ns) : Factoring.Done ms := by
  have hruled : ruled ms = ruled ns := by
    apply map_of_same_view
    refine h.imp fun n m hnm => ?_
    rcases hnm with ⟨-, hdeep⟩ | ⟨-, rfl⟩
    · rw [hdeep.declarations, hdeep.same, isRule_setNodes]
    · rfl
  have hcount : ∀ ks : List Node, (ks.filter isRule).length = (ruled ks).countP (·.1) := by
    intro ks
    rw [ruled, List.countP_map, ← List.countP_eq_length_filter]
    rfl
  refine ⟨unshared_iff.mpr (hruled ▸ unshared_iff.mp hns.unshared), fun hmany => ?_⟩
  apply filled_of_entered h
  apply hns.filled
  rwa [hcount, ← hruled, ← hcount]

theorem follows_factoring {f : Factory} (hf : f.Obliging) (hkeeps : f.keepsSource = true) :
    Follows (fun _ => Factoring.level f) Deepened := by
  refine ⟨fun _ p ns hp => Factoring.level_goes_on hf p ns hp, fun n hn => ?_, ?_⟩
  · refine ⟨?_, rfl, fun h => h, fun _ h => h⟩
    cases n with
    | block o h ns => cases hn
    | declaration o d => rfl
    | leaf o => rfl
  · intro o h p ns ms hgo hms
    have hcontents : ms.filterMap content? = (Factoring.level f p ns).1.filterMap content? := by
      have hviews : ms.map content? = (Factoring.level f p ns).1.map content? := by
        apply map_of_same_view
        refine hms.imp fun n m hnm => ?_
        rcases hnm with ⟨hstyle, hdeep⟩ | ⟨-, rfl⟩
        · have hstyle' : m.isStyleBlock = true := by rw [hdeep.same, isStyleBlock_setNodes, hstyle]
          rw [content_of_isStyleBlock hstyle, content_of_isStyleBlock hstyle']
        · rfl
      rw [contents_eq, hviews, ← contents_eq]
    refine ⟨rfl, hcontents.trans (stable_contents.factoring_level hkeeps p ns), ?_, ?_⟩
    · intro hfilled
      exact filled_of_entered hms (Factoring.level_filled hf hgo hfilled)
    · intro hfilled hne hnil
      apply Factoring.level_ne_nil hf hgo hfilled hne
      change ms = [] at hnil
      subst hnil
      exact List.forall₂_nil_right_iff.mp hms

/-- **Factoring is complete, and done with in one run.**  It comes to its end; after it, no
    two sibling rules hold the same declaration, wherever the run got to; and another run
    leaves the tree exactly as it is. -/
theorem factorDeclarations_complete (n : Node) :
    (factorDeclarations Factory.clone {} n).2.failure = none ∧
      (∀ k, (factorDeclarations Factory.clone {} n).1.Reaches k → k.rules.Pairwise fun a b =>
        ∀ d ∈ a.declarations, d ∉ b.declarations) ∧
      (factorDeclarations Factory.clone {} (factorDeclarations Factory.clone {} n).1).1 =
        (factorDeclarations Factory.clone {} n).1 := by
  have hends : Ends (fun _ => Factoring.level Factory.clone) {} n
      (factorDeclarations Factory.clone {} n) := Pass.ends_run Factory.clone .factor rfl n
  have hdone := hends.settled Factoring.Done (follows_factoring Factory.clone_obliging rfl)
    ⟨.nil, fun h => absurd h (by decide)⟩
    (fun _ p ns hp => Factoring.level_done Factory.clone_obliging p ns hp)
    (fun ns ms => done_of_entered) rfl
  refine ⟨?_, fun k hk => (hdone k hk).unshared, ?_⟩
  · exact failure_of_goes_on (factorDeclarations_goes_on Factory.clone_obliging {} n rfl)
  · generalize (factorDeclarations Factory.clone {} n).1 = m at hdone ⊢
    rw [factorDeclarations, if_neg (by decide), topDown_eq_self]
    intro k hk _
    exact Factoring.level_eq_self Factory.clone_obliging rfl (hdone k hk)

end StyleNesting
