/-
  StyleNesting/Proofs/Grouping.lean
  =================================
  **What collapsing makes of the children of one rule.**  The children fall into
  groups: rules with equal signatures stand together, and every other child
  stands for itself (`Grouped`).  Of each group one child is left, in the place
  of the first: a group of one is left as it is, and a larger one becomes a
  single rule with the parts of all of them (`Group.standIn`).  So the rules
  that are left have different signatures.

  Classes are merged one after another, and in the order of their first members.
  When a class has its turn, everything in front of its first member is done,
  so the work splits into what is done and what still has to be grouped
  (`foldl_merge_nodes`).
-/
import StyleNesting.Proofs.Collapse

namespace StyleNesting

open Node

/-! ### Copies have the signatures of their originals -/

namespace Node

theorem content?_copy (n : Node) : n.copy.content? = n.content? := by
  cases n <;> rfl

theorem sortedDeclarations_copyAll (ns : List Node) :
    sortedDeclarations (copyAll ns) = sortedDeclarations ns := by
  rw [sortedDeclarations, sortedDeclarations, copyAll_eq_map, List.filterMap_map]
  congr 2
  exact funext content?_copy

mutual
theorem fingerprint?_copy : ∀ n : Node, n.copy.fingerprint? = n.fingerprint?
  | .block _ (.rule _) ns => by
    simp [copy, fingerprint?, sortedDeclarations_copyAll, fingerprints_copyAll ns]
  | .block _ (.atRule _ _ _) ns => by
    simp [copy, fingerprint?, sortedDeclarations_copyAll, fingerprints_copyAll ns]
  | .block _ .sheet _ => rfl
  | .block _ .group _ => rfl
  | .declaration _ _ => rfl
  | .leaf _ => rfl
theorem fingerprints_copyAll : ∀ ns : List Node, fingerprints (copyAll ns) = fingerprints ns
  | [] => rfl
  | n :: ns => by
    rw [copyAll, fingerprints, fingerprints, fingerprint?_copy n, fingerprints_copyAll ns]
end

/-- A block with copied children has the signature of the block they were copied from. -/
theorem signature_of_copyAll {n m : Node} (h : m.nodes = copyAll n.nodes) :
    m.signature = n.signature := by
  rw [signature, signature, h, sortedDeclarations_copyAll, fingerprints_copyAll]

end Node

/-! ### One class after the other -/

theorem classesBy_cons {α κ : Type} [DecidableEq κ] (key : α → κ) (x : α) (xs : List α) :
    classesBy key (x :: xs) = (x :: xs.filter fun y => key y == key x) ::
      classesBy key (xs.filter fun y => !key y == key x) := by
  rw [classesBy_eq, classesBy_eq, List.map_cons, List.eraseDups_cons, List.map_cons,
    List.filter_cons_of_pos (by simp), List.filter_map]
  congr 1
  refine List.map_congr_left fun k hk => ?_
  -- the keys that are left are other ones than that of `x`
  obtain ⟨y, hy, rfl⟩ := List.mem_map.mp (List.mem_eraseDups.mp hk)
  have hne : key y ≠ key x := by simpa using (List.mem_filter.mp hy).2
  rw [List.filter_cons_of_neg (by simpa using hne.symm), List.filter_filter]
  refine List.filter_congr fun z _ => ?_
  by_cases hz : key z = key y <;> simp [hz, hne]

namespace Collapse

/-! ### Groups -/

/-- Children of a rule that belong together, with the first of them. -/
structure Group where
  first : Slot
  others : List Slot

namespace Group

def members (g : Group) : List Slot := g.first :: g.others

/-- The one child that is left of a group. -/
def standIn (g : Group) : Node :=
  match g.others with
  | [] => g.first.node
  | _ :: _ =>
    .block g.first.node.origin.ofCopy (.rule (jointSelector (g.members.map (·.node))))
      (copyAll g.first.node.nodes)

end Group

/-- The children fall into the groups: all of them, each once and in order, and groups in the
    order of their first members.  Rules are together exactly if their signatures are equal, and
    what is no rule is alone. -/
structure Grouped (ns : List Node) (groups : List Group) : Prop where
  all : (groups.flatMap Group.members).Perm (Slot.number ns)
  members_in_order : ∀ g ∈ groups, g.members.Sublist (Slot.number ns)
  firsts_in_order : (groups.map Group.first).Sublist (Slot.number ns)
  together_iff : ∀ g ∈ groups, ∀ s ∈ g.members, s.node.isRule = true →
    ∀ r ∈ Slot.number ns, r.node.isRule = true →
      (r ∈ g.members ↔ r.node.signature = s.node.signature)
  alone : ∀ g ∈ groups, ∀ s ∈ g.members, s.node.isRule = false → g = ⟨s, []⟩

/-- Whether a child is a rule with the signature of a given one. -/
def alike (s r : Slot) : Bool := r.node.signature == s.node.signature && r.node.isRule

theorem alike_iff {s r : Slot} :
    alike s r = true ↔ r.node.signature = s.node.signature ∧ r.node.isRule = true := by
  simp [alike]

/-- The children that are not like a given one. -/
def unlike (s : Slot) (slots : List Slot) : List Slot := slots.filter fun r => !alike s r

theorem signature_ne_of_mem_unlike {s r : Slot} {slots : List Slot} (hr : r ∈ unlike s slots)
    (hrule : r.node.isRule = true) : r.node.signature ≠ s.node.signature := by
  intro heq
  have hunlike := (List.mem_filter.mp hr).2
  rw [alike_iff.mpr ⟨heq, hrule⟩] at hunlike
  cases hunlike

/-- The groups of a list of children. -/
def groups : List Slot → List Group
  | [] => []
  | s :: rest =>
    if s.node.isRule then ⟨s, rest.filter (alike s)⟩ :: groups (unlike s rest)
    else ⟨s, []⟩ :: groups rest
termination_by slots => slots.length
decreasing_by
  · exact Nat.lt_succ_of_le (List.length_filter_le _ rest)
  · exact Nat.lt_succ_self _

variable {slots : List Slot} {g : Group} {s r : Slot}

theorem groups_cons_of_isRule (hrule : s.node.isRule = true) (rest : List Slot) :
    groups (s :: rest) = ⟨s, rest.filter (alike s)⟩ :: groups (unlike s rest) := by
  rw [groups, if_pos hrule]

theorem groups_cons_of_not_isRule (hrule : ¬s.node.isRule = true) (rest : List Slot) :
    groups (s :: rest) = ⟨s, []⟩ :: groups rest := by
  rw [groups, if_neg hrule]

theorem perm_groups (slots : List Slot) : ((groups slots).flatMap Group.members).Perm slots := by
  induction slots using groups.induct with
  | case1 => rw [groups, List.flatMap_nil]
  | case2 s rest hrule ih =>
    rw [groups_cons_of_isRule hrule, List.flatMap_cons]
    exact (ih.append_left _).trans ((List.filter_append_perm (alike s) rest).cons s)
  | case3 s rest hrule ih =>
    rw [groups_cons_of_not_isRule hrule, List.flatMap_cons]
    exact ih.cons s

theorem firsts_sublist (slots : List Slot) : ((groups slots).map Group.first).Sublist slots := by
  induction slots using groups.induct with
  | case1 => rw [groups, List.map_nil]
  | case2 s rest hrule ih =>
    rw [groups_cons_of_isRule hrule, List.map_cons]
    exact (ih.trans List.filter_sublist).cons_cons s
  | case3 s rest hrule ih =>
    rw [groups_cons_of_not_isRule hrule, List.map_cons]
    exact ih.cons_cons s

theorem first_mem (hg : g ∈ groups slots) : g.first ∈ slots :=
  (firsts_sublist slots).subset (List.mem_map_of_mem hg)

/-- A rule is grouped with all rules that have its signature. -/
theorem members_of_isRule (hg : g ∈ groups slots) (hfirst : g.first.node.isRule = true) :
    g.members = slots.filter (alike g.first) := by
  induction slots using groups.induct with
  | case1 => simp [groups] at hg
  | case2 s rest hrule ih =>
    rw [groups_cons_of_isRule hrule, List.mem_cons] at hg
    rcases hg with rfl | hg
    · rw [List.filter_cons_of_pos (alike_iff.mpr ⟨rfl, hfirst⟩), Group.members]
    · have hne : g.first.node.signature ≠ s.node.signature :=
        signature_ne_of_mem_unlike (first_mem hg) hfirst
      have hs : ¬alike g.first s = true := fun h => hne (alike_iff.mp h).1.symm
      rw [ih hg, List.filter_cons_of_neg hs, unlike, List.filter_filter]
      refine List.filter_congr fun r _ => ?_
      -- what is like the first of this group is not like `s`
      by_cases hr : alike g.first r = true
      · have hsr : alike s r = false := by
          refine eq_false_of_ne_true fun h => hne ?_
          exact (alike_iff.mp hr).1.symm.trans (alike_iff.mp h).1
        rw [hr, hsr]
        rfl
      · rw [eq_false_of_ne_true hr, Bool.false_and]
  | case3 s rest hrule ih =>
    rw [groups_cons_of_not_isRule hrule, List.mem_cons] at hg
    rcases hg with rfl | hg
    · exact absurd hfirst hrule
    · rw [ih hg, List.filter_cons_of_neg fun h => hrule (alike_iff.mp h).2]

theorem others_of_not_isRule (hg : g ∈ groups slots) (hfirst : g.first.node.isRule = false) :
    g.others = [] := by
  induction slots using groups.induct with
  | case1 => simp [groups] at hg
  | case2 s rest hrule ih =>
    rw [groups_cons_of_isRule hrule, List.mem_cons] at hg
    rcases hg with rfl | hg
    · rw [hrule] at hfirst
      cases hfirst
    · exact ih hg
  | case3 s rest hrule ih =>
    rw [groups_cons_of_not_isRule hrule, List.mem_cons] at hg
    rcases hg with rfl | hg
    · rfl
    · exact ih hg

theorem members_of_not_isRule (hg : g ∈ groups slots) (hfirst : g.first.node.isRule = false) :
    g.members = [g.first] := by
  rw [Group.members, others_of_not_isRule hg hfirst]

theorem isRule_of_mem_members (hg : g ∈ groups slots) (hs : s ∈ g.members) :
    s.node.isRule = g.first.node.isRule := by
  cases hfirst : g.first.node.isRule with
  | true =>
    rw [members_of_isRule hg hfirst, List.mem_filter, alike_iff] at hs
    exact hs.2.2
  | false =>
    rw [members_of_not_isRule hg hfirst, List.mem_singleton] at hs
    rw [hs, hfirst]

theorem grouped_groups (ns : List Node) : Grouped ns (groups (Slot.number ns)) where
  all := perm_groups _
  members_in_order g hg := by
    cases hfirst : g.first.node.isRule with
    | true =>
      rw [members_of_isRule hg hfirst]
      exact List.filter_sublist
    | false =>
      rw [members_of_not_isRule hg hfirst]
      exact List.singleton_sublist.mpr (first_mem hg)
  firsts_in_order := firsts_sublist _
  together_iff g hg s hs hsrule r hr hrrule := by
    have hfirst : g.first.node.isRule = true := (isRule_of_mem_members hg hs).symm.trans hsrule
    rw [members_of_isRule hg hfirst, List.mem_filter, alike_iff] at hs ⊢
    rw [hs.2.1]
    exact ⟨fun h => h.2.1, fun h => ⟨hr, h, hrrule⟩⟩
  alone g hg s hs hsrule := by
    have hfirst : g.first.node.isRule = false := (isRule_of_mem_members hg hs).symm.trans hsrule
    rw [members_of_not_isRule hg hfirst, List.mem_singleton] at hs
    rw [hs, ← others_of_not_isRule hg hfirst]

/-! ### What is left of the groups -/

theorem Group.isRule_standIn (hg : g ∈ groups slots) :
    g.standIn.isRule = g.first.node.isRule := by
  unfold standIn
  split
  · rfl
  · rename_i other others hothers
    cases hfirst : g.first.node.isRule with
    | true => rfl
    | false =>
      rw [others_of_not_isRule hg hfirst] at hothers
      cases hothers

theorem Group.signature_standIn (g : Group) : g.standIn.signature = g.first.node.signature := by
  unfold standIn
  split
  · rfl
  · exact signature_of_copyAll rfl

/-- Rules of one signature are all in one group. -/
theorem pairwise_groups (slots : List Slot) : (groups slots).Pairwise fun g g' =>
    g.first.node.isRule = true → g'.first.node.isRule = true →
      g.first.node.signature ≠ g'.first.node.signature := by
  induction slots using groups.induct with
  | case1 => rw [groups]; exact List.Pairwise.nil
  | case2 s rest hrule ih =>
    rw [groups_cons_of_isRule hrule]
    refine List.pairwise_cons.mpr ⟨fun g hg _ hfirst => ?_, ih⟩
    exact (signature_ne_of_mem_unlike (first_mem hg) hfirst).symm
  | case3 s rest hrule ih =>
    rw [groups_cons_of_not_isRule hrule]
    exact List.pairwise_cons.mpr ⟨fun g _ hs => absurd hs hrule, ih⟩

/-- The rules that are left of the groups have different signatures. -/
theorem pairwise_standIn (slots : List Slot) :
    (((groups slots).map Group.standIn).filter isRule).Pairwise
      fun m m' => m.signature ≠ m'.signature := by
  rw [List.pairwise_filter, List.pairwise_map]
  refine (pairwise_groups slots).imp_of_mem fun {g g'} hg hg' h => ?_
  rw [Group.isRule_standIn hg, Group.isRule_standIn hg', Group.signature_standIn,
    Group.signature_standIn]
  exact h

/-- Groups of one are left as they are. -/
theorem standIn_of_pairwise (h : (slots.filter (·.node.isRule)).Pairwise
      fun s r => s.node.signature ≠ r.node.signature) :
    (groups slots).map Group.standIn = slots.map (·.node) := by
  induction slots using groups.induct with
  | case1 => rw [groups, List.map_nil, List.map_nil]
  | case2 s rest hrule ih =>
    rw [List.filter_cons_of_pos (p := fun r : Slot => r.node.isRule) hrule, List.pairwise_cons] at h
    have hunlike : ∀ r ∈ rest, alike s r = false := by
      intro r hr
      refine eq_false_of_ne_true fun hsr => ?_
      obtain ⟨heq, hrrule⟩ := alike_iff.mp hsr
      exact h.1 r (List.mem_filter.mpr ⟨hr, hrrule⟩) heq.symm
    have hrest : unlike s rest = rest := List.filter_eq_self.mpr fun r hr => by simp [hunlike r hr]
    have hnone : rest.filter (alike s) = [] :=
      List.filter_eq_nil_iff.mpr fun r hr => by simp [hunlike r hr]
    rw [hrest] at ih
    rw [groups_cons_of_isRule hrule, hnone, hrest, List.map_cons, List.map_cons, ih h.2]
    rfl
  | case3 s rest hrule ih =>
    rw [List.filter_cons_of_neg (p := fun r : Slot => r.node.isRule) hrule] at h
    rw [groups_cons_of_not_isRule hrule, List.map_cons, List.map_cons, ih h]
    rfl

theorem length_groups_le (slots : List Slot) : (groups slots).length ≤ slots.length := by
  have hle := (firsts_sublist slots).length_le
  rwa [List.length_map] at hle

/-- If there are as many groups as children, no two rules belong together. -/
theorem pairwise_of_length_groups (h : (groups slots).length = slots.length) :
    (slots.filter (·.node.isRule)).Pairwise fun s r => s.node.signature ≠ r.node.signature := by
  induction slots using groups.induct with
  | case1 => exact List.Pairwise.nil
  | case2 s rest hrule ih =>
    rw [groups_cons_of_isRule hrule, List.length_cons, List.length_cons] at h
    have hgroups := length_groups_le (unlike s rest)
    have hunlike : (unlike s rest).length ≤ rest.length := List.length_filter_le _ rest
    have hlength : (unlike s rest).length = rest.length := by omega
    have hsame : unlike s rest = rest := List.filter_sublist.eq_of_length hlength
    rw [hsame] at ih h
    rw [List.filter_cons_of_pos (p := fun r : Slot => r.node.isRule) hrule, List.pairwise_cons]
    refine ⟨fun r hr => ?_, ih (by omega)⟩
    obtain ⟨hr, hrrule⟩ := List.mem_filter.mp hr
    rw [← hsame] at hr
    exact (signature_ne_of_mem_unlike hr hrrule).symm
  | case3 s rest hrule ih =>
    rw [groups_cons_of_not_isRule hrule, List.length_cons, List.length_cons] at h
    rw [List.filter_cons_of_neg (p := fun r : Slot => r.node.isRule) hrule]
    exact ih (by omega)

/-! ### One merge after the other -/

variable {w : Work} {l : List Slot}

/-- The class of the first child that is still to be grouped. -/
theorem class_of_first {rest : List Slot} (hw : w.slots = l ++ s :: rest) (hd : w.Distinct)
    (hticketed : ∀ r ∈ s :: rest, ∃ t, r.ticket = some t) (hrule : s.node.isRule = true) :
    Class w.slots (s :: rest.filter (alike s)) := by
  have hsub : (s :: rest.filter (alike s)).Sublist (s :: rest) := List.filter_sublist.cons_cons s
  have hsub' : (s :: rest.filter (alike s)).Sublist w.slots := by
    rw [hw]
    exact hsub.trans (List.sublist_append_right l _)
  have halike : ∀ r ∈ s :: rest.filter (alike s),
      r.node.signature = s.node.signature ∧ r.node.isRule = true := by
    intro r hr
    rcases List.mem_cons.mp hr with rfl | hr
    · exact ⟨rfl, hrule⟩
    · exact alike_iff.mp (List.mem_filter.mp hr).2
  exact
    { present := fun r hr => hsub'.subset hr
      ticketed := fun r hr => hticketed r (hsub.subset hr)
      isRule := fun r hr => (halike r hr).2
      alike := fun r hr r' hr' => (halike r hr).1.trans (halike r' hr').1.symm
      distinct := List.Nodup.sublist (hsub'.filterMap _) hd }

/-- A class of two or more is taken out, and what stands in for it comes before its first member. -/
theorem merge_cons_slots {members : List Slot} (hc : Class w.slots (s :: r :: members))
    (hgo : w.stopped = false) : ∃ t p, s.has t = true ∧ p.stopped = false ∧
      (merge Factory.clone w (s :: r :: members)).slots =
        (((s :: r :: members).filterMap (·.ticket)).foldl Work.remove
          (Work.insertBefore ⟨w.slots, p⟩ t (Group.standIn ⟨s, r :: members⟩))).slots := by
  have hrule := hc.isRule s (by simp)
  obtain ⟨t, ht⟩ := hc.ticketed s (by simp)
  obtain ⟨n, p, hnew⟩ := Progress.newRule_of_obliging Factory.clone_obliging hgo hrule
    (jointSelector ((s :: r :: members).map (·.node)))
  obtain ⟨-, -, hgo'⟩ := Progress.eq_of_newRule_some hnew
  refine ⟨t, p, Slot.has_iff.mpr ht, hgo', ?_⟩
  obtain ⟨ticket, first⟩ := s
  obtain rfl : ticket = some t := ht
  rw [merge]
  simp only [hnew, newRule_eq (f := Factory.clone) rfl hrule hnew]
  split <;> rfl

/-- A merge leaves one child of the class, and leaves alone what is done. -/
theorem merge_first {rest : List Slot} (hw : w.slots = l ++ s :: rest) (hd : w.Distinct)
    (hgo : w.stopped = false) (hc : Class w.slots (s :: rest.filter (alike s))) :
    ∃ s', s'.node = Group.standIn ⟨s, rest.filter (alike s)⟩ ∧
      (merge Factory.clone w (s :: rest.filter (alike s))).slots = l ++ s' :: unlike s rest := by
  -- of what is done nothing is a member, and of the rest the rules that are alike
  have hdone : ∀ x ∈ l, x ∉ s :: rest.filter (alike s) := by
    intro x hx hmem
    obtain ⟨t, ht⟩ := hc.ticketed x hmem
    have hrest : x ∈ s :: rest := (List.filter_sublist.cons_cons s).subset hmem
    have hnodup : (l.filterMap (·.ticket) ++ (s :: rest).filterMap (·.ticket)).Nodup := by
      rw [← List.filterMap_append, ← hw]
      exact hd
    exact List.disjoint_of_nodup_append hnodup (List.mem_filterMap.mpr ⟨x, hx, ht⟩)
      (List.mem_filterMap.mpr ⟨x, hrest, ht⟩)
  have hrest : ∀ x ∈ rest, x ∈ s :: rest.filter (alike s) ↔ alike s x = true := by
    intro x hx
    rw [List.mem_cons, List.mem_filter, and_iff_right hx, or_iff_right_of_imp]
    rintro rfl
    exact alike_iff.mpr ⟨rfl, hc.isRule x (by simp)⟩
  cases hothers : rest.filter (alike s) with
  | nil =>
    have hsame : unlike s rest = rest :=
      List.filter_eq_self.mpr fun r hr => by simpa using List.filter_eq_nil_iff.mp hothers r hr
    refine ⟨s, rfl, ?_⟩
    rw [hsame, ← hw]
    simp [merge]
  | cons r others =>
    rw [hothers] at hc hdone hrest
    obtain ⟨t, p, ht, hgo', hslots⟩ := merge_cons_slots hc hgo
    have htickets : t ∈ w.tickets := Work.mem_tickets.mpr ⟨s, by simp [hw], ht⟩
    refine ⟨⟨none, Group.standIn ⟨s, r :: others⟩⟩, rfl, ?_⟩
    have hnew : ∀ (ts : List Nat) (m : Node), ts.any (Slot.mk none m).has = false :=
      fun ts m => List.any_eq_false.mpr fun k _ => by simp [Slot.has]
    have hin : ∀ x ∈ w.slots, ((s :: r :: others).filterMap (·.ticket)).any x.has = true ↔
        x ∈ s :: r :: others := fun x hx => hc.any_has_iff hd hx
    rw [hslots, (replace_slots (w := ⟨w.slots, p⟩) hgo' hc htickets).2,
      Work.Distinct.slots_insertBefore (w := ⟨w.slots, p⟩) hd hgo' hw ht, List.filter_append,
      List.filter_cons_of_pos (by rw [hnew]; rfl), List.filter_cons_of_neg, unlike]
    · congr 1
      · refine List.filter_eq_self.mpr fun x hx => ?_
        rw [Bool.not_eq_true', ← Bool.not_eq_true, hin x (by simp [hw, hx])]
        exact hdone x hx
      · congr 1
        refine List.filter_congr fun x hx => ?_
        rw [Bool.eq_iff_iff, Bool.not_eq_true', Bool.not_eq_true', ← Bool.not_eq_true,
          ← Bool.not_eq_true, hin x (by simp [hw, hx]), hrest x hx]
    · rw [Bool.not_eq_true', Bool.not_eq_false, hin s (by simp [hw])]
      exact List.mem_cons_self

theorem classesBy_first {rest : List Slot} (hrule : s.node.isRule = true) :
    classesBy (·.node.signature) ((s :: rest).filter (·.node.isRule)) =
      (s :: rest.filter (alike s)) ::
        classesBy (·.node.signature) ((unlike s rest).filter (·.node.isRule)) := by
  rw [List.filter_cons_of_pos (p := fun r : Slot => r.node.isRule) hrule, classesBy_cons, List.filter_filter,
    List.filter_filter, unlike, List.filter_filter]
  congr 2
  refine List.filter_congr fun r _ => ?_
  cases hr : r.node.isRule <;> simp [alike, hr]

theorem foldl_merge_nodes (hgo : w.stopped = false) (hd : w.Distinct) (hw : w.slots = l ++ slots)
    (hticketed : ∀ r ∈ slots, ∃ t, r.ticket = some t) :
    ((classesBy (·.node.signature) (slots.filter (·.node.isRule))).foldl
        (merge Factory.clone) w).nodes =
      l.map (·.node) ++ (groups slots).map Group.standIn := by
  induction slots using groups.induct generalizing w l with
  | case1 => simp [classesBy, groups, Work.nodes, hw]
  | case2 s rest hrule ih =>
    have hc := class_of_first hw hd hticketed hrule
    obtain ⟨s', hs', hmerged⟩ := merge_first hw hd hgo hc
    have hrest : ∀ r ∈ unlike s rest, ∃ t, r.ticket = some t := fun r hr =>
      hticketed r (List.mem_cons_of_mem s (List.mem_of_mem_filter hr))
    rw [classesBy_first hrule, List.foldl_cons, groups_cons_of_isRule hrule,
      ih (l := l ++ [s']) (merge_goes_on Factory.clone_obliging hgo hc)
        (merge_frame Factory.clone hd hc).1 (by rw [hmerged]; simp) hrest]
    simp [hs']
  | case3 s rest hrule ih =>
    rw [List.filter_cons_of_neg (p := fun r : Slot => r.node.isRule) hrule, groups_cons_of_not_isRule hrule,
      ih (l := l ++ [s]) hgo hd (by rw [hw]; simp) fun r hr => hticketed r (by simp [hr])]
    simp [Group.standIn]

/-- Collapsing leaves one child of each group. -/
theorem level_nodes {p : Progress} (hgo : p.stopped = false) (ns : List Node) :
    (level Factory.clone p ns).1 = (groups (Slot.number ns)).map Group.standIn :=
  foldl_merge_nodes (w := Work.start p ns) (l := []) hgo (Work.distinct_start p ns) rfl
    fun _ => Slot.exists_ticket_of_mem_numberFrom

theorem pairwise_level {p : Progress} (hgo : p.stopped = false) (ns : List Node) :
    ((level Factory.clone p ns).1.filter isRule).Pairwise
      fun m m' => m.signature ≠ m'.signature := by
  rw [level_nodes hgo]
  exact pairwise_standIn _

theorem level_eq_self {p : Progress} (hgo : p.stopped = false) {ns : List Node}
    (h : (ns.filter isRule).Pairwise fun n m => n.signature ≠ m.signature) :
    (level Factory.clone p ns).1 = ns := by
  have hnodes : (Slot.number ns).map (·.node) = ns := Slot.map_node_numberFrom 0 ns
  rw [level_nodes hgo, standIn_of_pairwise, hnodes]
  rw [← hnodes, List.filter_map, List.pairwise_map] at h
  exact h

theorem pairwise_of_length_level {p : Progress} (hgo : p.stopped = false) {ns : List Node}
    (h : (level Factory.clone p ns).1.length = ns.length) :
    (ns.filter isRule).Pairwise fun n m => n.signature ≠ m.signature := by
  have hnodes : (Slot.number ns).map (·.node) = ns := Slot.map_node_numberFrom 0 ns
  have hlength : (Slot.number ns).length = ns.length := by
    simpa using congrArg List.length hnodes
  rw [level_nodes hgo, List.length_map, ← hlength] at h
  rw [← hnodes, List.filter_map, List.pairwise_map]
  exact pairwise_of_length_groups h

/-- What is left after collapsing is a child as it was, or a rule with copies of what a rule
    among them holds. -/
theorem exists_of_mem_level {p : Progress} (hgo : p.stopped = false) {ns : List Node} {m : Node}
    (hm : m ∈ (level Factory.clone p ns).1) :
    ∃ n ∈ ns, m = n ∨ (n.isRule = true ∧ m.isRule = true ∧ m.nodes = copyAll n.nodes) := by
  rw [level_nodes hgo] at hm
  obtain ⟨g, hg, rfl⟩ := List.mem_map.mp hm
  refine ⟨g.first.node, Slot.mem_iff_number.mpr ⟨g.first, first_mem hg, rfl⟩, ?_⟩
  have hrule := Group.isRule_standIn hg
  unfold Group.standIn at hrule ⊢
  split
  · exact Or.inl rfl
  · rename_i hothers
    rw [hothers] at hrule
    exact Or.inr ⟨hrule.symm, rfl, rfl⟩

/-- A child is left as it is, or it is a rule and one with its signature is left. -/
theorem exists_mem_level {p : Progress} (hgo : p.stopped = false) {ns : List Node} {n : Node}
    (hn : n ∈ ns) : ∃ m ∈ (level Factory.clone p ns).1,
      m = n ∨ (m.isRule = true ∧ n.isRule = true ∧ m.signature = n.signature) := by
  obtain ⟨s, hs, rfl⟩ := Slot.mem_iff_number.mp hn
  obtain ⟨g, hg, hsg⟩ := List.mem_flatMap.mp ((perm_groups (Slot.number ns)).mem_iff.mpr hs)
  refine ⟨g.standIn, ?_, ?_⟩
  · rw [level_nodes hgo]
    exact List.mem_map_of_mem hg
  · have hrule := isRule_of_mem_members hg hsg
    cases hfirst : g.first.node.isRule with
    | true =>
      rw [members_of_isRule hg hfirst, List.mem_filter, alike_iff] at hsg
      exact Or.inr ⟨(Group.isRule_standIn hg).trans hfirst, hrule.trans hfirst,
        g.signature_standIn.trans hsg.2.1.symm⟩
    | false =>
      rw [members_of_not_isRule hg hfirst, List.mem_singleton] at hsg
      rw [Group.standIn, others_of_not_isRule hg hfirst, hsg]
      exact Or.inl rfl

/-- **Collapsing the children of a rule leaves one child of each group of them, and rules with
    different signatures.** -/
theorem level_eq_standIns {p : Progress} (hgo : p.stopped = false) (ns : List Node) :
    (level Factory.clone p ns).2.stopped = false ∧
      (∃ groups, Grouped ns groups ∧
        (level Factory.clone p ns).1 = groups.map Group.standIn) ∧
      ((level Factory.clone p ns).1.filter isRule).Pairwise
        fun m m' => m.signature ≠ m'.signature :=
  ⟨levelUnder_goes_on Factory.clone_obliging (.rule []) p ns hgo,
    ⟨groups (Slot.number ns), grouped_groups ns, level_nodes hgo ns⟩, pairwise_level hgo ns⟩

/-- The children `a {x: y} z: w; b {u: v} @c {} d {x: y} e {u: v}`. -/
def interleavedChildren : List Node :=
  [.block {} (.rule ['a']) [.declaration {} ⟨['x'], ['y'], false⟩],
    .declaration {} ⟨['z'], ['w'], false⟩,
    .block {} (.rule ['b']) [.declaration {} ⟨['u'], ['v'], false⟩],
    .block {} (.atRule ['c'] [] true) [],
    .block {} (.rule ['d']) [.declaration {} ⟨['x'], ['y'], false⟩],
    .block {} (.rule ['e']) [.declaration {} ⟨['u'], ['v'], false⟩]]

theorem level_interleavedChildren :
    Progress.stopped {} = false ∧
      (∃ groups, Grouped interleavedChildren groups ∧
        (level Factory.clone {} interleavedChildren).1 = groups.map Group.standIn) ∧
      (level Factory.clone {} interleavedChildren).1.length = 4 :=
  ⟨rfl, (level_eq_standIns rfl interleavedChildren).2.1, by decide +kernel⟩

end Collapse

end StyleNesting
