/-
  StyleNesting/Proofs/Factoring.lean
  ==================================
  **Factoring shared declarations changes no meaning.**  The members of a
  sharing group all hold its declarations, so a rule with the parts of all
  members may say them in their place (`mem_styles_iff_stripped`).  No
  declaration is in two groups (`pairwise_sharingGroups`): whatever the groups
  before it took away, a group still finds its declarations in its members.
-/
import StyleNesting.Pass.Factoring
import StyleNesting.Proofs.Cleanup
import StyleNesting.Proofs.Collapse

namespace StyleNesting

open Node

/-! ### Sharing groups -/

namespace Sharing

theorem mem_holdersFrom {d : Declaration} {k i : Nat} {contents : List (List Declaration)} :
    i ∈ holdersFrom d k contents ↔ ∃ j ds, i = k + j ∧ contents[j]? = some ds ∧ d ∈ ds := by
  induction contents generalizing k with
  | nil => simp [holdersFrom]
  | cons ds rest ih =>
    have hrest : i ∈ holdersFrom d (k + 1) rest ↔
        ∃ j ds', i = k + (j + 1) ∧ rest[j]? = some ds' ∧ d ∈ ds' := by
      rw [ih]
      simp only [Nat.add_assoc, Nat.add_comm 1]
    have hsplit : (∃ j ds', i = k + j ∧ (ds :: rest)[j]? = some ds' ∧ d ∈ ds') ↔
        (i = k ∧ d ∈ ds) ∨ i ∈ holdersFrom d (k + 1) rest := by
      rw [hrest]
      constructor
      · rintro ⟨j, ds', hi, hds', hd⟩
        cases j with
        | zero =>
          cases hds'
          exact Or.inl ⟨hi, hd⟩
        | succ j => exact Or.inr ⟨j, ds', hi, hds', hd⟩
      · rintro (⟨rfl, hd⟩ | ⟨j, ds', hi, hds', hd⟩)
        · exact ⟨0, ds, rfl, rfl, hd⟩
        · exact ⟨j + 1, ds', hi, hds', hd⟩
    rw [hsplit, holdersFrom]
    by_cases hd : d ∈ ds
    · simp [hd]
    · simp [hd]

theorem mem_holders {d : Declaration} {i : Nat} {contents : List (List Declaration)} :
    i ∈ holders contents d ↔ ∃ ds, contents[i]? = some ds ∧ d ∈ ds := by
  rw [holders, mem_holdersFrom]
  constructor
  · rintro ⟨j, ds, hi, hds, hd⟩
    rw [Nat.zero_add] at hi
    exact ⟨ds, hi ▸ hds, hd⟩
  · rintro ⟨ds, hds, hd⟩
    exact ⟨i, ds, (Nat.zero_add i).symm, hds, hd⟩

end Sharing

/-- The members of a group are the rules that hold any one of its declarations. -/
theorem members_of_mem_sharingGroups {rules : List Node} {g : SharingGroup}
    (hg : g ∈ sharingGroups rules) {d : Declaration} (hd : d ∈ g.declarations) :
    g.members = Sharing.holders (rules.map Node.declarations) d := by
  obtain ⟨members, -, rfl⟩ := List.mem_map.mp hg
  obtain ⟨s, hs, rfl⟩ := List.mem_map.mp hd
  rw [List.mem_filter, beq_iff_eq] at hs
  obtain ⟨e, -, he⟩ := List.mem_map.mp (List.mem_of_mem_filter hs.1)
  rw [← hs.2, ← he]

theorem nodup_insertBy {α : Type} (below : α → α → Bool) {x : α} {ys : List α} (hx : x ∉ ys)
    (hys : ys.Nodup) : (Text.insertBy below x ys).Nodup := by
  induction ys with
  | nil => simp [Text.insertBy]
  | cons y ys ih =>
    obtain ⟨hy, hys'⟩ := List.nodup_cons.mp hys
    unfold Text.insertBy
    split
    · exact List.nodup_cons.mpr ⟨hx, hys⟩
    · refine List.nodup_cons.mpr ⟨?_, ih (fun h => hx (by simp [h])) hys'⟩
      rw [Selector.mem_insertBy]
      rintro (rfl | h)
      · exact hx (by simp)
      · exact hy h

theorem nodup_sortBy {α : Type} (below : α → α → Bool) {xs : List α} (h : xs.Nodup) :
    (Text.sortBy below xs).Nodup := by
  induction xs with
  | nil => exact h
  | cons x xs ih =>
    obtain ⟨hx, hxs⟩ := List.nodup_cons.mp h
    exact nodup_insertBy below (fun hmem => hx ((Selector.mem_sortBy below).mp hmem)) (ih hxs)

/-- **No declaration is in two groups.** -/
theorem pairwise_sharingGroups (rules : List Node) :
    (sharingGroups rules).Pairwise fun g g' => ∀ d ∈ g.declarations, d ∉ g'.declarations := by
  have hmembers : (sharingGroups rules).Pairwise fun g g' => g.members ≠ g'.members := by
    rw [sharingGroups, List.pairwise_map]
    exact nodup_sortBy Sharing.indicesLe (nodup_eraseDups _)
  refine hmembers.imp_of_mem fun {g g'} hg hg' hne d hd hd' => hne ?_
  rw [members_of_mem_sharingGroups hg hd, members_of_mem_sharingGroups hg' hd']

namespace Factoring

/-! ### Drafts -/

theorem stopped_of_newDeclaration_none {p p' : Progress} {f : Factory} {reference : Node}
    {d : Declaration} (h : p.newDeclaration f reference d = (none, p')) : p'.stopped = true := by
  unfold Progress.newDeclaration at h
  split at h
  · rename_i hstopped
    cases h
    exact hstopped
  · simp only at h
    split at h
    · cases h
    · cases h
      rfl

theorem eq_of_newDeclaration_some {p p' : Progress} {f : Factory} {reference n : Node}
    {d : Declaration} (h : p.newDeclaration f reference d = (some n, p')) :
    (∃ o, n = .declaration o d) ∧ p'.stopped = false := by
  unfold Progress.newDeclaration at h
  split at h
  · cases h
  · rename_i hgo
    simp only [Factory.declaration] at h
    split at h
    · rename_i m hm
      cases h
      refine ⟨?_, eq_false_of_ne_true hgo⟩
      split at hm
      · cases hm
      · split at hm
        · rename_i o _
          cases hm
          exact ⟨o, rfl⟩
        · cases hm
    · cases h

/-- The drafts say what was asked for, unless the run has stopped. -/
theorem content_drafts (f : Factory) (first : Node) (ds : List Declaration) (p : Progress) :
    (drafts f first p ds).2.stopped = true ∨
      (drafts f first p ds).1.map content? = ds.map some := by
  induction ds generalizing p with
  | nil => exact Or.inr rfl
  | cons d ds ih =>
    unfold drafts
    split
    · rename_i hstopped
      exact Or.inl hstopped
    · split
      · exact Or.inl rfl
      · split
        · rename_i p' hnew
          exact Or.inl (stopped_of_newDeclaration_none hnew)
        · rename_i n p' hnew
          obtain ⟨⟨o, rfl⟩, -⟩ := eq_of_newDeclaration_some hnew
          rcases ih p' with hstopped | hcontent
          · exact Or.inl hstopped
          · exact Or.inr (by simp [content?, hcontent])

theorem newDeclaration_of_obliging {f : Factory} (hf : f.Obliging) {p : Progress}
    (hgo : p.stopped = false) {reference : Node} (href : reference.content?.isSome = true)
    (d : Declaration) : ∃ n p', p.newDeclaration f reference d = (some n, p') := by
  have horigin :
      ∃ o, f.originFrom? (Factory.declarationTemplate? reference reference) = some o := by
    rw [Factory.originFrom?, Factory.declarationTemplate?, if_pos href]
    cases f.keepsSource <;> exact ⟨_, rfl⟩
  obtain ⟨o, ho⟩ := horigin
  simp [Progress.newDeclaration, hgo, Factory.declaration, hf .declaration p.declarationCalls, ho]

theorem drafts_goes_on {f : Factory} (hf : f.Obliging) {first : Node} {ds : List Declaration}
    (hds : ∀ d ∈ ds, d ∈ first.declarations) {p : Progress} (hgo : p.stopped = false) :
    (drafts f first p ds).2.stopped = false := by
  induction ds generalizing p with
  | nil => exact hgo
  | cons d ds ih =>
    obtain ⟨c, hc, hcd⟩ := List.mem_filterMap.mp (hds d (by simp))
    have hfound : (first.nodes.find? (·.content? == some d)).isSome = true :=
      List.find?_isSome.mpr ⟨c, hc, by simp [hcd]⟩
    obtain ⟨reference, href⟩ := Option.isSome_iff_exists.mp hfound
    have hcontent : reference.content? = some d := by simpa using List.find?_some href
    obtain ⟨n, p', hnew⟩ := newDeclaration_of_obliging hf hgo (by rw [hcontent]; rfl) d
    simp only [drafts, hgo, href, hnew, Bool.false_eq_true, if_false]
    exact ih (fun d' hd' => hds d' (by simp [hd'])) (eq_of_newDeclaration_some hnew).2

theorem mem_stylesAll_of_content {ns : List Node} {ds : List Declaration}
    (h : ns.map content? = ds.map some) {sc : Scope} {x : Applied} :
    x ∈ stylesAll sc ns ↔ ∃ d ∈ ds, x ∈ sc.apply d := by
  induction ns generalizing ds with
  | nil =>
    have hds : ds = [] := by simpa using h.symm
    simp [hds, stylesAll]
  | cons n ns ih =>
    cases ds with
    | nil => cases h
    | cons d ds =>
      rw [List.map_cons, List.map_cons, List.cons.injEq] at h
      match n, h.1 with
      | .declaration o _, rfl =>
        simp [stylesAll, styles, ih h.2]

/-! ### Members without the declarations of their group -/

def stripped (ds : List Declaration) (n : Node) : Node :=
  n.setNodes (n.nodes.filter (!isOneOf ds ·))

theorem nodes_stripped (ds : List Declaration) (n : Node) :
    (stripped ds n).nodes = n.nodes.filter (!isOneOf ds ·) := by
  cases n <;> rfl

theorem stripped_stripped (ds : List Declaration) (n : Node) :
    stripped ds (stripped ds n) = stripped ds n := by
  cases n <;> simp [stripped, setNodes, nodes, List.filter_filter]

theorem isOneOf_iff {ds : List Declaration} {n : Node} :
    isOneOf ds n = true ↔ ∃ d ∈ ds, n.content? = some d := by
  unfold isOneOf
  cases n.content? with
  | none => simp
  | some d => simp

theorem mem_declarations_stripped {ds : List Declaration} {n : Node} {d : Declaration}
    (hd : d ∈ n.declarations) (hout : d ∉ ds) : d ∈ (stripped ds n).declarations := by
  obtain ⟨c, hc, hcd⟩ := List.mem_filterMap.mp hd
  refine List.mem_filterMap.mpr ⟨c, ?_, hcd⟩
  rw [nodes_stripped, List.mem_filter]
  refine ⟨hc, ?_⟩
  simp [isOneOf, hcd, hout]

theorem styled_stripped {ok : Text → Prop} {n : Node} (h : n.Styled ok) (ds : List Declaration) :
    (stripped ds n).Styled ok :=
  h.setNodes fun m hm => h.nodes m (List.mem_of_mem_filter hm)

/-- A rule that holds some declarations says them of its parts, and beside them
    what it says without them. -/
theorem mem_styles_iff_stripped {ds : List Declaration} {n : Node} (hn : n.isRule = true)
    (hds : ∀ d ∈ ds, d ∈ n.declarations) {sc : Scope} {x : Applied} :
    x ∈ n.styles sc ↔ x ∈ (stripped ds n).styles sc ∨
      ∃ q ∈ n.parts, ∃ P ∈ sc.ofPart q, ∃ d ∈ ds, x ∈ (Scope.below sc.context P).apply d := by
  have hsplit : ∀ sc', x ∈ stylesAll sc' n.nodes ↔
      x ∈ stylesAll sc' (stripped ds n).nodes ∨ ∃ d ∈ ds, x ∈ sc'.apply d := by
    intro sc'
    rw [nodes_stripped, mem_stylesAll, mem_stylesAll]
    constructor
    · rintro ⟨c, hc, hx⟩
      cases hone : isOneOf ds c with
      | false => exact Or.inl ⟨c, List.mem_filter.mpr ⟨hc, by simp [hone]⟩, hx⟩
      | true =>
        obtain ⟨d, hd, hcd⟩ := isOneOf_iff.mp hone
        match c, hcd with
        | .declaration _ _, rfl => exact Or.inr ⟨d, hd, hx⟩
    · rintro (⟨c, hc, hx⟩ | ⟨d, hd, hx⟩)
      · exact ⟨c, List.mem_of_mem_filter hc, hx⟩
      · obtain ⟨c, hc, hcd⟩ := List.mem_filterMap.mp (hds d hd)
        match c, hcd with
        | .declaration o _, rfl => exact ⟨.declaration o d, hc, hx⟩
  have hstripped : (stripped ds n).isRule = true := (isRule_setNodes _ n).trans hn
  have hparts : (stripped ds n).parts = n.parts := parts_setNodes _ n
  rw [mem_styles_of_isRule hn, mem_styles_of_isRule hstripped, hparts]
  simp only [hsplit, and_or_left, exists_or]

/-! ### Moving the declarations of a group -/

variable {w : Work} {ts : List Nat} {ds : List Declaration} {t : Nat}

/-- The child with ticket `t` is a rule that holds all of `ds`. -/
def Holds (w : Work) (ds : List Declaration) (t : Nat) : Prop :=
  ∃ n, w.get? t = some n ∧ n.isRule = true ∧ ∀ d ∈ ds, d ∈ n.declarations

theorem Holds.of_slots {w' : Work} (hslots : w'.slots = w.slots) (h : Holds w ds t) :
    Holds w' ds t := by
  obtain ⟨n, hn, hrule, hdecls⟩ := h
  exact ⟨n, by rwa [Work.get?, hslots], hrule, hdecls⟩

theorem Holds.mem_tickets (h : Holds w ds t) : t ∈ w.tickets := by
  obtain ⟨n, hn, -, -⟩ := h
  exact Work.mem_tickets_of_get? hn

/-- A slot after the declarations `ds` were taken out of the children `ts`. -/
def mark (ds : List Declaration) (ts : List Nat) (s : Slot) : Slot :=
  if ts.any s.has then { s with node := stripped ds s.node } else s

@[simp]
theorem ticket_mark (ds : List Declaration) (ts : List Nat) (s : Slot) :
    (mark ds ts s).ticket = s.ticket := by
  unfold mark
  split <;> rfl

@[simp]
theorem has_mark (ds : List Declaration) (ts : List Nat) (s : Slot) (t : Nat) :
    (mark ds ts s).has t = s.has t := by rw [Slot.has, Slot.has, ticket_mark]

theorem mark_cons (ds : List Declaration) (t : Nat) (ts : List Nat) (s : Slot) :
    mark ds (t :: ts) s = mark ds ts (mark ds [t] s) := by
  unfold mark
  cases ht : s.has t with
  | false => simp [ht]
  | true =>
    have hhas : ∀ k, Slot.has k { s with node := stripped ds s.node } = s.has k := fun _ => rfl
    simp only [List.any_cons, ht, Bool.true_or, if_true, List.any_nil, Bool.or_false, hhas,
      stripped_stripped]
    split <;> rfl

theorem strip_slots (ds : List Declaration) (hgo : w.stopped = false) (ht : t ∈ w.tickets) :
    (strip ds w t).stopped = false ∧ (strip ds w t).slots = w.slots.map (mark ds [t]) := by
  obtain ⟨n, hn⟩ := Work.exists_get?_of_mem_tickets ht
  simp only [strip, hgo, hn, Bool.false_eq_true, if_false]
  refine ⟨hgo, List.map_congr_left fun s _ => ?_⟩
  simp [mark, stripped]

theorem foldl_strip_slots (hgo : w.stopped = false) (hts : ∀ t ∈ ts, t ∈ w.tickets) :
    (ts.foldl (strip ds) w).stopped = false ∧
      (ts.foldl (strip ds) w).slots = w.slots.map (mark ds ts) := by
  induction ts generalizing w with
  | nil =>
    have hid : mark ds [] = id := funext fun _ => rfl
    exact ⟨hgo, by simp [hid]⟩
  | cons t ts ih =>
    obtain ⟨hgo', hslots⟩ := strip_slots ds hgo (hts t (by simp))
    have htickets : (strip ds w t).tickets = w.tickets := by
      rw [Work.tickets, hslots, List.filterMap_map, Work.tickets]
      exact List.filterMap_congr fun s _ => ticket_mark ds [t] s
    obtain ⟨hgo'', hslots'⟩ := ih hgo' fun k hk => htickets ▸ hts k (by simp [hk])
    refine ⟨hgo'', ?_⟩
    rw [List.foldl_cons, hslots', hslots, List.map_map]
    exact List.map_congr_left fun s _ => (mark_cons ds t ts s).symm

theorem foldl_strip_of_stopped (h : w.stopped = true) : ts.foldl (strip ds) w = w := by
  induction ts with
  | nil => rfl
  | cons t ts ih => rw [List.foldl_cons, strip, if_pos h, ih]

/-- A group is moved in full, to the front of its first member, or not at all if it has no
    members or the run stops. -/
theorem factorGroup_slots_head (f : Factory) (tickets : List Nat) (g : SharingGroup)
    (hts : g.members.filterMap (tickets[·]?) = ts) (htickets : ∀ t ∈ ts, t ∈ w.tickets) :
    ((factorGroup f tickets w g).slots = w.slots ∧
        (ts = [] ∨ (factorGroup f tickets w g).stopped = true)) ∨
      ∃ o p drafted t, ts.head? = some t ∧ p.stopped = false ∧
        drafted.map content? = g.declarations.map some ∧
        (factorGroup f tickets w g).slots = (ts.foldl (strip g.declarations)
          (Work.insertBefore ⟨w.slots, p⟩ t
            (.block o (.rule (Collapse.jointSelector (ts.filterMap w.get?))) drafted))).slots := by
  simp only [factorGroup, hts]
  match ts, htickets with
  | [], _ => exact Or.inl ⟨rfl, Or.inl rfl⟩
  | t :: rest, htickets =>
    obtain ⟨first, hfirst⟩ := Work.exists_get?_of_mem_tickets (htickets t (by simp))
    simp only [hfirst]
    split
    · rename_i p hnew
      exact Or.inl ⟨rfl, Or.inr (Progress.stopped_of_newRule_none hnew)⟩
    · rename_i n p hnew
      obtain ⟨⟨o, rfl⟩, -, -⟩ := Progress.eq_of_newRule_some hnew
      cases hstop : (drafts f first p g.declarations).2.stopped with
      | true =>
        have hstopped : Work.stopped ⟨w.slots, (drafts f first p g.declarations).2⟩ = true := hstop
        have hinsert : ∀ m, Work.insertBefore ⟨w.slots, (drafts f first p g.declarations).2⟩ t m =
            ⟨w.slots, (drafts f first p g.declarations).2⟩ := fun m => if_pos hstopped
        left
        simp [hinsert, foldl_strip_of_stopped hstopped, hstopped]
      | false =>
        rcases content_drafts f first g.declarations p with hstopped | hcontent
        · rw [hstop] at hstopped
          cases hstopped
        · refine Or.inr ⟨o, _, _, t, by simp, hstop, hcontent, ?_⟩
          split <;> rfl

theorem factorGroup_slots (f : Factory) (tickets : List Nat) (g : SharingGroup)
    (hts : g.members.filterMap (tickets[·]?) = ts) (htickets : ∀ t ∈ ts, t ∈ w.tickets) :
    ((factorGroup f tickets w g).slots = w.slots ∧
        (ts = [] ∨ (factorGroup f tickets w g).stopped = true)) ∨
      ∃ o p drafted, ∃ t ∈ ts, p.stopped = false ∧ drafted.map content? = g.declarations.map some ∧
        (factorGroup f tickets w g).slots = (ts.foldl (strip g.declarations)
          (Work.insertBefore ⟨w.slots, p⟩ t
            (.block o (.rule (Collapse.jointSelector (ts.filterMap w.get?))) drafted))).slots := by
  refine (factorGroup_slots_head f tickets g hts htickets).imp_right ?_
  rintro ⟨o, p, drafted, t, ht, hmoved⟩
  exact ⟨o, p, drafted, t, List.mem_of_mem_head? ht, hmoved⟩

/-- The siblings after a group was moved: the new rule, and the old ones
    without the declarations of the group. -/
theorem mem_slots_moved (hgo : w.stopped = false) (hts : ∀ k ∈ ts, k ∈ w.tickets)
    (ht : t ∈ w.tickets) {m : Node} {r : Slot} :
    r ∈ (ts.foldl (strip ds) (w.insertBefore t m)).slots ↔
      r = ⟨none, m⟩ ∨ ∃ s ∈ w.slots, r = mark ds ts s := by
  have hnew : mark ds ts ⟨none, m⟩ = ⟨none, m⟩ := by simp [mark, Slot.has]
  rw [(foldl_strip_slots (Work.stopped_insertBefore hgo ht) (by simpa using hts)).2,
    List.mem_map]
  simp only [Work.mem_insertBefore_slots hgo ht, or_and_right, exists_or, exists_eq_left, hnew,
    eq_comm]

theorem stopped_moved (ds : List Declaration) (hgo : w.stopped = false)
    (hts : ∀ k ∈ ts, k ∈ w.tickets) (ht : t ∈ w.tickets) (m : Node) :
    (ts.foldl (strip ds) (w.insertBefore t m)).stopped = false :=
  (foldl_strip_slots (Work.stopped_insertBefore hgo ht) (by simpa using hts)).1

theorem distinct_moved (ds : List Declaration) (hd : w.Distinct) (hgo : w.stopped = false)
    (hts : ∀ k ∈ ts, k ∈ w.tickets) (ht : t ∈ w.tickets) (m : Node) :
    (ts.foldl (strip ds) (w.insertBefore t m)).Distinct := by
  have heq : (ts.foldl (strip ds) (w.insertBefore t m)).tickets = w.tickets := by
    rw [Work.tickets,
      (foldl_strip_slots (Work.stopped_insertBefore hgo ht) (by simpa using hts)).2,
      List.filterMap_map, ← Work.tickets_insertBefore w t m, Work.tickets]
    exact List.filterMap_congr fun s _ => ticket_mark ds ts s
  rwa [Work.Distinct, heq]

theorem moved_keeps {ok : Text → Prop} (hd : w.Distinct) (hs : w.Styled ok)
    (hgo : w.stopped = false) (hholds : ∀ k ∈ ts, Holds w ds k) (ht : t ∈ ts) {m : Node}
    (hm : m.Styled ok)
    (hnew : ∀ sc x, x ∈ m.styles sc ↔ ∃ n ∈ ts.filterMap w.get?, ∃ q ∈ n.parts,
      ∃ P ∈ sc.ofPart q, ∃ d ∈ ds, x ∈ (Scope.below sc.context P).apply d) :
    Work.Keeps ok w (ts.foldl (strip ds) (w.insertBefore t m)) := by
  have htickets : ∀ k ∈ ts, k ∈ w.tickets := fun k hk => (hholds k hk).mem_tickets
  have hmem : ∀ {r : Slot}, r ∈ (ts.foldl (strip ds) (w.insertBefore t m)).slots ↔ _ :=
    mem_slots_moved hgo htickets (htickets t ht)
  refine ⟨?_, ?_, ?_⟩
  · exact distinct_moved ds hd hgo htickets (htickets t ht) m
  · intro r hr
    rcases hmem.mp hr with rfl | ⟨s, hsm, rfl⟩
    · exact hm
    · unfold mark
      split
      · exact styled_stripped (hs s hsm) ds
      · exact hs s hsm
  · intro sc x
    -- a member says what is left of it and what the new rule says of its parts
    have hmember : ∀ s ∈ w.slots, ts.any s.has = true → s.node ∈ ts.filterMap w.get? ∧
        (x ∈ s.node.styles sc ↔ x ∈ (stripped ds s.node).styles sc ∨ ∃ q ∈ s.node.parts,
          ∃ P ∈ sc.ofPart q, ∃ d ∈ ds, x ∈ (Scope.below sc.context P).apply d) := by
      intro s hsm hany
      obtain ⟨k, hk, hsk⟩ := List.any_eq_true.mp hany
      obtain ⟨n, hn, hrule, hdecls⟩ := hholds k hk
      have hnode : s.node = n := hd.node_eq hn hsm hsk
      subst hnode
      exact ⟨List.mem_filterMap.mpr ⟨k, hk, hn⟩, mem_styles_iff_stripped hrule hdecls⟩
    rw [Work.says_iff, Work.says_iff]
    constructor
    · rintro ⟨r, hr, hx⟩
      rcases hmem.mp hr with rfl | ⟨s, hsm, rfl⟩
      · obtain ⟨n, hn, hx⟩ := (hnew sc x).mp hx
        obtain ⟨k, hk, hget⟩ := List.mem_filterMap.mp hn
        obtain ⟨s, hsm, hsk, rfl⟩ := Work.exists_of_get? hget
        exact ⟨s, hsm, (hmember s hsm (List.any_eq_true.mpr ⟨k, hk, hsk⟩)).2.mpr (Or.inr hx)⟩
      · cases hany : ts.any s.has with
        | true =>
          simp only [mark, hany, if_true] at hx
          exact ⟨s, hsm, (hmember s hsm hany).2.mpr (Or.inl hx)⟩
        | false =>
          simp only [mark, hany, Bool.false_eq_true, if_false] at hx
          exact ⟨s, hsm, hx⟩
    · rintro ⟨s, hsm, hx⟩
      have hmark : mark ds ts s ∈ (ts.foldl (strip ds) (w.insertBefore t m)).slots :=
        hmem.mpr (Or.inr ⟨s, hsm, rfl⟩)
      cases hany : ts.any s.has with
      | true =>
        obtain ⟨hn, hsplit⟩ := hmember s hsm hany
        rcases hsplit.mp hx with hrest | hshared
        · exact ⟨_, hmark, by simpa [mark, hany] using hrest⟩
        · exact ⟨_, hmem.mpr (Or.inl rfl), (hnew sc x).mpr ⟨s.node, hn, hshared⟩⟩
      | false => exact ⟨_, hmark, by simpa [mark, hany] using hx⟩

theorem Holds.moved {ds' : List Declaration} {k : Nat} (hgo : w.stopped = false)
    (hts : ∀ k ∈ ts, k ∈ w.tickets) (ht : t ∈ ts) {m : Node}
    (hd' : (ts.foldl (strip ds) (w.insertBefore t m)).Distinct)
    (hapart : ∀ d ∈ ds', d ∉ ds) (h : Holds w ds' k) :
    Holds (ts.foldl (strip ds) (w.insertBefore t m)) ds' k := by
  obtain ⟨n, hn, hrule, hdecls⟩ := h
  obtain ⟨s, hsm, hsk, rfl⟩ := Work.exists_of_get? hn
  have hmark : mark ds ts s ∈ (ts.foldl (strip ds) (w.insertBefore t m)).slots :=
    (mem_slots_moved hgo hts (hts t ht)).mpr (Or.inr ⟨s, hsm, rfl⟩)
  refine ⟨_, hd'.get?_eq hmark (by simpa using hsk), ?_, ?_⟩
  · unfold mark
    split
    · exact (isRule_setNodes _ s.node).trans hrule
    · exact hrule
  · intro d hdd
    unfold mark
    split
    · exact mem_declarations_stripped (hdecls d hdd) (hapart d hdd)
    · exact hdecls d hdd

def memberTickets (tickets : List Nat) (g : SharingGroup) : List Nat :=
  g.members.filterMap (tickets[·]?)

/-- Moving one group leaves the tickets distinct, and the members of other groups
    with what they share. -/
theorem factorGroup_frame (f : Factory) (tickets : List Nat) (g : SharingGroup) (hd : w.Distinct)
    (hholds : ∀ t ∈ memberTickets tickets g, Holds w g.declarations t) :
    (factorGroup f tickets w g).Distinct ∧ ∀ ds k, (∀ d ∈ ds, d ∉ g.declarations) →
      Holds w ds k → Holds (factorGroup f tickets w g) ds k := by
  have htickets : ∀ t ∈ memberTickets tickets g, t ∈ w.tickets :=
    fun t ht => (hholds t ht).mem_tickets
  rcases factorGroup_slots f tickets g rfl htickets with
    ⟨hnone, -⟩ | ⟨o, p, drafted, t, ht, hgo, -, hslots⟩
  · exact ⟨hd.of_slots hnone, fun ds k _ hk => hk.of_slots hnone⟩
  · have hmoved := fun m =>
      distinct_moved (w := ⟨w.slots, p⟩) g.declarations hd hgo htickets (htickets t ht) m
    refine ⟨(hmoved _).of_slots hslots, fun ds k hapart hk => ?_⟩
    exact (Holds.moved (w := ⟨w.slots, p⟩) hgo htickets ht (hmoved _) hapart hk).of_slots hslots

theorem factorGroup_goes_on {f : Factory} (hf : f.Obliging) (tickets : List Nat) (g : SharingGroup)
    (hgo : w.stopped = false)
    (hholds : ∀ t ∈ memberTickets tickets g, Holds w g.declarations t) :
    (factorGroup f tickets w g).stopped = false := by
  have htickets : ∀ t ∈ memberTickets tickets g, t ∈ w.tickets :=
    fun t ht => (hholds t ht).mem_tickets
  rw [memberTickets] at hholds htickets
  unfold factorGroup
  match g.members.filterMap (tickets[·]?), hholds, htickets with
  | [], _, _ => exact hgo
  | t :: rest, hholds, htickets =>
    obtain ⟨first, hfirst, hrule, hdecls⟩ := hholds t (by simp)
    obtain ⟨n, p, hnew⟩ := Progress.newRule_of_obliging hf hgo hrule
      (Collapse.jointSelector ((t :: rest).filterMap w.get?))
    obtain ⟨-, -, hgo'⟩ := Progress.eq_of_newRule_some hnew
    have hdrafts := drafts_goes_on hf hdecls hgo'
    have hmoved := fun m => stopped_moved (w := ⟨w.slots, _⟩) g.declarations hdrafts htickets
      (htickets t (by simp)) m
    simp only [hfirst, hnew]
    split
    · exact hmoved _
    · exact hmoved _

/-- **What moving one group keeps, moving all of them keeps.**  Each group finds its
    declarations in its members, and the groups still to come are in view. -/
theorem foldl_factorGroup (f : Factory) (tickets : List Nat)
    (Inv : List SharingGroup → Work → Prop)
    (hstop : ∀ w g gs, w.stopped = true → Inv (g :: gs) w → Inv gs w)
    (hgroup : ∀ w g gs, w.Distinct → w.stopped = false →
      (∀ t ∈ memberTickets tickets g, Holds w g.declarations t) →
      (∀ g' ∈ gs, ∀ d ∈ g.declarations, d ∉ g'.declarations) → Inv (g :: gs) w →
      Inv gs (factorGroup f tickets w g))
    {groups : List SharingGroup} (hd : w.Distinct)
    (hholds : ∀ g ∈ groups, ∀ t ∈ memberTickets tickets g, Holds w g.declarations t)
    (hapart : groups.Pairwise fun g g' => ∀ d ∈ g.declarations, d ∉ g'.declarations)
    (hw : Inv groups w) :
    Inv [] (groups.foldl (fun w' g => if w'.stopped then w' else factorGroup f tickets w' g) w) := by
  induction groups generalizing w with
  | nil => exact hw
  | cons g groups ih =>
    obtain ⟨hfirst, hrest⟩ := List.pairwise_cons.mp hapart
    rw [List.foldl_cons]
    by_cases hstopped : w.stopped = true
    · rw [if_pos hstopped]
      exact ih hd (fun g' hg' => hholds g' (by simp [hg'])) hrest (hstop w g groups hstopped hw)
    · rw [if_neg hstopped]
      -- no two groups have a declaration in common, so later groups keep theirs
      obtain ⟨hd', hframe⟩ := factorGroup_frame f tickets g hd (hholds g (by simp))
      apply ih hd' _ hrest
      · exact hgroup w g groups hd (eq_false_of_ne_true hstopped) (hholds g (by simp)) hfirst hw
      · intro g' hg' k hk
        exact hframe _ k (fun d hdg' hdg => hfirst g' hg' d hdg hdg')
          (hholds g' (by simp [hg']) k hk)

section Groups

variable {good : Text → Prop} (hgood : ∀ p, good p → Selector.Atom p)
include hgood

/-- **Moving one group** keeps what the siblings say. -/
theorem factorGroup_keeps (f : Factory) (tickets : List Nat) (g : SharingGroup) (hd : w.Distinct)
    (hs : w.Styled (Selector.AllParts good))
    (hholds : ∀ t ∈ memberTickets tickets g, Holds w g.declarations t) :
    Work.Keeps (Selector.AllParts good) w (factorGroup f tickets w g) := by
  have htickets : ∀ t ∈ memberTickets tickets g, t ∈ w.tickets :=
    fun t ht => (hholds t ht).mem_tickets
  rcases factorGroup_slots f tickets g rfl htickets with
    ⟨hnone, -⟩ | ⟨o, p, drafted, t, ht, hgo, hcontent, hslots⟩
  · exact (Work.Keeps.refl hd hs).of_slots hnone
  · have hrules : ∀ r ∈ (memberTickets tickets g).filterMap w.get?,
        r.Styled (Selector.AllParts good) := by
      intro r hr
      obtain ⟨k, -, hget⟩ := List.mem_filterMap.mp hr
      exact hs.get? hget
    have hnodes : ∀ c ∈ drafted, c.Styled (Selector.AllParts good) := by
      intro c hc
      have hsome : c.content? ∈ g.declarations.map some := hcontent ▸ List.mem_map_of_mem hc
      obtain ⟨d, -, hcd⟩ := List.mem_map.mp hsome
      match c, hcd with
      | .declaration o d, _ => exact styled_declaration o d
    have hstyled : (Node.block o (.rule (Collapse.jointSelector
        ((memberTickets tickets g).filterMap w.get?))) drafted).Styled (Selector.AllParts good) :=
      styled_rule.mpr ⟨Collapse.allParts_jointSelector hgood hrules, hnodes⟩
    have hmoved := moved_keeps (w := ⟨w.slots, p⟩) hd hs hgo hholds ht hstyled fun sc x => by
      rw [Collapse.mem_styles_joint hgood hrules]
      simp only [mem_stylesAll_of_content hcontent]
      rfl
    have hresume : Work.Keeps (Selector.AllParts good) w ⟨w.slots, p⟩ :=
      (Work.Keeps.refl hd hs).of_slots rfl
    exact (hresume.trans hmoved).of_slots hslots

end Groups

/-! ### The groups of some siblings -/

theorem getElem?_filterMap_ticket {slots : List Slot} (h : ∀ s ∈ slots, ∃ t, s.ticket = some t)
    (i : Nat) : (slots.filterMap (·.ticket))[i]? = slots[i]?.bind (·.ticket) := by
  induction slots generalizing i with
  | nil => rfl
  | cons s slots ih =>
    obtain ⟨t, ht⟩ := h s (by simp)
    rw [List.filterMap_cons_some ht]
    cases i with
    | zero => simp [ht]
    | succ i => simpa using ih (fun r hr => h r (by simp [hr])) i

/-- The tickets of the rules among some siblings stand for these rules, in order. -/
theorem bind_ruleTickets (p : Progress) (ns : List Node) (i : Nat) :
    (Work.start p ns).ruleTickets[i]?.bind (Work.start p ns).get? =
      (ns.filter Node.isRule)[i]? := by
  have hticket : ∀ s ∈ (Work.start p ns).slots.filter (·.node.isRule), ∃ t, s.ticket = some t :=
    fun s hs => Slot.exists_ticket_of_mem_numberFrom (List.mem_of_mem_filter hs)
  have hrules : ns.filter Node.isRule =
      ((Work.start p ns).slots.filter (·.node.isRule)).map (·.node) := by
    have hnodes : (Work.start p ns).slots.map (·.node) = ns := Work.nodes_start p ns
    have hfilter := congrArg (List.filter Node.isRule) hnodes
    rw [List.filter_map] at hfilter
    exact hfilter.symm
  rw [hrules, List.getElem?_map, Work.ruleTickets, getElem?_filterMap_ticket hticket]
  cases hs : ((Work.start p ns).slots.filter (·.node.isRule))[i]? with
  | none => rfl
  | some s =>
    have hmem := List.mem_of_getElem? hs
    obtain ⟨t, ht⟩ := hticket s hmem
    simp only [Option.bind_some, ht, Option.map_some]
    exact (Work.distinct_start p ns).get?_eq (List.mem_of_mem_filter hmem) (Slot.has_iff.mpr ht)

theorem exists_of_ruleTickets {p : Progress} {ns : List Node} {i t : Nat}
    (h : (Work.start p ns).ruleTickets[i]? = some t) :
    ∃ n, (Work.start p ns).get? t = some n ∧ (ns.filter Node.isRule)[i]? = some n := by
  have hmem : t ∈ (Work.start p ns).tickets :=
    (List.filter_sublist.filterMap _).subset (List.mem_of_getElem? h)
  obtain ⟨n, hget⟩ := Work.exists_get?_of_mem_tickets hmem
  refine ⟨n, hget, ?_⟩
  rw [← bind_ruleTickets p ns i, h, Option.bind_some, hget]

theorem holds_start (p : Progress) (ns : List Node) {g : SharingGroup}
    (hg : g ∈ sharingGroups (ns.filter Node.isRule)) {t : Nat}
    (ht : t ∈ memberTickets (Work.start p ns).ruleTickets g) :
    Holds (Work.start p ns) g.declarations t := by
  obtain ⟨i, hi, hti⟩ := List.mem_filterMap.mp ht
  obtain ⟨n, hget, hn⟩ := exists_of_ruleTickets hti
  refine ⟨n, hget, ?_, fun d hd => ?_⟩
  · have hmem : n ∈ ns.filter Node.isRule := List.mem_of_getElem? hn
    exact (List.mem_filter.mp hmem).2
  · rw [members_of_mem_sharingGroups hg hd, Sharing.mem_holders] at hi
    obtain ⟨ds, hds, hdds⟩ := hi
    rw [List.getElem?_map, hn] at hds
    cases hds
    exact hdds

/-- `foldl_factorGroup` from the start of the work on some siblings. -/
theorem factorSiblings_induction (f : Factory) (p : Progress) (ns : List Node)
    (Inv : List SharingGroup → Work → Prop)
    (hstop : ∀ w g gs, w.stopped = true → Inv (g :: gs) w → Inv gs w)
    (hgroup : ∀ w g gs, w.Distinct → w.stopped = false →
      (∀ t ∈ memberTickets (Work.start p ns).ruleTickets g, Holds w g.declarations t) →
      (∀ g' ∈ gs, ∀ d ∈ g.declarations, d ∉ g'.declarations) → Inv (g :: gs) w →
      Inv gs (factorGroup f (Work.start p ns).ruleTickets w g))
    (hstart : Inv (sharingGroups (ns.filter Node.isRule)) (Work.start p ns)) :
    ∃ w, Inv [] w ∧ factorSiblings f p ns = w.finish :=
  ⟨_, foldl_factorGroup f _ Inv hstop hgroup (Work.distinct_start p ns)
    (fun _ hg _ ht => holds_start p ns hg ht) (pairwise_sharingGroups _) hstart, rfl⟩

/-- What moving a group keeps, factoring siblings keeps. -/
theorem factorSiblings_preserves (f : Factory) {P : List Node → Prop}
    (hgroup : ∀ tickets w g, w.Distinct →
      (∀ t ∈ memberTickets tickets g, Holds w g.declarations t) → P w.nodes →
      P (factorGroup f tickets w g).nodes) (p : Progress) {ns : List Node} (hns : P ns) :
    P (factorSiblings f p ns).1 := by
  obtain ⟨w, hw, hfinish⟩ := factorSiblings_induction f p ns (fun _ w => P w.nodes)
    (fun _ _ _ _ hw => hw) (fun w g _ hd _ hholds _ hw => hgroup _ w g hd hholds hw)
    (by rwa [Work.nodes_start])
  rw [hfinish]
  exact hw

theorem factorSiblings_goes_on {f : Factory} (hf : f.Obliging) (p : Progress) (ns : List Node)
    (hgo : p.stopped = false) : (factorSiblings f p ns).2.stopped = false := by
  obtain ⟨w, hw, hfinish⟩ := factorSiblings_induction f p ns (fun _ w => w.stopped = false)
    (fun _ _ _ _ hw => hw)
    (fun w g _ _ hgo hholds _ _ => factorGroup_goes_on hf _ g hgo hholds) hgo
  rw [hfinish]
  exact hw

theorem level_goes_on {f : Factory} (hf : f.Obliging) (p : Progress) (ns : List Node)
    (hgo : p.stopped = false) : (level f p ns).2.stopped = false := by
  have hfactored := factorSiblings_goes_on hf p ns hgo
  simp only [level]
  split
  · exact hgo
  · rw [if_neg (by simp [hfactored]), Progress.stopped, Cleanup.failure_among]
    exact hfactored

section Level

variable {good : Text → Prop} (hgood : ∀ p, good p → Selector.Atom p)
include hgood

theorem factorSiblings_same (f : Factory) (p : Progress) {ns : List Node}
    (hns : ∀ n ∈ ns, n.Styled (Selector.AllParts good)) :
    SameSiblings (Selector.AllParts good) ns (factorSiblings f p ns).1 := by
  obtain ⟨w, hw, hfinish⟩ := factorSiblings_induction f p ns
    (fun _ w => Work.Keeps (Selector.AllParts good) (Work.start p ns) w)
    (fun _ _ _ _ hw => hw)
    (fun w g _ hd _ hholds _ hw => hw.trans (factorGroup_keeps hgood f _ g hd hw.styled hholds))
    (Work.Keeps.refl (Work.distinct_start p ns) (Work.styled_start hns))
  rw [hfinish]
  exact hw.finish

theorem level_same (f : Factory) (p : Progress) {ns : List Node}
    (hns : ∀ n ∈ ns, n.Styled (Selector.AllParts good)) :
    SameSiblings (Selector.AllParts good) ns (level f p ns).1 := by
  have hfactored := factorSiblings_same hgood f p hns
  simp only [level]
  split
  · exact ⟨hns, fun _ _ => Iff.rfl⟩
  · split
    · exact hfactored
    · have hclean := Cleanup.among_same (factorSiblings f p ns).2 hfactored.styled
      exact ⟨hclean.styled, fun sc x => (hclean.same sc x).trans (hfactored.same sc x)⟩

end Level

end Factoring

/-- **Factoring shared declarations changes no meaning.** -/
theorem conserves_factorDeclarations {good : Text → Prop} (hgood : ∀ p, good p → Selector.Atom p)
    (f : Factory) : Conserves (Selector.AllParts good) (factorDeclarations f) :=
  conserves_unless_stopped (fun _ p _ hns => Factoring.level_same hgood f p hns) Node.height

theorem factorDeclarations_goes_on {f : Factory} (hf : f.Obliging) (p : Progress) (n : Node)
    (hgo : p.stopped = false) : (factorDeclarations f p n).2.stopped = false := by
  rw [factorDeclarations, if_neg (by simp [hgo])]
  exact topDown_goes_on (fun _ p ns hp => Factoring.level_goes_on hf p ns hp) _ hgo n

end StyleNesting
