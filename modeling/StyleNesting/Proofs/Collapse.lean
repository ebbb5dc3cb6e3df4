/-
  StyleNesting/Proofs/Collapse.lean
  =================================
  **Collapsing siblings changes no meaning.**  A signature determines what a
  block says (`mem_stylesAll_iff_of_signature`), so the rules of a class say the
  same things, each of its own parts.  The rule that replaces them has all their
  parts (`mem_styles_joint`), and it says those things once.

  Classes do not overlap: while one class is replaced, the members of the
  classes still to come stay what they are.
-/
import StyleNesting.Pass.Collapse
import StyleNesting.Proofs.Parts
import StyleNesting.Proofs.Siblings

namespace StyleNesting

open Node

/-! ### What a signature determines -/

mutual
/-- What a child with a given fingerprint says. -/
def Fingerprint.styles (sc : Scope) : Fingerprint → List Applied
  | .rule s ds gs =>
    ds.flatMap (sc.enter (.rule s)).apply ++ Fingerprint.stylesAll (sc.enter (.rule s)) gs
  | .atRule name params b ds gs =>
    ds.flatMap (sc.enter (.atRule name params b)).apply ++
      Fingerprint.stylesAll (sc.enter (.atRule name params b)) gs
  | .plain _ => []
def Fingerprint.stylesAll (sc : Scope) : List Fingerprint → List Applied
  | [] => []
  | g :: gs => Fingerprint.styles sc g ++ Fingerprint.stylesAll sc gs
end

section Signature

variable {ok : Text → Prop}

theorem mem_sortedDeclarations {ns : List Node} {d : Declaration} :
    d ∈ sortedDeclarations ns ↔ d ∈ ns.filterMap content? := Selector.mem_sortBy Declaration.le

mutual
theorem mem_styles_iff_fingerprint (sc : Scope) (x : Applied) : ∀ n : Node, n.Styled ok →
    (x ∈ n.styles sc ↔ (∃ d, n.content? = some d ∧ x ∈ sc.apply d) ∨
      ∃ g, n.fingerprint? = some g ∧ x ∈ g.styles sc)
  | .block o (.rule s) ns, hn => by
    simp only [styles, mem_stylesAll_iff_fingerprints (sc.enter (.rule s)) x ns hn.nodes, content?,
      fingerprint?, Option.some.injEq, exists_eq_left', Fingerprint.styles, List.mem_append,
      List.mem_flatMap, mem_sortedDeclarations, reduceCtorEq, false_and, exists_false, false_or]
  | .block o (.atRule name params b) ns, hn => by
    simp only [styles,
      mem_stylesAll_iff_fingerprints (sc.enter (.atRule name params b)) x ns hn.nodes,
      content?, fingerprint?, Option.some.injEq, exists_eq_left', Fingerprint.styles,
      List.mem_append, List.mem_flatMap, mem_sortedDeclarations, reduceCtorEq, false_and,
      exists_false, false_or]
  | .block o .sheet ns, hn => hn.fits.elim
  | .block o .group ns, hn => hn.fits.elim
  | .declaration o d, _ => by simp [styles, content?, fingerprint?]
  | .leaf o, _ => by simp [styles, content?, fingerprint?, Fingerprint.styles]
theorem mem_stylesAll_iff_fingerprints (sc : Scope) (x : Applied) :
    ∀ ns : List Node, (∀ n ∈ ns, n.Styled ok) →
      (x ∈ stylesAll sc ns ↔ (∃ d ∈ ns.filterMap content?, x ∈ sc.apply d) ∨
        x ∈ Fingerprint.stylesAll sc (fingerprints ns))
  | [], _ => by simp [stylesAll, fingerprints, Fingerprint.stylesAll]
  | n :: ns, h => by
    have hn := mem_styles_iff_fingerprint sc x n (h n (by simp))
    have hns := mem_stylesAll_iff_fingerprints sc x ns fun m hm => h m (by simp [hm])
    rw [stylesAll, List.mem_append, hn, hns, fingerprints, List.filterMap_cons]
    cases n.content? <;> cases n.fingerprint? <;>
      simp [Fingerprint.stylesAll, or_assoc, or_left_comm]
end

/-- **Blocks with equal signatures say the same.** -/
theorem mem_stylesAll_iff_of_signature {n m : Node} (hn : n.Styled ok) (hm : m.Styled ok)
    (h : n.signature = m.signature) {sc : Scope} {x : Applied} :
    x ∈ stylesAll sc n.nodes ↔ x ∈ stylesAll sc m.nodes := by
  obtain ⟨hds, hgs⟩ : sortedDeclarations n.nodes = sortedDeclarations m.nodes ∧
      fingerprints n.nodes = fingerprints m.nodes := Signature.mk.inj h
  rw [mem_stylesAll_iff_fingerprints sc x n.nodes hn.nodes,
    mem_stylesAll_iff_fingerprints sc x m.nodes hm.nodes, hgs]
  simp only [← mem_sortedDeclarations, hds]

end Signature

/-! ### Classes -/

theorem nodup_eraseDups {α : Type} [BEq α] [LawfulBEq α] (xs : List α) : xs.eraseDups.Nodup := by
  induction hn : xs.length using Nat.strong_induction_on generalizing xs with
  | _ n ih =>
    cases xs with
    | nil => exact List.nodup_nil
    | cons x xs =>
      rw [List.eraseDups_cons, List.nodup_cons, List.mem_eraseDups]
      refine ⟨by simp, ih _ ?_ _ rfl⟩
      have hlen := List.length_filter_le (fun y => !y == x) xs
      simp only [← hn, List.length_cons]
      omega

section Classes

variable {α κ : Type} [DecidableEq κ] {key : α → κ} {xs c : List α}

theorem classesBy_eq (key : α → κ) (xs : List α) :
    classesBy key xs = (xs.map key).eraseDups.map fun k => xs.filter fun x => key x == k := by
  simp [classesBy, List.filter_map, Function.comp_def]

theorem mem_classesBy :
    c ∈ classesBy key xs ↔ ∃ k ∈ xs.map key, c = xs.filter fun x => key x == k := by
  simp only [classesBy_eq, List.mem_map, List.mem_eraseDups, eq_comm]

/-- Different classes have no element in common. -/
theorem pairwise_classesBy (key : α → κ) (xs : List α) :
    (classesBy key xs).Pairwise fun c c' => ∀ x ∈ c, x ∉ c' := by
  rw [classesBy_eq, List.pairwise_map]
  refine (nodup_eraseDups (xs.map key)).imp fun {k k'} hne x hx hx' => ?_
  rw [List.mem_filter, beq_iff_eq] at hx hx'
  exact hne (hx.2.symm.trans hx'.2)

end Classes

/-! ### Joint rules -/

namespace Collapse

section Joint

variable {good : Text → Prop} {rules : List Node}

theorem mem_parts_jointSelector (hgood : ∀ p, good p → Selector.Atom p)
    (hrules : ∀ r ∈ rules, r.Styled (Selector.AllParts good)) {p : Text} :
    p ∈ Selector.parts (jointSelector rules) ↔ ∃ r ∈ rules, p ∈ r.parts := by
  have hatoms : ∀ q ∈ rules.flatMap Node.parts, Selector.Atom q := by
    intro q hq
    obtain ⟨r, hr, hqr⟩ := List.mem_flatMap.mp hq
    exact hgood q ((hrules r hr).good_of_mem_parts hqr)
  rw [jointSelector, Selector.mem_parts_joined hatoms, List.mem_flatMap]

theorem allParts_jointSelector (hgood : ∀ p, good p → Selector.Atom p)
    (hrules : ∀ r ∈ rules, r.Styled (Selector.AllParts good)) :
    Selector.AllParts good (jointSelector rules) := by
  intro p hp
  obtain ⟨r, hr, hpr⟩ := (mem_parts_jointSelector hgood hrules).mp hp
  exact (hrules r hr).good_of_mem_parts hpr

/-- A rule with a joint selector says its content of the parts of all the rules. -/
theorem mem_styles_joint (hgood : ∀ p, good p → Selector.Atom p)
    (hrules : ∀ r ∈ rules, r.Styled (Selector.AllParts good)) {o : Origin} {ns : List Node}
    {sc : Scope} {x : Applied} :
    x ∈ (Node.block o (.rule (jointSelector rules)) ns).styles sc ↔
      ∃ r ∈ rules, ∃ q ∈ r.parts, ∃ P ∈ sc.ofPart q,
        x ∈ stylesAll (Scope.below sc.context P) ns := by
  rw [mem_styles_rule]
  constructor
  · rintro ⟨q, hq, hx⟩
    obtain ⟨r, hr, hqr⟩ := (mem_parts_jointSelector hgood hrules).mp hq
    exact ⟨r, hr, q, hqr, hx⟩
  · rintro ⟨r, hr, q, hqr, hx⟩
    exact ⟨q, (mem_parts_jointSelector hgood hrules).mpr ⟨r, hr, hqr⟩, hx⟩

end Joint

/-! ### Replacing a class by one rule -/

/-- Rules among the children that can be collapsed into one. -/
structure Class (slots members : List Slot) : Prop where
  present : ∀ s ∈ members, s ∈ slots
  ticketed : ∀ s ∈ members, ∃ t, s.ticket = some t
  isRule : ∀ s ∈ members, s.node.isRule = true
  alike : ∀ s ∈ members, ∀ s' ∈ members, s.node.signature = s'.node.signature
  distinct : (members.filterMap (·.ticket)).Nodup

variable {w : Work} {members : List Slot} {t : Nat} {m : Node}

theorem Class.mem_tickets (hc : Class w.slots members) {k : Nat}
    (hk : k ∈ members.filterMap (·.ticket)) : k ∈ w.tickets := by
  obtain ⟨s, hs, hsk⟩ := List.mem_filterMap.mp hk
  exact Work.mem_tickets.mpr ⟨s, hc.present s hs, Slot.has_iff.mpr hsk⟩

/-- The siblings that are taken out with the tickets of a class are its members. -/
theorem Class.any_has_iff (hc : Class w.slots members) (hd : w.Distinct) {r : Slot}
    (hr : r ∈ w.slots) : (members.filterMap (·.ticket)).any r.has = true ↔ r ∈ members := by
  rw [List.any_eq_true]
  constructor
  · rintro ⟨k, hk, hrk⟩
    obtain ⟨s, hs, hsk⟩ := List.mem_filterMap.mp hk
    rwa [hd.eq_of_has hr (hc.present s hs) hrk (Slot.has_iff.mpr hsk)]
  · intro hmem
    obtain ⟨k, hk⟩ := hc.ticketed r hmem
    exact ⟨k, List.mem_filterMap.mpr ⟨r, hmem, hk⟩, Slot.has_iff.mpr hk⟩

theorem replace_slots (hgo : w.stopped = false) (hc : Class w.slots members)
    (ht : t ∈ w.tickets) :
    ((members.filterMap (·.ticket)).foldl Work.remove (w.insertBefore t m)).stopped = false ∧
      ((members.filterMap (·.ticket)).foldl Work.remove (w.insertBefore t m)).slots =
        (w.insertBefore t m).slots.filter fun s => !(members.filterMap (·.ticket)).any s.has := by
  refine Work.foldl_remove (Work.stopped_insertBefore hgo ht) (fun k hk => ?_) hc.distinct
  rw [Work.tickets_insertBefore]
  exact hc.mem_tickets hk

/-- A rule in the place of a class: the siblings are the other ones and that rule. -/
theorem mem_slots_replace (hd : w.Distinct) (hgo : w.stopped = false) (hc : Class w.slots members)
    (ht : t ∈ w.tickets) {r : Slot} :
    r ∈ ((members.filterMap (·.ticket)).foldl Work.remove (w.insertBefore t m)).slots ↔
      r = ⟨none, m⟩ ∨ (r ∈ w.slots ∧ r ∉ members) := by
  rw [(replace_slots hgo hc ht).2, List.mem_filter, Work.mem_insertBefore_slots hgo ht]
  constructor
  · rintro ⟨rfl | hr, hout⟩
    · exact Or.inl rfl
    · refine Or.inr ⟨hr, fun hmem => ?_⟩
      rw [(hc.any_has_iff hd hr).mpr hmem] at hout
      cases hout
  · rintro (rfl | ⟨hr, hmem⟩)
    · refine ⟨Or.inl rfl, ?_⟩
      rw [Bool.not_eq_true', List.any_eq_false]
      exact fun k _ => by simp [Slot.has]
    · refine ⟨Or.inr hr, ?_⟩
      rw [Bool.not_eq_true', ← Bool.not_eq_true]
      exact fun h => hmem ((hc.any_has_iff hd hr).mp h)

theorem distinct_replace (hd : w.Distinct) (hgo : w.stopped = false) (hc : Class w.slots members)
    (ht : t ∈ w.tickets) :
    ((members.filterMap (·.ticket)).foldl Work.remove (w.insertBefore t m)).Distinct := by
  have hinsert : (w.insertBefore t m).Distinct := by rwa [Work.Distinct, Work.tickets_insertBefore]
  rw [Work.Distinct, Work.tickets, (replace_slots hgo hc ht).2]
  exact hinsert.sublist (List.filter_sublist.filterMap _)

/-- A class is merged in full or not at all. -/
theorem merge_slots (f : Factory) (hc : Class w.slots members) :
    (merge f w members).slots = w.slots ∨
      ∃ o p t, ∃ first ∈ members, t ∈ w.tickets ∧ p.stopped = false ∧
        (merge f w members).slots =
          ((members.filterMap (·.ticket)).foldl Work.remove
            (Work.insertBefore ⟨w.slots, p⟩ t (.block o
              (.rule (jointSelector (members.map (·.node))))
              (copyAll first.node.nodes)))).slots := by
  unfold merge
  split
  · rename_i t first second rest
    have hfirst : (⟨some t, first⟩ : Slot) ∈ ⟨some t, first⟩ :: second :: rest := by simp
    simp only
    split
    · exact Or.inl rfl
    · rename_i n p hnew
      obtain ⟨⟨o, rfl⟩, -, hgo⟩ := Progress.eq_of_newRule_some hnew
      have ht : t ∈ w.tickets := Work.mem_tickets.mpr ⟨_, hc.present _ hfirst, by simp [Slot.has]⟩
      refine Or.inr ⟨o, p, t, _, hfirst, ht, hgo, ?_⟩
      split <;> rfl
  · exact Or.inl rfl

/-- Merging a class leaves the other siblings alone. -/
theorem merge_frame (f : Factory) (hd : w.Distinct) (hc : Class w.slots members) :
    (merge f w members).Distinct ∧
      ∀ r ∈ w.slots, r ∉ members → r ∈ (merge f w members).slots := by
  rcases merge_slots f hc with hnone | ⟨o, p, t, first, -, ht, hgo, hslots⟩
  · exact ⟨by rwa [Work.Distinct, Work.tickets, hnone], fun r hr _ => hnone ▸ hr⟩
  · have hd' : Work.Distinct ⟨w.slots, p⟩ := hd
    constructor
    · rw [Work.Distinct, Work.tickets, hslots]
      exact distinct_replace hd' hgo hc ht
    · intro r hr hmem
      rw [hslots]
      exact (mem_slots_replace hd' hgo hc ht).mpr (Or.inr ⟨hr, hmem⟩)

/-- The classes still to come are there as they were. -/
theorem Class.after_merge (f : Factory) (hd : w.Distinct) (hc : Class w.slots members)
    {later : List Slot} (hlater : Class w.slots later) (hapart : ∀ r ∈ members, r ∉ later) :
    Class (merge f w members).slots later := by
  refine ⟨fun r hr => ?_, hlater.ticketed, hlater.isRule, hlater.alike, hlater.distinct⟩
  exact (merge_frame f hd hc).2 r (hlater.present r hr) fun hmem => hapart r hmem hr

theorem merge_goes_on {f : Factory} (hf : f.Obliging) (hgo : w.stopped = false)
    (hc : Class w.slots members) : (merge f w members).stopped = false := by
  unfold merge
  split
  · rename_i t first second rest
    have hfirst : (⟨some t, first⟩ : Slot) ∈ ⟨some t, first⟩ :: second :: rest := by simp
    have ht : t ∈ w.tickets := Work.mem_tickets.mpr ⟨_, hc.present _ hfirst, by simp [Slot.has]⟩
    obtain ⟨n, p, hnew⟩ := Progress.newRule_of_obliging hf hgo (hc.isRule _ hfirst)
      (jointSelector ((⟨some t, first⟩ :: second :: rest).map (·.node)))
    obtain ⟨-, -, hgo'⟩ := Progress.eq_of_newRule_some hnew
    simp only [hnew]
    have hreplaced := fun m => (replace_slots (w := ⟨w.slots, p⟩) (m := m) hgo' hc ht).1
    rw [hreplaced]
    exact hreplaced _
  · exact hgo

theorem foldl_merge_goes_on {f : Factory} (hf : f.Obliging) {classes : List (List Slot)}
    (hd : w.Distinct) (hgo : w.stopped = false) (hclasses : ∀ c ∈ classes, Class w.slots c)
    (hapart : classes.Pairwise fun c c' => ∀ r ∈ c, r ∉ c') :
    (classes.foldl (merge f) w).stopped = false := by
  induction classes generalizing w with
  | nil => exact hgo
  | cons c classes ih =>
    obtain ⟨hfirst, hapart⟩ := List.pairwise_cons.mp hapart
    have hc := hclasses c (by simp)
    refine ih (merge_frame f hd hc).1 (merge_goes_on hf hgo hc) (fun c' hc' => ?_) hapart
    exact hc.after_merge f hd (hclasses c' (by simp [hc'])) (hfirst c' hc')

theorem class_of_mem_classesBy (p : Progress) (ns : List Node) {c : List Slot}
    (hc : c ∈ classesBy (·.node.signature) ((Work.start p ns).slots.filter (·.node.isRule))) :
    Class (Work.start p ns).slots c := by
  obtain ⟨k, -, rfl⟩ := mem_classesBy.mp hc
  have hsub : (((Work.start p ns).slots.filter (·.node.isRule)).filter
      fun s => s.node.signature == k).Sublist (Work.start p ns).slots :=
    List.filter_sublist.trans List.filter_sublist
  have hkey : ∀ s ∈ ((Work.start p ns).slots.filter (·.node.isRule)).filter
      (fun s => s.node.signature == k), s.node.isRule = true ∧ s.node.signature = k := by
    intro s hs
    rw [List.mem_filter, List.mem_filter, beq_iff_eq] at hs
    exact ⟨hs.1.2, hs.2⟩
  refine ⟨fun s hs => hsub.subset hs, fun s hs => ?_, fun s hs => (hkey s hs).1, ?_, ?_⟩
  · exact Slot.exists_ticket_of_mem_numberFrom (hsub.subset hs)
  · intro s hs s' hs'
    rw [(hkey s hs).2, (hkey s' hs').2]
  · exact (Work.distinct_start p ns).sublist (hsub.filterMap _)

/-- What every merge keeps, collapsing keeps. -/
theorem levelUnder_preserves (f : Factory) {P : List Node → Prop}
    (hmerge : ∀ w members, w.Distinct → Class w.slots members → P w.nodes →
      P (merge f w members).nodes) (h : Header) (p : Progress) {ns : List Node} (hns : P ns) :
    P (levelUnder f h p ns).1 := by
  have hall : ∀ (classes : List (List Slot)) (w : Work), w.Distinct →
      (∀ c ∈ classes, Class w.slots c) → classes.Pairwise (fun c c' => ∀ r ∈ c, r ∉ c') →
      P w.nodes → P (classes.foldl (merge f) w).nodes := by
    intro classes
    induction classes with
    | nil => exact fun _ _ _ _ hw => hw
    | cons c classes ih =>
      intro w hd hclasses hapart hw
      obtain ⟨hfirst, hapart⟩ := List.pairwise_cons.mp hapart
      have hc := hclasses c (by simp)
      apply ih _ (merge_frame f hd hc).1 _ hapart (hmerge w c hd hc hw)
      intro c' hc'
      exact hc.after_merge f hd (hclasses c' (by simp [hc'])) (hfirst c' hc')
  cases h with
  | rule s =>
    apply hall _ _ (Work.distinct_start p ns) (fun c hc => class_of_mem_classesBy p ns hc)
      (pairwise_classesBy _ _)
    rwa [Work.nodes_start]
  | sheet => exact hns
  | group => exact hns
  | atRule name params hasBlock => exact hns

theorem levelUnder_goes_on {f : Factory} (hf : f.Obliging) (h : Header) (p : Progress)
    (ns : List Node) (hgo : p.stopped = false) : (levelUnder f h p ns).2.stopped = false := by
  cases h with
  | rule s =>
    exact foldl_merge_goes_on hf (Work.distinct_start p ns) hgo
      (fun _ hc => class_of_mem_classesBy p ns hc) (pairwise_classesBy _ _)
  | sheet => exact hgo
  | group => exact hgo
  | atRule name params b => exact hgo

/-! ### Merging and meaning -/

section Merging

variable {good : Text → Prop} (hgood : ∀ p, good p → Selector.Atom p)
include hgood

/-- The rule that replaces a class says what its members say. -/
theorem mem_styles_merged (hs : w.Styled (Selector.AllParts good)) (hc : Class w.slots members)
    {first : Slot} (hfirst : first ∈ members) (o : Origin) (sc : Scope) (x : Applied) :
    x ∈ (Node.block o (.rule (jointSelector (members.map (·.node))))
        (copyAll first.node.nodes)).styles sc ↔
      ∃ s ∈ members, x ∈ s.node.styles sc := by
  have hrules : ∀ r ∈ members.map (·.node), r.Styled (Selector.AllParts good) := by
    intro r hr
    obtain ⟨s, hsm, rfl⟩ := List.mem_map.mp hr
    exact hs s (hc.present s hsm)
  rw [mem_styles_joint hgood hrules]
  -- every member says of its own parts what the first one says
  have hsame : ∀ s ∈ members, ∀ sc', x ∈ stylesAll sc' (copyAll first.node.nodes) ↔
      x ∈ stylesAll sc' s.node.nodes := by
    intro s hsm sc'
    rw [stylesAll_copyAll]
    exact mem_stylesAll_iff_of_signature (hs first (hc.present first hfirst))
      (hs s (hc.present s hsm)) (hc.alike first hfirst s hsm)
  constructor
  · rintro ⟨r, hr, q, hq, P, hP, hx⟩
    obtain ⟨s, hsm, rfl⟩ := List.mem_map.mp hr
    refine ⟨s, hsm, (mem_styles_of_isRule (hc.isRule s hsm)).mpr ⟨q, hq, P, hP, ?_⟩⟩
    exact (hsame s hsm _).mp hx
  · rintro ⟨s, hsm, hx⟩
    obtain ⟨q, hq, P, hP, hx⟩ := (mem_styles_of_isRule (hc.isRule s hsm)).mp hx
    exact ⟨s.node, List.mem_map_of_mem hsm, q, hq, P, hP, (hsame s hsm _).mpr hx⟩

/-- **Merging one class** keeps what the siblings say. -/
theorem merge_keeps (f : Factory) (hd : w.Distinct) (hs : w.Styled (Selector.AllParts good))
    (hc : Class w.slots members) :
    Work.Keeps (Selector.AllParts good) w (merge f w members) := by
  rcases merge_slots f hc with hnone | ⟨o, p, t, first, hfirst, ht, hgo, hslots⟩
  · exact (Work.Keeps.refl hd hs).of_slots hnone
  · have hd' : Work.Distinct ⟨w.slots, p⟩ := hd
    have hmerged := mem_styles_merged hgood hs hc hfirst o
    refine ⟨(merge_frame f hd hc).1, ?_, fun sc x => ?_⟩
    · intro r hr
      rw [hslots] at hr
      rcases (mem_slots_replace hd' hgo hc ht).mp hr with rfl | ⟨hr, -⟩
      · refine styled_rule.mpr ⟨allParts_jointSelector hgood ?_, styled_copyAll ?_⟩
        · intro r hr
          obtain ⟨s, hsm, rfl⟩ := List.mem_map.mp hr
          exact hs s (hc.present s hsm)
        · exact (hs first (hc.present first hfirst)).nodes
      · exact hs r hr
    · simp only [Work.says_iff, hslots, mem_slots_replace hd' hgo hc ht, or_and_right, exists_or,
        exists_eq_left, hmerged]
      constructor
      · rintro (⟨s, hsm, hx⟩ | ⟨s, ⟨hsm, -⟩, hx⟩)
        · exact ⟨s, hc.present s hsm, hx⟩
        · exact ⟨s, hsm, hx⟩
      · rintro ⟨s, hsm, hx⟩
        by_cases hmem : s ∈ members
        · exact Or.inl ⟨s, hmem, hx⟩
        · exact Or.inr ⟨s, ⟨hsm, hmem⟩, hx⟩

theorem foldl_merge_keeps (f : Factory) {classes : List (List Slot)} (hd : w.Distinct)
    (hs : w.Styled (Selector.AllParts good)) (hclasses : ∀ c ∈ classes, Class w.slots c)
    (hapart : classes.Pairwise fun c c' => ∀ r ∈ c, r ∉ c') :
    Work.Keeps (Selector.AllParts good) w (classes.foldl (merge f) w) := by
  induction classes generalizing w with
  | nil => exact Work.Keeps.refl hd hs
  | cons c classes ih =>
    obtain ⟨hfirst, hapart⟩ := List.pairwise_cons.mp hapart
    have hc := hclasses c (by simp)
    have hkeeps := merge_keeps hgood f hd hs hc
    refine hkeeps.trans (ih hkeeps.distinct hkeeps.styled (fun c' hc' => ?_) hapart)
    exact hc.after_merge f hd (hclasses c' (by simp [hc'])) (hfirst c' hc')

theorem level_same (f : Factory) (p : Progress) {ns : List Node}
    (hns : ∀ n ∈ ns, n.Styled (Selector.AllParts good)) :
    SameSiblings (Selector.AllParts good) ns (level f p ns).1 :=
  (foldl_merge_keeps hgood f (Work.distinct_start p ns) (Work.styled_start hns)
    (fun _ hc => class_of_mem_classesBy p ns hc) (pairwise_classesBy _ _)).finish

theorem levelUnder_same (f : Factory) (h : Header) (p : Progress) {ns : List Node}
    (hns : ∀ n ∈ ns, n.Styled (Selector.AllParts good)) :
    SameSiblings (Selector.AllParts good) ns (levelUnder f h p ns).1 := by
  cases h with
  | rule s => exact level_same hgood f p hns
  | sheet => exact ⟨hns, fun _ _ => Iff.rfl⟩
  | group => exact ⟨hns, fun _ _ => Iff.rfl⟩
  | atRule name params b => exact ⟨hns, fun _ _ => Iff.rfl⟩

end Merging

end Collapse

/-- **Collapsing siblings changes no meaning.** -/
theorem conserves_collapseSiblings {good : Text → Prop} (hgood : ∀ p, good p → Selector.Atom p)
    (f : Factory) : Conserves (Selector.AllParts good) (collapseSiblings f) := by
  have hvisit : ∀ p fuel ns, (∀ n ∈ ns, n.Styled (Selector.AllParts good)) →
      SameSiblings (Selector.AllParts good) ns
        (visitAll (enter (topDown (Collapse.levelUnder f) fuel)) p ns).1 := by
    intro p fuel ns hns
    exact sameSiblings_visitAll
      (conserves_topDown (fun h p ns => Collapse.levelUnder_same hgood f h p) fuel)
      (topDown_eq_setNodes fuel) hns
  constructor
  · intro p n hn
    cases n with
    | block o h ns => exact (hvisit p _ ns hn).styled
    | declaration o d => exact hn
    | leaf o => exact hn
  · intro p n hn sc x
    cases n with
    | block o h ns => exact (hvisit p _ ns hn).same (sc.enter h) x
    | declaration o d => exact Iff.rfl
    | leaf o => exact Iff.rfl

theorem collapseSiblings_goes_on {f : Factory} (hf : f.Obliging) (p : Progress) (n : Node)
    (hgo : p.stopped = false) : (collapseSiblings f p n).2.stopped = false := by
  cases n with
  | block o h ns =>
    exact visitAll_goes_on (fun p m hp => enter_goes_on
      (fun p m hp => topDown_goes_on (Collapse.levelUnder_goes_on hf) _ hp m) hp m) hgo ns
  | declaration o d => exact hgo
  | leaf o => exact hgo

end StyleNesting
