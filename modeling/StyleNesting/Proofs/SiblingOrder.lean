/-
  StyleNesting/Proofs/SiblingOrder.lean
  =====================================
  **Pseudo nesting does not depend on the order of siblings.**  Depending on the
  order, a chain like `a`, `a:hover`, `a:hover::after` is taken in from below, from
  above or mixed, and a rule may be moved more than once, with a new relative
  selector each time.  None of this shows in the end: whenever a rule goes into
  another one, what results is what would stand there if the rule had been put into
  that place at once (`nested_eq`), so the siblings are planted at all times.  At
  the end no two siblings extend one another, which leaves every rule just one
  place.
-/
import StyleNesting.Proofs.Arrangement
import StyleNesting.Proofs.Skeleton

namespace StyleNesting

open Node Selector

/-! ### Copies of copies -/

mutual
theorem copy_copy : ∀ n : Node, n.copy.copy = n.copy
  | .block o h ns => by rw [copy, copy, copyAll_copyAll ns]; rfl
  | .declaration o d => rfl
  | .leaf o => rfl
theorem copyAll_copyAll : ∀ ns : List Node, copyAll (copyAll ns) = copyAll ns
  | [] => rfl
  | n :: ns => by rw [copyAll, copyAll, copy_copy n, copyAll_copyAll ns]
end

theorem copyAll_append (ns ms : List Node) : copyAll (ns ++ ms) = copyAll ns ++ copyAll ms := by
  rw [copyAll_eq_map, copyAll_eq_map, copyAll_eq_map, List.map_append]

theorem origin_append (ms : List Node) (n : Node) : (n.append ms).origin = n.origin := by
  cases n <;> rfl

theorem setNodes_append (ms ks : List Node) (n : Node) :
    (n.append ms).setNodes (n.nodes ++ ks) = n.append ks := by
  cases n <;> rfl

theorem append_append (ms ks : List Node) (n : Node) :
    (n.append ms).append ks = n.append (ms ++ ks) := by
  cases n <;> simp [Node.append]

/-! ### One move -/

theorem copyAll_seat (outer : Option Text) (r : Node) :
    copyAll (r.seat outer).nodes = copyAll r.nodes := by
  cases outer with
  | none => rfl
  | some b => exact copyAll_copyAll r.nodes

theorem origin_seat (outer : Option Text) (r : Node) :
    (r.seat outer).origin.ofCopy = r.origin.ofCopy := by
  cases outer with
  | none => rfl
  | some b => rfl

/-- What stands inside of a rule is a copy already. -/
theorem Planted.copyAll_kids {rs held ns : List Node} {b : Text}
    (h : Planted rs (some b) held ns) : copyAll ns = ns := by
  generalize houter : some b = outer at h
  induction h generalizing b with
  | intro seated _ _ ih =>
    subst houter
    have hcopy : ∀ x ∈ seated, (x.node (some b)).copy = x.node (some b) := by
      intro x hx
      simp only [Seated.node, seat, Node.append, copy, copyAll_append, copyAll_copyAll,
        ih x hx rfl]
      rfl
    rw [copyAll_eq_map, List.map_map]
    exact List.map_congr_left hcopy

/-- A rule after it took in another one, behind what it had taken in before. -/
def Seated.take (x y : Seated) : Seated :=
  ⟨x.rule, x.inner ++ (y.rule :: y.inner), x.kids ++ [y.node (some x.rule.part)]⟩

theorem Seated.node_take (outer : Option Text) (x y : Seated) :
    (x.take y).node outer = (x.node outer).append [y.node (some x.rule.part)] :=
  (append_append _ _ _).symm

theorem Planted.take {rs : List Node} {x y : Seated}
    (hx : Planted rs (some x.rule.part) x.inner x.kids)
    (hy : Planted rs (some y.rule.part) y.inner y.kids) (hmem : y.rule ∈ rs)
    (hxy : isPseudoOf x.rule.part y.rule.part = true) :
    Planted rs (some (x.take y).rule.part) (x.take y).inner (x.take y).kids := by
  have hunder : Under (some x.rule.part) y.rule.part := hxy
  have hone := Planted.cons ⟨hmem, hunder⟩ hy (Planted.nil rs (some x.rule.part))
  rw [List.append_nil] at hone
  exact hx.append hone

section Moving

variable {rs : List Node} (hrs : Flat rs) {outer : Option Text} (hout : ∀ b ∈ outer, Solo b)
include hrs hout

/-- **A rule that is moved** is what it would be if it had stood there from the start. -/
theorem nested_eq {x y : Seated} (hx : x.rule ∈ rs ∧ Under outer x.rule.part)
    (hy : y.rule ∈ rs ∧ Under outer y.rule.part)
    (hkids : Planted rs (some y.rule.part) y.inner y.kids) {c : Pseudos.Candidate} {part : Text}
    (hpart : part ∈ (x.node outer).parts) (hcparts : (y.node outer).parts = c.parts)
    (hext : c.extendsPart part = true) :
    isPseudoOf x.rule.part y.rule.part = true ∧
      Pseudos.nested (y.node outer).origin.ofCopy c part (y.node outer) =
        y.node (some x.rule.part) := by
  rw [hrs.parts_node hout hx, List.mem_singleton] at hpart
  rw [hrs.parts_node hout hy] at hcparts
  subst hpart
  obtain ⟨u, hu, hrelative, hselector⟩ := Pseudos.relativeSelector_of_single hcparts.symm hext
  have hsuffix : y.rule.part = x.rule.part ++ u := eq_append_of_relative hx.2 hy.2 hrelative
  constructor
  · exact isPseudoOf_iff.mpr ⟨(hrs.solo hx.1).nonempty, u, hu, hsuffix⟩
  · have hinside : relative (some x.rule.part) y.rule.part = '&' :: u := by
      rw [hsuffix, relative, List.drop_left]
    rw [Pseudos.nested, hselector, Seated.node, origin_append, origin_seat, ← Seated.node,
      (hrs.rules_node outer hy.1 hkids).1, copyAll_append, copyAll_seat, hkids.copyAll_kids,
      Seated.node, seat, hinside, Node.append]

end Moving

namespace Pseudos

variable {rs : List Node} (hrs : Flat rs) {outer : Option Text} (hout : ∀ b ∈ outer, Solo b)
  {cs : List Candidate} {w : Work} {b c : Candidate} {part : Text} {held : List Node}
include hrs hout

theorem absorb_planted {f : Factory} (hf : f.keepsSource = true) (hw : Tracked cs w) (hb : b ∈ cs)
    (hc : c ∈ cs) (hpart : part ∈ b.parts) (h : Planted rs outer held (w.nodes.filter isRule)) :
    ∃ held', held'.Perm held ∧
      Planted rs outer held' ((absorb f b.ticket part w c).nodes.filter isRule) := by
  rcases absorb_nodes f hw hb hc part with hsame | ⟨o, base, moved, rest, hext,
    ⟨hbrule, hbparts⟩, ⟨hcrule, hcparts⟩, horigin, hbefore, hafter⟩
  · rw [hsame]
    exact ⟨held, List.Perm.refl _, h⟩
  · have hold : (base :: moved :: rest.filter isRule).Perm (w.nodes.filter isRule) := by
      have hrules := (hbefore.filter isRule).symm
      rwa [List.filter_cons_of_pos hbrule, List.filter_cons_of_pos hcrule] at hrules
    have hnew : ((absorb f b.ticket part w c).nodes.filter isRule).Perm
        (base.append [nested o c part moved] :: rest.filter isRule) := by
      have hrules := hafter.filter isRule
      rwa [List.filter_cons_of_pos ((isRule_append _ base).trans hbrule)] at hrules
    obtain ⟨held', hheld', hplanted⟩ := h.perm hold
    obtain ⟨x, later, rfl, rfl, hx, hxkids, hplanted⟩ := hplanted.cons_inv
    obtain ⟨y, others, rfl, rfl, hy, hykids, hothers⟩ := hplanted.cons_inv
    obtain ⟨hxy, hnested⟩ := nested_eq hrs hout hx hy hykids (hbparts ▸ hpart) hcparts hext
    rw [horigin hf, hnested, ← Seated.node_take] at hnew
    obtain ⟨held'', hheld'', hresult⟩ :=
      (Planted.cons (x := x.take y) hx (hxkids.take hykids hy.1 hxy) hothers).perm hnew
    refine ⟨held'', hheld''.trans ?_, hresult⟩
    rw [Seated.take, List.cons_append, List.append_assoc]
    exact hheld'

theorem level_planted {f : Factory} (hf : f.keepsSource = true) (p : Progress) {ns : List Node}
    (h : Planted rs outer held (ns.filter isRule)) :
    ∃ held', held'.Perm held ∧ Planted rs outer held' ((level f p ns).1.filter isRule) := by
  refine level_preserves (P := fun ms => ∃ held', held'.Perm held ∧
    Planted rs outer held' (ms.filter isRule)) f ?_ p ⟨held, List.Perm.refl _, h⟩
  rintro cs w b c part hw hb hc hpart ⟨held', hheld', hplanted⟩
  obtain ⟨held'', hheld'', hresult⟩ := absorb_planted hrs hout hf hw hb hc hpart hplanted
  exact ⟨held'', hheld''.trans hheld', hresult⟩

end Pseudos

/-! ### Declarations stay in front -/

theorem eq_others_append (ms : List Node)
    (h : (Skeleton.others ms).length ≤ Skeleton.lead ms) :
    ms = Skeleton.others ms ++ ms.filter isRule := by
  induction ms with
  | nil => rfl
  | cons m ms ih =>
    by_cases hm : m.isRule = true
    · simp only [Skeleton.lead, hm, if_true, Nat.le_zero, List.length_eq_zero_iff] at h
      have hall : (m :: ms).filter isRule = m :: ms := by
        rw [Skeleton.others, List.filter_eq_nil_iff] at h
        exact List.filter_eq_self.mpr fun k hk => by simpa using h k hk
      rw [h, hall, List.nil_append]
    · have hothers : Skeleton.others (m :: ms) = m :: Skeleton.others ms := by
        simp [Skeleton.others, hm]
      rw [hothers, Skeleton.lead, if_neg hm, List.length_cons, Nat.add_le_add_iff_right] at h
      rw [hothers, List.filter_cons_of_neg hm, List.cons_append, ← ih h]

theorem length_le_lead {ds : List Node} (hds : ∀ d ∈ ds, d.content?.isSome = true)
    (ks : List Node) : ds.length ≤ Skeleton.lead (ds ++ ks) := by
  induction ds with
  | nil => exact Nat.zero_le _
  | cons d ds ih =>
    have hd := not_isRule_of_content (hds d (by simp))
    rw [List.cons_append, Skeleton.lead, if_neg hd, List.length_cons, Nat.add_le_add_iff_right]
    exact ih fun e he => hds e (by simp [he])

/-- Declarations in front of rules are where they were after the rules were nested. -/
theorem level_front {f : Factory} (hf : f.keepsSource = true) (p : Progress) {ds ks : List Node}
    (hds : ∀ d ∈ ds, d.content?.isSome = true) (hks : ∀ k ∈ ks, k.isRule = true) :
    (Pseudos.level f p (ds ++ ks)).1 = ds ++ (Pseudos.level f p (ds ++ ks)).1.filter isRule := by
  have hedited := Pseudos.edited_level hf p (ds ++ ks)
  have hothers : Skeleton.others (ds ++ ks) = ds := by
    rw [Skeleton.others, List.filter_append, List.filter_eq_self.mpr, List.filter_eq_nil_iff.mpr,
      List.append_nil]
    · intro k hk
      simp [hks k hk]
    · intro d hd
      simpa using not_isRule_of_content (hds d hd)
  have hkept := Skeleton.others_of_edited hedited
  rw [hothers] at hkept
  have hfront := eq_others_append (Pseudos.level f p (ds ++ ks)).1
    (by rw [hkept]; exact (length_le_lead hds ks).trans (Skeleton.lead_of_edited hedited))
  rwa [hkept] at hfront

/-! ### Whole trees -/

/-- A block with planted rules behind its declarations, and what became of it: planted again,
    with the same rules. -/
def StaysPlanted (rs : List Node) (n m : Node) : Prop :=
  ∀ (outer : Option Text) (ds held ks : List Node), (∀ b ∈ outer, Solo b) →
    (∀ d ∈ ds, d.content?.isSome = true) → Planted rs outer held ks → n.nodes = ds ++ ks →
    ∃ held' ks', held'.Perm held ∧ Planted rs outer held' ks' ∧ m = n.setNodes (ds ++ ks')

theorem append_of_entered {rs ds ks ms : List Node} (hds : ∀ d ∈ ds, d.content?.isSome = true)
    (h : List.Forall₂ (Entered (StaysPlanted rs)) (ds ++ ks) ms) :
    ∃ ks', ms = ds ++ ks' ∧ List.Forall₂ (Entered (StaysPlanted rs)) ks ks' := by
  induction ds generalizing ms with
  | nil => exact ⟨ms, rfl, h⟩
  | cons d ds ih =>
    rw [List.cons_append, List.forall₂_cons_left_iff] at h
    obtain ⟨m, ms', hdm, hrest, rfl⟩ := h
    obtain ⟨ks', rfl, hks⟩ := ih (fun e he => hds e (by simp [he])) hrest
    have hd := hds d (by simp)
    rcases hdm with ⟨hstyle, -⟩ | ⟨-, rfl⟩
    · rw [content_of_isStyleBlock hstyle] at hd
      cases hd
    · exact ⟨ks', rfl, hks⟩

section Trees

variable {rs : List Node} (hrs : Flat rs)
include hrs

theorem planted_of_entered {outer : Option Text} {held ks ms : List Node}
    (h : Planted rs outer held ks) (hentered : List.Forall₂ (Entered (StaysPlanted rs)) ks ms) :
    ∃ held', held'.Perm held ∧ Planted rs outer held' ms := by
  induction hentered generalizing held with
  | nil => exact ⟨held, List.Perm.refl _, h⟩
  | @cons n m ks ms hnm _ ih =>
    obtain ⟨x, rest, rfl, rfl, hx, hkids, hrest⟩ := h.cons_inv
    obtain ⟨rest', hperm, hplanted⟩ := ih hrest
    have hrule : (x.node outer).isRule = true := by
      rw [Seated.node, isRule_append]
      exact hrs.isRule_seat hx.1 outer
    rcases hnm with ⟨-, hstays⟩ | ⟨hno, -⟩
    · obtain ⟨inner', kids', hinner, hkids', rfl⟩ := hstays (some x.rule.part)
        (x.rule.seat outer).nodes x.inner x.kids (by rintro b ⟨⟩; exact hrs.solo hx.1)
        (hrs.plain_seat hx.1 outer) hkids (hrs.rules_node outer hx.1 hkids).1
      have hnode : (x.node outer).setNodes ((x.rule.seat outer).nodes ++ kids') =
          Seated.node outer ⟨x.rule, inner', kids'⟩ := setNodes_append _ _ _
      rw [hnode]
      refine ⟨_, ?_, Planted.cons hx hkids' hplanted⟩
      exact (hinner.cons x.rule).append hperm
    · rw [isStyleBlock_of_isRule hrule] at hno
      cases hno

theorem follows_planted {f : Factory} (hf : f.Obliging) (hkeeps : f.keepsSource = true) :
    Follows (fun _ => Pseudos.level f) (StaysPlanted rs) := by
  refine ⟨fun _ p ns hp => Pseudos.level_goes_on hf p ns hp, ?_, ?_⟩
  · intro n _ outer ds held ks _ _ hplanted hnodes
    refine ⟨held, ks, List.Perm.refl _, hplanted, ?_⟩
    rw [← hnodes]
    cases n <;> rfl
  · intro o h p ns ms hgo hms outer ds held ks hout hds hplanted hnodes
    have hnodes : ns = ds ++ ks := hnodes
    subst hnodes
    have hrules : (ds ++ ks).filter isRule = ks := by
      rw [List.filter_append, List.filter_eq_nil_iff.mpr, List.nil_append,
        List.filter_eq_self.mpr (hplanted.isRule hrs)]
      exact fun d hd => not_isRule_of_content (hds d hd)
    have hstart : Planted rs outer held ((ds ++ ks).filter isRule) := hrules.symm ▸ hplanted
    obtain ⟨held', hheld', hlevel⟩ := Pseudos.level_planted hrs hout hkeeps p hstart
    rw [level_front hkeeps p hds (hplanted.isRule hrs)] at hms
    obtain ⟨ks', rfl, hks'⟩ := append_of_entered hds hms
    obtain ⟨held'', hheld'', hresult⟩ := planted_of_entered hrs hlevel hks'
    exact ⟨held'', ks', hheld''.trans hheld', hresult, rfl⟩

/-- Rules that stand side by side are planted outside of all rules. -/
theorem planted_start : Planted rs none rs rs := by
  suffices hall : ∀ ks : List Node, (∀ k ∈ ks, k ∈ rs) → Planted rs none ks ks from
    hall rs fun _ hk => hk
  intro ks hks
  induction ks with
  | nil => exact Planted.nil rs none
  | cons k ks ih =>
    have hunder : Under none k.part := trivial
    have hcons := Planted.cons (x := ⟨k, [], []⟩) ⟨hks k (by simp), hunder⟩ (Planted.nil rs _)
      (ih fun l hl => hks l (by simp [hl]))
    have hk : Seated.node none ⟨k, [], []⟩ = k := by
      obtain ⟨o, s, ns, rfl⟩ := exists_of_isRule (hrs.rules k (hks k (by simp)))
      simp [Seated.node, seat, Node.append]
    rwa [hk] at hcons

/-- **Pseudo nesting arranges the rules.** -/
theorem arranged_nestPseudos (o : Origin) (h : Header) :
    ∃ ns, (nestPseudos Factory.clone {} (.block o h rs)).1 = .block o h ns ∧
      Arranged rs none ns := by
  have hends : Ends (fun _ => Pseudos.level Factory.clone) {} (.block o h rs)
      (nestPseudos Factory.clone {} (.block o h rs)) :=
    Pass.ends_run Factory.clone .pseudos rfl _
  obtain ⟨held, ns, hheld, hplanted, hresult⟩ :=
    (hends.follows (follows_planted hrs Factory.clone_obliging rfl) rfl).1 none [] rs rs
      (fun _ hb => by cases hb) (fun _ hd => by cases hd) (planted_start hrs) rfl
  have hapart := apart_of_reaches Factory.clone_obliging (p := {}) rfl (.block o h rs)
  have hresult : (nestPseudos Factory.clone {} (.block o h rs)).1 = .block o h ns := hresult
  rw [hresult] at hapart
  have hrules : ns.filter isRule = ns := List.filter_eq_self.mpr (hplanted.isRule hrs)
  refine ⟨ns, hresult, hplanted.arranged hrs (fun _ hb => by cases hb) ?_ ?_ ?_ ?_⟩
  · exact hheld.nodup_iff.mpr hrs.distinct.of_map
  · exact fun r hr _ => hheld.mem_iff.mpr hr
  · have htop : (ns.filter isRule).Pairwise Apart := hapart _ .here
    rwa [hrules] at htop
  · intro n hn k hk
    exact hapart k (.inside hn (isStyleBlock_of_isRule (hplanted.isRule hrs n hn)) hk)

end Trees

theorem BelongsIn.congr {rs rs' : List Node} (h : ∀ r, r ∈ rs ↔ r ∈ rs') {r : Node}
    {outer : Option Text} : BelongsIn rs r outer ↔ BelongsIn rs' r outer := by
  cases outer with
  | none => simp only [BelongsIn, h]
  | some b => simp only [BelongsIn, h]

theorem Arranged.congr {rs rs' : List Node} (h : ∀ r, r ∈ rs ↔ r ∈ rs') {outer : Option Text}
    {ns : List Node} (hns : Arranged rs outer ns) : Arranged rs' outer ns := by
  induction hns with
  | intro seated hnodup hmem _ ih =>
    refine .intro seated hnodup (fun r => ?_) ih
    rw [hmem, h, BelongsIn.congr h]

/-- **Pseudo nesting does not depend on the order of siblings.**  Whatever the order in which
    the rules stand in a block, the run comes to its end, and every rule is where it belongs:
    in the longest rule that it extends, with an ampersand for that rule, or directly in the
    block if it extends none.  So two orders give the same tree, up to the order of sibling
    rules. -/
theorem nestPseudos_any_order {rs rs' : List Node} (hrs : Flat rs) (hperm : rs.Perm rs')
    (o : Origin) (h : Header) :
    (nestPseudos Factory.clone {} (.block o h rs)).2.failure = none ∧
      (nestPseudos Factory.clone {} (.block o h rs')).2.failure = none ∧
      ∃ ns ns', (nestPseudos Factory.clone {} (.block o h rs)).1 = .block o h ns ∧
        (nestPseudos Factory.clone {} (.block o h rs')).1 = .block o h ns' ∧
        Arranged rs none ns ∧ Arranged rs none ns' ∧ Shuffled ns ns' := by
  have hends : ∀ n, (nestPseudos Factory.clone {} n).2.failure = none := fun n =>
    failure_of_goes_on (nestPseudos_goes_on Factory.clone_obliging {} n rfl)
  obtain ⟨ns, hns, harranged⟩ := arranged_nestPseudos hrs o h
  obtain ⟨ns', hns', harranged'⟩ := arranged_nestPseudos (hrs.perm hperm) o h
  have hsame := harranged'.congr fun r => hperm.symm.mem_iff
  exact ⟨hends _, hends _, ns, ns', hns, hns', harranged, hsame, harranged.shuffled hrs hsame⟩

/-- The rules `a:h::i`, `b`, `a:h`, `a` and `a:j`, with a declaration each. -/
def scatteredRules : List Node :=
  [.block {} (.rule ['a', ':', 'h', ':', ':', 'i']) [.declaration {} ⟨['c'], ['r'], false⟩],
   .block {} (.rule ['b']) [.declaration {} ⟨['c'], ['s'], false⟩],
   .block {} (.rule ['a', ':', 'h']) [.declaration {} ⟨['c'], ['t'], false⟩],
   .block {} (.rule ['a']) [.declaration {} ⟨['c'], ['u'], false⟩],
   .block {} (.rule ['a', ':', 'j']) [.declaration {} ⟨['c'], ['v'], false⟩]]

theorem nestPseudos_any_order_scatteredRules :
    Flat scatteredRules ∧ scatteredRules.Perm scatteredRules.reverse ∧
      (nestPseudos Factory.clone {} (.block {} .sheet scatteredRules)).2.failure = none ∧
      (nestPseudos Factory.clone {} (.block {} .sheet scatteredRules.reverse)).2.failure = none ∧
      ∃ ns ns', (nestPseudos Factory.clone {} (.block {} .sheet scatteredRules)).1 =
          .block {} .sheet ns ∧
        (nestPseudos Factory.clone {} (.block {} .sheet scatteredRules.reverse)).1 =
          .block {} .sheet ns' ∧
        Arranged scatteredRules none ns ∧ Arranged scatteredRules none ns' ∧ Shuffled ns ns' := by
  have hflat : Flat scatteredRules := by decide +kernel
  have hperm : scatteredRules.Perm scatteredRules.reverse := (List.reverse_perm _).symm
  exact ⟨hflat, hperm, nestPseudos_any_order hflat hperm {} .sheet⟩

end StyleNesting
