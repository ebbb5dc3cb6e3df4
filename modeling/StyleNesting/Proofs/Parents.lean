/-
  StyleNesting/Proofs/Parents.lean
  ================================
  **What nesting by descent makes of some siblings.**  A rule all of whose parts
  can be taken apart goes away, and one with some such parts keeps the others;
  nothing else happens to the siblings that were there, and they stay in order.
  New parents stand behind them, each with a selector of its own
  (`nestDescendants_layout`).

  Most of what taking rules apart does goes on inside of the siblings, and is left
  out of sight here: a sibling is looked at as a `shell`.  To the shells of the
  siblings only two things happen: a parent that is not there is put at the end
  (`map_shell_place`), and a rule whose turn is over gives up its parts
  (`map_shell_splitRule`).
-/
import StyleNesting.Proofs.Unshared

namespace StyleNesting

open Node Selector

/-! ### Shells -/

namespace Node

variable {n : Node}

/-- A rule or an at-rule without what stands inside; any other node as it is. -/
def shell (n : Node) : Node := if n.isStyleBlock then n.setNodes [] else n

theorem shell_setNodes (h : n.isStyleBlock = true) (ms : List Node) :
    (n.setNodes ms).shell = n.shell := by
  have hset : (n.setNodes ms).isStyleBlock = true := (isStyleBlock_setNodes ms n).trans h
  rw [shell, shell, if_pos hset, if_pos h]
  cases n <;> rfl

theorem shell_shell (n : Node) : n.shell.shell = n.shell := by
  cases n with
  | block o hd ns => cases hd <;> rfl
  | declaration o d => rfl
  | leaf o => rfl

theorem selector?_shell (n : Node) : n.shell.selector? = n.selector? := by
  cases n with
  | block o hd ns => cases hd <;> rfl
  | declaration o d => rfl
  | leaf o => rfl

/-- Whether all parts of a rule can be taken apart, and there are some. -/
def dissolves (n : Node) : Bool :=
  !n.parts.isEmpty && n.parts.all fun p => (splitDescendant? p).isSome

/-- What is left of a child of a block: nothing of a rule all of whose parts can be taken apart,
    the other parts of a rule with some such parts, and all of any other child. -/
def left? (n : Node) : Option Node :=
  if n.dissolves then none
  else if n.splits then
    some (n.setSelector (Text.join Text.commaSpace (Descendants.keptParts n)))
  else some n

theorem splits_of_dissolves (h : n.dissolves = true) : n.splits = true := by
  rw [dissolves, Bool.and_eq_true, Bool.not_eq_true', List.isEmpty_eq_false_iff] at h
  obtain ⟨p, hp⟩ := List.exists_mem_of_ne_nil _ h.1
  exact List.any_eq_true.mpr ⟨p, hp, List.all_eq_true.mp h.2 p hp⟩

theorem left?_of_not_splits (h : n.splits = false) : n.left? = some n := by
  have hstays : ¬n.dissolves = true := by
    intro hdissolves
    rw [splits_of_dissolves hdissolves] at h
    cases h
  rw [left?, if_neg hstays, h]
  rfl

theorem dissolves_iff (h : n.splits = true) :
    n.dissolves = true ↔ Descendants.keptParts n = [] := by
  obtain ⟨p, hp, -⟩ := List.any_eq_true.mp h
  have hne : n.parts.isEmpty = false := List.isEmpty_eq_false_iff.mpr (List.ne_nil_of_mem hp)
  rw [dissolves, hne, Descendants.keptParts, List.filter_eq_nil_iff]
  simp [mem_distinct, Option.isSome_iff_ne_none]

end Node

/-- A child as a shell. -/
def Slot.shell (s : Slot) : Slot := { s with node := s.node.shell }

namespace Descendants

/-! ### The layout -/

/-- Some part of one of the children is taken apart into `parent` and something else. -/
def SplitOff (ns : List Node) (parent : Text) : Prop :=
  ∃ n ∈ ns, ∃ p ∈ n.parts, ∃ child, splitDescendant? p = some (parent, child)

/-- New rules for selectors that were split off: no two of them have the same selector, and none
    has the selector of a rule that was there and that cannot be taken apart. -/
structure Parents (ns created : List Node) : Prop where
  new : ∀ m ∈ created, ∃ (o : Origin) (parent : Text),
    m.shell = .block o.ofCopy (.rule parent) [] ∧ SplitOff ns parent
  distinct : created.Pairwise fun m m' => m.selector? ≠ m'.selector?
  fresh : ∀ m ∈ created, ∀ n ∈ ns, n.isRule = true → n.splits = false → m.selector? ≠ n.selector?

/-- What nesting by descent makes of the children `ns`: first what is left of them, and then new
    parents.  Whatever was split off is the selector of one of these rules. -/
structure Layout (ns kept created : List Node) : Prop where
  left : kept.map shell = (ns.filterMap left?).map shell
  parents : Parents ns created
  found : ∀ parent, SplitOff ns parent → ∃ m ∈ kept ++ created, m.selector? = some parent

/-! ### Shells while rules are taken apart -/

section Shells

variable {waiting : List Nat} {w : Work} {rule : Node} {parent child : Text} {f : Factory}

theorem isParent_shell (s : Slot) :
    isParent waiting parent s.shell = isParent waiting parent s := by
  rw [isParent, isParent, Node.hasSelector, Node.hasSelector, Slot.shell, selector?_shell]
  rfl

/-- What happens inside of a parent is not seen. -/
theorem map_shell_updateParent {g : Node → Node} (hg : ∀ n : Node, ∃ ms, g n = n.setNodes ms) :
    (updateParent waiting parent g w).slots.map Slot.shell = w.slots.map Slot.shell := by
  apply map_updateLast
  intro s hs
  rw [isParent, Bool.and_eq_true] at hs
  obtain ⟨ms, hms⟩ := hg s.node
  have hblock : s.node.isStyleBlock = true :=
    isStyleBlock_of_isRule (Idiom.isRule_of_hasSelector hs.1)
  rw [Slot.shell, hms, shell_setNodes hblock]
  rfl

theorem map_shell_ensureChild :
    (ensureChild f waiting rule parent child w).slots.map Slot.shell = w.slots.map Slot.shell := by
  unfold ensureChild
  split
  · rfl
  · split
    · rename_i n p _
      exact map_shell_updateParent (w := ⟨w.slots, p⟩) fun n => ⟨_, append_eq_setNodes _ n⟩
    · rfl

theorem map_shell_fill :
    (fill waiting rule parent child w).slots.map Slot.shell = w.slots.map Slot.shell := by
  unfold fill
  split
  · rfl
  · have hfilled : (updateParent waiting parent (filled rule child) w).slots.map Slot.shell =
        w.slots.map Slot.shell := map_shell_updateParent fun n => ⟨_, rfl⟩
    exact hfilled

/-- **Placing the content of a rule**: a parent that is not there yet is put at the end. -/
theorem map_shell_place (hgo : w.stopped = false) (hrule : rule.isRule = true)
    (split : Text × Text) :
    (place Factory.clone waiting rule w split).slots.map Slot.shell =
      w.slots.map Slot.shell ++
        if w.slots.any (isParent waiting split.1) then []
        else [⟨none, .block rule.origin.ofCopy (.rule split.1) []⟩] := by
  rw [place, map_shell_fill, map_shell_ensureChild, ensureParent, hgo, Bool.false_or]
  by_cases hany : w.slots.any (isParent waiting split.1) = true
  · rw [if_pos hany, if_pos hany, List.append_nil]
  · obtain ⟨n, p, hnew⟩ := Progress.newRule_of_obliging Factory.clone_obliging hgo hrule split.1
    obtain rfl := newRule_eq rfl hrule hnew
    rw [if_neg hany, if_neg hany, hnew]
    simp [Work.push, Slot.shell, shell, Node.setNodes, isStyleBlock]

theorem any_isParent_shell (waiting : List Nat) (parent : Text) (slots : List Slot) :
    (slots.map Slot.shell).any (isParent waiting parent) = slots.any (isParent waiting parent) := by
  rw [List.any_map]
  congr 1
  funext s
  exact isParent_shell s

/-- What a rule leaves behind when its turn is over. -/
def giveUp (t : Nat) (rest : Option Node) (s : Slot) : Option Slot :=
  if s.has t then rest.map fun n => ⟨s.ticket, n.shell⟩ else some s

theorem giveUp_of_has {t : Nat} {s : Slot} (rest : Option Node) (h : s.has t = true) :
    giveUp t rest s = rest.map fun n => ⟨s.ticket, n.shell⟩ := if_pos h

theorem giveUp_of_not_has {t : Nat} {s : Slot} (rest : Option Node) (h : s.has t = false) :
    giveUp t rest s = some s := if_neg (by rw [h]; exact Bool.false_ne_true)

theorem map_shell_remove {t : Nat} (hgo : w.stopped = false) (hget : w.get? t = some rule) :
    (w.remove t).slots.map Slot.shell = (w.slots.map Slot.shell).filterMap (giveUp t none) := by
  have hslots : (w.remove t).slots = w.slots.filter (!·.has t) := by
    rw [Work.remove, hgo, if_neg Bool.false_ne_true, hget]
  rw [hslots]
  generalize w.slots = slots
  induction slots with
  | nil => rfl
  | cons s slots ih =>
    cases hst : s.has t with
    | true =>
      have hgone : giveUp t none s.shell = none := giveUp_of_has none hst
      rw [List.filter_cons_of_neg (by simp [hst]), ih, List.map_cons,
        List.filterMap_cons_none hgone]
    | false =>
      have hstays : giveUp t none s.shell = some s.shell := giveUp_of_not_has none hst
      rw [List.filter_cons_of_pos (by simp [hst]), List.map_cons, ih, List.map_cons,
        List.filterMap_cons_some hstays]

theorem map_shell_modify {t : Nat} (hd : w.Distinct) (hget : w.get? t = some rule) (s : Text) :
    (w.modify t (Node.setSelector s)).slots.map Slot.shell =
      (w.slots.map Slot.shell).filterMap (giveUp t (some (rule.setSelector s))) := by
  rw [Work.modify, List.map_map, List.filterMap_map, ← List.filterMap_eq_map]
  apply List.filterMap_congr
  intro r hr
  cases hrt : r.has t with
  | true =>
    obtain rfl := hd.node_eq hget hr hrt
    have hless := giveUp_of_has (s := r.shell) (some (r.node.setSelector s)) hrt
    simp only [Function.comp_apply, hrt, if_true, hless]
    rfl
  | false =>
    have hsame := giveUp_of_not_has (s := r.shell) (some (rule.setSelector s)) hrt
    simp only [Function.comp_apply, hrt, Bool.false_eq_true, if_false, hsame]

/-- **Taking a rule apart**: when its content has been placed, the rule gives up its parts. -/
theorem map_shell_splitRule {t : Nat} (hd : w.Distinct) (hgo : w.stopped = false)
    (ht : t ∈ waiting) (hget : w.get? t = some rule) (hsplits : rule.splits = true) :
    (splitRule Factory.clone waiting t w).slots.map Slot.shell =
      ((((distinct rule.parts).filterMap splitDescendant?).foldl
        (place Factory.clone waiting rule) w).slots.map Slot.shell).filterMap
          (giveUp t rule.left?) := by
  have hplaced : (((distinct rule.parts).filterMap splitDescendant?).foldl
      (place Factory.clone waiting rule) w).stopped = false :=
    foldl_place_goes_on Factory.clone_obliging (isRule_of_splits hsplits) hgo _
  have hframe : Frame waiting w _ :=
    foldl_place_frame Factory.clone rule ((distinct rule.parts).filterMap splitDescendant?)
  unfold splitRule
  simp only [hgo, hget, hplaced, Bool.false_eq_true, if_false, List.isEmpty_iff]
  generalize ((distinct rule.parts).filterMap splitDescendant?).foldl
    (place Factory.clone waiting rule) w = placed at hplaced hframe ⊢
  have hfound := (hframe.kept t ht).trans hget
  by_cases hdissolves : rule.dissolves = true
  · have hleft : rule.left? = none := if_pos hdissolves
    rw [if_pos (by exact (dissolves_iff hsplits).mp hdissolves), hleft]
    exact map_shell_remove hplaced hfound
  · have hleft : rule.left? =
        some (rule.setSelector (Text.join Text.commaSpace (keptParts rule))) := by
      rw [left?, if_neg hdissolves, if_pos hsplits]
    rw [if_neg (by exact fun hnone => hdissolves ((dissolves_iff hsplits).mpr hnone)), hleft]
    exact map_shell_modify (hframe.distinct hd) hfound _

end Shells

/-! ### From rule to rule -/

/-- What stands in the place of a child while some children wait to be taken apart. -/
def standing? (waiting : List Nat) (s : Slot) : Option Slot :=
  if waiting.any s.has then some s.shell else s.node.left?.map fun n => ⟨s.ticket, n.shell⟩

/-- The siblings while some of them wait to be taken apart, and the parents made so far.  For all
    parts of the rules whose turn is over there is a parent that does not go away any more. -/
structure Laid (ns : List Node) (waiting : List Nat) (w : Work) (created : List Node) : Prop where
  distinct : w.Distinct
  unchanged : ∀ s ∈ Slot.number ns, ∀ t ∈ waiting, s.has t = true → w.get? t = some s.node
  waits : ∀ s ∈ Slot.number ns, waiting.any s.has = true → s.node.splits = true
  shells : w.slots.map Slot.shell =
    (Slot.number ns).filterMap (standing? waiting) ++ created.map (Slot.mk none)
  parents : Parents ns created
  found : ∀ s ∈ Slot.number ns, waiting.any s.has = false → ∀ p ∈ s.node.parts, ∀ split,
    splitDescendant? p = some split → w.slots.any (isParent waiting split.1) = true

section Laid

variable {ns created : List Node} {waiting : List Nat} {w : Work} {parent : Text}

theorem eq_of_has_number {s s' : Slot} (hs : s ∈ Slot.number ns) (hs' : s' ∈ Slot.number ns)
    {t : Nat} (hst : s.has t = true) (hst' : s'.has t = true) : s = s' :=
  (Work.distinct_start {} ns).eq_of_has hs hs' hst hst'

theorem any_isParent_of_mem_shells {r : Slot} (hr : r ∈ w.slots.map Slot.shell)
    (hparent : isParent waiting parent r = true) :
    w.slots.any (isParent waiting parent) = true := by
  rw [← any_isParent_shell]
  exact List.any_eq_true.mpr ⟨r, hr, hparent⟩

/-- A parent that was made takes content again. -/
theorem Laid.any_of_created (h : Laid ns waiting w created) {m : Node} (hm : m ∈ created)
    (hselector : m.selector? = some parent) : w.slots.any (isParent waiting parent) = true := by
  apply any_isParent_of_mem_shells (r := ⟨none, m⟩)
  · rw [h.shells]
    exact List.mem_append_right _ (List.mem_map_of_mem hm)
  · simp [isParent, Node.hasSelector, hselector, Slot.has]

/-- So does a rule that cannot be taken apart. -/
theorem Laid.any_of_not_splits (h : Laid ns waiting w created) {n : Node} (hn : n ∈ ns)
    (hsplits : n.splits = false) (hselector : n.selector? = some parent) :
    w.slots.any (isParent waiting parent) = true := by
  obtain ⟨s, hs, rfl⟩ := Slot.mem_iff_number.mp hn
  have hdone : waiting.any s.has = false := by
    apply eq_false_of_ne_true
    intro hwaits
    rw [h.waits s hs hwaits] at hsplits
    cases hsplits
  have hstanding : standing? waiting s = some s.shell := by
    rw [standing?, hdone, left?_of_not_splits hsplits]
    rfl
  apply any_isParent_of_mem_shells (r := s.shell)
  · rw [h.shells]
    exact List.mem_append_left _ (List.mem_filterMap.mpr ⟨s, hs, hstanding⟩)
  · rw [isParent_shell, isParent, Node.hasSelector, hselector, hdone]
    simp

theorem Parents.append (h : Parents ns created) (hsplit : SplitOff ns parent) (o : Origin)
    (hother : ∀ m ∈ created, m.selector? ≠ some parent)
    (hfresh : ∀ n ∈ ns, n.splits = false → n.selector? ≠ some parent) :
    Parents ns (created ++ [.block o.ofCopy (.rule parent) []]) where
  new m hm := by
    rcases List.mem_append.mp hm with hold | hnew
    · exact h.new m hold
    · obtain rfl := List.mem_singleton.mp hnew
      exact ⟨o, parent, rfl, hsplit⟩
  distinct := by
    apply List.pairwise_append.mpr
    refine ⟨h.distinct, List.pairwise_singleton _ _, ?_⟩
    intro m hm m' hm'
    rw [List.mem_singleton.mp hm']
    exact hother m hm
  fresh m hm n hn hrule hsplits := by
    rcases List.mem_append.mp hm with hold | hnew
    · exact h.fresh m hold n hn hrule hsplits
    · obtain rfl := List.mem_singleton.mp hnew
      exact (hfresh n hn hsplits).symm

variable {rule : Node} {split : Text × Text}

/-- Parents stay. -/
theorem any_isParent_place (hgo : w.stopped = false) (hrule : rule.isRule = true)
    (h : w.slots.any (isParent waiting parent) = true) :
    (place Factory.clone waiting rule w split).slots.any (isParent waiting parent) = true := by
  rw [← any_isParent_shell, map_shell_place hgo hrule, List.any_append, any_isParent_shell, h,
    Bool.true_or]

/-- The layout is kept where parents are added and the waiting rules stay. -/
theorem Laid.grow {w' : Work} {created' : List Node} (h : Laid ns waiting w created)
    (hframe : Frame waiting w w')
    (hmore : ∀ parent, w.slots.any (isParent waiting parent) = true →
      w'.slots.any (isParent waiting parent) = true)
    (hshells : w'.slots.map Slot.shell =
      (Slot.number ns).filterMap (standing? waiting) ++ created'.map (Slot.mk none))
    (hparents : Parents ns created') : Laid ns waiting w' created' where
  distinct := hframe.distinct h.distinct
  unchanged s hs t ht hst := (hframe.kept t ht).trans (h.unchanged s hs t ht hst)
  waits := h.waits
  shells := hshells
  parents := hparents
  found s hs hdone p hp split hsplit := hmore _ (h.found s hs hdone p hp split hsplit)

/-- **Placing content** keeps the layout, and there is a parent then. -/
theorem Laid.after_place (h : Laid ns waiting w created) (hgo : w.stopped = false)
    (hrule : rule.isRule = true) (hsplit : SplitOff ns split.1) :
    (∃ created', Laid ns waiting (place Factory.clone waiting rule w split) created') ∧
      (place Factory.clone waiting rule w split).slots.any (isParent waiting split.1) = true := by
  have hframe : Frame waiting w _ := place_frame Factory.clone rule split
  have hmore : ∀ parent, w.slots.any (isParent waiting parent) = true →
      (place Factory.clone waiting rule w split).slots.any (isParent waiting parent) = true :=
    fun parent => any_isParent_place hgo hrule
  have hshells : (place Factory.clone waiting rule w split).slots.map Slot.shell = _ :=
    map_shell_place hgo hrule split
  by_cases hany : w.slots.any (isParent waiting split.1) = true
  · rw [if_pos hany, List.append_nil, h.shells] at hshells
    exact ⟨⟨created, h.grow hframe hmore hshells h.parents⟩, hmore _ hany⟩
  · have hparents : Parents ns (created ++ [.block rule.origin.ofCopy (.rule split.1) []]) :=
      h.parents.append hsplit _ (fun m hm hselector => hany (h.any_of_created hm hselector))
        fun n hn hsplits hselector => hany (h.any_of_not_splits hn hsplits hselector)
    rw [if_neg hany, h.shells, List.append_assoc, ← List.map_singleton, ← List.map_append]
      at hshells
    have hlaid := h.grow hframe hmore hshells hparents
    have hnew : Node.block rule.origin.ofCopy (.rule split.1) [] ∈
        created ++ [.block rule.origin.ofCopy (.rule split.1) []] :=
      List.mem_append_right _ (List.mem_singleton_self _)
    exact ⟨⟨_, hlaid⟩, hlaid.any_of_created hnew rfl⟩

theorem any_isParent_foldl_place (hgo : w.stopped = false) (hrule : rule.isRule = true)
    (splits : List (Text × Text)) (h : w.slots.any (isParent waiting parent) = true) :
    (splits.foldl (place Factory.clone waiting rule) w).slots.any
      (isParent waiting parent) = true := by
  induction splits generalizing w with
  | nil => exact h
  | cons split splits ih =>
    exact ih (place_goes_on Factory.clone_obliging hrule hgo split)
      (any_isParent_place hgo hrule h)

theorem Laid.after_foldl_place (h : Laid ns waiting w created) (hgo : w.stopped = false)
    (hrule : rule.isRule = true) {splits : List (Text × Text)}
    (hsplits : ∀ split ∈ splits, SplitOff ns split.1) :
    (∃ created', Laid ns waiting (splits.foldl (place Factory.clone waiting rule) w) created') ∧
      ∀ split ∈ splits, (splits.foldl (place Factory.clone waiting rule) w).slots.any
        (isParent waiting split.1) = true := by
  induction splits generalizing w created with
  | nil => exact ⟨⟨created, h⟩, List.forall_mem_nil _⟩
  | cons split splits ih =>
    rw [List.forall_mem_cons] at hsplits
    obtain ⟨⟨created', hplaced⟩, hparent⟩ := h.after_place hgo hrule hsplits.1
    have hgo' : (place Factory.clone waiting rule w split).stopped = false :=
      place_goes_on Factory.clone_obliging hrule hgo split
    obtain ⟨hlaid, hfound⟩ := ih hplaced hgo' hsplits.2
    refine ⟨hlaid, List.forall_mem_cons.mpr ⟨?_, hfound⟩⟩
    exact any_isParent_foldl_place hgo' hrule splits hparent

end Laid

section Turns

variable {ns created : List Node} {later : List Nat} {t : Nat} {w : Work} {s : Slot}

/-- Of the waiting children just one has its turn. -/
theorem standing?_bind_giveUp (hs : s ∈ Slot.number ns) (hst : s.has t = true) (hlater : t ∉ later)
    {s' : Slot} (hs' : s' ∈ Slot.number ns) :
    (standing? (t :: later) s').bind (giveUp t s.node.left?) = standing? later s' := by
  cases hst' : s'.has t with
  | true =>
    obtain rfl := eq_of_has_number hs hs' hst hst'
    have hover : later.any s.has = false := by
      apply List.any_eq_false.mpr
      intro k hk hsk
      rw [Slot.has_iff] at hst hsk
      obtain rfl := Option.some.inj (hst.symm.trans hsk)
      exact hlater hk
    rw [standing?, standing?, List.any_cons, hst, hover, Bool.true_or, if_pos rfl,
      if_neg Bool.false_ne_true, Option.bind_some]
    exact giveUp_of_has (s := s.shell) _ hst
  | false =>
    have hstanding : standing? (t :: later) s' = standing? later s' := by
      rw [standing?, standing?, List.any_cons, hst', Bool.false_or]
    have hticket : ∀ r, standing? later s' = some r → r.ticket = s'.ticket := by
      intro r hr
      unfold standing? at hr
      split at hr
      · obtain rfl := Option.some.inj hr
        rfl
      · obtain ⟨n, -, rfl⟩ := Option.map_eq_some_iff.mp hr
        rfl
    rw [hstanding]
    cases hr : standing? later s' with
    | none => rfl
    | some r =>
      apply giveUp_of_not_has
      rw [Slot.has, hticket r hr]
      exact hst'

/-- A parent of content that was placed stays when the rule gives up its parts, and has nothing
    to wait for. -/
theorem any_isParent_of_giveUp {w' : Work} {rest : Option Node} {parent : Text}
    (hshells : w'.slots.map Slot.shell = (w.slots.map Slot.shell).filterMap (giveUp t rest))
    (h : w.slots.any (isParent (t :: later) parent) = true) :
    w'.slots.any (isParent later parent) = true := by
  rw [← any_isParent_shell] at h
  obtain ⟨r, hr, hparent⟩ := List.any_eq_true.mp h
  rw [isParent, List.any_cons, Bool.not_or, ← Bool.and_assoc, Bool.and_right_comm,
    Bool.and_eq_true, Bool.not_eq_true'] at hparent
  apply any_isParent_of_mem_shells (r := r) _ hparent.1
  rw [hshells]
  exact List.mem_filterMap.mpr ⟨r, hr, giveUp_of_not_has rest hparent.2⟩

/-- The layout when the turn of a rule is over: its content has been placed, and it has given up
    its parts. -/
theorem Laid.turn_over {w' : Work} (h : Laid ns (t :: later) w created) (hs : s ∈ Slot.number ns)
    (hst : s.has t = true) (hlater : t ∉ later)
    (hplaced : ∀ p ∈ s.node.parts, ∀ split, splitDescendant? p = some split →
      w.slots.any (isParent (t :: later) split.1) = true)
    (hdistinct : w'.Distinct) (hkept : ∀ k ∈ later, w'.get? k = w.get? k)
    (hshells : w'.slots.map Slot.shell =
      (w.slots.map Slot.shell).filterMap (giveUp t s.node.left?)) :
    Laid ns later w' created where
  distinct := hdistinct
  unchanged s' hs' k hk hsk :=
    (hkept k hk).trans (h.unchanged s' hs' k (List.mem_cons_of_mem t hk) hsk)
  waits s' hs' hwaits := h.waits s' hs' (by rw [List.any_cons, hwaits, Bool.or_true])
  shells := by
    have hcreated : (created.map (Slot.mk none)).filterMap (giveUp t s.node.left?) =
        created.map (Slot.mk none) := by
      rw [List.filterMap_map, ← List.filterMap_eq_map]
      rfl
    rw [hshells, h.shells, List.filterMap_append, hcreated, List.filterMap_filterMap]
    congr 1
    apply List.filterMap_congr
    intro s' hs'
    exact standing?_bind_giveUp hs hst hlater hs'
  parents := h.parents
  found s' hs' hover p hp split hsplit := by
    apply any_isParent_of_giveUp hshells
    cases hst' : s'.has t with
    | true =>
      obtain rfl := eq_of_has_number hs hs' hst hst'
      exact hplaced p hp split hsplit
    | false =>
      exact h.found s' hs' (by rw [List.any_cons, hst', hover, Bool.or_false]) p hp split hsplit

/-- **Taking one rule apart** keeps the layout, with one rule less that waits. -/
theorem Laid.after_splitRule (h : Laid ns (t :: later) w created) (hgo : w.stopped = false)
    (hs : s ∈ Slot.number ns) (hst : s.has t = true) (hlater : t ∉ later) :
    ∃ created', Laid ns later (splitRule Factory.clone (t :: later) t w) created' := by
  have ht : t ∈ t :: later := List.mem_cons_self ..
  have hget : w.get? t = some s.node := h.unchanged s hs t ht hst
  have hsplits : s.node.splits = true := h.waits s hs (by rw [List.any_cons, hst, Bool.true_or])
  have hsplitOff : ∀ split ∈ (Selector.distinct s.node.parts).filterMap splitDescendant?,
      SplitOff ns split.1 := by
    rintro ⟨parent, child⟩ hsplit
    obtain ⟨p, hp, hsplit⟩ := List.mem_filterMap.mp hsplit
    exact ⟨s.node, Slot.mem_iff_number.mpr ⟨s, hs, rfl⟩, p, mem_distinct.mp hp, child, hsplit⟩
  obtain ⟨⟨created', hplaced⟩, hfound⟩ :=
    h.after_foldl_place hgo (isRule_of_splits hsplits) hsplitOff
  have hframe : Frame (t :: later) w _ :=
    foldl_place_frame Factory.clone s.node
      ((Selector.distinct s.node.parts).filterMap splitDescendant?)
  have hsplit : (splitRule Factory.clone (t :: later) t w).Distinct ∧ _ :=
    splitRule_frame Factory.clone h.distinct
  refine ⟨created', hplaced.turn_over hs hst hlater ?_ hsplit.1 ?_
    (map_shell_splitRule h.distinct hgo ht hget hsplits)⟩
  · intro p hp split hsplit
    exact hfound split (List.mem_filterMap.mpr ⟨p, mem_distinct.mpr hp, hsplit⟩)
  · intro k hk
    have hk' : k ∈ t :: later := List.mem_cons_of_mem t hk
    rw [hframe.kept k hk']
    exact hsplit.2 k hk' fun e => hlater (e ▸ hk)

/-- Taking all waiting rules apart keeps the layout, until no rule waits any more. -/
theorem Laid.after_splitAll {waiting : List Nat} (h : Laid ns waiting w created)
    (hgo : w.stopped = false) (hnodup : waiting.Nodup)
    (hslots : ∀ t ∈ waiting, ∃ s ∈ Slot.number ns, s.has t = true) :
    ∃ created', Laid ns [] (splitAll Factory.clone waiting w) created' := by
  induction waiting generalizing w created with
  | nil => exact ⟨created, h⟩
  | cons t later ih =>
    obtain ⟨hlater, hnodup⟩ := List.nodup_cons.mp hnodup
    rw [List.forall_mem_cons] at hslots
    obtain ⟨s, hs, hst⟩ := hslots.1
    obtain ⟨created', hlaid⟩ := h.after_splitRule hgo hs hst hlater
    refine ih hlaid ?_ hnodup hslots.2
    have hsplits : s.node.splits = true := h.waits s hs (by rw [List.any_cons, hst, Bool.true_or])
    have ht : t ∈ t :: later := List.mem_cons_self ..
    exact splitRule_goes_on Factory.clone_obliging (isRule_of_splits hsplits) hgo ht
      (h.unchanged s hs t ht hst)

end Turns

/-! ### One level -/

section Level

variable {p : Progress} {ns : List Node}

theorem laid_start (p : Progress) (ns : List Node) :
    Laid ns (splitTickets p ns) (Work.start p ns) [] where
  distinct := Work.distinct_start p ns
  unchanged s hs t _ hst := (Work.distinct_start p ns).get?_eq hs hst
  waits s hs hwaits := by rwa [any_splitTickets hs] at hwaits
  shells := by
    rw [List.map_nil, List.append_nil, ← List.filterMap_eq_map]
    apply List.filterMap_congr
    intro s hs
    rw [standing?, any_splitTickets hs]
    cases hsplits : s.node.splits with
    | true => rfl
    | false =>
      rw [left?_of_not_splits hsplits]
      rfl
  parents := ⟨List.forall_mem_nil _, .nil, List.forall_mem_nil _⟩
  found s hs hover p hp split hsplit := by
    rw [any_splitTickets hs] at hover
    have hnone := List.any_eq_false.mp hover p hp
    rw [hsplit] at hnone
    exact absurd rfl hnone

theorem Laid.nodes {w : Work} {created : List Node} (h : Laid ns [] w created) :
    w.nodes.map shell = (ns.filterMap left?).map shell ++ created := by
  have hleft : ((Slot.number ns).filterMap (standing? [])).map (·.node) =
      (ns.filterMap left?).map shell := by
    have hnodes : ns.filterMap left? = (Slot.number ns).filterMap fun s => s.node.left? := by
      have hfilter : ((Slot.number ns).map Slot.node).filterMap left? = _ := List.filterMap_map
      rwa [Slot.number, Slot.map_node_numberFrom] at hfilter
    rw [hnodes, List.map_filterMap, List.map_filterMap]
    apply List.filterMap_congr
    intro s _
    exact Option.map_map ..
  have hcreated : (created.map (Slot.mk none)).map (·.node) = created := by
    rw [List.map_map]
    exact List.map_id created
  calc w.nodes.map shell
      = (w.slots.map Slot.shell).map (·.node) := by rw [Work.nodes, List.map_map, List.map_map]; rfl
    _ = (ns.filterMap left?).map shell ++ created := by
      rw [h.shells, List.map_append, hleft, hcreated]

/-- Being new, distinct and fresh does not depend on what stands inside. -/
theorem Parents.of_shells {created : List Node} (h : Parents ns (created.map shell)) :
    Parents ns created where
  new m hm := by
    obtain ⟨o, parent, hshell, hsplit⟩ := h.new m.shell (List.mem_map_of_mem hm)
    refine ⟨o, parent, ?_, hsplit⟩
    rwa [shell_shell] at hshell
  distinct := by
    have hdistinct := List.pairwise_map.mp h.distinct
    simpa only [selector?_shell] using hdistinct
  fresh m hm n hn hrule hsplits := by
    rw [← selector?_shell m]
    exact h.fresh m.shell (List.mem_map_of_mem hm) n hn hrule hsplits

/-- **One level**: the layout of the children, whatever happens inside of them afterwards. -/
theorem exists_layout (hgo : p.stopped = false) {ms : List Node}
    (hms : ms.map shell = (level Factory.clone p ns).1.map shell) :
    ∃ kept created, ms = kept ++ created ∧ Layout ns kept created := by
  obtain ⟨shells, hlaid⟩ := (laid_start p ns).after_splitAll hgo (nodup_splitTickets p ns) (by
    intro t ht
    obtain ⟨s, hs, hst, -⟩ := exists_of_mem_splitTickets ht
    exact ⟨s, hs, hst⟩)
  have hlevel : (level Factory.clone p ns).1 =
      (splitAll Factory.clone (splitTickets p ns) (Work.start p ns)).nodes := rfl
  have hshells := hms
  rw [hlevel, hlaid.nodes] at hshells
  obtain ⟨kept, created, rfl, hkept, hcreated⟩ := List.map_eq_append_iff.mp hshells
  refine ⟨kept, created, rfl, hkept, (hcreated ▸ hlaid.parents).of_shells, ?_⟩
  rintro parent ⟨n, hn, q, hq, child, hsplit⟩
  obtain ⟨s, hs, rfl⟩ := Slot.mem_iff_number.mp hn
  obtain ⟨r, hr, hparent⟩ := List.any_eq_true.mp (hlaid.found s hs rfl q hq _ hsplit)
  rw [isParent, Bool.and_eq_true] at hparent
  obtain ⟨o, ks, hnode⟩ := exists_of_hasSelector hparent.1
  have hmem : r.node.shell ∈ (kept ++ created).map shell := by
    rw [hms]
    exact List.mem_map_of_mem (List.mem_map_of_mem hr)
  obtain ⟨m, hm, hshell⟩ := List.mem_map.mp hmem
  refine ⟨m, hm, ?_⟩
  rw [← selector?_shell, hshell, selector?_shell, hnode]
  rfl

end Level

/-- A block whose children are laid out anew. -/
def Relaid (n m : Node) : Prop :=
  ∃ kept created, m = n.setNodes (kept ++ created) ∧ Layout n.nodes kept created

theorem follows_relaid : Follows (fun _ => level Factory.clone) Relaid where
  goes_on _ p ns hgo := level_goes_on Factory.clone_obliging p ns hgo
  plain n hn := by
    have hlayout : Layout [] [] [] := by
      refine ⟨rfl, ⟨List.forall_mem_nil _, .nil, List.forall_mem_nil _⟩, ?_⟩
      rintro parent ⟨n, hn, -⟩
      cases hn
    refine ⟨[], [], ?_, ?_⟩
    · cases n with
      | block o h ns => cases hn
      | declaration o d => rfl
      | leaf o => rfl
    · rwa [nodes_of_not_isBlock hn]
  block o h p ns ms hgo hms := by
    have hshells : ms.map shell = (level Factory.clone p ns).1.map shell := by
      apply map_of_same_view
      refine hms.imp fun n m hnm => ?_
      rcases hnm with ⟨hstyle, kept, created, rfl, -⟩ | ⟨-, rfl⟩
      · exact shell_setNodes hstyle _
      · rfl
    obtain ⟨kept, created, rfl, hlayout⟩ := exists_layout hgo hshells
    exact ⟨kept, created, rfl, hlayout⟩

end Descendants

/-- **What nesting by descent makes of the children of a block.**  It comes to its end.  First come
    the children that were there, in their order, up to what happens inside of rules and at-rules:
    a rule with parts, all of which can be taken apart, is gone, a rule with some such parts has
    the others for its selector, each once, and any other child is what it was.  New parents
    follow.  No two of them have the same selector, and none has the selector of a rule that was
    there and has no part to be taken apart.  Every parent that was split off from a part is the
    selector of one of the rules. -/
theorem nestDescendants_layout (o : Origin) (h : Header) (ns : List Node) :
    (nestDescendants Factory.clone {} (.block o h ns)).2.failure = none ∧
      ∃ kept created, Descendants.Layout ns kept created ∧
        (nestDescendants Factory.clone {} (.block o h ns)).1 = .block o h (kept ++ created) := by
  have hends : Ends (fun _ => Descendants.level Factory.clone) {} (.block o h ns)
      (nestDescendants Factory.clone {} (.block o h ns)) :=
    Pass.ends_run Factory.clone .descendants rfl _
  obtain ⟨⟨kept, created, hresult, hlayout⟩, hgo⟩ := hends.follows Descendants.follows_relaid rfl
  exact ⟨failure_of_goes_on hgo, kept, created, hlayout, hresult⟩

-- `c, a b {} d {} a e {} c f {}`: one parent is made for two rules, and the rule that has given up
-- `a b` is a parent as well
example :
    let n : Node := .block {} .sheet
      (["c, a b", "d", "a e", "c f"].map fun s => .block {} (.rule s.toList) [])
    (nestDescendants Factory.clone {} n).1.nodes.map selector? =
      [some ['c'], some ['d'], some ['a']] := by
  decide +kernel

end StyleNesting
