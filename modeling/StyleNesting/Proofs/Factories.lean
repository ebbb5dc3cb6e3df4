/-
  StyleNesting/Proofs/Factories.lean
  ==================================
  **The places of new nodes make no difference to a run.**  A pass with any
  factory, seen without places, is the same pass with a factory that gives no
  places, on the tree without places (`Pass.run_bare`).  So two factories that
  differ in the places they give, and in nothing else, build the same trees but
  for places, whatever passes are run (`clone_and_literal_agree`).

  The factory that keeps places models every new node on an old one of its kind,
  and would refuse where there is none.  The passes never ask for that: a rule is
  modelled on a rule, and a declaration on a declaration.
-/
import StyleNesting.Proofs.Factoring
import StyleNesting.Proofs.Places
import StyleNesting.Proofs.Pseudos

namespace StyleNesting

open Node

/-- The factory with the same refusals that gives no places. -/
def Factory.bare (f : Factory) : Factory := { f with keepsSource := false }

def Progress.unplaced (p : Progress) : Progress := { p with removed := p.removed.map Node.unplaced }

/-- A tree and a run without places. -/
def unplacedRun (x : Node × Progress) : Node × Progress := (x.1.unplaced, x.2.unplaced)

/-- Siblings and a run without places. -/
def unplacedSiblings (x : List Node × Progress) : List Node × Progress :=
  (x.1.map Node.unplaced, x.2.unplaced)

/-! ### New nodes -/

namespace Progress

@[simp]
theorem stopped_unplaced (p : Progress) : p.unplaced.stopped = p.stopped := rfl

theorem log_unplaced (p : Progress) (e : Event) : p.unplaced.log e = (p.log e).unplaced := rfl

theorem remove_unplaced (p : Progress) (ns : List Node) :
    p.unplaced.remove (ns.map Node.unplaced) = (p.remove ns).unplaced := by
  simp [remove, unplaced]

variable {f : Factory} {reference : Node}

/-- A rule modelled on a rule differs from one modelled on nothing in its place only. -/
theorem newRule_bare (href : reference.isRule = true) (p : Progress) (s : Text) :
    p.unplaced.newRule f.bare reference.unplaced s =
      ((p.newRule f reference s).1.map Node.unplaced, (p.newRule f reference s).2.unplaced) := by
  have horigin : ∃ o, f.originFrom? (Factory.ruleTemplate? reference reference) = some o ∧
      o.unplaced = {} := by
    rw [Factory.originFrom?, Factory.ruleTemplate?, if_pos href]
    cases f.keepsSource <;> exact ⟨_, rfl, rfl⟩
  obtain ⟨o, ho, hbare⟩ := horigin
  have hnone : ∀ t, f.bare.originFrom? t = some {} := fun _ => rfl
  simp only [newRule, stopped_unplaced, Factory.rule, ho, hnone]
  cases p.stopped with
  | true => rfl
  | false =>
    simp only [Factory.bare, unplaced, Bool.false_eq_true, if_false]
    cases f.refusal? .rule p.ruleCalls with
    | some reason => rfl
    | none => simp [unplaced_block, hbare]

theorem newDeclaration_bare (href : reference.content?.isSome = true) (p : Progress)
    (d : Declaration) :
    p.unplaced.newDeclaration f.bare reference.unplaced d =
      ((p.newDeclaration f reference d).1.map Node.unplaced,
        (p.newDeclaration f reference d).2.unplaced) := by
  have horigin : ∃ o, f.originFrom? (Factory.declarationTemplate? reference reference) = some o ∧
      o.unplaced = {} := by
    rw [Factory.originFrom?, Factory.declarationTemplate?, if_pos href]
    cases f.keepsSource <;> exact ⟨_, rfl, rfl⟩
  obtain ⟨o, ho, hbare⟩ := horigin
  have hnone : ∀ t, f.bare.originFrom? t = some {} := fun _ => rfl
  simp only [newDeclaration, stopped_unplaced, Factory.declaration, ho, hnone]
  cases p.stopped with
  | true => rfl
  | false =>
    simp only [Factory.bare, unplaced, Bool.false_eq_true, if_false]
    cases f.refusal? .declaration p.declarationCalls with
    | some reason => rfl
    | none => simp [Node.unplaced, hbare]

end Progress

/-! ### Siblings -/

def Slot.unplaced (s : Slot) : Slot := { s with node := s.node.unplaced }

@[simp]
theorem Slot.has_unplaced (t : Nat) (s : Slot) : s.unplaced.has t = s.has t := rfl

@[simp]
theorem Slot.node_unplaced (s : Slot) : s.unplaced.node = s.node.unplaced := rfl

@[simp]
theorem Slot.ticket_unplaced (s : Slot) : s.unplaced.ticket = s.ticket := rfl

theorem Slot.numberFrom_unplaced (k : Nat) (ns : List Node) :
    Slot.numberFrom k (ns.map Node.unplaced) = (Slot.numberFrom k ns).map Slot.unplaced := by
  induction ns generalizing k with
  | nil => rfl
  | cons n ns ih =>
    rw [List.map_cons, numberFrom, ih, numberFrom, List.map_cons]
    rfl

theorem updateLast?_map {α : Type} {p p' : α → Bool} {f f' g : α → α}
    (hp : ∀ x, p' (g x) = p x) (hf : ∀ x, f' (g x) = g (f x)) (xs : List α) :
    updateLast? p' f' (xs.map g) = (updateLast? p f xs).map (List.map g) := by
  induction xs with
  | nil => rfl
  | cons x xs ih =>
    rw [List.map_cons, updateLast?, ih, updateLast?]
    cases updateLast? p f xs with
    | some ys => rfl
    | none =>
      simp only [Option.map_none, hp, hf]
      split <;> rfl

theorem updateLast_map {α : Type} {p p' : α → Bool} {f f' g : α → α}
    (hp : ∀ x, p' (g x) = p x) (hf : ∀ x, f' (g x) = g (f x)) (xs : List α) :
    updateLast p' f' (xs.map g) = (updateLast p f xs).map g := by
  rw [updateLast, updateLast?_map hp hf, updateLast]
  cases updateLast? p f xs <;> rfl

namespace Work

def unplaced (w : Work) : Work := ⟨w.slots.map Slot.unplaced, w.progress.unplaced⟩

variable (w : Work) (t : Nat)

@[simp]
theorem stopped_unplaced : w.unplaced.stopped = w.stopped := rfl

theorem slots_unplaced : w.unplaced.slots = w.slots.map Slot.unplaced := rfl

theorem progress_unplaced : w.unplaced.progress = w.progress.unplaced := rfl

theorem start_unplaced (p : Progress) (ns : List Node) :
    start p.unplaced (ns.map Node.unplaced) = (start p ns).unplaced := by
  rw [start, Slot.number, Slot.numberFrom_unplaced]
  rfl

theorem finish_unplaced : w.unplaced.finish = unplacedSiblings w.finish := by
  simp [finish, unplacedSiblings, nodes, unplaced, Function.comp_def]

@[simp]
theorem get?_unplaced : w.unplaced.get? t = (w.get? t).map Node.unplaced := by
  have hhas : Slot.has t ∘ Slot.unplaced = Slot.has t := rfl
  rw [get?, slots_unplaced, List.find?_map, hhas, get?, Option.map_map, Option.map_map]
  rfl

@[simp]
theorem contains_unplaced : w.unplaced.contains t = w.contains t := by
  simp [contains, unplaced, List.any_map, Function.comp_def]

theorem log_unplaced (e : Event) : w.unplaced.log e = (w.log e).unplaced := rfl

theorem logged_unplaced (e : Event) :
    (if w.unplaced.stopped then w.unplaced else w.unplaced.log e) =
      (if w.stopped then w else w.log e).unplaced := by
  rw [stopped_unplaced]
  split <;> rfl

theorem push_unplaced (n : Node) : w.unplaced.push n.unplaced = (w.push n).unplaced := by
  simp [push, unplaced, Slot.unplaced]

theorem modify_unplaced {g g' : Node → Node} (hg : ∀ n, g' n.unplaced = (g n).unplaced) :
    w.unplaced.modify t g' = (w.modify t g).unplaced := by
  simp only [modify, unplaced, List.map_map]
  congr 1
  refine List.map_congr_left fun s _ => ?_
  by_cases hs : s.has t = true
  · simp only [Function.comp, Slot.has_unplaced, hs, if_true, Slot.node_unplaced, hg]
    rfl
  · simp [hs]

theorem insertBefore_unplaced (n : Node) :
    w.unplaced.insertBefore t n.unplaced = (w.insertBefore t n).unplaced := by
  simp only [insertBefore, stopped_unplaced, contains_unplaced]
  split
  · rfl
  · split
    · simp only [unplaced, List.flatMap_map, List.map_flatMap]
      congr 1
      refine List.flatMap_congr fun s _ => ?_
      by_cases hs : s.has t = true
      · simp only [Slot.has_unplaced, hs, if_true]
        rfl
      · simp [hs]
    · rfl

theorem remove_unplaced : w.unplaced.remove t = (w.remove t).unplaced := by
  simp only [remove, stopped_unplaced, get?_unplaced]
  split
  · rfl
  · cases w.get? t with
    | none => rfl
    | some n =>
      have hremoved := w.progress.remove_unplaced [n]
      simp only [List.map_singleton] at hremoved
      simp [unplaced, hremoved, List.filter_map, Function.comp_def]

theorem foldl_remove_unplaced (ts : List Nat) :
    ts.foldl Work.remove w.unplaced = (ts.foldl Work.remove w).unplaced := by
  induction ts generalizing w with
  | nil => rfl
  | cons t ts ih => rw [List.foldl_cons, remove_unplaced, ih, List.foldl_cons]

end Work

/-! ### Whole trees -/

section TopDown

/-- Seen without places, the second step is the first one. -/
def SameStep (step step' : Step) : Prop :=
  ∀ p n, step' p.unplaced n.unplaced = unplacedRun (step p n)

/-- Seen without places, the second pass does to siblings what the first one does. -/
def SameLevel (level level' : Header → Progress → List Node → List Node × Progress) : Prop :=
  ∀ h p ns, level' h p.unplaced (ns.map Node.unplaced) = unplacedSiblings (level h p ns)

variable {step step' : Step}

theorem SameStep.visitAll (h : SameStep step step') (p : Progress) (ns : List Node) :
    visitAll step' p.unplaced (ns.map Node.unplaced) =
      unplacedSiblings (visitAll step p ns) := by
  induction ns generalizing p with
  | nil => rfl
  | cons n ns ih =>
    have hn := h p n
    simp only [List.map_cons, StyleNesting.visitAll, hn, unplacedRun, ih]
    rfl

theorem SameStep.enter (h : SameStep step step') :
    SameStep (StyleNesting.enter step) (StyleNesting.enter step') := by
  intro p n
  simp only [StyleNesting.enter, isStyleBlock_unplaced, Progress.stopped_unplaced]
  split
  · exact h p n
  · rfl

theorem SameLevel.topDown {level level' : Header → Progress → List Node → List Node × Progress}
    (h : SameLevel level level') (fuel : Nat) :
    SameStep (topDown level fuel) (topDown level' fuel) := by
  induction fuel with
  | zero => exact fun _ _ => rfl
  | succ fuel ih =>
    intro p n
    cases n with
    | block o hd ns =>
      have hlevel := h hd p ns
      have hvisit := ih.enter.visitAll (level hd p ns).2 (level hd p ns).1
      simp only [unplaced_block, StyleNesting.topDown, hlevel, unplacedSiblings] at hvisit ⊢
      rw [hvisit]
      simp [unplacedRun, unplaced_block]
    | declaration o d => rfl
    | leaf o => rfl

end TopDown

/-! ### Cleanup -/

namespace Cleanup

theorem prune_unplaced (p : Progress) (n : Node) :
    p.unplaced.prune n.unplaced = (p.prune n).unplaced := by
  rw [Progress.prune, selector?_unplaced, Progress.log_unplaced]
  exact Progress.remove_unplaced _ [n]

mutual
theorem inside_unplaced : ∀ (p : Progress) (n : Node),
    inside p.unplaced n.unplaced = unplacedRun (inside p n)
  | p, .block o (.rule s) ns => by
    simp only [unplaced_block, inside, among_unplaced p ns, unplacedSiblings, unplacedRun]
  | p, .block o (.atRule name params b) ns => by
    simp only [unplaced_block, inside, among_unplaced p ns, unplacedSiblings, unplacedRun]
  | _, .block _ .sheet _ => rfl
  | _, .block _ .group _ => rfl
  | _, .declaration _ _ => rfl
  | _, .leaf _ => rfl
theorem among_unplaced : ∀ (p : Progress) (ns : List Node),
    among p.unplaced (ns.map Node.unplaced) = unplacedSiblings (among p ns)
  | _, [] => rfl
  | p, n :: ns => by
    simp only [List.map_cons, among, inside_unplaced p n, unplacedRun, isEmptyRule_unplaced]
    split
    · rw [prune_unplaced, among_unplaced _ ns]
    · rw [among_unplaced _ ns]
      rfl
end

end Cleanup

theorem removeEmptyRules_unplaced : SameStep removeEmptyRules removeEmptyRules := by
  intro p n
  cases n with
  | block o h ns =>
    simp only [unplaced_block, removeEmptyRules, Progress.stopped_unplaced]
    by_cases hstopped : p.stopped = true
    · simp [hstopped, unplacedRun, unplaced_block]
    · simp [hstopped, Cleanup.among_unplaced, unplacedSiblings, unplacedRun, unplaced_block]
  | declaration o d => rfl
  | leaf o => rfl

/-! ### Nesting by descent -/

namespace Descendants

variable (f : Factory) (waiting : List Nat) (parent child : Text) (w : Work)

theorem isParent_unplaced (s : Slot) :
    isParent waiting parent s.unplaced = isParent waiting parent s := by
  rw [isParent, Slot.node_unplaced, hasSelector_unplaced]
  rfl

theorem updateParent_unplaced {g g' : Node → Node} (hg : ∀ n, g' n.unplaced = (g n).unplaced) :
    updateParent waiting parent g' w.unplaced = (updateParent waiting parent g w).unplaced := by
  simp only [updateParent, Work.unplaced]
  congr 1
  refine updateLast_map (isParent_unplaced waiting parent) (fun s => ?_) w.slots
  simp [Slot.unplaced, hg]

theorem hasChild_unplaced :
    hasChild waiting parent child w.unplaced = hasChild waiting parent child w := by
  have hcomp : isParent waiting parent ∘ Slot.unplaced = isParent waiting parent :=
    funext (isParent_unplaced waiting parent)
  simp only [hasChild, Work.slots_unplaced, List.filter_map, hcomp, List.getLast?_map]
  cases (w.slots.filter (isParent waiting parent)).getLast? with
  | none => rfl
  | some s => simp [List.any_map, Function.comp_def]

section New

variable {rule : Node} (hrule : rule.isRule = true)
include hrule

theorem ensureParent_bare :
    ensureParent f.bare waiting rule.unplaced parent w.unplaced =
      (ensureParent f waiting rule parent w).unplaced := by
  have hany : w.unplaced.slots.any (isParent waiting parent) =
      w.slots.any (isParent waiting parent) := by
    simp [Work.unplaced, List.any_map, Function.comp_def, isParent_unplaced]
  simp only [ensureParent, Work.stopped_unplaced, hany, Work.progress_unplaced,
    Progress.newRule_bare hrule]
  split
  · rfl
  · rcases w.progress.newRule f rule parent with ⟨_ | n, p⟩
    · rfl
    · exact Work.push_unplaced ⟨w.slots, p⟩ n

theorem ensureChild_bare :
    ensureChild f.bare waiting rule.unplaced parent child w.unplaced =
      (ensureChild f waiting rule parent child w).unplaced := by
  simp only [ensureChild, Work.stopped_unplaced, hasChild_unplaced, Work.progress_unplaced,
    Progress.newRule_bare hrule]
  split
  · rfl
  · rcases w.progress.newRule f rule child with ⟨_ | n, p⟩
    · rfl
    · exact updateParent_unplaced waiting parent ⟨w.slots, p⟩
        fun m => (unplaced_append [n] m).symm

end New

theorem fill_unplaced (rule : Node) :
    fill waiting rule.unplaced parent child w.unplaced =
      (fill waiting rule parent child w).unplaced := by
  simp only [fill, Work.stopped_unplaced, nodes_unplaced]
  split
  · rfl
  · rw [← Work.log_unplaced]
    congr 1
    refine updateParent_unplaced waiting parent w fun n => ?_
    rw [unplaced_setNodes, nodes_unplaced]
    congr 1
    refine updateLast_map (hasSelector_unplaced child) (fun m => ?_) n.nodes
    rw [unplaced_append, map_unplaced_copyAll]

theorem place_bare {rule : Node} (hrule : rule.isRule = true) (split : Text × Text) :
    place f.bare waiting rule.unplaced w.unplaced split =
      (place f waiting rule w split).unplaced := by
  rw [place, ensureParent_bare f waiting split.1 w hrule, ensureChild_bare f waiting _ _ _ hrule,
    fill_unplaced, place]

theorem foldl_place_bare {rule : Node} (hrule : rule.isRule = true) (splits : List (Text × Text)) :
    splits.foldl (place f.bare waiting rule.unplaced) w.unplaced =
      (splits.foldl (place f waiting rule) w).unplaced := by
  induction splits generalizing w with
  | nil => rfl
  | cons split splits ih => rw [List.foldl_cons, place_bare f waiting w hrule, ih, List.foldl_cons]

theorem splitRule_bare (t : Nat) :
    splitRule f.bare waiting t w.unplaced = (splitRule f waiting t w).unplaced := by
  simp only [splitRule, Work.stopped_unplaced, Work.get?_unplaced]
  split
  · rfl
  · cases w.get? t with
    | none => rfl
    | some rule =>
      -- a node that is no rule has no parts, and then nothing is placed
      have hplaced : ((Selector.distinct rule.parts).filterMap Selector.splitDescendant?).foldl
            (place f.bare waiting rule.unplaced) w.unplaced =
          (((Selector.distinct rule.parts).filterMap Selector.splitDescendant?).foldl
            (place f waiting rule) w).unplaced := by
        cases hrule : rule.isRule with
        | true => exact foldl_place_bare f waiting w hrule _
        | false =>
          have hparts : rule.parts = [] := by
            match rule, hrule with
            | .block _ .sheet _, _ => rfl
            | .block _ .group _, _ => rfl
            | .block _ (.atRule _ _ _) _, _ => rfl
            | .declaration _ _, _ => rfl
            | .leaf _, _ => rfl
          rw [hparts]
          rfl
      simp only [Option.map_some, parts_unplaced, hplaced, Work.stopped_unplaced]
      split
      · rfl
      · split
        · exact Work.remove_unplaced _ t
        · exact Work.modify_unplaced _ t fun n => (unplaced_setSelector _ n).symm

theorem splitAll_bare (ts : List Nat) :
    splitAll f.bare ts w.unplaced = (splitAll f ts w).unplaced := by
  induction ts generalizing w with
  | nil => rfl
  | cons t ts ih => rw [splitAll, splitRule_bare, ih, splitAll]

theorem level_bare : SameLevel (fun _ => level f) (fun _ => level f.bare) := by
  intro _ p ns
  have hwaiting : ((Work.start p ns).unplaced.slots.filter (·.node.splits)).filterMap (·.ticket) =
      ((Work.start p ns).slots.filter (·.node.splits)).filterMap (·.ticket) := by
    simp [Work.unplaced, List.filter_map, List.filterMap_map, Function.comp_def]
  simp only [level, Work.start_unplaced, hwaiting, splitAll_bare, Work.finish_unplaced]

end Descendants

/-! ### Collapsing siblings -/

namespace Collapse

theorem jointSelector_unplaced (rules : List Node) :
    jointSelector (rules.map Node.unplaced) = jointSelector rules := by
  simp [jointSelector, List.flatMap_map]

theorem merge_bare (f : Factory) (w : Work) {members : List Slot}
    (hrules : ∀ s ∈ members, s.node.isRule = true) :
    merge f.bare w.unplaced (members.map Slot.unplaced) = (merge f w members).unplaced := by
  match members, hrules with
  | [], _ => rfl
  | [⟨none, _⟩], _ => rfl
  | [⟨some _, _⟩], _ => rfl
  | ⟨none, _⟩ :: _ :: _, _ => rfl
  | ⟨some t, first⟩ :: second :: rest, hrules =>
    have hfirst : first.isRule = true := hrules ⟨some t, first⟩ (by simp)
    have hnodes : ((⟨some t, first⟩ :: second :: rest).map Slot.unplaced).map (·.node) =
        ((⟨some t, first⟩ :: second :: rest).map (·.node)).map Node.unplaced := by
      simp [Function.comp_def, Slot.unplaced]
    have htickets : ((⟨some t, first⟩ :: second :: rest).map Slot.unplaced).filterMap (·.ticket) =
        (⟨some t, first⟩ :: second :: rest).filterMap (·.ticket) := by
      rw [List.filterMap_map]
      rfl
    unfold merge
    simp only [List.map_cons, Slot.unplaced] at hnodes htickets ⊢
    simp only [hnodes, htickets, Work.progress_unplaced, Progress.newRule_bare hfirst]
    rw [← List.map_cons, ← List.map_cons, jointSelector_unplaced]
    rcases w.progress.newRule f first _ with ⟨_ | n, p⟩
    · rfl
    · have hinsert := Work.insertBefore_unplaced ⟨w.slots, p⟩ t
        (n.append (copyAll first.nodes))
      rw [unplaced_append, map_unplaced_copyAll] at hinsert
      have hwork : (⟨w.unplaced.slots, p.unplaced⟩ : Work) = Work.unplaced ⟨w.slots, p⟩ := rfl
      simp only [Option.map_some, nodes_unplaced, hwork, hinsert, Work.foldl_remove_unplaced,
        List.length_cons, List.length_map]
      exact Work.logged_unplaced _ _

theorem foldl_merge_bare (f : Factory) (w : Work) {classes : List (List Slot)}
    (hrules : ∀ c ∈ classes, ∀ s ∈ c, s.node.isRule = true) :
    (classes.map (List.map Slot.unplaced)).foldl (merge f.bare) w.unplaced =
      (classes.foldl (merge f) w).unplaced := by
  induction classes generalizing w with
  | nil => rfl
  | cons c classes ih =>
    rw [List.map_cons, List.foldl_cons, merge_bare f w (hrules c (by simp)),
      ih _ fun c' hc' => hrules c' (by simp [hc']), List.foldl_cons]

theorem classesBy_map {α κ : Type} [DecidableEq κ] {key : α → κ} {g : α → α}
    (hkey : ∀ x, key (g x) = key x) (xs : List α) :
    classesBy key (xs.map g) = (classesBy key xs).map (List.map g) := by
  simp [classesBy_eq, List.filter_map, Function.comp_def, hkey]

theorem level_bare (f : Factory) (p : Progress) (ns : List Node) :
    level f.bare p.unplaced (ns.map Node.unplaced) = unplacedSiblings (level f p ns) := by
  have hrules : (Work.start p ns).unplaced.slots.filter (·.node.isRule) =
      ((Work.start p ns).slots.filter (·.node.isRule)).map Slot.unplaced := by
    simp [Work.unplaced, List.filter_map, Function.comp_def]
  simp only [level, Work.start_unplaced, hrules]
  rw [classesBy_map (fun s => signature_unplaced s.node), foldl_merge_bare,
    Work.finish_unplaced]
  intro c hc s hs
  exact (class_of_mem_classesBy p ns hc).isRule s hs

theorem levelUnder_bare (f : Factory) : SameLevel (levelUnder f) (levelUnder f.bare) := by
  intro h p ns
  cases h with
  | rule s => exact level_bare f p ns
  | sheet => rfl
  | group => rfl
  | atRule name params b => rfl

end Collapse

theorem collapseSiblings_bare (f : Factory) :
    SameStep (collapseSiblings f) (collapseSiblings f.bare) := by
  intro p n
  cases n with
  | block o h ns =>
    have hvisit := ((Collapse.levelUnder_bare f).topDown (heightAll ns)).enter.visitAll p ns
    simp only [unplaced_block, collapseSiblings, heightAll_unplaced, hvisit, unplacedSiblings,
      unplacedRun]
  | declaration o d => rfl
  | leaf o => rfl

/-! ### Factoring -/

namespace Factoring

variable {w : Work}

theorem drafts_bare (f : Factory) (first : Node) (p : Progress) (ds : List Declaration) :
    drafts f.bare first.unplaced p.unplaced ds = unplacedSiblings (drafts f first p ds) := by
  induction ds generalizing p with
  | nil => rfl
  | cons d ds ih =>
    have hfind : first.unplaced.nodes.find? (·.content? == some d) =
        (first.nodes.find? (·.content? == some d)).map Node.unplaced := by
      simp only [Node.nodes_unplaced, List.find?_map, Function.comp_def, Node.content?_unplaced]
    simp only [drafts, Progress.stopped_unplaced, hfind]
    split
    · rfl
    · cases href : first.nodes.find? (·.content? == some d) with
      | none => rfl
      | some reference =>
        have hcontent : reference.content? = some d := by simpa using List.find?_some href
        simp only [Option.map_some,
          Progress.newDeclaration_bare (f := f) (by rw [hcontent]; rfl : reference.content?.isSome)]
        rcases p.newDeclaration f reference d with ⟨_ | n, p'⟩
        · rfl
        · simp only [Option.map_some, ih]
          rfl

theorem strip_unplaced (ds : List Declaration) (w : Work) (t : Nat) :
    strip ds w.unplaced t = (strip ds w t).unplaced := by
  have hone : isOneOf ds ∘ Node.unplaced = isOneOf ds := by
    funext n
    simp [isOneOf]
  have hkept : ∀ n : Node, (n.unplaced.nodes.filter (isOneOf ds)) =
      (n.nodes.filter (isOneOf ds)).map Node.unplaced := by
    intro n
    rw [nodes_unplaced, List.filter_map, hone]
  have hstripped : ∀ n : Node, stripped ds n.unplaced = (stripped ds n).unplaced := by
    intro n
    have hcomp : (fun m => !isOneOf ds m) ∘ Node.unplaced = fun m => !isOneOf ds m :=
      funext fun m => congrArg not (congrFun hone m)
    rw [stripped, stripped, unplaced_setNodes, nodes_unplaced, List.filter_map, hcomp]
  simp only [strip, Work.stopped_unplaced, Work.get?_unplaced]
  split
  · rfl
  · cases w.get? t with
    | none => rfl
    | some n =>
      simp only [Option.map_some, hkept]
      have hmodify : (w.unplaced.modify t fun n => n.setNodes (n.nodes.filter (!isOneOf ds ·))) =
          (w.modify t fun n => n.setNodes (n.nodes.filter (!isOneOf ds ·))).unplaced :=
        w.modify_unplaced t hstripped
      rw [hmodify, Work.progress_unplaced, Progress.remove_unplaced]
      rfl

theorem foldl_strip_unplaced (ds : List Declaration) (w : Work) (ts : List Nat) :
    ts.foldl (strip ds) w.unplaced = (ts.foldl (strip ds) w).unplaced := by
  induction ts generalizing w with
  | nil => rfl
  | cons t ts ih => rw [List.foldl_cons, strip_unplaced, ih, List.foldl_cons]

theorem factorGroup_bare (f : Factory) (tickets : List Nat) (g : SharingGroup)
    (hholds : ∀ t ∈ memberTickets tickets g, Holds w g.declarations t) :
    factorGroup f.bare tickets w.unplaced g = (factorGroup f tickets w g).unplaced := by
  rw [memberTickets] at hholds
  unfold factorGroup
  generalize g.members.filterMap (tickets[·]?) = members at hholds ⊢
  cases members with
  | nil => rfl
  | cons t rest =>
    obtain ⟨first, hfirst, hrule, -⟩ := hholds t (by simp)
    have hmembers : (t :: rest).filterMap w.unplaced.get? =
        ((t :: rest).filterMap w.get?).map Node.unplaced := by
      rw [List.map_filterMap]
      exact List.filterMap_congr fun k _ => w.get?_unplaced k
    simp only [hmembers, Collapse.jointSelector_unplaced]
    simp only [Work.get?_unplaced, hfirst, Option.map_some, Work.progress_unplaced,
      Progress.newRule_bare hrule]
    rcases w.progress.newRule f first _ with ⟨_ | n, p⟩
    · rfl
    · have hdrafts := drafts_bare f first p g.declarations
      simp only [unplacedSiblings] at hdrafts
      have hinsert := Work.insertBefore_unplaced ⟨w.slots, (drafts f first p g.declarations).2⟩ t
        (n.append (drafts f first p g.declarations).1)
      rw [unplaced_append] at hinsert
      have hwork : (⟨w.unplaced.slots, (drafts f first p g.declarations).2.unplaced⟩ : Work) =
          Work.unplaced ⟨w.slots, (drafts f first p g.declarations).2⟩ := rfl
      simp only [Option.map_some, hdrafts, hwork, hinsert, foldl_strip_unplaced]
      exact Work.logged_unplaced _ _

theorem foldl_factorGroup_bare (f : Factory) (tickets : List Nat) {groups : List SharingGroup}
    (hd : w.Distinct)
    (hholds : ∀ g ∈ groups, ∀ t ∈ memberTickets tickets g, Holds w g.declarations t)
    (hapart : groups.Pairwise fun g g' => ∀ d ∈ g.declarations, d ∉ g'.declarations) :
    groups.foldl (fun w' g => if w'.stopped then w' else factorGroup f.bare tickets w' g)
        w.unplaced =
      (groups.foldl (fun w' g => if w'.stopped then w' else factorGroup f tickets w' g)
        w).unplaced := by
  induction groups generalizing w with
  | nil => rfl
  | cons g groups ih =>
    obtain ⟨hfirst, hrest⟩ := List.pairwise_cons.mp hapart
    rw [List.foldl_cons, List.foldl_cons, Work.stopped_unplaced]
    split
    · exact ih hd (fun g' hg' => hholds g' (by simp [hg'])) hrest
    · obtain ⟨hd', hframe⟩ := factorGroup_frame f tickets g hd (hholds g (by simp))
      rw [factorGroup_bare f tickets g (hholds g (by simp))]
      refine ih hd' (fun g' hg' k hk => ?_) hrest
      exact hframe _ k (fun d hdg' hdg => hfirst g' hg' d hdg hdg') (hholds g' (by simp [hg']) k hk)

theorem filter_isRule_unplaced (ns : List Node) :
    (ns.map Node.unplaced).filter isRule = (ns.filter isRule).map Node.unplaced := by
  simp [List.filter_map, Function.comp_def]

theorem sharingGroups_unplaced (rules : List Node) :
    sharingGroups (rules.map Node.unplaced) = sharingGroups rules := by
  simp [sharingGroups, Function.comp_def]

theorem factorSiblings_bare (f : Factory) (p : Progress) (ns : List Node) :
    factorSiblings f.bare p.unplaced (ns.map Node.unplaced) =
      unplacedSiblings (factorSiblings f p ns) := by
  have htickets : (Work.start p ns).unplaced.ruleTickets = (Work.start p ns).ruleTickets := by
    simp [Work.ruleTickets, Work.unplaced, List.filter_map, List.filterMap_map, Function.comp_def]
  simp only [factorSiblings, Work.start_unplaced, htickets, filter_isRule_unplaced,
    sharingGroups_unplaced]
  rw [foldl_factorGroup_bare f _ (Work.distinct_start p ns)
    (fun _ hg _ ht => holds_start p ns hg ht) (pairwise_sharingGroups _), Work.finish_unplaced]

theorem level_bare (f : Factory) : SameLevel (fun _ => level f) (fun _ => level f.bare) := by
  intro _ p ns
  simp only [level, filter_isRule_unplaced, List.length_map, factorSiblings_bare, unplacedSiblings,
    Progress.stopped_unplaced]
  split
  · rfl
  · split
    · rfl
    · exact Cleanup.among_unplaced _ _

end Factoring

/-! ### Pseudo nesting -/

namespace Pseudos

variable {cs : List Candidate} {w : Work} {b c : Candidate}

theorem candidates_unplaced (w : Work) : candidates w.unplaced = candidates w := by
  simp [candidates, Work.unplaced, List.filterMap_map, Function.comp_def]

theorem absorb_bare (f : Factory) (hw : Tracked cs w) (hc : c ∈ cs) (t : Nat) (part : Text) :
    absorb f.bare t part w.unplaced c = (absorb f t part w c).unplaced := by
  simp only [absorb, Work.stopped_unplaced, Work.get?_unplaced]
  split
  · rfl
  · cases w.get? t with
    | none => rfl
    | some base =>
      cases hmoved : w.get? c.ticket with
      | none => rfl
      | some moved =>
        have hrule : moved.isRule = true := (hw.known c hc moved hmoved).1
        simp only [Option.map_some, Work.progress_unplaced, Progress.newRule_bare hrule,
          selector?_unplaced, nodes_unplaced]
        rcases w.progress.newRule f moved (c.relativeSelector part) with ⟨_ | n, p⟩
        · rfl
        · have hnested : ∀ m : Node,
              m.unplaced.append [n.unplaced.append (copyAll (moved.nodes.map Node.unplaced))] =
                (m.append [n.append (copyAll moved.nodes)]).unplaced := by
            intro m
            rw [unplaced_append, List.map_singleton, unplaced_append, map_unplaced_copyAll]
          have hmodify := Work.modify_unplaced ⟨w.slots, p⟩ t hnested
          have hwork : (⟨w.unplaced.slots, p.unplaced⟩ : Work) = Work.unplaced ⟨w.slots, p⟩ := rfl
          simp only [Option.map_some, hwork, hmodify, Work.remove_unplaced]
          rfl

theorem foldl_absorb_bare (f : Factory) (part : Text) {later : List Candidate}
    (hlater : ∀ c ∈ later, c ∈ cs) (hw : Tracked cs w) :
    later.foldl (absorb f.bare b.ticket part) w.unplaced =
      (later.foldl (absorb f b.ticket part) w).unplaced := by
  induction later generalizing w with
  | nil => rfl
  | cons c later ih =>
    rw [List.foldl_cons, List.foldl_cons, absorb_bare f hw (hlater c (by simp))]
    exact ih (fun k hk => hlater k (by simp [hk])) (absorb_tracked f hw part c)

theorem foldl_absorb_tracked (f : Factory) (hw : Tracked cs w) (part : Text)
    (later : List Candidate) : Tracked cs (later.foldl (absorb f b.ticket part) w) :=
  List.foldlRecOn _ _ hw fun _ hw' c _ => absorb_tracked f hw' part c

theorem absorbAll_bare (f : Factory) (hw : Tracked cs w) (b : Candidate) :
    absorbAll f.bare cs w.unplaced b = (absorbAll f cs w b).unplaced := by
  have hfold : ∀ (parts : List Text) (w : Work), Tracked cs w →
      parts.foldl (fun w part => cs.foldl (absorb f.bare b.ticket part) w) w.unplaced =
        (parts.foldl (fun w part => cs.foldl (absorb f b.ticket part) w) w).unplaced := by
    intro parts
    induction parts with
    | nil => exact fun _ _ => rfl
    | cons part parts ih =>
      intro w hw
      rw [List.foldl_cons, List.foldl_cons, foldl_absorb_bare f part (fun _ hc => hc) hw]
      exact ih _ (foldl_absorb_tracked f hw part cs)
  simp only [absorbAll, Work.contains_unplaced]
  split
  · exact hfold b.parts w hw
  · rfl

theorem absorbAll_tracked (f : Factory) (hw : Tracked cs w) (b : Candidate) :
    Tracked cs (absorbAll f cs w b) := by
  unfold absorbAll
  split
  · exact List.foldlRecOn _ _ hw fun _ hw' part _ => foldl_absorb_tracked f hw' part cs
  · exact hw

theorem level_bare (f : Factory) : SameLevel (fun _ => level f) (fun _ => level f.bare) := by
  intro _ p ns
  have hfold : ∀ (later : List Candidate) (w : Work), Tracked (candidates (Work.start p ns)) w →
      later.foldl (absorbAll f.bare (candidates (Work.start p ns))) w.unplaced =
        (later.foldl (absorbAll f (candidates (Work.start p ns))) w).unplaced := by
    intro later
    induction later with
    | nil => exact fun _ _ => rfl
    | cons b later ih =>
      intro w hw
      rw [List.foldl_cons, List.foldl_cons, absorbAll_bare f hw]
      exact ih _ (absorbAll_tracked f hw b)
  simp only [level, Work.start_unplaced, candidates_unplaced]
  rw [hfold _ _ (tracked_start p ns), Work.finish_unplaced]

end Pseudos

/-! ### Passes in a row -/

theorem unless_stopped_bare {level level' : Header → Progress → List Node → List Node × Progress}
    (h : SameLevel level level') {fuel : Node → Nat} (hfuel : ∀ n, fuel n.unplaced = fuel n) :
    SameStep (fun p n => if p.stopped then (n, p) else topDown level (fuel n) p n)
      (fun p n => if p.stopped then (n, p) else topDown level' (fuel n) p n) := by
  intro p n
  simp only [Progress.stopped_unplaced, hfuel]
  split
  · rfl
  · exact h.topDown (fuel n) p n

/-- **A pass, seen without places**, is the pass with a factory that gives none. -/
theorem Pass.run_bare (pass : Pass) (f : Factory) : SameStep (pass.run f) (pass.run f.bare) := by
  cases pass with
  | descendants =>
    exact unless_stopped_bare (Descendants.level_bare f) fun n => by rw [height_unplaced]
  | collapse => exact collapseSiblings_bare f
  | factor => exact unless_stopped_bare (Factoring.level_bare f) height_unplaced
  | pseudos => exact unless_stopped_bare (Pseudos.level_bare f) size_unplaced
  | cleanup => exact removeEmptyRules_unplaced

theorem Transform.run_bare (pass : Pass) (f : Factory) :
    SameStep (pass.transform f).run (pass.transform f.bare).run := by
  intro p n
  by_cases hstopped : p.stopped = true
  · simp [Transform.run, hstopped, unplacedRun]
  · simp only [Transform.run, Progress.stopped_unplaced, hstopped, Bool.false_eq_true, if_false]
    exact pass.run_bare f (p.log _) n

theorem runAll_bare (passes : List Pass) (f : Factory) :
    SameStep (runAll (passes.map (·.transform f))) (runAll (passes.map (·.transform f.bare))) := by
  induction passes with
  | nil => exact fun _ _ => rfl
  | cons pass passes ih =>
    intro p n
    have hrun := Transform.run_bare pass f p n
    simp only [List.map_cons, runAll, hrun]
    exact ih _ _

theorem nest_bare (o : Options) (f : Factory) (n : Node) :
    nest o f.bare n.unplaced = unplacedRun (nest o f n) := by
  have hrun := runAll_bare o.passes f {} n
  simp only [nest, applyTransforms, List.append_nil]
  rw [show ({} : Progress) = Progress.unplaced {} from rfl, hrun]
  exact removeEmptyRules_unplaced _ _

/-- The results of two runs are the same but for places. -/
structure SameButPlaces (a b : Node × Progress) : Prop where
  tree : a.1.unplaced = b.1.unplaced
  text : ∀ indent, a.1.print indent = b.1.print indent
  events : a.2.events = b.2.events
  failure : a.2.failure = b.2.failure

theorem SameButPlaces.of_unplacedRun {a b : Node × Progress} (h : unplacedRun a = unplacedRun b) :
    SameButPlaces a b := by
  obtain ⟨htree, hrun⟩ := Prod.mk.inj h
  have hevents : a.2.unplaced.events = b.2.unplaced.events := by rw [hrun]
  have hfailure : a.2.unplaced.failure = b.2.unplaced.failure := by rw [hrun]
  refine ⟨htree, fun indent => ?_, hevents, hfailure⟩
  rw [← print_unplaced indent a.1, htree, print_unplaced]

/-- **The factories are interchangeable**: with any passes in a row, and in a whole
    run with any options, they build the same tree but for places, on any tree. -/
theorem clone_and_literal_agree (n : Node) :
    (∀ passes : List Pass,
      SameButPlaces (runAll (passes.map (·.transform Factory.clone)) {} n)
        (runAll (passes.map (·.transform Factory.literal)) {} n)) ∧
    ∀ o : Options, SameButPlaces (nest o Factory.clone n) (nest o Factory.literal n) := by
  constructor
  · intro passes
    apply SameButPlaces.of_unplacedRun
    rw [← runAll_bare passes Factory.clone {} n, ← runAll_bare passes Factory.literal {} n]
    rfl
  · intro o
    apply SameButPlaces.of_unplacedRun
    rw [← nest_bare o Factory.clone n, ← nest_bare o Factory.literal n]
    rfl

end StyleNesting
