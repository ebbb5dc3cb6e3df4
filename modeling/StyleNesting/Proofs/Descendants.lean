/-
  StyleNesting/Proofs/Descendants.lean
  ====================================
  **Nesting by descent changes no meaning.**  A part `parent child` says of the
  effective selectors of `parent`, followed by the child, what its rule says, and
  so does a rule `child` inside a rule `parent` (`mem_styles_filled`).

  While a rule is taken apart the siblings only grow (`Grows`): empty rules are
  added, and copies of the rule's content go where they say what the rule still
  says itself.  The rule gives up its parts only when all of them have been
  placed, so it does no harm to stop on the way.  A rule that waits to be taken
  apart takes no content for others and stays what it is.
-/
import StyleNesting.Pass.Descendants
import StyleNesting.Proofs.Compounds
import StyleNesting.Proofs.Siblings

namespace StyleNesting

open Node

/-! ### The last element of a kind -/

section UpdateLast

variable {α : Type} {p : α → Bool} {f : α → α} {xs : List α}

theorem updateLast?_eq_none (h : ∀ x ∈ xs, p x = false) : updateLast? p f xs = none := by
  induction xs with
  | nil => rfl
  | cons x xs ih =>
    rw [updateLast?, ih fun y hy => h y (by simp [hy])]
    simp [h x (by simp)]

theorem updateLast?_append_cons {l r : List α} {x : α} (hx : p x = true)
    (hr : ∀ y ∈ r, p y = false) :
    updateLast? p f (l ++ x :: r) = some (l ++ f x :: r) := by
  induction l with
  | nil =>
    rw [List.nil_append, updateLast?, updateLast?_eq_none hr]
    simp [hx]
  | cons y l ih => rw [List.cons_append, updateLast?, ih]; rfl

theorem updateLast_append_cons {l r : List α} {x : α} (hx : p x = true)
    (hr : ∀ y ∈ r, p y = false) : updateLast p f (l ++ x :: r) = l ++ f x :: r := by
  rw [updateLast, updateLast?_append_cons hx hr]
  rfl

theorem none_or_last (p : α → Bool) (xs : List α) :
    (∀ x ∈ xs, p x = false) ∨
      ∃ l x r, xs = l ++ x :: r ∧ p x = true ∧ ∀ y ∈ r, p y = false := by
  induction xs with
  | nil => exact Or.inl fun x hx => by cases hx
  | cons x xs ih =>
    rcases ih with hnone | ⟨l, y, r, rfl, hy, hr⟩
    · cases hx : p x with
      | true => exact Or.inr ⟨[], x, xs, rfl, hx, hnone⟩
      | false =>
        refine Or.inl fun y hy => ?_
        rcases List.mem_cons.mp hy with rfl | hmem
        · exact hx
        · exact hnone y hmem
    · exact Or.inr ⟨x :: l, y, r, rfl, hy, hr⟩

theorem last_of_any (h : xs.any p = true) :
    ∃ l x r, xs = l ++ x :: r ∧ p x = true ∧ ∀ y ∈ r, p y = false := by
  rcases none_or_last p xs with hnone | hlast
  · obtain ⟨x, hx, hpx⟩ := List.any_eq_true.mp h
    rw [hnone x hx] at hpx
    cases hpx
  · exact hlast

theorem map_updateLast {β : Type} {view : α → β} (h : ∀ x, p x = true → view (f x) = view x) :
    (updateLast p f xs).map view = xs.map view := by
  rcases none_or_last p xs with hnone | ⟨l, x, r, rfl, hx, hr⟩
  · rw [updateLast, updateLast?_eq_none hnone]
    rfl
  · rw [updateLast_append_cons hx hr, List.map_append, List.map_append, List.map_cons,
      List.map_cons, h x hx]

end UpdateLast

/-! ### A rule inside a rule -/

theorem exists_of_hasSelector {s : Text} {n : Node} (h : n.hasSelector s = true) :
    ∃ o ns, n = .block o (.rule s) ns := by
  have hs : n.selector? = some s := by simpa [Node.hasSelector] using h
  match n, hs with
  | .block o (.rule _) ns, rfl => exact ⟨o, ns, rfl⟩

/-- Content in a rule `child` inside a rule `parent` is said of the part `parent child`. -/
theorem mem_styles_filled {parent child : Text} (hparent : Selector.Atom parent)
    (hchild : Selector.Atom child) (hamp : '&' ∉ child) {o : Origin} {ns : List Node}
    (hhas : ns.any (Node.hasSelector child) = true) (content : List Node) {sc : Scope}
    {x : Applied} :
    x ∈ (Node.block o (.rule parent)
        (updateLast (Node.hasSelector child) (Node.append content) ns)).styles sc ↔
      x ∈ (Node.block o (.rule parent) ns).styles sc ∨
        ∃ Q ∈ sc.ofPart (parent ++ ' ' :: child),
          x ∈ stylesAll (Scope.below sc.context Q) content := by
  obtain ⟨l, m, r, rfl, hm, hr⟩ := last_of_any hhas
  obtain ⟨o', ms, rfl⟩ := exists_of_hasSelector hm
  have hspace : '&' ∉ ' ' :: child := by
    rw [List.mem_cons, not_or]
    exact ⟨by decide, hamp⟩
  rw [updateLast_append_cons hm hr, mem_styles_rule, mem_styles_rule, hparent.parts,
    Scope.ofPart_append sc parent hspace]
  -- below one effective selector of the parent
  have hinner : ∀ P, x ∈ stylesAll (Scope.below sc.context P)
      (l ++ (Node.block o' (.rule child) ms).append content :: r) ↔
      x ∈ stylesAll (Scope.below sc.context P) (l ++ Node.block o' (.rule child) ms :: r) ∨
        x ∈ stylesAll (Scope.below sc.context (P ++ ' ' :: child)) content := by
    intro P
    have hresolve : (Scope.below sc.context P).ofPart child = [P ++ ' ' :: child] := by
      rw [Scope.ofPart_below, Selector.resolve_of_no_ampersand hamp]
    simp only [stylesAll_append, stylesAll, List.mem_append, Node.append, mem_styles_rule,
      hchild.parts, List.mem_singleton, exists_eq_left, hresolve]
    exact ⟨by tauto, by tauto⟩
  simp only [List.mem_singleton, exists_eq_left, hinner, List.mem_map, and_or_left, exists_or]
  constructor
  · rintro (hold | ⟨P, hP, hx⟩)
    · exact Or.inl hold
    · exact Or.inr ⟨_, ⟨P, hP, rfl⟩, hx⟩
  · rintro (hold | ⟨Q, ⟨P, hP, rfl⟩, hx⟩)
    · exact Or.inl hold
    · exact Or.inr ⟨P, hP, hx⟩

/-! ### What stays in place -/

namespace Descendants

open Selector

variable {waiting : List Nat} {w w' w'' : Work}

/-- The tickets are the same, and the waiting siblings are what they were. -/
structure Frame (waiting : List Nat) (w w' : Work) : Prop where
  tickets : w'.tickets = w.tickets
  kept : ∀ k ∈ waiting, w'.get? k = w.get? k

theorem Frame.of_slots (h : w'.slots = w.slots) : Frame waiting w w' := by
  obtain ⟨slots, p⟩ := w'
  cases h
  exact ⟨rfl, fun _ _ => rfl⟩

theorem Frame.trans (h : Frame waiting w w') (h' : Frame waiting w' w'') : Frame waiting w w'' :=
  ⟨h'.tickets.trans h.tickets, fun k hk => (h'.kept k hk).trans (h.kept k hk)⟩

theorem Frame.distinct (h : Frame waiting w w') (hd : w.Distinct) : w'.Distinct := by
  rwa [Work.Distinct, h.tickets]

theorem frame_push (n : Node) : Frame waiting w (w.push n) := by
  refine ⟨w.tickets_push n, fun k _ => ?_⟩
  simp [Work.get?, Work.push, List.find?_append, Slot.has]

/-- `s` is the last slot that can take content for `parent`. -/
structure LastParent (waiting : List Nat) (parent : Text) (w : Work) (l : List Slot) (s : Slot)
    (r : List Slot) : Prop where
  slots : w.slots = l ++ s :: r
  isParent : isParent waiting parent s = true
  later : ∀ y ∈ r, Descendants.isParent waiting parent y = false

variable {parent child : Text} {l r : List Slot} {s : Slot}

theorem LastParent.selector (h : LastParent waiting parent w l s r) :
    ∃ o ns, s.node = .block o (.rule parent) ns := by
  have hs := h.isParent
  rw [Descendants.isParent, Bool.and_eq_true] at hs
  exact exists_of_hasSelector hs.1

theorem LastParent.not_waiting (h : LastParent waiting parent w l s r) {k : Nat}
    (hk : k ∈ waiting) : s.has k = false := by
  have hs := h.isParent
  rw [Descendants.isParent, Bool.and_eq_true, Bool.not_eq_true', List.any_eq_false] at hs
  simpa using hs.2 k hk

theorem LastParent.hasChild (h : LastParent waiting parent w l s r) :
    hasChild waiting parent child w = s.node.nodes.any (Node.hasSelector child) := by
  have hlast : (w.slots.filter (Descendants.isParent waiting parent)).getLast? = some s := by
    have hr : r.filter (Descendants.isParent waiting parent) = [] := by
      rw [List.filter_eq_nil_iff]
      intro y hy
      simp [h.later y hy]
    simp [h.slots, List.filter_append, h.isParent, hr]
  simp [Descendants.hasChild, hlast]

theorem LastParent.updateParent (h : LastParent waiting parent w l s r) (f : Node → Node) :
    (updateParent waiting parent f w).slots = l ++ { s with node := f s.node } :: r := by
  rw [Descendants.updateParent, h.slots]
  exact updateLast_append_cons h.isParent h.later

theorem LastParent.mem_updateParent (h : LastParent waiting parent w l s r) (f : Node → Node) :
    { s with node := f s.node } ∈ (Descendants.updateParent waiting parent f w).slots := by
  rw [h.updateParent f]
  exact List.mem_append_right l (List.mem_cons_self ..)

theorem exists_lastParent (h : w.slots.any (isParent waiting parent) = true) :
    ∃ l s r, LastParent waiting parent w l s r := by
  obtain ⟨l, s, r, hslots, hs, hr⟩ := last_of_any h
  exact ⟨l, s, r, hslots, hs, hr⟩

theorem frame_updateParent (f : Node → Node) :
    Frame waiting w (updateParent waiting parent f w) := by
  rcases none_or_last (isParent waiting parent) w.slots with hnone | ⟨l, s, r, hl⟩
  · refine Frame.of_slots ?_
    rw [updateParent, updateLast, updateLast?_eq_none hnone]
    rfl
  · have hl : LastParent waiting parent w l s r := ⟨hl.1, hl.2.1, hl.2.2⟩
    have hhas : ∀ k, Slot.has k { s with node := f s.node } = s.has k := fun _ => rfl
    refine ⟨?_, fun k hk => ?_⟩
    · simp [Work.tickets, hl.updateParent f, hl.slots, List.filterMap_append, List.filterMap_cons]
    · simp [Work.get?, hl.updateParent f, hl.slots, List.find?_append, hhas, hl.not_waiting hk]

theorem ensureParent_frame (f : Factory) (rule : Node) :
    Frame waiting w (ensureParent f waiting rule parent w) := by
  unfold ensureParent
  split
  · exact Frame.of_slots rfl
  · split
    · have hresume : ∀ p, Frame waiting w ⟨w.slots, p⟩ := fun p => Frame.of_slots rfl
      exact (hresume _).trans (frame_push _)
    · exact Frame.of_slots rfl

theorem ensureChild_frame (f : Factory) (rule : Node) :
    Frame waiting w (ensureChild f waiting rule parent child w) := by
  unfold ensureChild
  split
  · exact Frame.of_slots rfl
  · split
    · have hresume : ∀ p, Frame waiting w ⟨w.slots, p⟩ := fun p => Frame.of_slots rfl
      exact (hresume _).trans (frame_updateParent _)
    · exact Frame.of_slots rfl

/-- A rule whose last rule `child` has taken the content of `rule`. -/
def filled (rule : Node) (child : Text) (n : Node) : Node :=
  n.setNodes (updateLast (Node.hasSelector child) (Node.append (copyAll rule.nodes)) n.nodes)

theorem fill_frame (rule : Node) : Frame waiting w (fill waiting rule parent child w) := by
  unfold fill
  split
  · exact Frame.of_slots rfl
  · have hframe : Frame waiting w (updateParent waiting parent (filled rule child) w) :=
      frame_updateParent _
    exact ⟨hframe.tickets, hframe.kept⟩

theorem place_frame (f : Factory) (rule : Node) (split : Text × Text) :
    Frame waiting w (place f waiting rule w split) :=
  ((ensureParent_frame f rule).trans (ensureChild_frame f rule)).trans (fill_frame rule)

theorem foldl_place_frame (f : Factory) (rule : Node) (splits : List (Text × Text)) :
    Frame waiting w (splits.foldl (place f waiting rule) w) := by
  induction splits generalizing w with
  | nil => exact Frame.of_slots rfl
  | cons split splits ih => exact (place_frame f rule split).trans ih

/-- Taking one rule apart leaves the other waiting rules alone. -/
theorem splitRule_frame (f : Factory) {t : Nat} (hd : w.Distinct) :
    (splitRule f waiting t w).Distinct ∧
      ∀ k ∈ waiting, k ≠ t → (splitRule f waiting t w).get? k = w.get? k := by
  unfold splitRule
  split
  · exact ⟨hd, fun _ _ _ => rfl⟩
  · split
    · exact ⟨hd, fun _ _ _ => rfl⟩
    · rename_i rule hget
      have hframe : Frame waiting w _ :=
        foldl_place_frame f rule ((distinct rule.parts).filterMap splitDescendant?)
      simp only
      split
      · exact ⟨hframe.distinct hd, fun k hk _ => hframe.kept k hk⟩
      · split
        · exact ⟨(hframe.distinct hd).remove t,
            fun k hk hkt => (Work.get?_remove_ne hkt).trans (hframe.kept k hk)⟩
        · exact ⟨(hframe.distinct hd).modify t _,
            fun k hk hkt => (Work.get?_modify_ne hkt).trans (hframe.kept k hk)⟩

/-! ### Going on -/

section GoesOn

variable {f : Factory} (hf : f.Obliging) {rule : Node} (hrule : rule.isRule = true)
include hf hrule

theorem place_goes_on (hgo : w.stopped = false) (split : Text × Text) :
    (place f waiting rule w split).stopped = false := by
  have hparent : (ensureParent f waiting rule split.1 w).stopped = false := by
    obtain ⟨n, p, hnew⟩ := Progress.newRule_of_obliging hf hgo hrule split.1
    unfold ensureParent
    split
    · exact hgo
    · simp only [hnew]
      exact (Progress.eq_of_newRule_some hnew).2.2
  have hchild : (ensureChild f waiting rule split.1 split.2
      (ensureParent f waiting rule split.1 w)).stopped = false := by
    obtain ⟨n, p, hnew⟩ := Progress.newRule_of_obliging hf hparent hrule split.2
    unfold ensureChild
    split
    · exact hparent
    · simp only [hnew]
      exact (Progress.eq_of_newRule_some hnew).2.2
  unfold place fill
  split
  · exact hchild
  · exact hchild

theorem foldl_place_goes_on (hgo : w.stopped = false) (splits : List (Text × Text)) :
    (splits.foldl (place f waiting rule) w).stopped = false := by
  induction splits generalizing w with
  | nil => exact hgo
  | cons split splits ih => exact ih (place_goes_on hf hrule hgo split)

theorem splitRule_goes_on (hgo : w.stopped = false) {t : Nat} (ht : t ∈ waiting)
    (hget : w.get? t = some rule) : (splitRule f waiting t w).stopped = false := by
  have hplaced : (((distinct rule.parts).filterMap splitDescendant?).foldl
      (place f waiting rule) w).stopped = false := foldl_place_goes_on hf hrule hgo _
  have hframe : Frame waiting w _ :=
    foldl_place_frame f rule ((distinct rule.parts).filterMap splitDescendant?)
  have hfound := (hframe.kept t ht).trans hget
  unfold splitRule
  simp only [hgo, hget, hplaced, Bool.false_eq_true, if_false]
  split
  · simp only [Work.remove, hplaced, hfound]
    exact hplaced
  · exact hplaced

end GoesOn

/-! ### Siblings that only grow -/

variable {added : Scope → Applied → Prop}

/-- The siblings have grown: they say what they said, and nothing else but what
    was added. -/
structure Grows (added : Scope → Applied → Prop) (w w' : Work) : Prop where
  styled : w.Styled (AllParts Neat) → w'.Styled (AllParts Neat)
  more : ∀ ts sc x, w.SaysWithout ts sc x → w'.SaysWithout ts sc x
  only : ∀ sc x, w'.Says sc x → w.Says sc x ∨ added sc x

theorem Grows.of_slots (h : w'.slots = w.slots) : Grows added w w' := by
  obtain ⟨slots, p⟩ := w'
  cases h
  exact ⟨fun hs => hs, fun _ _ _ hx => hx, fun _ _ hx => Or.inl hx⟩

theorem Grows.trans (h : Grows added w w') (h' : Grows added w' w'') : Grows added w w'' := by
  refine ⟨fun hs => h'.styled (h.styled hs),
    fun ts sc x hx => h'.more ts sc x (h.more ts sc x hx), ?_⟩
  intro sc x hx
  rcases h'.only sc x hx with hold | hnew
  · exact h.only sc x hold
  · exact Or.inr hnew

theorem Grows.mono {added' : Scope → Applied → Prop} (h : Grows added w w')
    (hadded : ∀ sc x, added sc x → added' sc x) : Grows added' w w' :=
  ⟨h.styled, h.more, fun sc x hx => (h.only sc x hx).imp_right (hadded sc x)⟩

theorem allParts_neat {s : Text} (hs : Neat s) : AllParts Neat s := by
  intro p hp
  rw [hs.tidy.atom.parts, List.mem_singleton] at hp
  exact hp ▸ hs

theorem grows_push {o : Origin} {s : Text} (hs : Neat s) :
    Grows added w (w.push (.block o (.rule s) [])) := by
  refine ⟨fun hw => hw.push ?_, ?_, fun sc x hx => ?_⟩
  · exact styled_rule.mpr ⟨allParts_neat hs, by simp⟩
  · rintro ts sc x ⟨r, hr, hts, hx⟩
    exact ⟨r, List.mem_append_left _ hr, hts, hx⟩
  · rcases Work.says_push.mp hx with hold | hnew
    · exact Or.inl hold
    · simp [styles, stylesAll] at hnew

theorem grows_update {n : Node} (hslots : w.slots = l ++ s :: r)
    (hslots' : w'.slots = l ++ { s with node := n } :: r)
    (hstyled : s.node.Styled (AllParts Neat) → n.Styled (AllParts Neat))
    (hmore : ∀ sc x, x ∈ s.node.styles sc → x ∈ n.styles sc)
    (honly : ∀ sc x, x ∈ n.styles sc → x ∈ s.node.styles sc ∨ added sc x) :
    Grows added w w' := by
  refine ⟨fun hw => ?_, ?_, ?_⟩
  · intro q hq
    rw [hslots', List.mem_append, List.mem_cons] at hq
    rcases hq with hl | rfl | hr
    · exact hw q (by simp [hslots, hl])
    · exact hstyled (hw s (by simp [hslots]))
    · exact hw q (by simp [hslots, hr])
  · rintro ts sc x ⟨q, hq, hts, hx⟩
    rw [hslots, List.mem_append, List.mem_cons] at hq
    rcases hq with hl | rfl | hr
    · exact ⟨q, by simp [hslots', hl], hts, hx⟩
    · exact ⟨{ q with node := n }, by simp [hslots'], hts, hmore sc x hx⟩
    · exact ⟨q, by simp [hslots', hr], hts, hx⟩
  · intro sc x hx
    obtain ⟨q, hq, hx⟩ := Work.says_iff.mp hx
    rw [hslots', List.mem_append, List.mem_cons] at hq
    rcases hq with hl | rfl | hr
    · exact Or.inl (Work.says_iff.mpr ⟨q, by simp [hslots, hl], hx⟩)
    · rcases honly sc x hx with hold | hnew
      · exact Or.inl (Work.says_iff.mpr ⟨s, by simp [hslots], hold⟩)
      · exact Or.inr hnew
    · exact Or.inl (Work.says_iff.mpr ⟨q, by simp [hslots, hr], hx⟩)

/-! ### Placing content -/

theorem ensureParent_grows (f : Factory) (rule : Node) (hparent : Neat parent) :
    Grows added w (ensureParent f waiting rule parent w) ∧
      ((ensureParent f waiting rule parent w).stopped = false →
        ∃ l s r, LastParent waiting parent (ensureParent f waiting rule parent w) l s r) := by
  unfold ensureParent
  split
  · rename_i h
    refine ⟨Grows.of_slots rfl, fun hgo => exists_lastParent ?_⟩
    simpa [hgo] using h
  · split
    · rename_i n p hnew
      obtain ⟨⟨o, rfl⟩, -, -⟩ := Progress.eq_of_newRule_some hnew
      have hresume : Grows added w ⟨w.slots, p⟩ := Grows.of_slots rfl
      refine ⟨hresume.trans (grows_push hparent), fun _ => exists_lastParent ?_⟩
      simp [Work.push, isParent, Node.hasSelector, Node.selector?, Slot.has]
    · rename_i p hnew
      refine ⟨Grows.of_slots rfl, fun hgo => ?_⟩
      have hstopped : p.stopped = true := Progress.stopped_of_newRule_none hnew
      rw [Work.stopped, hstopped] at hgo
      cases hgo

theorem ensureChild_grows (f : Factory) (rule : Node) (hchild : Neat child)
    (hlast : w.stopped = false → ∃ l s r, LastParent waiting parent w l s r) :
    Grows added w (ensureChild f waiting rule parent child w) ∧
      ((ensureChild f waiting rule parent child w).stopped = false →
        ∃ l s r, LastParent waiting parent (ensureChild f waiting rule parent child w) l s r ∧
          s.node.nodes.any (Node.hasSelector child) = true) := by
  unfold ensureChild
  split
  · rename_i h
    refine ⟨Grows.of_slots rfl, fun hgo => ?_⟩
    obtain ⟨l, s, r, hl⟩ := hlast hgo
    rw [hgo, Bool.false_or, hl.hasChild] at h
    exact ⟨l, s, r, hl, h⟩
  · split
    · rename_i n p hnew
      obtain ⟨⟨o, rfl⟩, hgo, -⟩ := Progress.eq_of_newRule_some hnew
      obtain ⟨l, s, r, hl⟩ := hlast hgo
      -- the answer of the factory does not change the siblings
      have hl' : LastParent waiting parent ⟨w.slots, p⟩ l s r := ⟨hl.slots, hl.isParent, hl.later⟩
      have hslots := hl'.updateParent (Node.append [.block o (.rule child) []])
      obtain ⟨os, ns, hnode⟩ := hl.selector
      have hempty : ∀ sc x, x ∈ (s.node.append [.block o (.rule child) []]).styles sc ↔
          x ∈ s.node.styles sc := by
        intro sc x
        simp [hnode, Node.append, styles, stylesAll_append, stylesAll]
      constructor
      · refine grows_update hl.slots hslots (fun hs => hs.append ?_)
          (fun sc x hx => (hempty sc x).mpr hx) (fun sc x hx => Or.inl ((hempty sc x).mp hx))
        intro m hm
        rw [List.mem_singleton.mp hm]
        exact styled_rule.mpr ⟨allParts_neat hchild, by simp⟩
      · intro _
        refine ⟨l, _, r, ⟨hslots, ?_, hl.later⟩, ?_⟩
        · simpa [isParent, hnode, Node.append, Node.hasSelector, Node.selector?, Slot.has] using
            hl.isParent
        · simp [hnode, Node.append, Node.nodes, Node.hasSelector, Node.selector?]
    · rename_i p hnew
      refine ⟨Grows.of_slots rfl, fun hgo => ?_⟩
      have hstopped : p.stopped = true := Progress.stopped_of_newRule_none hnew
      rw [Work.stopped, hstopped] at hgo
      cases hgo

/-- What is said of one part that was taken apart. -/
def Said (rule : Node) (split : Text × Text) (sc : Scope) (x : Applied) : Prop :=
  ∃ Q ∈ sc.ofPart (split.1 ++ ' ' :: split.2), x ∈ stylesAll (Scope.below sc.context Q) rule.nodes

theorem fill_grows {rule : Node} (hrule : rule.Styled (AllParts Neat)) (hparent : Neat parent)
    (hchild : Neat child) (hamp : '&' ∉ child) {t : Nat} (ht : t ∈ waiting)
    (hlast : w.stopped = false → ∃ l s r, LastParent waiting parent w l s r ∧
      s.node.nodes.any (Node.hasSelector child) = true) :
    Grows (Said rule (parent, child)) w (fill waiting rule parent child w) ∧
      ((fill waiting rule parent child w).stopped = false → ∀ sc x, Said rule (parent, child) sc x →
        (fill waiting rule parent child w).SaysWithout [t] sc x) := by
  unfold fill
  split
  · rename_i hstopped
    refine ⟨Grows.of_slots rfl, fun hgo => ?_⟩
    rw [hstopped] at hgo
    cases hgo
  · rename_i hgo
    obtain ⟨l, s, r, hl, hhas⟩ := hlast (eq_false_of_ne_true hgo)
    obtain ⟨o, ns, hnode⟩ := hl.selector
    have hfilled : ∀ sc x, x ∈ (filled rule child s.node).styles sc ↔
        x ∈ s.node.styles sc ∨ Said rule (parent, child) sc x := by
      intro sc x
      rw [hnode] at hhas ⊢
      refine (mem_styles_filled hparent.tidy.atom hchild.tidy.atom hamp hhas
        (copyAll rule.nodes)).trans ?_
      simp only [stylesAll_copyAll]
      exact Iff.rfl
    have hslots := hl.updateParent (filled rule child)
    constructor
    · refine (grows_update hl.slots hslots (fun hs => hs.setNodes ?_)
        (fun sc x hx => (hfilled sc x).mpr (Or.inl hx))
        (fun sc x hx => (hfilled sc x).mp hx)).trans (Grows.of_slots rfl)
      obtain ⟨l', m, r', hns, hm, hr'⟩ := last_of_any hhas
      have hold := hs.nodes
      rw [hns] at hold ⊢
      rw [updateLast_append_cons hm hr']
      intro c hc
      rw [List.mem_append, List.mem_cons] at hc
      rcases hc with hc | rfl | hc
      · exact hold c (by simp [hc])
      · exact (hold m (by simp)).append (styled_copyAll hrule.nodes)
      · exact hold c (by simp [hc])
    · intro _ sc x hx
      exact Work.saysWithout_singleton.mpr ⟨{ s with node := filled rule child s.node },
        hl.mem_updateParent (filled rule child), hl.not_waiting ht, (hfilled sc x).mpr (Or.inr hx)⟩

/-- **Placing the content of a rule** for one of its parts. -/
theorem place_grows (f : Factory) {rule : Node} (hrule : rule.Styled (AllParts Neat))
    {part : Text} (hpart : Neat part) {split : Text × Text}
    (hsplit : splitDescendant? part = some split) {t : Nat} (ht : t ∈ waiting) :
    Grows (Said rule split) w (place f waiting rule w split) ∧
      ((place f waiting rule w split).stopped = false → ∀ sc x, Said rule split sc x →
        (place f waiting rule w split).SaysWithout [t] sc x) := by
  obtain ⟨parent, child⟩ := split
  obtain ⟨-, hparent, hchild, hamp⟩ := hpart.split hsplit
  obtain ⟨hgrows, hlast⟩ := ensureParent_grows f rule hparent (w := w)
  obtain ⟨hgrows', hlast'⟩ := ensureChild_grows f rule hchild hlast
  obtain ⟨hgrows'', hsaid⟩ := fill_grows hrule hparent hchild hamp ht hlast'
  exact ⟨(hgrows.trans hgrows').trans hgrows'', hsaid⟩

theorem place_of_stopped (f : Factory) (rule : Node) (split : Text × Text)
    (h : w.stopped = true) : place f waiting rule w split = w := by
  simp [place, ensureParent, ensureChild, fill, h]

theorem foldl_place_of_stopped (f : Factory) (rule : Node) (splits : List (Text × Text))
    (h : w.stopped = true) : splits.foldl (place f waiting rule) w = w := by
  induction splits with
  | nil => rfl
  | cons split splits ih => rw [List.foldl_cons, place_of_stopped f rule split h, ih]

theorem foldl_place_grows (f : Factory) {rule : Node} (hrule : rule.Styled (AllParts Neat))
    {t : Nat} (ht : t ∈ waiting) {splits : List (Text × Text)}
    (hsplits : ∀ split ∈ splits, ∃ part, Neat part ∧ splitDescendant? part = some split) :
    Grows (fun sc x => ∃ split ∈ splits, Said rule split sc x) w
        (splits.foldl (place f waiting rule) w) ∧
      ((splits.foldl (place f waiting rule) w).stopped = false →
        ∀ split ∈ splits, ∀ sc x, Said rule split sc x →
          (splits.foldl (place f waiting rule) w).SaysWithout [t] sc x) := by
  induction splits generalizing w with
  | nil => exact ⟨Grows.of_slots rfl, fun _ split hs => by cases hs⟩
  | cons split splits ih =>
    obtain ⟨part, hpart, hsplit⟩ := hsplits split (by simp)
    obtain ⟨hfirst, hsaid⟩ := place_grows f hrule hpart hsplit ht (w := w)
    obtain ⟨hrest, hsaidRest⟩ := ih (w := place f waiting rule w split)
      fun split' hs => hsplits split' (by simp [hs])
    rw [List.foldl_cons]
    constructor
    · exact (hfirst.mono fun sc x hx => ⟨split, by simp, hx⟩).trans
        (hrest.mono fun sc x ⟨split', hs, hx⟩ => ⟨split', by simp [hs], hx⟩)
    · intro hgo split' hs sc x hx
      rcases List.mem_cons.mp hs with rfl | hs
      · refine hrest.more _ sc x (hsaid ?_ sc x hx)
        -- a run that has not stopped later had not stopped here
        cases hstop : (place f waiting rule w split').stopped with
        | false => rfl
        | true =>
          rw [foldl_place_of_stopped f rule splits hstop, hstop] at hgo
          cases hgo
      · exact hsaidRest hgo split' hs sc x hx

/-! ### Taking rules apart -/

theorem mem_styles_of_said {rule : Node} (hrule : rule.isRule = true) {part : Text}
    (hmem : part ∈ rule.parts) (hpart : Neat part) {split : Text × Text}
    (hsplit : splitDescendant? part = some split) {sc : Scope} {x : Applied}
    (hx : Said rule split sc x) : x ∈ rule.styles sc := by
  obtain ⟨Q, hQ, hx⟩ := hx
  rw [← (hpart.split hsplit).1] at hQ
  exact (mem_styles_of_isRule hrule).mpr ⟨part, hmem, Q, hQ, hx⟩

/-- The parts of a rule that cannot be taken apart. -/
def keptParts (rule : Node) : List Text :=
  (distinct rule.parts).filter fun p => (splitDescendant? p).isNone

/-- What a rule says, it says of a part that stays or of one that was taken apart. -/
theorem said_or_kept {rule : Node} (hrule : rule.isRule = true)
    (hstyled : rule.Styled (AllParts Neat)) {sc : Scope} {x : Applied}
    (hx : x ∈ rule.styles sc) :
    (∃ split ∈ (distinct rule.parts).filterMap splitDescendant?, Said rule split sc x) ∨
      ∃ q ∈ keptParts rule, ∃ P ∈ sc.ofPart q,
        x ∈ stylesAll (Scope.below sc.context P) rule.nodes := by
  obtain ⟨q, hq, P, hP, hx⟩ := (mem_styles_of_isRule hrule).mp hx
  cases hsplit : splitDescendant? q with
  | none =>
    exact Or.inr ⟨q, List.mem_filter.mpr ⟨mem_distinct.mpr hq, by simp [hsplit]⟩, P, hP, hx⟩
  | some split =>
    refine Or.inl ⟨split, List.mem_filterMap.mpr ⟨q, mem_distinct.mpr hq, hsplit⟩, P, ?_, hx⟩
    rwa [← ((hstyled.good_of_mem_parts hq).split hsplit).1]

theorem mem_parts_of_mem_keptParts {rule : Node} {q : Text} (hq : q ∈ keptParts rule) :
    q ∈ rule.parts := mem_distinct.mp (List.mem_of_mem_filter hq)

variable {t : Nat} {rule : Node} {placed : Work}

/-- A rule that can give up the parts that were taken apart: the other siblings
    say all that is said of them. -/
structure Placed (t : Nat) (rule : Node) (w placed : Work) : Prop where
  keeps : Work.Keeps (AllParts Neat) w placed
  isRule : rule.isRule = true
  found : placed.get? t = some rule
  cover : ∀ sc x, w.Says sc x → placed.SaysWithout [t] sc x ∨
    ∃ q ∈ keptParts rule, ∃ P ∈ sc.ofPart q, x ∈ stylesAll (Scope.below sc.context P) rule.nodes

theorem Placed.remove (h : Placed t rule w placed) (hgo : placed.stopped = false)
    (hkept : keptParts rule = []) : Work.Keeps (AllParts Neat) w (placed.remove t) := by
  refine ⟨h.keeps.distinct.remove t, h.keeps.styled.remove t, fun sc x => ?_⟩
  rw [Work.says_remove hgo h.found]
  constructor
  · intro hx
    exact (h.keeps.same sc x).mp hx.weaken
  · intro hx
    rcases h.cover sc x hx with hothers | ⟨q, hq, -⟩
    · exact hothers
    · rw [hkept] at hq
      cases hq

theorem Placed.modify (h : Placed t rule w placed) :
    Work.Keeps (AllParts Neat) w
      (placed.modify t (Node.setSelector (Text.join Text.commaSpace (keptParts rule)))) := by
  have hstyled : rule.Styled (AllParts Neat) := h.keeps.styled.get? h.found
  have hneat : ∀ q ∈ keptParts rule, Neat q :=
    fun q hq => hstyled.good_of_mem_parts (mem_parts_of_mem_keptParts hq)
  have hatoms : ∀ q ∈ keptParts rule, Atom q := fun q hq => (hneat q hq).tidy.atom
  -- the rule with fewer parts, as a list of parts and as a node
  have hleft : ∀ sc x, x ∈ (rule.setSelector
      (Text.join Text.commaSpace (keptParts rule))).styles sc ↔ ∃ q ∈ keptParts rule,
        ∃ P ∈ sc.ofPart q, x ∈ stylesAll (Scope.below sc.context P) rule.nodes := by
    intro sc x
    obtain ⟨o, s, ns, rfl⟩ := exists_of_isRule h.isRule
    rw [Node.setSelector, mem_styles_rule, parts_join hatoms]
    rfl
  refine ⟨h.keeps.distinct.modify t _, h.keeps.styled.modify fun s hs hst => ?_, fun sc x => ?_⟩
  · rw [h.keeps.distinct.node_eq h.found hs hst]
    obtain ⟨o, s, ns, rfl⟩ := exists_of_isRule h.isRule
    refine styled_rule.mpr ⟨fun q hq => hneat q ?_, (styled_rule.mp hstyled).2⟩
    rwa [parts_join hatoms] at hq
  · rw [Work.says_modify h.keeps.distinct h.found, hleft]
    constructor
    · rintro (⟨q, hq, hx⟩ | hothers)
      · rw [← h.keeps.same, Work.says_iff_of_get? h.keeps.distinct h.found]
        exact Or.inl ((mem_styles_of_isRule h.isRule).mpr
          ⟨q, mem_parts_of_mem_keptParts hq, hx⟩)
      · exact (h.keeps.same sc x).mp hothers.weaken
    · intro hx
      exact (h.cover sc x hx).symm

/-- Copies of what a rule says of its parts add nothing as long as the rule is there. -/
theorem Grows.keeps (hd : w.Distinct) (hs : w.Styled (AllParts Neat))
    (hrule : rule.isRule = true) (hget : w.get? t = some rule) (hframe : Frame waiting w placed)
    (hgrows : Grows (fun sc x =>
      ∃ split ∈ (distinct rule.parts).filterMap splitDescendant?, Said rule split sc x) w placed) :
    Work.Keeps (AllParts Neat) w placed := by
  refine ⟨hframe.distinct hd, hgrows.styled hs, fun sc x => ?_⟩
  refine ⟨fun hx => ?_, hgrows.more [] sc x⟩
  rcases hgrows.only sc x hx with hold | ⟨split, hsplit, hx⟩
  · exact hold
  · obtain ⟨q, hq, hsplit⟩ := List.mem_filterMap.mp hsplit
    have hq := mem_distinct.mp hq
    have hneat : Neat q := (hs.get? hget).good_of_mem_parts hq
    exact (Work.says_iff_of_get? hd hget).mpr
      (Or.inl (mem_styles_of_said hrule hq hneat hsplit hx))

/-- **Taking one rule apart** keeps what the siblings say. -/
theorem splitRule_keeps (f : Factory) (hd : w.Distinct) (hs : w.Styled (AllParts Neat))
    (ht : t ∈ waiting) (hget : w.get? t = some rule) (hrule : rule.isRule = true) :
    Work.Keeps (AllParts Neat) w (splitRule f waiting t w) := by
  have hstyled : rule.Styled (AllParts Neat) := hs.get? hget
  have hsplits : ∀ split ∈ (distinct rule.parts).filterMap splitDescendant?,
      ∃ part, Neat part ∧ splitDescendant? part = some split := by
    intro split hsplit
    obtain ⟨q, hq, hsplit⟩ := List.mem_filterMap.mp hsplit
    exact ⟨q, hstyled.good_of_mem_parts (mem_distinct.mp hq), hsplit⟩
  have hframe : Frame waiting w _ :=
    foldl_place_frame f rule ((distinct rule.parts).filterMap splitDescendant?)
  obtain ⟨hgrows, hsaid⟩ := foldl_place_grows f hstyled ht hsplits (w := w)
  unfold splitRule
  simp only [hget]
  generalize ((distinct rule.parts).filterMap splitDescendant?).foldl
    (place f waiting rule) w = placed at hframe hgrows hsaid ⊢
  have hkeeps := Grows.keeps hd hs hrule hget hframe hgrows
  split
  · exact Work.Keeps.refl hd hs
  · split
    · exact hkeeps
    · rename_i hgo
      have hgo : placed.stopped = false := eq_false_of_ne_true hgo
      have hplaced : Placed t rule w placed := by
        refine ⟨hkeeps, hrule, (hframe.kept t ht).trans hget, fun sc x hx => ?_⟩
        rcases (Work.says_iff_of_get? hd hget).mp hx with hself | hothers
        · rcases said_or_kept hrule hstyled hself with ⟨split, hsplit, hx⟩ | hkept
          · exact Or.inl (hsaid hgo split hsplit sc x hx)
          · exact Or.inr hkept
        · exact Or.inl (hgrows.more [t] sc x hothers)
      split
      · rename_i hempty
        exact hplaced.remove hgo (List.isEmpty_iff.mp hempty)
      · exact hplaced.modify

def Present (waiting : List Nat) (w : Work) : Prop :=
  ∀ k ∈ waiting, ∃ n, w.get? k = some n ∧ n.isRule = true

theorem Present.after_splitRule {later : List Nat} (h : Present (t :: later) w) (f : Factory)
    (hd : w.Distinct) (hlater : t ∉ later) :
    Present later (splitRule f (t :: later) t w) := by
  intro k hk
  have hkt : k ≠ t := fun e => hlater (e ▸ hk)
  rw [(splitRule_frame f hd).2 k (by simp [hk]) hkt]
  exact h k (by simp [hk])

theorem splitAll_keeps (f : Factory) (hd : w.Distinct) (hs : w.Styled (AllParts Neat))
    (hnodup : waiting.Nodup) (hpresent : Present waiting w) :
    Work.Keeps (AllParts Neat) w (splitAll f waiting w) := by
  induction waiting generalizing w with
  | nil => exact Work.Keeps.refl hd hs
  | cons t later ih =>
    obtain ⟨hlater, hnodup⟩ := List.nodup_cons.mp hnodup
    obtain ⟨rule, hget, hrule⟩ := hpresent t (by simp)
    have hkeeps := splitRule_keeps f hd hs (List.mem_cons_self (a := t) (l := later)) hget hrule
    exact hkeeps.trans
      (ih hkeeps.distinct hkeeps.styled hnodup (hpresent.after_splitRule f hd hlater))

theorem splitAll_goes_on {f : Factory} (hf : f.Obliging) (hd : w.Distinct)
    (hgo : w.stopped = false) (hnodup : waiting.Nodup) (hpresent : Present waiting w) :
    (splitAll f waiting w).stopped = false := by
  induction waiting generalizing w with
  | nil => exact hgo
  | cons t later ih =>
    obtain ⟨hlater, hnodup⟩ := List.nodup_cons.mp hnodup
    obtain ⟨rule, hget, hrule⟩ := hpresent t (by simp)
    exact ih (splitRule_frame f hd).1
      (splitRule_goes_on hf hrule hgo (List.mem_cons_self ..) hget) hnodup
      (hpresent.after_splitRule f hd hlater)

theorem isRule_of_splits {n : Node} (h : n.splits = true) : n.isRule = true := by
  obtain ⟨q, hq, -⟩ := List.any_eq_true.mp h
  match n, hq with
  | .block _ (.rule _) _, _ => rfl

section Level

variable (p : Progress) (ns : List Node)

def splitTickets : List Nat :=
  ((Work.start p ns).slots.filter (·.node.splits)).filterMap (·.ticket)

theorem nodup_splitTickets : (splitTickets p ns).Nodup :=
  (Work.distinct_start p ns).sublist (List.filter_sublist.filterMap _)

variable {p ns}

theorem exists_of_mem_splitTickets {t : Nat} (ht : t ∈ splitTickets p ns) :
    ∃ s ∈ Slot.number ns, s.has t = true ∧ s.node.splits = true := by
  obtain ⟨s, hs, hst⟩ := List.mem_filterMap.mp ht
  obtain ⟨hs, hsplits⟩ := List.mem_filter.mp hs
  exact ⟨s, hs, Slot.has_iff.mpr hst, hsplits⟩

/-- In the beginning the rules wait that have a part to be taken apart. -/
theorem any_splitTickets {s : Slot} (hs : s ∈ Slot.number ns) :
    (splitTickets p ns).any s.has = s.node.splits := by
  rw [Bool.eq_iff_iff, List.any_eq_true]
  constructor
  · rintro ⟨t, ht, hst⟩
    obtain ⟨s', hs', hst', hsplits⟩ := exists_of_mem_splitTickets ht
    rwa [(Work.distinct_start p ns).eq_of_has hs hs' hst hst']
  · intro hsplits
    obtain ⟨t, ht⟩ := Slot.exists_ticket_of_mem_numberFrom hs
    exact ⟨t, List.mem_filterMap.mpr ⟨s, List.mem_filter.mpr ⟨hs, hsplits⟩, ht⟩,
      Slot.has_iff.mpr ht⟩

variable (p ns)

theorem present_splitTickets : Present (splitTickets p ns) (Work.start p ns) := by
  intro k hk
  obtain ⟨s, hs, hsk, hsplits⟩ := exists_of_mem_splitTickets hk
  exact ⟨s.node, (Work.distinct_start p ns).get?_eq hs hsk, isRule_of_splits hsplits⟩

end Level

theorem level_same (f : Factory) (p : Progress) {ns : List Node}
    (hns : ∀ n ∈ ns, n.Styled (AllParts Neat)) :
    SameSiblings (AllParts Neat) ns (level f p ns).1 :=
  (splitAll_keeps f (Work.distinct_start p ns) (Work.styled_start hns) (nodup_splitTickets p ns)
    (present_splitTickets p ns)).finish

theorem level_goes_on {f : Factory} (hf : f.Obliging) (p : Progress) (ns : List Node)
    (hgo : p.stopped = false) : (level f p ns).2.stopped = false :=
  splitAll_goes_on hf (Work.distinct_start p ns) hgo (nodup_splitTickets p ns)
    (present_splitTickets p ns)

end Descendants

/-- **Nesting by descent changes no meaning.** -/
theorem conserves_nestDescendants (f : Factory) :
    Conserves (Selector.AllParts Selector.Neat) (nestDescendants f) :=
  conserves_unless_stopped (fun _ p _ hns => Descendants.level_same f p hns) (2 * ·.height)

theorem nestDescendants_goes_on {f : Factory} (hf : f.Obliging) (p : Progress) (n : Node)
    (hgo : p.stopped = false) : (nestDescendants f p n).2.stopped = false := by
  rw [nestDescendants, if_neg (by simp [hgo])]
  exact topDown_goes_on (fun _ p ns hp => Descendants.level_goes_on hf p ns hp) _ hgo n

end StyleNesting
