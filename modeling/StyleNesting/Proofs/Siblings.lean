/-
  StyleNesting/Proofs/Siblings.lean
  =================================
  **What the siblings of a block say while a pass works on them.**  As long as
  no ticket is held twice, a ticket stands for one child, and what the siblings
  say falls into what that child says and what the others say
  (`says_iff_of_get?`).  Every way to change the siblings is described by its
  effect on the two: a child is changed, taken out, or joined by a new one.
-/
import Mathlib.Data.List.Nodup
import StyleNesting.Pass.Siblings
import StyleNesting.Proofs.TopDown

namespace StyleNesting

theorem Slot.has_iff {t : Nat} {s : Slot} : s.has t = true ↔ s.ticket = some t := by
  simp [Slot.has]

theorem Slot.filterMap_ticket_numberFrom (k : Nat) (ns : List Node) :
    (Slot.numberFrom k ns).filterMap (·.ticket) = List.range' k ns.length := by
  induction ns generalizing k with
  | nil => rfl
  | cons n ns ih => simp [Slot.numberFrom, ih, List.range'_succ]

theorem Slot.exists_ticket_of_mem_numberFrom {k : Nat} {ns : List Node} {s : Slot}
    (hs : s ∈ Slot.numberFrom k ns) : ∃ t, s.ticket = some t := by
  induction ns generalizing k with
  | nil => cases hs
  | cons n ns ih =>
    rcases List.mem_cons.mp hs with rfl | hrest
    · exact ⟨k, rfl⟩
    · exact ih hrest

/-- Whatever is among the children has a slot. -/
theorem Slot.mem_iff_number {ns : List Node} {n : Node} :
    n ∈ ns ↔ ∃ s ∈ Slot.number ns, s.node = n := by
  have hmem : n ∈ (Slot.number ns).map Slot.node ↔ _ := List.mem_map
  rwa [Slot.number, Slot.map_node_numberFrom] at hmem

/-! ### New rules -/

namespace Progress

theorem stopped_of_newRule_none {p p' : Progress} {f : Factory} {reference : Node} {s : Text}
    (h : p.newRule f reference s = (none, p')) : p'.stopped = true := by
  unfold newRule at h
  split at h
  · rename_i hstopped
    cases h
    exact hstopped
  · simp only at h
    split at h
    · cases h
    · cases h
      rfl

/-- A new rule has the selector that was asked for and no children. -/
theorem eq_of_newRule_some {p p' : Progress} {f : Factory} {reference n : Node} {s : Text}
    (h : p.newRule f reference s = (some n, p')) :
    (∃ o, n = .block o (.rule s) []) ∧ p.stopped = false ∧ p'.stopped = false := by
  unfold newRule at h
  split at h
  · cases h
  · rename_i hgo
    have hgo : p.stopped = false := eq_false_of_ne_true hgo
    simp only [Factory.rule] at h
    split at h
    · rename_i m hm
      cases h
      refine ⟨?_, hgo, hgo⟩
      split at hm
      · cases hm
      · split at hm
        · rename_i o _
          cases hm
          exact ⟨o, rfl⟩
        · cases hm
    · cases h

end Progress

/-- A factory that refuses no call. -/
def Factory.Obliging (f : Factory) : Prop := ∀ kind calls, f.refusal? kind calls = none

theorem Factory.clone_obliging : Factory.clone.Obliging := fun _ _ => rfl

/-- Whoever asks an obliging factory for a rule like another one gets it. -/
theorem Progress.newRule_of_obliging {f : Factory} (hf : f.Obliging) {p : Progress}
    (hgo : p.stopped = false) {reference : Node} (href : reference.isRule = true) (s : Text) :
    ∃ n p', p.newRule f reference s = (some n, p') := by
  have horigin : ∃ o, f.originFrom? (Factory.ruleTemplate? reference reference) = some o := by
    rw [Factory.originFrom?, Factory.ruleTemplate?, if_pos href]
    cases f.keepsSource <;> exact ⟨_, rfl⟩
  obtain ⟨o, ho⟩ := horigin
  simp [Progress.newRule, hgo, Factory.rule, hf .rule p.ruleCalls, ho]

/-- A factory that keeps places gives a new rule the place of the one it is modelled on. -/
theorem newRule_eq {f : Factory} (hf : f.keepsSource = true) {p p' : Progress} {reference n : Node}
    (href : reference.isRule = true) {s : Text}
    (h : p.newRule f reference s = (some n, p')) :
    n = .block reference.origin.ofCopy (.rule s) [] := by
  have horigin : f.originFrom? (Factory.ruleTemplate? reference reference) =
      some reference.origin.ofCopy := by
    rw [Factory.originFrom?, Factory.ruleTemplate?, if_pos href, if_pos hf]
    rfl
  unfold Progress.newRule at h
  split at h
  · cases h
  · simp only [Factory.rule, horigin] at h
    cases hrefused : f.refusal? .rule p.ruleCalls with
    | some reason => simp [hrefused] at h
    | none =>
      simp only [hrefused, Prod.mk.injEq, Option.some.injEq] at h
      exact h.1.symm

namespace Work

variable {w : Work} {t : Nat} {n : Node} {ok : Text → Prop}

/-! ### Tickets -/

def tickets (w : Work) : List Nat := w.slots.filterMap (·.ticket)

/-- No two children have the same ticket. -/
def Distinct (w : Work) : Prop := w.tickets.Nodup

theorem mem_tickets : t ∈ w.tickets ↔ ∃ s ∈ w.slots, s.has t = true := by
  simp [tickets, Slot.has_iff]

theorem contains_iff : w.contains t = true ↔ t ∈ w.tickets := by
  rw [mem_tickets, contains, List.any_eq_true]

theorem distinct_start (p : Progress) (ns : List Node) : (start p ns).Distinct := by
  rw [Distinct, tickets, start, Slot.number, Slot.filterMap_ticket_numberFrom]
  exact List.nodup_range'

theorem Distinct.of_slots {w' : Work} (h : w.Distinct) (hslots : w'.slots = w.slots) :
    w'.Distinct := by
  rwa [Distinct, tickets, hslots]

theorem Distinct.eq_of_has (h : w.Distinct) {s s' : Slot} (hs : s ∈ w.slots) (hs' : s' ∈ w.slots)
    (ht : s.has t = true) (ht' : s'.has t = true) : s = s' := by
  have hmem : ∀ {r : Slot} {slots : List Slot}, r ∈ slots → r.has t = true →
      t ∈ slots.filterMap (·.ticket) := by
    intro r slots hr hrt
    exact List.mem_filterMap.mpr ⟨r, hr, Slot.has_iff.mp hrt⟩
  have hnodup : (w.slots.filterMap (·.ticket)).Nodup := h
  generalize w.slots = slots at hs hs' hnodup
  induction slots with
  | nil => cases hs
  | cons r slots ih =>
    rw [List.filterMap_cons] at hnodup
    -- the ticket of the first slot does not occur again
    have hfirst : r.has t = true → t ∉ slots.filterMap (·.ticket) := by
      intro hr
      rw [Slot.has_iff.mp hr] at hnodup
      exact (List.nodup_cons.mp hnodup).1
    have hrest : (slots.filterMap (·.ticket)).Nodup := by
      cases hr : r.ticket with
      | none => simpa [hr] using hnodup
      | some k =>
        simp only [hr] at hnodup
        exact (List.nodup_cons.mp hnodup).2
    rcases List.mem_cons.mp hs with rfl | hlater
    · rcases List.mem_cons.mp hs' with rfl | hlater'
      · rfl
      · exact absurd (hmem hlater' ht') (hfirst ht)
    · rcases List.mem_cons.mp hs' with rfl | hlater'
      · exact absurd (hmem hlater ht) (hfirst ht')
      · exact ih hlater hlater' hrest

theorem exists_of_get? (h : w.get? t = some n) : ∃ s ∈ w.slots, s.has t = true ∧ s.node = n := by
  obtain ⟨s, hfind, hnode⟩ := Option.map_eq_some_iff.mp h
  exact ⟨s, List.mem_of_find?_eq_some hfind, List.find?_some hfind, hnode⟩

theorem Distinct.node_eq (hd : w.Distinct) (h : w.get? t = some n) {s : Slot} (hs : s ∈ w.slots)
    (ht : s.has t = true) : s.node = n := by
  obtain ⟨s', hs', ht', rfl⟩ := exists_of_get? h
  rw [hd.eq_of_has hs hs' ht ht']

theorem exists_get?_of_mem_tickets (h : t ∈ w.tickets) : ∃ n, w.get? t = some n := by
  obtain ⟨s, hs, ht⟩ := mem_tickets.mp h
  cases hfind : w.slots.find? (Slot.has t) with
  | none =>
    rw [List.find?_eq_none] at hfind
    exact absurd ht (hfind s hs)
  | some s' => exact ⟨s'.node, by rw [get?, hfind]; rfl⟩

theorem Distinct.get?_eq (hd : w.Distinct) {s : Slot} (hs : s ∈ w.slots) (ht : s.has t = true) :
    w.get? t = some s.node := by
  obtain ⟨n, hn⟩ := exists_get?_of_mem_tickets (mem_tickets.mpr ⟨s, hs, ht⟩)
  rw [hn, hd.node_eq hn hs ht]

theorem mem_tickets_of_get? (h : w.get? t = some n) : t ∈ w.tickets := by
  obtain ⟨s, hs, ht, -⟩ := exists_of_get? h
  exact mem_tickets.mpr ⟨s, hs, ht⟩

@[simp]
theorem tickets_push (w : Work) (n : Node) : (w.push n).tickets = w.tickets := by
  simp [tickets, push]

@[simp]
theorem tickets_modify (w : Work) (t : Nat) (f : Node → Node) :
    (w.modify t f).tickets = w.tickets := by
  rw [tickets, modify, List.filterMap_map]
  refine List.filterMap_congr fun s _ => ?_
  simp only [Function.comp]
  split <;> rfl

@[simp]
theorem stopped_modify (w : Work) (t : Nat) (f : Node → Node) :
    (w.modify t f).stopped = w.stopped := rfl

@[simp]
theorem tickets_insertBefore (w : Work) (t : Nat) (n : Node) :
    (w.insertBefore t n).tickets = w.tickets := by
  unfold insertBefore
  split
  · rfl
  · split
    · rw [tickets, List.filterMap_flatMap, tickets, List.filterMap_eq_flatMap_toList]
      refine List.flatMap_congr fun s _ => ?_
      split <;> rfl
    · rfl

theorem tickets_remove (h : w.stopped = false) (hget : w.get? t = some n) :
    (w.remove t).tickets = w.tickets.filter (· != t) := by
  simp only [remove, h, Bool.false_eq_true, if_false, hget, tickets, List.filter_filterMap,
    List.filterMap_filter]
  refine List.filterMap_congr fun s _ => ?_
  cases ht : s.ticket with
  | none => simp [Slot.has, ht]
  | some k =>
    by_cases hk : k = t <;> simp [Slot.has, ht, hk, Option.filter]

theorem Distinct.remove (h : w.Distinct) (t : Nat) : (w.remove t).Distinct := by
  unfold Work.remove
  split
  · exact h
  · split
    · exact h.sublist (List.filter_sublist.filterMap _)
    · exact h

/-! ### What the children say -/

/-- The children without any of the tickets `ts` say `x`. -/
def SaysWithout (w : Work) (ts : List Nat) (sc : Scope) (x : Applied) : Prop :=
  ∃ s ∈ w.slots, (∀ t ∈ ts, s.has t = false) ∧ x ∈ s.node.styles sc

def Says (w : Work) (sc : Scope) (x : Applied) : Prop := w.SaysWithout [] sc x

variable {sc : Scope} {x : Applied}

theorem says_iff : w.Says sc x ↔ ∃ s ∈ w.slots, x ∈ s.node.styles sc := by
  simp [Says, SaysWithout]

theorem says_iff_mem_nodes : w.Says sc x ↔ x ∈ Node.stylesAll sc w.nodes := by
  simp [says_iff, Node.mem_stylesAll, nodes]

theorem says_start {p : Progress} {ns : List Node} :
    (start p ns).Says sc x ↔ x ∈ Node.stylesAll sc ns := by
  rw [says_iff_mem_nodes, nodes_start]

theorem saysWithout_singleton :
    w.SaysWithout [t] sc x ↔ ∃ s ∈ w.slots, s.has t = false ∧ x ∈ s.node.styles sc := by
  simp [SaysWithout]

theorem SaysWithout.weaken {ts : List Nat} (h : w.SaysWithout ts sc x) : w.Says sc x := by
  obtain ⟨s, hs, -, hx⟩ := h
  exact says_iff.mpr ⟨s, hs, hx⟩

/-- The children say what one of them says and what the others say. -/
theorem saysWithout_iff_of_get? (hd : w.Distinct) (h : w.get? t = some n) {ts : List Nat}
    (hts : t ∉ ts) :
    w.SaysWithout ts sc x ↔ x ∈ n.styles sc ∨ w.SaysWithout (t :: ts) sc x := by
  constructor
  · rintro ⟨s, hs, hout, hx⟩
    cases ht : s.has t with
    | true => exact Or.inl (hd.node_eq h hs ht ▸ hx)
    | false => exact Or.inr ⟨s, hs, List.forall_mem_cons.mpr ⟨ht, hout⟩, hx⟩
  · rintro (hx | ⟨s, hs, hout, hx⟩)
    · obtain ⟨s, hs, ht, rfl⟩ := exists_of_get? h
      refine ⟨s, hs, fun k hk => ?_, hx⟩
      have hkt : t ≠ k := fun e => hts (e ▸ hk)
      simp [Slot.has, Slot.has_iff.mp ht, hkt]
    · exact ⟨s, hs, (List.forall_mem_cons.mp hout).2, hx⟩

theorem says_iff_of_get? (hd : w.Distinct) (h : w.get? t = some n) :
    w.Says sc x ↔ x ∈ n.styles sc ∨ w.SaysWithout [t] sc x :=
  saysWithout_iff_of_get? hd h List.not_mem_nil

theorem says_push {m : Node} : (w.push m).Says sc x ↔ w.Says sc x ∨ x ∈ m.styles sc := by
  simp only [says_iff, push, List.mem_append, List.mem_singleton, or_and_right, exists_or,
    exists_eq_left]

/-- What the children other than one say does not change with that one. -/
theorem saysWithout_modify {f : Node → Node} {ts : List Nat} :
    (w.modify t f).SaysWithout (t :: ts) sc x ↔ w.SaysWithout (t :: ts) sc x := by
  simp only [SaysWithout, modify, List.mem_map]
  constructor
  · rintro ⟨r, ⟨s, hs, rfl⟩, hout, hx⟩
    cases hst : s.has t with
    | true =>
      have ht := hout t (by simp)
      simp only [hst, if_true] at ht
      rw [Slot.has] at ht hst
      rw [hst] at ht
      cases ht
    | false =>
      simp only [hst, Bool.false_eq_true, if_false] at hout hx
      exact ⟨s, hs, hout, hx⟩
  · rintro ⟨s, hs, hout, hx⟩
    exact ⟨s, ⟨s, hs, by simp [hout t (by simp)]⟩, hout, hx⟩

theorem get?_modify {f : Node → Node} (h : w.get? t = some n) :
    (w.modify t f).get? t = some (f n) := by
  obtain ⟨s, hfind, rfl⟩ := Option.map_eq_some_iff.mp h
  have hhas : ∀ r : Slot,
      Slot.has t (if r.has t then { r with node := f r.node } else r) = r.has t := by
    intro r
    split <;> rfl
  have hcomp : (Slot.has t ∘ fun r => if r.has t then { r with node := f r.node } else r) =
      Slot.has t := funext hhas
  have hst : s.has t = true := List.find?_some hfind
  simp only [get?, modify, List.find?_map, hcomp, hfind, Option.map_some, hst, if_true]

theorem get?_modify_ne {f : Node → Node} {k : Nat} (hk : k ≠ t) :
    (w.modify t f).get? k = w.get? k := by
  have hcomp : (Slot.has k ∘ fun r => if r.has t then { r with node := f r.node } else r) =
      Slot.has k := by
    funext r
    simp only [Function.comp]
    split <;> rfl
  simp only [get?, modify, List.find?_map, hcomp, Option.map_map]
  cases hfind : w.slots.find? (Slot.has k) with
  | none => rfl
  | some s =>
    have hst : s.has t = false := by
      have hs : s.ticket = some k := Slot.has_iff.mp (List.find?_some hfind)
      simp [Slot.has, hs, hk]
    simp [hst]

theorem get?_remove_ne {k : Nat} (hk : k ≠ t) : (w.remove t).get? k = w.get? k := by
  have hhas : ∀ s : Slot, (!s.has t && s.has k) = s.has k := by
    intro s
    cases hsk : s.has k with
    | false => simp
    | true => simp [Slot.has, Slot.has_iff.mp hsk, hk]
  unfold remove
  split
  · rfl
  · split
    · simp only [get?, List.find?_filter]
      congr 2
      funext s
      simpa using hhas s
    · rfl

theorem Distinct.modify (h : w.Distinct) (t : Nat) (f : Node → Node) :
    (w.modify t f).Distinct := by rwa [Distinct, tickets_modify]

theorem says_modify {f : Node → Node} (hd : w.Distinct) (h : w.get? t = some n) :
    (w.modify t f).Says sc x ↔ x ∈ (f n).styles sc ∨ w.SaysWithout [t] sc x := by
  rw [says_iff_of_get? (hd.modify t f) (get?_modify h), saysWithout_modify]

theorem says_remove (hgo : w.stopped = false) (h : w.get? t = some n) :
    (w.remove t).Says sc x ↔ w.SaysWithout [t] sc x := by
  simp only [remove, hgo, Bool.false_eq_true, if_false, h, says_iff, saysWithout_singleton,
    List.mem_filter, Bool.not_eq_true', and_assoc]

theorem slots_insertBefore (hgo : w.stopped = false) (ht : t ∈ w.tickets) (m : Node) :
    (w.insertBefore t m).slots =
      w.slots.flatMap fun s => if s.has t then [⟨none, m⟩, s] else [s] := by
  simp only [insertBefore, hgo, Bool.false_eq_true, if_false, contains_iff.mpr ht, if_true]

theorem mem_insertBefore_slots {m : Node} (hgo : w.stopped = false) (ht : t ∈ w.tickets)
    {r : Slot} : r ∈ (w.insertBefore t m).slots ↔ r = ⟨none, m⟩ ∨ r ∈ w.slots := by
  simp only [insertBefore, hgo, Bool.false_eq_true, if_false, contains_iff.mpr ht, if_true,
    List.mem_flatMap]
  constructor
  · rintro ⟨s, hs, hr⟩
    split at hr
    · rcases List.mem_cons.mp hr with rfl | hr
      · exact Or.inl rfl
      · exact Or.inr (List.mem_singleton.mp hr ▸ hs)
    · exact Or.inr (List.mem_singleton.mp hr ▸ hs)
  · rintro (rfl | hr)
    · obtain ⟨s, hs, hst⟩ := mem_tickets.mp ht
      exact ⟨s, hs, by simp [hst]⟩
    · refine ⟨r, hr, ?_⟩
      split <;> simp

theorem stopped_insertBefore {m : Node} (hgo : w.stopped = false) (ht : t ∈ w.tickets) :
    (w.insertBefore t m).stopped = false := by
  simp only [insertBefore, hgo, contains_iff.mpr ht]
  exact hgo

/-! ### A property of all children -/

/-- Every child has a property. -/
def All (P : Node → Prop) (w : Work) : Prop := ∀ s ∈ w.slots, P s.node

section All

variable {P : Node → Prop}

theorem all_iff_nodes : w.All P ↔ ∀ n ∈ w.nodes, P n := by
  simp [All, nodes]

theorem all_start {p : Progress} {ns : List Node} (h : ∀ n ∈ ns, P n) : (start p ns).All P := by
  rwa [all_iff_nodes, nodes_start]

theorem All.get? (h : w.All P) (hget : w.get? t = some n) : P n := by
  obtain ⟨s, hs, -, rfl⟩ := exists_of_get? hget
  exact h s hs

theorem All.push (h : w.All P) {m : Node} (hm : P m) : (w.push m).All P := by
  intro s hs
  rcases List.mem_append.mp hs with hold | hnew
  · exact h s hold
  · rw [List.mem_singleton.mp hnew]
    exact hm

theorem All.modify (h : w.All P) {f : Node → Node}
    (hf : ∀ s ∈ w.slots, s.has t = true → P (f s.node)) : (w.modify t f).All P := by
  intro r hr
  obtain ⟨s, hs, rfl⟩ := List.mem_map.mp hr
  cases hst : s.has t with
  | true => simpa [hst] using hf s hs hst
  | false => simpa [hst] using h s hs

theorem All.remove (h : w.All P) (t : Nat) : (w.remove t).All P := by
  unfold Work.remove
  split
  · exact h
  · split
    · intro s hs
      exact h s (List.mem_of_mem_filter hs)
    · exact h

theorem All.insertBefore (h : w.All P) (t : Nat) {m : Node} (hm : P m) :
    (w.insertBefore t m).All P := by
  unfold Work.insertBefore
  split
  · exact h
  · split
    · intro r hr
      obtain ⟨s, hs, hr⟩ := List.mem_flatMap.mp hr
      split at hr
      · rcases List.mem_pair.mp hr with rfl | rfl
        · exact hm
        · exact h r hs
      · rw [List.mem_singleton.mp hr]
        exact h s hs
    · exact h

end All

/-- Every child is styled. -/
def Styled (ok : Text → Prop) (w : Work) : Prop := ∀ s ∈ w.slots, s.node.Styled ok

theorem styled_iff_nodes : w.Styled ok ↔ ∀ n ∈ w.nodes, n.Styled ok := all_iff_nodes

theorem styled_start {p : Progress} {ns : List Node} (h : ∀ n ∈ ns, n.Styled ok) :
    (start p ns).Styled ok := all_start h

theorem Styled.get? (h : w.Styled ok) (hget : w.get? t = some n) : n.Styled ok :=
  All.get? h hget

theorem Styled.push (h : w.Styled ok) {m : Node} (hm : m.Styled ok) : (w.push m).Styled ok :=
  All.push h hm

theorem Styled.modify (h : w.Styled ok) {f : Node → Node}
    (hf : ∀ s ∈ w.slots, s.has t = true → (f s.node).Styled ok) : (w.modify t f).Styled ok :=
  All.modify h hf

theorem Styled.remove (h : w.Styled ok) (t : Nat) : (w.remove t).Styled ok := All.remove h t

/-! ### Taking out several children -/

theorem foldl_remove {ts : List Nat} (hgo : w.stopped = false) (hts : ∀ t ∈ ts, t ∈ w.tickets)
    (hnodup : ts.Nodup) :
    (ts.foldl Work.remove w).stopped = false ∧
      (ts.foldl Work.remove w).slots = w.slots.filter fun s => !ts.any s.has := by
  induction ts generalizing w with
  | nil => exact ⟨hgo, by simp⟩
  | cons t ts ih =>
    obtain ⟨htts, hnodup⟩ := List.nodup_cons.mp hnodup
    obtain ⟨n, hget⟩ := exists_get?_of_mem_tickets (hts t (by simp))
    have hremove : w.remove t = ⟨w.slots.filter (!·.has t), w.progress.remove [n]⟩ := by
      simp [remove, hgo, hget]
    have hgo' : (w.remove t).stopped = false := by
      rw [hremove]
      exact hgo
    have hrest : ∀ k ∈ ts, k ∈ (w.remove t).tickets := by
      intro k hk
      have hkt : k ≠ t := fun e => htts (e ▸ hk)
      rw [tickets_remove hgo hget, List.mem_filter]
      exact ⟨hts k (by simp [hk]), by simpa using hkt⟩
    obtain ⟨hstopped, hslots⟩ := ih hgo' hrest hnodup
    refine ⟨hstopped, ?_⟩
    rw [List.foldl_cons, hslots, hremove, List.filter_filter]
    simp [Bool.and_comm]

/-! ### The place of a child -/

/-- The other children do not have the ticket of one of them. -/
theorem Distinct.has_eq_false (hd : w.Distinct) {l r : List Slot} {s : Slot}
    (hslots : w.slots = l ++ s :: r) (hst : s.has t = true) :
    (∀ x ∈ l, x.has t = false) ∧ ∀ x ∈ r, x.has t = false := by
  have htickets : w.tickets = l.filterMap (·.ticket) ++ t :: r.filterMap (·.ticket) := by
    simp [tickets, hslots, List.filterMap_append, Slot.has_iff.mp hst]
  have hnot : t ∉ l.filterMap (·.ticket) ++ r.filterMap (·.ticket) := by
    have hnodup : w.tickets.Nodup := hd
    rw [htickets] at hnodup
    exact (List.nodup_middle.mp hnodup).notMem
  have hout : ∀ x ∈ l ++ r, x.has t = false := by
    intro x hx
    by_contra hxt
    refine hnot ?_
    rw [← List.filterMap_append]
    exact List.mem_filterMap.mpr ⟨x, hx, Slot.has_iff.mp (eq_true_of_ne_false hxt)⟩
  exact ⟨fun x hx => hout x (List.mem_append_left r hx),
    fun x hx => hout x (List.mem_append_right l hx)⟩

/-- A ticket that is held stands for one place among the children. -/
theorem Distinct.exists_split (hd : w.Distinct) (hget : w.get? t = some n) :
    ∃ l s r, w.slots = l ++ s :: r ∧ s.node = n ∧ s.has t = true ∧
      (∀ x ∈ l, x.has t = false) ∧ ∀ x ∈ r, x.has t = false := by
  obtain ⟨s, hs, hst, hnode⟩ := exists_of_get? hget
  obtain ⟨l, r, hslots⟩ := List.append_of_mem hs
  exact ⟨l, s, r, hslots, hnode, hst, hd.has_eq_false hslots hst⟩

theorem nodes_of_slots {l r : List Slot} {s : Slot} (h : w.slots = l ++ s :: r) :
    w.nodes = l.map (·.node) ++ s.node :: r.map (·.node) := by
  rw [nodes, h, List.map_append, List.map_cons]

theorem mem_nodes_of_get? (h : w.get? t = some n) : n ∈ w.nodes := by
  obtain ⟨s, hs, -, rfl⟩ := exists_of_get? h
  exact List.mem_map.mpr ⟨s, hs, rfl⟩

@[simp]
theorem nodes_push (w : Work) (m : Node) : (w.push m).nodes = w.nodes ++ [m] := by
  simp [nodes, push]

theorem Distinct.nodes_modify (hd : w.Distinct) (hget : w.get? t = some n) (f : Node → Node) :
    ∃ l r, w.nodes = l ++ n :: r ∧ (w.modify t f).nodes = l ++ f n :: r := by
  obtain ⟨l, s, r, hslots, rfl, hst, hl, hr⟩ := hd.exists_split hget
  have hsame : ∀ xs : List Slot, (∀ x ∈ xs, x.has t = false) →
      xs.map (fun s => if s.has t then { s with node := f s.node } else s) = xs := by
    intro xs hxs
    rw [List.map_congr_left (g := id) fun x hx => by simp [hxs x hx], List.map_id]
  have hmodified : (w.modify t f).slots = l ++ { s with node := f s.node } :: r := by
    rw [Work.modify, hslots, List.map_append, List.map_cons, hsame l hl, hsame r hr, if_pos hst]
  exact ⟨_, _, nodes_of_slots hslots, nodes_of_slots hmodified⟩

theorem Distinct.nodes_remove (hd : w.Distinct) (hgo : w.stopped = false)
    (hget : w.get? t = some n) :
    ∃ l r, w.nodes = l ++ n :: r ∧ (w.remove t).nodes = l ++ r := by
  obtain ⟨l, s, r, hslots, rfl, hst, hl, hr⟩ := hd.exists_split hget
  have hsame : ∀ xs : List Slot, (∀ x ∈ xs, x.has t = false) → xs.filter (!·.has t) = xs :=
    fun xs hxs => List.filter_eq_self.mpr fun x hx => by simp [hxs x hx]
  have hremoved : (w.remove t).slots = l ++ r := by
    simp only [Work.remove, hgo, hget, Bool.false_eq_true, if_false]
    rw [hslots, List.filter_append, List.filter_cons_of_neg (by simp [hst]), hsame l hl, hsame r hr]
  refine ⟨_, _, nodes_of_slots hslots, ?_⟩
  rw [nodes, hremoved, List.map_append]

theorem Distinct.slots_insertBefore (hd : w.Distinct) (hgo : w.stopped = false) {l r : List Slot}
    {s : Slot} (hslots : w.slots = l ++ s :: r) (hst : s.has t = true) (m : Node) :
    (w.insertBefore t m).slots = l ++ ⟨none, m⟩ :: s :: r := by
  have hcontains : w.contains t = true :=
    contains_iff.mpr (mem_tickets.mpr ⟨s, by simp [hslots], hst⟩)
  obtain ⟨hl, hr⟩ := hd.has_eq_false hslots hst
  have hsame : ∀ xs : List Slot, (∀ x ∈ xs, x.has t = false) →
      xs.flatMap (fun s => if s.has t then [⟨none, m⟩, s] else [s]) = xs := by
    intro xs hxs
    rw [List.flatMap_congr (g := fun s => [s]) fun x hx => by simp [hxs x hx]]
    exact List.flatMap_singleton' xs
  simp only [insertBefore, hgo, hcontains, Bool.false_eq_true, if_false, if_true]
  rw [hslots, List.flatMap_append, List.flatMap_cons, hsame l hl, hsame r hr, if_pos hst]
  rfl

theorem Distinct.nodes_insertBefore (hd : w.Distinct) (hgo : w.stopped = false)
    (hget : w.get? t = some n) (m : Node) :
    ∃ l r, w.nodes = l ++ n :: r ∧ (w.insertBefore t m).nodes = l ++ m :: n :: r := by
  obtain ⟨l, s, r, hslots, rfl, hst, -, -⟩ := hd.exists_split hget
  exact ⟨_, _, nodes_of_slots hslots, nodes_of_slots (hd.slots_insertBefore hgo hslots hst m)⟩

/-- One child is changed and another one goes away; the others stay. -/
theorem Distinct.nodes_move (hd : w.Distinct) (hgo : w.stopped = false) {k : Nat} {m : Node}
    (hk : k ≠ t) (hget : w.get? t = some n) (hgone : w.get? k = some m) (f : Node → Node) :
    ∃ rest, w.nodes.Perm (n :: m :: rest) ∧
      ((w.modify t f).remove k).nodes.Perm (f n :: rest) := by
  have hswap : ((w.modify t f).remove k).nodes = ((w.remove k).modify t f).nodes := by
    have hfound : (w.modify t f).get? k = some m := (get?_modify_ne hk).trans hgone
    have hhas : ((!Slot.has k ·) ∘ fun s : Slot =>
        if s.has t then { s with node := f s.node } else s) = (!Slot.has k ·) := by
      funext s
      simp only [Function.comp]
      split <;> rfl
    simp only [Work.remove, stopped_modify, hgo, hfound, hgone, Bool.false_eq_true, if_false]
    simp only [nodes, Work.modify, List.filter_map, hhas]
  obtain ⟨l, r, hw, hremoved⟩ := hd.nodes_remove hgo hgone
  obtain ⟨l', r', hw', hmodified⟩ :=
    (hd.remove k).nodes_modify ((get?_remove_ne hk.symm).trans hget) f
  refine ⟨l' ++ r', ?_, ?_⟩
  · calc w.nodes = l ++ m :: r := hw
      _ |>.Perm (m :: (l ++ r)) := List.perm_middle
      _ = m :: (l' ++ n :: r') := by rw [← hremoved, hw']
      _ |>.Perm (m :: n :: (l' ++ r')) := List.perm_middle.cons m
      _ |>.Perm (n :: m :: (l' ++ r')) := List.Perm.swap n m _
  · rw [hswap, hmodified]
    exact List.perm_middle

/-! ### Keeping what the children say -/

/-- The children are still distinct and styled, and say the same. -/
structure Keeps (ok : Text → Prop) (w w' : Work) : Prop where
  distinct : w'.Distinct
  styled : w'.Styled ok
  same : ∀ sc x, w'.Says sc x ↔ w.Says sc x

theorem Keeps.refl (hd : w.Distinct) (hs : w.Styled ok) : Keeps ok w w :=
  ⟨hd, hs, fun _ _ => Iff.rfl⟩

theorem Keeps.trans {w' w'' : Work} (h : Keeps ok w w') (h' : Keeps ok w' w'') : Keeps ok w w'' :=
  ⟨h'.distinct, h'.styled, fun sc x => (h'.same sc x).trans (h.same sc x)⟩

/-- Only the children count, not the run they are part of. -/
theorem Keeps.of_slots {w' w'' : Work} (h : Keeps ok w w') (hslots : w''.slots = w'.slots) :
    Keeps ok w w'' := by
  obtain ⟨slots, p⟩ := w''
  cases hslots
  exact ⟨h.distinct, h.styled, h.same⟩

theorem Keeps.finish {p : Progress} {ns : List Node} {w' : Work} (h : Keeps ok (start p ns) w') :
    SameSiblings ok ns w'.finish.1 := by
  refine ⟨styled_iff_nodes.mp h.styled, fun sc x => ?_⟩
  rw [Work.finish, ← says_iff_mem_nodes, h.same, says_start]

end Work

end StyleNesting
