/-
  StyleNesting/Proofs/Skeleton.lean
  =================================
  **The at-rules of a stylesheet keep their places.**  The skeleton of a
  stylesheet are the nodes that are no rules: those at its top, and those of the
  at-rules that are reached from the top through at-rules only.  Edits touch
  rules, and put new ones in front of rules or at the end, so every group of
  siblings of the skeleton keeps its other nodes in their order, and never fewer
  of them stand in front of its first rule.  An import or a charset at the head
  of a stylesheet stays at its head (`nest_skeleton`).

  A place of the skeleton is named by a path.  Each number counts among the
  siblings that are no rules, so rules that come and go do not change the names
  of places.
-/
import StyleNesting.Proofs.Edits

namespace StyleNesting

open Node

namespace Skeleton

def others (ns : List Node) : List Node := ns.filter (!·.isRule)

/-- How many nodes stand in front of the first rule. -/
def lead : List Node → Nat
  | [] => 0
  | n :: ns => if n.isRule then 0 else lead ns + 1

/-- A node as its siblings see it: an at-rule without its content, any other node whole. -/
def face : Node → Node
  | .block o (.atRule name params hasBlock) _ => .block o (.atRule name params hasBlock) []
  | n => n

/-- The siblings at a path through at-rules. -/
def reach : List Nat → List Node → Option (List Node)
  | [], ns => some ns
  | i :: path, ns =>
    match (others ns)[i]? with
    | some (.block _ (.atRule _ _ _) ms) => reach path ms
    | _ => none

/-- The nodes that are no rules are the same, in the same order, and at least as many
    of them stand in front. -/
structure SameFront (ns ms : List Node) : Prop where
  faces : (others ms).map face = (others ns).map face
  lead_le : lead ns ≤ lead ms

/-- Whatever place of the skeleton there was is still there, with the same front. -/
def Same (ns ms : List Node) : Prop :=
  ∀ path ks, reach path ns = some ks → ∃ ks', reach path ms = some ks' ∧ SameFront ks ks'

/-! ### Siblings -/

section Siblings

variable {l r ns ms : List Node} {n n' : Node}

theorem SameFront.refl (ns : List Node) : SameFront ns ns := ⟨rfl, Nat.le_refl _⟩

theorem SameFront.trans {ks : List Node} (h : SameFront ns ms) (h' : SameFront ms ks) :
    SameFront ns ks := ⟨h'.faces.trans h.faces, h.lead_le.trans h'.lead_le⟩

theorem others_append_rule (hn : n.isRule = true) : others (l ++ n :: r) = others (l ++ r) := by
  simp [others, hn]

theorem others_append_other (hn : n.isRule = false) :
    others (l ++ n :: r) = others l ++ n :: others r := by
  simp [others, hn]

theorem lead_append_of_rule (hr : ∀ m ∈ r.head?, m.isRule = true) : lead (l ++ r) = lead l := by
  induction l with
  | nil =>
    cases r with
    | nil => rfl
    | cons m r => simp [lead, hr m rfl]
  | cons k l ih => simp only [List.cons_append, lead, ih]

theorem lead_le_append : lead l ≤ lead (l ++ r) := by
  induction l with
  | nil => exact Nat.zero_le _
  | cons k l ih =>
    simp only [List.cons_append, lead]
    by_cases hk : k.isRule = true
    · rw [if_pos hk, if_pos hk]
    · rw [if_neg hk, if_neg hk]
      omega

theorem lead_congr (h : n'.isRule = n.isRule) : lead (l ++ n' :: r) = lead (l ++ n :: r) := by
  induction l with
  | nil => simp only [List.nil_append, lead, h]
  | cons k l ih => simp only [List.cons_append, lead, ih]

theorem others_of_edited (h : Edited ns ms) : others ms = others ns := by
  induction h with
  | start => rfl
  | insert _ hn _ _ ih => rw [others_append_rule hn, ih]
  | remove _ hn ih => rw [← ih, others_append_rule hn]
  | change _ hn hn' _ ih => rw [← ih, others_append_rule hn, others_append_rule hn']

theorem lead_of_edited (h : Edited ns ms) : lead ns ≤ lead ms := by
  induction h with
  | start => exact Nat.le_refl _
  | @insert l r n _ hn hr _ ih =>
    -- the new rule stands in front of a rule or of nothing, so it ends the same lead
    rw [lead_append_of_rule hr] at ih
    rwa [lead_append_of_rule (by simpa using hn)]
  | @remove l r n _ hn ih =>
    rw [lead_append_of_rule (by simpa using hn)] at ih
    exact ih.trans lead_le_append
  | change _ hn hn' _ ih => rwa [lead_congr (hn'.trans hn.symm)]

end Siblings

/-! ### Trees -/

section Trees

variable {l r ns ms : List Node} {n : Node}

theorem Same.trans {ks : List Node} (h : Same ns ms) (h' : Same ms ks) : Same ns ks := by
  intro path js hjs
  obtain ⟨js', hjs', hfront⟩ := h path js hjs
  obtain ⟨js'', hjs'', hfront'⟩ := h' path js' hjs'
  exact ⟨js'', hjs'', hfront.trans hfront'⟩

/-- Only the nodes that are no rules are looked into. -/
theorem same_of_others (h : others ms = others ns) (hlead : lead ns ≤ lead ms) : Same ns ms := by
  intro path ks hks
  cases path with
  | nil =>
    cases hks
    exact ⟨ms, rfl, by rw [h], hlead⟩
  | cons i path =>
    refine ⟨ks, ?_, SameFront.refl ks⟩
    rwa [reach, h, ← reach]

/-- Work inside of an at-rule stays inside of it. -/
theorem same_inside_atRule {o : Origin} {name params : Text} {hasBlock : Bool} (h : Same ns ms) :
    Same (l ++ .block o (.atRule name params hasBlock) ns :: r)
      (l ++ .block o (.atRule name params hasBlock) ms :: r) := by
  intro path ks hks
  cases path with
  | nil =>
    cases hks
    refine ⟨_, rfl, ?_, Nat.le_of_eq (lead_congr rfl)⟩
    rw [others_append_other rfl, others_append_other rfl, List.map_append, List.map_append]
    rfl
  | cons i path =>
    rw [reach, others_append_other rfl] at hks
    rw [reach, others_append_other rfl]
    rcases Nat.lt_trichotomy i (others l).length with hlt | heq | hgt
    · rw [List.getElem?_append_left hlt] at hks ⊢
      exact ⟨ks, hks, SameFront.refl ks⟩
    · rw [heq, List.getElem?_append_right (Nat.le_refl _), Nat.sub_self] at hks ⊢
      exact h path ks hks
    · obtain ⟨j, hj⟩ : ∃ j, i - (others l).length = j + 1 :=
        ⟨i - (others l).length - 1, by omega⟩
      rw [List.getElem?_append_right (Nat.le_of_lt hgt), hj, List.getElem?_cons_succ] at hks ⊢
      exact ⟨ks, hks, SameFront.refl ks⟩

theorem stable_same : Stable Same := by
  refine ⟨fun h => same_of_others (others_of_edited h) (lead_of_edited h), Same.trans, ?_⟩
  intro l r n ms hn hms
  match n, hn with
  | .block o (.rule s) ns, _ =>
    have hbefore : others (l ++ .block o (.rule s) ns :: r) = others (l ++ r) :=
      others_append_rule rfl
    have hafter : others (l ++ .block o (.rule s) ms :: r) = others (l ++ r) :=
      others_append_rule rfl
    exact same_of_others (hafter.trans hbefore.symm) (Nat.le_of_eq (lead_congr rfl))
  | .block o (.atRule name params hasBlock) ns, _ => exact same_inside_atRule hms

end Trees

/-- **A run leaves the skeleton of a stylesheet alone.**  It comes to its end, and the top
    is what it was; at every place that is reached through at-rules, the nodes that are
    no rules are the same as before, in the same order, at-rules up to their content, and
    at least as many of them stand in front of all rules. -/
theorem nest_skeleton (options : Options) (origin : Origin) (ns : List Node) :
    (nest options Factory.clone (.block origin .sheet ns)).2.failure = none ∧
      ∃ ns', (nest options Factory.clone (.block origin .sheet ns)).1 = .block origin .sheet ns' ∧
        ∀ path ms, reach path ns = some ms → ∃ ms', reach path ns' = some ms' ∧
          (others ms').map face = (others ms).map face ∧ lead ms ≤ lead ms' := by
  obtain ⟨hset, hsame⟩ :=
    stable_same.nest (f := Factory.clone) rfl options (.block origin .sheet ns)
  refine ⟨failure_nest Factory.clone_obliging options _, _, hset, fun path ms hms => ?_⟩
  obtain ⟨ms', hms', hfront⟩ := hsame path ms hms
  exact ⟨ms', hms', hfront.faces, hfront.lead_le⟩

/-- The sheet `@i x;a b{c:r}@m p{@n q;a b{c:r}a{c:r}}`, with an at-rule that starts with
    a statement. -/
def statementSheet : Text :=
  ['@', 'i', ' ', 'x', ';', 'a', ' ', 'b', '{', 'c', ':', 'r', '}', '@', 'm', ' ', 'p', '{',
   '@', 'n', ' ', 'q', ';', 'a', ' ', 'b', '{', 'c', ':', 'r', '}', 'a', '{', 'c', ':', 'r', '}',
   '}']

/-- The second node of the sheet that is no rule: its statement stays in front. -/
theorem nest_skeleton_statementSheet :
    ∃ origin ns ms, Source.parse statementSheet = .ok (.block origin .sheet ns) ∧
      reach [1] ns = some ms ∧ lead ms = 1 ∧
      ∃ ns' ms', (nest {} Factory.clone (.block origin .sheet ns)).1 = .block origin .sheet ns' ∧
        reach [1] ns' = some ms' ∧ (others ms').map face = (others ms).map face ∧
        lead ms ≤ lead ms' := by
  have hsheet : ∃ origin ns ms, Source.parse statementSheet = .ok (.block origin .sheet ns) ∧
      reach [1] ns = some ms ∧ lead ms = 1 := ⟨_, _, _, rfl, rfl, rfl⟩
  obtain ⟨origin, ns, ms, hparse, hreach, hlead⟩ := hsheet
  obtain ⟨ns', heq, hsame⟩ := (nest_skeleton {} origin ns).2
  obtain ⟨ms', hms', hfront⟩ := hsame [1] ms hreach
  exact ⟨origin, ns, ms, hparse, hreach, hlead, ns', ms', heq, hms', hfront⟩

end Skeleton

end StyleNesting
