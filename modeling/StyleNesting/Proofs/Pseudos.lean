/-
  StyleNesting/Proofs/Pseudos.lean
  ================================
  **What pseudo nesting adds.**  A rule `a:hover` that goes into a rule with the
  parts `a` and `b` is read as `a:hover` and as `b:hover` there.  The first is
  what it said before; the second is new, unless something else said it.

  Every move of a rule is noted down with the rule that takes it in
  (`Move`), and what the moved rule is read as for the other parts of that rule
  is its *spread*.  What the siblings say after all moves is what they said
  before and the spread of the moves (`level_rework`): nothing is lost, and
  nothing is added where rules with one part take others in.
-/
import StyleNesting.Pass.Pseudos
import StyleNesting.Proofs.Parts
import StyleNesting.Proofs.Siblings

namespace StyleNesting

open Node

/-! ### Parts with a suffix -/

namespace Selector

theorem after?_eq_some {base t u : Text} (h : after? base t = some u) : t = base ++ u := by
  induction base generalizing t with
  | nil => exact Option.some.inj h
  | cons b base ih =>
    cases t with
    | nil => cases h
    | cons c t =>
      rw [after?] at h
      split at h
      · rename_i hbc
        rw [beq_iff_eq.mp hbc, ih h]
        rfl
      · cases h

theorem after?_append (base u : Text) : after? base (base ++ u) = some u := by
  induction base with
  | nil => rfl
  | cons b base ih => simp [after?, ih]

/-- A pseudo part is its base with a pseudo suffix. -/
theorem isPseudoOf_iff {base p : Text} :
    isPseudoOf base p = true ↔ base ≠ [] ∧ ∃ u, isPseudoSuffix u = true ∧ p = base ++ u := by
  rw [isPseudoOf, Bool.and_eq_true, Bool.not_eq_true', List.isEmpty_eq_false_iff]
  refine and_congr_right fun _ => ?_
  constructor
  · intro hafter
    split at hafter
    · rename_i u hu
      exact ⟨u, hafter, after?_eq_some hu⟩
    · cases hafter
  · rintro ⟨u, hu, rfl⟩
    rwa [after?_append]

theorem eq_append_of_isPseudoOf {base p : Text} (h : isPseudoOf base p = true) :
    base ≠ [] ∧ ∃ u, u ≠ [] ∧ p = base ++ u := by
  obtain ⟨hne, u, hu, hp⟩ := isPseudoOf_iff.mp h
  refine ⟨hne, u, ?_, hp⟩
  rintro rfl
  cases hu

/-- An atom that starts with an ampersand or has none. -/
structure Clean (p : Text) : Prop where
  atom : Atom p
  ampersand : '&' ∉ p.tail

theorem Clean.suffix {base u : Text} (hbase : Clean base) (hu : u ≠ []) (h : Clean (base ++ u)) :
    Clean ('&' :: u) ∧ '&' ∉ u := by
  have hstep : Scan.start.step '&' = Scan.start := by decide
  have hrun : Scan.start.run base = Scan.start := balanced_iff.mp hbase.atom.closed
  have hamp : '&' ∉ u := by
    have htail := h.ampersand
    rw [List.tail_append_of_ne_nil hbase.atom.nonempty, List.mem_append, not_or] at htail
    exact htail.2
  refine ⟨⟨⟨by simp, ⟨?_, ?_⟩, ?_, ?_⟩, hamp⟩, hamp⟩
  · intro c hc
    cases hc
    decide
  · intro c hc
    refine h.atom.trimmed.last c ?_
    rw [List.getLast?_append_of_ne_nil _ hu]
    rwa [← List.singleton_append, List.getLast?_append_of_ne_nil _ hu] at hc
  · have hwhole := h.atom.whole
    rw [unbroken_append, hrun, Bool.and_eq_true] at hwhole
    simp only [unbroken, hstep, hwhole.2, Bool.and_true]
    decide
  · have hclosed := h.atom.closed
    rw [balanced_append hbase.atom.closed] at hclosed
    rw [balanced_iff, Scan.run_cons, hstep]
    exact balanced_iff.mp hclosed

end Selector

namespace Pseudos

open Selector

/-! ### Rules inside their base -/

section Relative

variable {c : Candidate} {part : Text}

theorem exists_suffix (hext : c.extendsPart part = true) {p : Text} (hp : p ∈ c.parts) :
    ∃ u, u ≠ [] ∧ p = part ++ u ∧ p.drop part.length = u := by
  rw [Candidate.extendsPart, Bool.and_eq_true, List.all_eq_true] at hext
  obtain ⟨-, u, hu, rfl⟩ := eq_append_of_isPseudoOf (hext.2 p hp)
  exact ⟨u, hu, rfl, by simp⟩

variable (hext : c.extendsPart part = true) (hpart : Clean part) (hclean : ∀ p ∈ c.parts, Clean p)
include hext hpart hclean

theorem clean_relative {q : Text} (hq : q ∈ c.parts.map fun p => '&' :: p.drop part.length) :
    Clean q := by
  obtain ⟨p, hp, rfl⟩ := List.mem_map.mp hq
  obtain ⟨u, hu, rfl, hdrop⟩ := exists_suffix hext hp
  rw [hdrop]
  exact (hpart.suffix hu (hclean _ hp)).1

theorem parts_relativeSelector :
    parts (c.relativeSelector part) = c.parts.map fun p => '&' :: p.drop part.length :=
  parts_join fun _ hq => (clean_relative hext hpart hclean hq).atom

/-- A moved rule is read with its suffixes after the selector around it. -/
theorem mem_styles_relative {o : Origin} {ns : List Node} {context : List (Text × Text)} {P : Text}
    {x : Applied} :
    x ∈ (Node.block o (.rule (c.relativeSelector part)) ns).styles (Scope.below context P) ↔
      ∃ p ∈ c.parts, x ∈ stylesAll (Scope.below context (P ++ p.drop part.length)) ns := by
  have hresolve : ∀ p ∈ c.parts, (Scope.below context P).ofPart ('&' :: p.drop part.length) =
      [P ++ p.drop part.length] := by
    intro p hp
    obtain ⟨u, hu, rfl, hdrop⟩ := exists_suffix hext hp
    rw [hdrop, Scope.ofPart_below,
      resolve_ampersand_cons (hpart.suffix hu (hclean _ hp)).2]
  rw [mem_styles_rule, parts_relativeSelector hext hpart hclean]
  constructor
  · rintro ⟨q, hq, Q, hQ, hx⟩
    obtain ⟨p, hp, rfl⟩ := List.mem_map.mp hq
    rw [hresolve p hp, List.mem_singleton] at hQ
    exact ⟨p, hp, hQ ▸ hx⟩
  · rintro ⟨p, hp, hx⟩
    exact ⟨_, List.mem_map_of_mem hp, P ++ p.drop part.length, by simp [hresolve p hp], hx⟩

/-- For the part it extends, a moved rule is read as it was before. -/
theorem mem_styles_iff_suffix {n : Node} (hn : n.isRule = true) (hparts : n.parts = c.parts)
    {sc : Scope} {x : Applied} :
    x ∈ n.styles sc ↔ ∃ P ∈ sc.ofPart part, ∃ p ∈ c.parts,
      x ∈ stylesAll (Scope.below sc.context (P ++ p.drop part.length)) n.nodes := by
  have hofPart : ∀ p ∈ c.parts,
      sc.ofPart p = (sc.ofPart part).map (· ++ p.drop part.length) := by
    intro p hp
    obtain ⟨u, hu, rfl, hdrop⟩ := exists_suffix hext hp
    rw [hdrop, Scope.ofPart_append sc part (hpart.suffix hu (hclean _ hp)).2]
  rw [mem_styles_of_isRule hn, hparts]
  constructor
  · rintro ⟨p, hp, Q, hQ, hx⟩
    rw [hofPart p hp] at hQ
    obtain ⟨P, hP, rfl⟩ := List.mem_map.mp hQ
    exact ⟨P, hP, p, hp, hx⟩
  · rintro ⟨P, hP, p, hp, hx⟩
    refine ⟨p, hp, P ++ p.drop part.length, ?_, hx⟩
    rw [hofPart p hp]
    exact List.mem_map_of_mem hP

end Relative

/-! ### Moves -/

/-- A rule that went into another one. -/
structure Move where
  /-- Where the two rules stood. -/
  scope : Scope
  /-- The rule that took the other one in. -/
  base : Node
  /-- The part of it that the other one extends. -/
  part : Text
  /-- The rule that was moved. -/
  moved : Node

/-- What a moved rule is read as for the other parts of its base. -/
def Move.spread (m : Move) : List Applied :=
  (m.base.parts.filter (· ≠ m.part)).flatMap fun q =>
    (m.scope.ofPart q).flatMap fun P =>
      m.moved.parts.flatMap fun p =>
        stylesAll (Scope.below m.scope.context (P ++ p.drop m.part.length)) m.moved.nodes

theorem Move.spread_of_single {m : Move} (h : m.base.parts = [m.part]) : m.spread = [] := by
  simp [Move.spread, h]

theorem Move.mem_spread {m : Move} {x : Applied} :
    x ∈ m.spread ↔ ∃ q ∈ m.base.parts, q ≠ m.part ∧ ∃ P ∈ m.scope.ofPart q, ∃ p ∈ m.moved.parts,
      x ∈ stylesAll (Scope.below m.scope.context (P ++ p.drop m.part.length)) m.moved.nodes := by
  simp [Move.spread, and_assoc]

/-- The move that `absorb` makes, if it makes one. -/
def absorbMoves (f : Factory) (sc : Scope) (b : Nat) (part : Text) (w : Work) (c : Candidate) :
    List Move :=
  if w.stopped || c.ticket == b || !c.extendsPart part then []
  else
    match w.get? b, w.get? c.ticket with
    | some base, some candidate =>
      if (w.progress.newRule f candidate (c.relativeSelector part)).1.isSome then
        [⟨sc, base, part, candidate⟩]
      else []
    | _, _ => []

def absorbAllMoves (f : Factory) (cs : List Candidate) (sc : Scope) (w : Work) (base : Candidate) :
    List Move :=
  if w.contains base.ticket then
    foldNotes (fun w part => cs.foldl (absorb f base.ticket part) w)
      (fun w part =>
        foldNotes (absorb f base.ticket part) (absorbMoves f sc base.ticket part) w cs)
      w base.parts
  else []

/-- The moves among the children of a block. -/
def levelMoves (f : Factory) (sc : Scope) (p : Progress) (ns : List Node) : List Move :=
  let w := Work.start p ns
  let cs := candidates w
  foldNotes (absorbAll f cs) (absorbAllMoves f cs sc) w cs

/-- A ticket that is still there stands for the rule it was handed out to, with
    the parts this rule had then. -/
structure Tracked (cs : List Candidate) (w : Work) : Prop where
  distinct : w.Distinct
  known : ∀ c ∈ cs, ∀ n, w.get? c.ticket = some n → n.isRule = true ∧ n.parts = c.parts

/-- Siblings among which rules can be moved. -/
structure Ready (cs : List Candidate) (w : Work) : Prop extends Tracked cs w where
  styled : w.Styled (AllParts Clean)

theorem Tracked.of_slots {cs : List Candidate} {w w' : Work} (h : Tracked cs w)
    (hslots : w'.slots = w.slots) : Tracked cs w' := by
  obtain ⟨slots, p⟩ := w'
  cases hslots
  exact ⟨h.distinct, h.known⟩

theorem Ready.of_slots {cs : List Candidate} {w w' : Work} (h : Ready cs w)
    (hslots : w'.slots = w.slots) : Ready cs w' := by
  refine ⟨h.toTracked.of_slots hslots, ?_⟩
  rw [Work.Styled, hslots]
  exact h.styled

variable {cs : List Candidate} {w : Work} {b c : Candidate} {part : Text} {base moved : Node}

def nested (o : Origin) (c : Candidate) (part : Text) (moved : Node) : Node :=
  .block o (.rule (c.relativeSelector part)) (copyAll moved.nodes)

/-- A rule with another one inside says what both said, and the spread. -/
theorem mem_styles_absorbed (hext : c.extendsPart part = true) (hpart : Clean part)
    (hclean : ∀ p ∈ c.parts, Clean p) (hbase : base.isRule = true) (hmem : part ∈ base.parts)
    (hmoved : moved.isRule = true) (hparts : moved.parts = c.parts) (o : Origin) (sc : Scope)
    (x : Applied) :
    x ∈ (base.append [nested o c part moved]).styles sc ↔
      x ∈ base.styles sc ∨ x ∈ moved.styles sc ∨ x ∈ (Move.mk sc base part moved).spread := by
  rw [mem_styles_append hbase, mem_styles_iff_suffix hext hpart hclean hmoved hparts,
    Move.mem_spread, hparts]
  simp only [nested, stylesAll, List.append_nil, mem_styles_relative hext hpart hclean,
    stylesAll_copyAll]
  refine or_congr_right ?_
  constructor
  · rintro ⟨q, hq, hx⟩
    by_cases hqp : q = part
    · exact Or.inl (hqp ▸ hx)
    · exact Or.inr ⟨q, hq, hqp, hx⟩
  · rintro (hx | ⟨q, hq, -, hx⟩)
    · exact ⟨part, hmem, hx⟩
    · exact ⟨q, hq, hx⟩

/-- The moved rule is found, and then gone. -/
theorem move_tracked (hw : Tracked cs w) (hgo : w.stopped = false) (hne : c.ticket ≠ b.ticket)
    (hbase : w.get? b.ticket = some base) (hmoved : w.get? c.ticket = some moved) (m : Node) :
    Tracked cs ((w.modify b.ticket (Node.append [m])).remove c.ticket) := by
  refine ⟨(hw.distinct.modify _ _).remove _, fun k hk n hn => ?_⟩
  by_cases hkc : k.ticket = c.ticket
  · have hfound := (Work.get?_modify_ne (f := Node.append [m]) hne).trans hmoved
    have hmem := Work.mem_tickets_of_get? hn
    rw [Work.tickets_remove ((Work.stopped_modify ..).trans hgo) hfound, hkc] at hmem
    simp at hmem
  · rw [Work.get?_remove_ne hkc] at hn
    by_cases hkb : k.ticket = b.ticket
    · rw [hkb, Work.get?_modify hbase, Option.some.injEq] at hn
      rw [← hn, append_eq_setNodes, isRule_setNodes, parts_setNodes]
      exact hw.known k hk base (hkb ▸ hbase)
    · rw [Work.get?_modify_ne hkb] at hn
      exact hw.known k hk n hn

section Moving

variable (hw : Ready cs w) (hgo : w.stopped = false) (hb : b ∈ cs) (hpart : part ∈ b.parts)
  (hc : c ∈ cs) (hne : c.ticket ≠ b.ticket) (hext : c.extendsPart part = true)
  (hbase : w.get? b.ticket = some base) (hmoved : w.get? c.ticket = some moved)
include hw hgo hb hpart hc hne hext hbase hmoved

theorem move_ready (o : Origin) :
    Ready cs ((w.modify b.ticket (Node.append [nested o c part moved])).remove c.ticket) := by
  obtain ⟨-, hbparts⟩ := hw.known b hb base hbase
  obtain ⟨-, hcparts⟩ := hw.known c hc moved hmoved
  have hcleanPart : Clean part := (hw.styled.get? hbase).good_of_mem_parts (hbparts ▸ hpart)
  have hclean : ∀ q ∈ c.parts, Clean q :=
    fun q hq => (hw.styled.get? hmoved).good_of_mem_parts (hcparts ▸ hq)
  have hnested : (nested o c part moved).Styled (AllParts Clean) := by
    refine styled_rule.mpr ⟨fun q hq => ?_, styled_copyAll (hw.styled.get? hmoved).nodes⟩
    rw [parts_relativeSelector hext hcleanPart hclean] at hq
    exact clean_relative hext hcleanPart hclean hq
  refine ⟨move_tracked hw.toTracked hgo hne hbase hmoved _, ?_⟩
  refine (hw.styled.modify fun s hs _ => (hw.styled s hs).append fun m hm => ?_).remove _
  exact List.mem_singleton.mp hm ▸ hnested

theorem says_move (o : Origin) (sc : Scope) (x : Applied) :
    ((w.modify b.ticket (Node.append [nested o c part moved])).remove c.ticket).Says sc x ↔
      w.Says sc x ∨ x ∈ (Move.mk sc base part moved).spread := by
  obtain ⟨hbrule, hbparts⟩ := hw.known b hb base hbase
  obtain ⟨hcrule, hcparts⟩ := hw.known c hc moved hmoved
  have hcleanPart : Clean part := (hw.styled.get? hbase).good_of_mem_parts (hbparts ▸ hpart)
  have hclean : ∀ q ∈ c.parts, Clean q :=
    fun q hq => (hw.styled.get? hmoved).good_of_mem_parts (hcparts ▸ hq)
  have hfound := (Work.get?_modify_ne (f := Node.append [nested o c part moved]) hne).trans hmoved
  have hapart : b.ticket ∉ [c.ticket] := by simpa using hne.symm
  -- both sides: the base, the moved rule, and the siblings other than the two
  rw [Work.says_remove ((Work.stopped_modify ..).trans hgo) hfound,
    Work.saysWithout_iff_of_get? (hw.distinct.modify _ _) (Work.get?_modify hbase) hapart,
    Work.saysWithout_modify,
    Work.says_iff_of_get? hw.distinct hmoved,
    Work.saysWithout_iff_of_get? hw.distinct hbase hapart,
    mem_styles_absorbed hext hcleanPart hclean hbrule (hbparts ▸ hpart) hcrule hcparts o]
  tauto

end Moving

/-- A rule is moved in full or not at all. -/
theorem absorb_slots (f : Factory) (t : Nat) (part : Text) (w : Work) (c : Candidate) :
    ((absorb f t part w c).slots = w.slots ∧ ∀ sc, absorbMoves f sc t part w c = []) ∨
      ∃ o p base moved, c.ticket ≠ t ∧ c.extendsPart part = true ∧ w.get? t = some base ∧
        w.get? c.ticket = some moved ∧
        w.progress.newRule f moved (c.relativeSelector part) =
          (some (.block o (.rule (c.relativeSelector part)) []), p) ∧ p.stopped = false ∧
        (absorb f t part w c).slots = ((Work.modify ⟨w.slots, p⟩ t
          (Node.append [nested o c part moved])).remove c.ticket).slots ∧
        ∀ sc, absorbMoves f sc t part w c = [⟨sc, base, part, moved⟩] := by
  cases hguard : w.stopped || c.ticket == t || !c.extendsPart part with
  | true => exact Or.inl (by simp [absorb, absorbMoves, hguard])
  | false =>
    simp only [absorb, absorbMoves, hguard, Bool.false_eq_true, if_false]
    simp only [Bool.or_eq_false_iff, beq_eq_false_iff_ne, Bool.not_eq_false'] at hguard
    obtain ⟨⟨-, hne⟩, hext⟩ := hguard
    cases hbase : w.get? t with
    | none => exact Or.inl ⟨rfl, fun _ => rfl⟩
    | some base =>
      cases hmoved : w.get? c.ticket with
      | none => exact Or.inl ⟨rfl, fun _ => rfl⟩
      | some moved =>
        rcases hnew : w.progress.newRule f moved (c.relativeSelector part) with ⟨_ | n, p⟩
        · exact Or.inl ⟨by simp [hnew], by simp [hnew]⟩
        · obtain ⟨⟨o, rfl⟩, -, hgo⟩ := Progress.eq_of_newRule_some hnew
          refine Or.inr ⟨o, p, base, moved, hne, hext, rfl, rfl, hnew, hgo, ?_, by simp [hnew]⟩
          simp only [hnew]
          rfl

/-- **Moving one rule** adds its spread and loses nothing. -/
theorem absorb_moves (f : Factory) (hw : Ready cs w) (hb : b ∈ cs) (hpart : part ∈ b.parts)
    (hc : c ∈ cs) :
    Ready cs (absorb f b.ticket part w c) ∧ ∀ sc x, (absorb f b.ticket part w c).Says sc x ↔
      w.Says sc x ∨ ∃ m ∈ absorbMoves f sc b.ticket part w c, x ∈ m.spread := by
  rcases absorb_slots f b.ticket part w c with
    ⟨hslots, hmoves⟩ | ⟨o, p, base, moved, hne, hext, hbase, hmoved, -, hgo, hslots, hmoves⟩
  · refine ⟨hw.of_slots hslots, fun sc x => ?_⟩
    rw [hmoves, Work.says_iff, hslots, Work.says_iff]
    simp
  · -- the factory's answer changes the run and not the siblings
    have hw' : Ready cs ⟨w.slots, p⟩ := hw.of_slots rfl
    refine ⟨(move_ready hw' hgo hb hpart hc hne hext hbase hmoved o).of_slots hslots,
      fun sc x => ?_⟩
    have hsame := says_move hw' hgo hb hpart hc hne hext hbase hmoved o sc x
    rw [hmoves, Work.says_iff, hslots, ← Work.says_iff, hsame]
    simp [Work.says_iff]

/-! ### Going on -/

theorem absorb_tracked (f : Factory) (hw : Tracked cs w) (part : Text) (c : Candidate) :
    Tracked cs (absorb f b.ticket part w c) := by
  rcases absorb_slots f b.ticket part w c with
    ⟨hslots, -⟩ | ⟨o, p, base, moved, hne, -, hbase, hmoved, -, hgo, hslots, -⟩
  · exact hw.of_slots hslots
  · have hw' : Tracked cs ⟨w.slots, p⟩ := hw.of_slots rfl
    exact (move_tracked hw' hgo hne hbase hmoved _).of_slots hslots

/-- Either nothing happens, or one of the rules goes into another one. -/
theorem absorb_nodes (f : Factory) (hw : Tracked cs w) (hb : b ∈ cs) (hc : c ∈ cs) (part : Text) :
    (absorb f b.ticket part w c).nodes = w.nodes ∨
      ∃ o base moved rest, c.extendsPart part = true ∧
        (base.isRule = true ∧ base.parts = b.parts) ∧ (moved.isRule = true ∧ moved.parts = c.parts) ∧
        (f.keepsSource = true → o = moved.origin.ofCopy) ∧ w.nodes.Perm (base :: moved :: rest) ∧
        (absorb f b.ticket part w c).nodes.Perm
          (base.append [nested o c part moved] :: rest) := by
  rcases absorb_slots f b.ticket part w c with
    ⟨hslots, -⟩ | ⟨o, p, base, moved, hne, hext, hbase, hmoved, hnew, hgo, hslots, -⟩
  · exact Or.inl (by rw [Work.nodes, hslots, Work.nodes])
  · have hrule := (hw.known c hc moved hmoved).1
    obtain ⟨rest, hbefore, hafter⟩ := Work.Distinct.nodes_move (w := ⟨w.slots, p⟩) hw.distinct hgo
      hne hbase hmoved (Node.append [nested o c part moved])
    refine Or.inr ⟨o, base, moved, rest, hext, hw.known b hb base hbase,
      hw.known c hc moved hmoved, fun hf => ?_, hbefore, ?_⟩
    · have heq := newRule_eq hf hrule hnew
      rw [Node.block.injEq] at heq
      exact heq.1
    · rw [Work.nodes, hslots]
      exact hafter

theorem absorb_goes_on {f : Factory} (hf : f.Obliging) (hw : Tracked cs w)
    (hgo : w.stopped = false) (hc : c ∈ cs) (part : Text) :
    (absorb f b.ticket part w c).stopped = false := by
  unfold absorb
  split
  · exact hgo
  · rename_i hguard
    simp only [Bool.or_eq_true, beq_iff_eq, not_or] at hguard
    have hne : c.ticket ≠ b.ticket := hguard.1.2
    split
    · rename_i base moved hbase hmoved
      obtain ⟨n, p, hnew⟩ := Progress.newRule_of_obliging hf hgo (hw.known c hc moved hmoved).1
        (c.relativeSelector part)
      have hgo' : p.stopped = false := (Progress.eq_of_newRule_some hnew).2.2
      have hfound := fun m => (Work.get?_modify_ne (w := ⟨w.slots, p⟩) (f := Node.append [m])
        hne).trans hmoved
      simp only [hnew, Work.remove, Work.stopped_modify, hfound]
      simp only [Work.stopped, hgo']
      exact hgo'
    · exact hgo

def Running (cs : List Candidate) (w : Work) : Prop := Tracked cs w ∧ w.stopped = false

theorem absorbAll_running {f : Factory} (hf : f.Obliging) (hw : Running cs w) :
    Running cs (absorbAll f cs w b) := by
  have habsorb : ∀ part w', Running cs w' → ∀ c ∈ cs, Running cs (absorb f b.ticket part w' c) :=
    fun part w' hw' c hc =>
      ⟨absorb_tracked f hw'.1 part c, absorb_goes_on hf hw'.1 hw'.2 hc part⟩
  unfold absorbAll
  split
  · exact List.foldlRecOn _ _ hw fun w' hw' part _ =>
      List.foldlRecOn _ _ hw' fun w'' hw'' c hc => habsorb part w'' hw'' c hc
  · exact hw

/-! ### The moves among some siblings -/

section Folds

variable (f : Factory) (sc : Scope) (x : Applied)

theorem foldl_absorb_moves (hw : Ready cs w) (hb : b ∈ cs) (hpart : part ∈ b.parts) :
    Ready cs (cs.foldl (absorb f b.ticket part) w) ∧
      ((cs.foldl (absorb f b.ticket part) w).Says sc x ↔ w.Says sc x ∨
        ∃ m ∈ foldNotes (absorb f b.ticket part) (absorbMoves f sc b.ticket part) w cs,
          x ∈ m.spread) := by
  refine mem_foldl (Ready cs) (·.Says sc x) (x ∈ Move.spread ·) (fun w' c hc hw' => ?_) hw
  obtain ⟨hready, hsame⟩ := absorb_moves f hw' hb hpart hc
  exact ⟨hready, hsame sc x⟩

theorem absorbAll_moves (hw : Ready cs w) (hb : b ∈ cs) :
    Ready cs (absorbAll f cs w b) ∧ ((absorbAll f cs w b).Says sc x ↔ w.Says sc x ∨
      ∃ m ∈ absorbAllMoves f cs sc w b, x ∈ m.spread) := by
  unfold absorbAll absorbAllMoves
  split
  · exact mem_foldl (Ready cs) (·.Says sc x) (x ∈ Move.spread ·)
      (fun w' part hpart hw' => foldl_absorb_moves f sc x hw' hb hpart) hw
  · exact ⟨hw, by simp⟩

end Folds

theorem tracked_start (p : Progress) (ns : List Node) :
    Tracked (candidates (Work.start p ns)) (Work.start p ns) := by
  have hd := Work.distinct_start p ns
  refine ⟨hd, fun c hc n hn => ?_⟩
  obtain ⟨s, hs, hcand⟩ := List.mem_filterMap.mp hc
  cases hticket : s.ticket with
  | none =>
    rw [hticket] at hcand
    cases hcand
  | some t =>
    simp only [hticket] at hcand
    split at hcand
    · rename_i hrule
      cases hcand
      rw [← hd.node_eq hn hs (Slot.has_iff.mpr hticket)]
      exact ⟨hrule, rfl⟩
    · cases hcand

/-- What moving one rule keeps, pseudo nesting keeps. -/
theorem level_preserves (f : Factory) {P : List Node → Prop}
    (habsorb : ∀ cs w b c part, Tracked cs w → b ∈ cs → c ∈ cs → part ∈ b.parts → P w.nodes →
      P (absorb f b.ticket part w c).nodes) (p : Progress) {ns : List Node} (hns : P ns) :
    P (level f p ns).1 := by
  have hall : ∀ cs w b, b ∈ cs → Tracked cs w ∧ P w.nodes →
      Tracked cs (absorbAll f cs w b) ∧ P (absorbAll f cs w b).nodes := by
    intro cs w b hb hw
    unfold absorbAll
    split
    · exact List.foldlRecOn (motive := fun w => Tracked cs w ∧ P w.nodes) _ _ hw
        fun w' hw' part hpart =>
          List.foldlRecOn (motive := fun w => Tracked cs w ∧ P w.nodes) _ _ hw' fun w'' hw'' c hc =>
            ⟨absorb_tracked f hw''.1 part c, habsorb cs w'' b c part hw''.1 hb hc hpart hw''.2⟩
    · exact hw
  have hstart : P (Work.start p ns).nodes := by rwa [Work.nodes_start]
  exact (List.foldlRecOn (motive := fun w => Tracked (candidates (Work.start p ns)) w ∧ P w.nodes)
    _ _ ⟨tracked_start p ns, hstart⟩ fun w hw b hb => hall _ w b hb hw).2

theorem level_goes_on {f : Factory} (hf : f.Obliging) (p : Progress) (ns : List Node)
    (hgo : p.stopped = false) : (level f p ns).2.stopped = false := by
  have hstart : Running (candidates (Work.start p ns)) (Work.start p ns) :=
    ⟨tracked_start p ns, hgo⟩
  exact (List.foldlRecOn _ _ hstart fun w hw b _ => absorbAll_running hf hw).2

/-- **What siblings say after the moves among them**: what they said before, and
    the spread of the moves. -/
theorem level_rework (f : Factory) :
    Rework (AllParts Clean) (fun _ => level f) (levelMoves f) Move.spread := by
  have hlevel := fun (p : Progress) (ns : List Node) (hns : ∀ n ∈ ns, n.Styled (AllParts Clean))
      (sc : Scope) (x : Applied) =>
    mem_foldl (Ready (candidates (Work.start p ns))) (·.Says sc x) (x ∈ Move.spread ·)
      (fun w b hb hw => absorbAll_moves f sc x hw hb) ⟨tracked_start p ns, Work.styled_start hns⟩
  constructor
  · intro _ p ns hns
    exact Work.styled_iff_nodes.mp (hlevel p ns hns Scope.top ⟨[], none, ⟨[], [], false⟩⟩).1.styled
  · intro _ p ns hns sc x
    have hsame := (hlevel p ns hns sc x).2
    rw [Work.says_start, Work.says_iff_mem_nodes] at hsame
    exact hsame

end Pseudos

/-- The moves of pseudo nesting. -/
def pseudoMoves (f : Factory) (p : Progress) (n : Node) : List Pseudos.Move :=
  if p.stopped then []
  else topDownNotes (fun _ => Pseudos.level f) (Pseudos.levelMoves f) n.size Scope.top p n

theorem styled_nestPseudos (f : Factory) {p : Progress} {n : Node}
    (hn : ∀ m ∈ n.nodes, m.Styled (Selector.AllParts Selector.Clean)) :
    ∀ m ∈ (nestPseudos f p n).1.nodes, m.Styled (Selector.AllParts Selector.Clean) := by
  unfold nestPseudos
  split
  · exact hn
  · exact styled_topDown (Pseudos.level_rework f) hn

/-- **What a stylesheet means after pseudo nesting**: what it meant before, and
    the spread of the moves. -/
theorem mem_meaning_nestPseudos (f : Factory) {p : Progress} {n : Node}
    (hn : ∀ m ∈ n.nodes, m.Styled (Selector.AllParts Selector.Clean)) {x : Applied} :
    x ∈ (nestPseudos f p n).1.meaning ↔
      x ∈ n.meaning ∨ ∃ m ∈ pseudoMoves f p n, x ∈ m.spread := by
  unfold nestPseudos pseudoMoves
  split
  · simp
  · simp only [mem_meaning]
    exact mem_topDown (Pseudos.level_rework f) hn

theorem nestPseudos_goes_on {f : Factory} (hf : f.Obliging) (p : Progress) (n : Node)
    (hgo : p.stopped = false) : (nestPseudos f p n).2.stopped = false := by
  rw [nestPseudos, if_neg (by simp [hgo])]
  exact topDown_goes_on (fun _ p ns hp => Pseudos.level_goes_on hf p ns hp) _ hgo n

end StyleNesting
