/-
  StyleNesting/Proofs/TopDown.lean
  ================================
  **From one group of siblings to whole trees.**  A tree is *styled* by a
  predicate on selectors if its blocks are rules whose selectors satisfy the
  predicate, and at-rules.  Blocks of other kinds are not entered by the passes,
  and a stylesheet has none below its top.

  A pass says what it does to one group of siblings (`Rework`): it keeps the
  trees styled, and what the siblings say afterwards is what they said before
  and what the pass notes down as added.  Working a tree from the top has the
  same effect on the whole tree, with the notes of all groups (`mem_topDown`).
  Most passes add nothing and have no notes.
-/
import StyleNesting.Pass.TopDown
import StyleNesting.Proofs.Meaning

namespace StyleNesting

/-! ### Styled trees -/

/-- Every part of a selector list is good. -/
def Selector.AllParts (good : Text → Prop) (s : Text) : Prop := ∀ p ∈ parts s, good p

/-- The header of a rule with a good selector, or of an at-rule. -/
def Header.Fits (ok : Text → Prop) : Header → Prop
  | .rule s => ok s
  | .atRule _ _ _ => True
  | .sheet => False
  | .group => False

namespace Node

/-- A node whose own header fits. -/
def Fits (ok : Text → Prop) : Node → Prop
  | .block _ h _ => h.Fits ok
  | .declaration _ _ => True
  | .leaf _ => True

/-- Every header of the tree fits. -/
def Styled (ok : Text → Prop) (n : Node) : Prop := ∀ m ∈ n :: n.walk, m.Fits ok

instance decidableFits (ok : Text → Prop) [DecidablePred ok] : DecidablePred (Fits ok)
  | .block _ (.rule s) _ => inferInstanceAs (Decidable (ok s))
  | .block _ (.atRule _ _ _) _ => isTrue trivial
  | .block _ .sheet _ => isFalse id
  | .block _ .group _ => isFalse id
  | .declaration _ _ => isTrue trivial
  | .leaf _ => isTrue trivial

instance decidableStyled (ok : Text → Prop) [DecidablePred ok] : DecidablePred (Styled ok) :=
  fun n => inferInstanceAs (Decidable (∀ m ∈ n :: n.walk, m.Fits ok))

variable {ok ok' : Text → Prop}

theorem walk_eq_walkAll (n : Node) : n.walk = walkAll n.nodes := by cases n <;> rfl

theorem styled_iff {n : Node} : n.Styled ok ↔ n.Fits ok ∧ ∀ m ∈ n.nodes, m.Styled ok := by
  simp only [Styled, List.forall_mem_cons, mem_walk_iff (n := n)]
  refine and_congr_right fun _ => ?_
  constructor
  · intro h m hm
    exact ⟨h m ⟨m, hm, by simp⟩, fun k hk => h k ⟨m, hm, by simp [hk]⟩⟩
  · rintro h k ⟨m, hm, hk⟩
    rcases List.mem_cons.mp hk with rfl | hbelow
    · exact (h k hm).1
    · exact (h m hm).2 k hbelow

theorem Styled.fits {n : Node} (h : n.Styled ok) : n.Fits ok := (styled_iff.mp h).1

theorem Styled.nodes {n : Node} (h : n.Styled ok) : ∀ m ∈ n.nodes, m.Styled ok :=
  (styled_iff.mp h).2

theorem Fits.mono (hok : ∀ s, ok s → ok' s) {n : Node} (h : n.Fits ok) : n.Fits ok' := by
  match n, h with
  | .block _ (.rule s) _, h => exact hok s h
  | .block _ (.atRule _ _ _) _, _ => trivial
  | .declaration _ _, _ => trivial
  | .leaf _, _ => trivial

theorem Styled.mono (hok : ∀ s, ok s → ok' s) {n : Node} (h : n.Styled ok) : n.Styled ok' :=
  fun m hm => (h m hm).mono hok

theorem Styled.good_of_mem_parts {good : Text → Prop} {n : Node}
    (hn : n.Styled (Selector.AllParts good)) {p : Text} (hp : p ∈ n.parts) : good p := by
  match n, hn, hp with
  | .block o (.rule s) ns, hn, hp => exact hn.fits p hp

@[simp]
theorem isRule_setNodes (ns : List Node) (n : Node) : (n.setNodes ns).isRule = n.isRule := by
  cases n with
  | block o h ms => cases h <;> rfl
  | declaration o d => rfl
  | leaf o => rfl

@[simp]
theorem parts_setNodes (ns : List Node) (n : Node) : (n.setNodes ns).parts = n.parts := by
  cases n with
  | block o h ms => cases h <;> rfl
  | declaration o d => rfl
  | leaf o => rfl

theorem append_eq_setNodes (ms : List Node) (n : Node) :
    n.append ms = n.setNodes (n.nodes ++ ms) := by
  cases n <;> rfl

theorem styled_rule {o : Origin} {s : Text} {ns : List Node} :
    (Node.block o (.rule s) ns).Styled ok ↔ ok s ∧ ∀ n ∈ ns, n.Styled ok := styled_iff

theorem styled_declaration (o : Origin) (d : Declaration) : (Node.declaration o d).Styled ok :=
  styled_iff.mpr ⟨trivial, by simp [nodes]⟩

theorem Styled.setNodes {n : Node} (h : n.Styled ok) {ms : List Node}
    (hms : ∀ m ∈ ms, m.Styled ok) : (n.setNodes ms).Styled ok := by
  cases n with
  | block o hd ns => exact styled_iff.mpr ⟨h.fits, hms⟩
  | declaration o d => exact h
  | leaf o => exact h

theorem Styled.append {n : Node} (h : n.Styled ok) {ms : List Node} (hms : ∀ m ∈ ms, m.Styled ok) :
    (n.append ms).Styled ok := by
  rw [append_eq_setNodes]
  refine h.setNodes fun m hm => ?_
  rcases List.mem_append.mp hm with hold | hnew
  · exact h.nodes m hold
  · exact hms m hnew

mutual
theorem walk_copy : ∀ n : Node, n.copy.walk = n.walk.map copy
  | .block o h ns => by rw [copy, walk, walk, walkAll_copyAll]
  | .declaration o d => rfl
  | .leaf o => rfl
theorem walkAll_copyAll : ∀ ns : List Node, walkAll (copyAll ns) = (walkAll ns).map copy
  | [] => rfl
  | n :: ns => by simp [copyAll, walkAll, walk_copy n, walkAll_copyAll ns]
end

theorem Styled.copy {n : Node} (h : n.Styled ok) : n.copy.Styled ok := by
  have hfits : ∀ m : Node, m.Fits ok → m.copy.Fits ok := by
    intro m hm
    cases m <;> exact hm
  intro m hm
  rw [walk_copy, ← List.map_cons] at hm
  obtain ⟨k, hk, rfl⟩ := List.mem_map.mp hm
  exact hfits k (h k hk)

theorem styled_copyAll {ns : List Node} (h : ∀ n ∈ ns, n.Styled ok) :
    ∀ m ∈ copyAll ns, m.Styled ok := by
  intro m hm
  rw [copyAll_eq_map] at hm
  obtain ⟨n, hn, rfl⟩ := List.mem_map.mp hm
  exact (h n hn).copy

end Node

/-! ### What a run over a tree notes down -/

section Notes

variable {β : Type}

def foldNotes {σ α : Type} (step : σ → α → σ) (note : σ → α → List β) : σ → List α → List β
  | _, [] => []
  | s, a :: as => note s a ++ foldNotes step note (step s a) as

def visitNotes (step : Step) (note : Progress → Node → List β) : Progress → List Node → List β
  | _, [] => []
  | p, n :: ns => note p n ++ visitNotes step note (step p n).2 ns

def enterNotes (note : Progress → Node → List β) (p : Progress) (n : Node) : List β :=
  if n.isStyleBlock && !p.stopped then note p n else []

/-- The notes of all groups of siblings of a tree that is worked from the top.
    `note` gives those of one group, in the scope it stands in. -/
def topDownNotes (level : Header → Progress → List Node → List Node × Progress)
    (note : Scope → Progress → List Node → List β) : Nat → Scope → Progress → Node → List β
  | 0, _, _, _ => []
  | _ + 1, _, _, .declaration _ _ => []
  | _ + 1, _, _, .leaf _ => []
  | fuel + 1, sc, p, .block _ h ns =>
    note (sc.enter h) p ns ++
      visitNotes (enter (topDown level fuel))
        (enterNotes (topDownNotes level note fuel (sc.enter h))) (level h p ns).2 (level h p ns).1

end Notes

/-- What is said after a fold is what was said before and what the notes say, if
    this holds of every step. -/
theorem mem_foldl {σ α β : Type} (Inv Says : σ → Prop) (Tell : β → Prop) {step : σ → α → σ}
    {note : σ → α → List β} {as : List α}
    (hstep : ∀ s, ∀ a ∈ as, Inv s →
      Inv (step s a) ∧ (Says (step s a) ↔ Says s ∨ ∃ m ∈ note s a, Tell m)) {s : σ} (hs : Inv s) :
    Inv (as.foldl step s) ∧
      (Says (as.foldl step s) ↔ Says s ∨ ∃ m ∈ foldNotes step note s as, Tell m) := by
  induction as generalizing s with
  | nil => exact ⟨hs, by simp [foldNotes]⟩
  | cons a as ih =>
    obtain ⟨hinv, htold⟩ := hstep s a (by simp) hs
    obtain ⟨hinv', htold'⟩ := ih (fun s b hb => hstep s b (by simp [hb])) hinv
    refine ⟨hinv', ?_⟩
    simp only [List.foldl_cons, foldNotes, List.mem_append, or_and_right, exists_or, htold', htold]
    exact or_assoc

/-! ### The effect of a pass -/

open Node

/-- What a pass does to one group of siblings: they stay styled, and they say
    what they said before and what the notes say. -/
structure Rework {β : Type} (ok : Text → Prop)
    (level : Header → Progress → List Node → List Node × Progress)
    (note : Scope → Progress → List Node → List β) (tell : β → List Applied) : Prop where
  styled : ∀ h p ns, (∀ n ∈ ns, n.Styled ok) → ∀ n ∈ (level h p ns).1, n.Styled ok
  mem : ∀ h p ns, (∀ n ∈ ns, n.Styled ok) → ∀ sc x,
    x ∈ stylesAll sc (level h p ns).1 ↔
      x ∈ stylesAll sc ns ∨ ∃ m ∈ note sc p ns, x ∈ tell m

section Runs

variable {β : Type} {ok : Text → Prop} {tell : β → List Applied}

theorem visitAll_preserves {P : Node → Prop} {step : Step} (hstep : ∀ p n, P n → P (step p n).1)
    {p : Progress} {ns : List Node} (h : ∀ n ∈ ns, P n) : ∀ n ∈ (visitAll step p ns).1, P n := by
  induction ns generalizing p with
  | nil => exact h
  | cons n ns ih =>
    intro m hm
    rcases List.mem_cons.mp hm with rfl | hrest
    · exact hstep p n (h n (by simp))
    · exact ih (fun k hk => h k (by simp [hk])) m hrest

theorem mem_visitAll {step : Step} {note : Progress → Node → List β} {sc : Scope} {x : Applied}
    (hstep : ∀ p n, n.Styled ok →
      (x ∈ (step p n).1.styles sc ↔ x ∈ n.styles sc ∨ ∃ m ∈ note p n, x ∈ tell m))
    {p : Progress} {ns : List Node} (h : ∀ n ∈ ns, n.Styled ok) :
    x ∈ stylesAll sc (visitAll step p ns).1 ↔
      x ∈ stylesAll sc ns ∨ ∃ m ∈ visitNotes step note p ns, x ∈ tell m := by
  induction ns generalizing p with
  | nil => simp [visitAll, visitNotes]
  | cons n ns ih =>
    have hn := hstep p n (h n (by simp))
    have hns := ih (p := (step p n).2) fun k hk => h k (by simp [hk])
    simp only [visitAll, visitNotes, stylesAll, List.mem_append, hn, hns, or_and_right, exists_or]
    exact or_or_or_comm

theorem enter_preserves {P : Node → Prop} {step : Step} (hstep : ∀ p n, P n → P (step p n).1) :
    ∀ p n, P n → P (enter step p n).1 := by
  intro p n hn
  unfold enter
  split
  · exact hstep p n hn
  · exact hn

theorem mem_enter {step : Step} {note : Progress → Node → List β} {sc : Scope} {x : Applied}
    (hstep : ∀ p n, n.Styled ok →
      (x ∈ (step p n).1.styles sc ↔ x ∈ n.styles sc ∨ ∃ m ∈ note p n, x ∈ tell m)) :
    ∀ p n, n.Styled ok → (x ∈ (enter step p n).1.styles sc ↔
      x ∈ n.styles sc ∨ ∃ m ∈ enterNotes note p n, x ∈ tell m) := by
  intro p n hn
  unfold enter enterNotes
  split
  · exact hstep p n hn
  · simp

variable {level : Header → Progress → List Node → List Node × Progress}
  {note : Scope → Progress → List Node → List β}

theorem topDown_eq_setNodes (fuel : Nat) (p : Progress) (n : Node) :
    (topDown level fuel p n).1 = n.setNodes (topDown level fuel p n).1.nodes := by
  cases fuel <;> cases n <;> rfl

/-- Working a tree from the top keeps everything below the top styled. -/
theorem styled_topDown (hlevel : Rework ok level note tell) {fuel : Nat} {p : Progress} {n : Node}
    (h : ∀ m ∈ n.nodes, m.Styled ok) : ∀ m ∈ (topDown level fuel p n).1.nodes, m.Styled ok := by
  induction fuel generalizing p n with
  | zero => exact h
  | succ fuel ih =>
    cases n with
    | block o hd ns =>
      have hchild : ∀ p m, m.Styled ok → (topDown level fuel p m).1.Styled ok := by
        intro p m hm
        rw [topDown_eq_setNodes]
        exact hm.setNodes (ih hm.nodes)
      exact visitAll_preserves (enter_preserves hchild) (hlevel.styled hd p ns h)
    | declaration o d => exact h
    | leaf o => exact h

/-- **What a tree says after it was worked from the top**: what it said before,
    and what the notes of its groups of siblings say. -/
theorem mem_topDown (hlevel : Rework ok level note tell) {fuel : Nat} {p : Progress} {n : Node}
    (h : ∀ m ∈ n.nodes, m.Styled ok) {sc : Scope} {x : Applied} :
    x ∈ (topDown level fuel p n).1.styles sc ↔
      x ∈ n.styles sc ∨ ∃ m ∈ topDownNotes level note fuel sc p n, x ∈ tell m := by
  induction fuel generalizing p n sc with
  | zero => simp [topDown, topDownNotes]
  | succ fuel ih =>
    cases n with
    | block o hd ns =>
      have hchild : ∀ p m, m.Styled ok → (x ∈ (topDown level fuel p m).1.styles (sc.enter hd) ↔
          x ∈ m.styles (sc.enter hd) ∨
            ∃ k ∈ topDownNotes level note fuel (sc.enter hd) p m, x ∈ tell k) :=
        fun p m hm => ih hm.nodes
      have hvisit := mem_visitAll (mem_enter hchild) (p := (level hd p ns).2)
        (hlevel.styled hd p ns h)
      simp only [topDown, topDownNotes, styles, List.mem_append, or_and_right, exists_or]
      rw [hvisit, hlevel.mem hd p ns h]
      exact or_assoc
    | declaration o d => simp [topDown, topDownNotes]
    | leaf o => simp [topDown, topDownNotes]

end Runs

/-! ### Passes that add nothing -/

section Silent

variable {ok : Text → Prop}

/-- Siblings are styled again, and say what other ones said. -/
structure SameSiblings (ok : Text → Prop) (ns ns' : List Node) : Prop where
  styled : ∀ n ∈ ns', n.Styled ok
  same : ∀ sc x, x ∈ stylesAll sc ns' ↔ x ∈ stylesAll sc ns

/-- A step on whole trees keeps what stands below the top styled, and changes no meaning. -/
structure Conserves (ok : Text → Prop) (step : Step) : Prop where
  styled : ∀ p n, (∀ m ∈ n.nodes, m.Styled ok) → ∀ m ∈ (step p n).1.nodes, m.Styled ok
  same : ∀ p n, (∀ m ∈ n.nodes, m.Styled ok) → ∀ sc x,
    x ∈ (step p n).1.styles sc ↔ x ∈ n.styles sc

theorem Conserves.styled_node {step : Step} (h : Conserves ok step)
    (htop : ∀ p n, (step p n).1 = n.setNodes (step p n).1.nodes) {p : Progress} {n : Node}
    (hn : n.Styled ok) : (step p n).1.Styled ok := by
  rw [htop p n]
  exact hn.setNodes (h.styled p n hn.nodes)

/-- A pass that changes no group of siblings in meaning changes no tree. -/
theorem conserves_topDown {level : Header → Progress → List Node → List Node × Progress}
    (hlevel : ∀ h p ns, (∀ n ∈ ns, n.Styled ok) → SameSiblings ok ns (level h p ns).1)
    (fuel : Nat) : Conserves ok (topDown level fuel) := by
  have hrework : Rework ok level (fun _ _ _ => ([] : List Unit)) (fun _ => []) :=
    ⟨fun h p ns hns => (hlevel h p ns hns).styled,
      fun h p ns hns sc x => by simpa using (hlevel h p ns hns).same sc x⟩
  refine ⟨fun p n hn => styled_topDown hrework hn, fun p n hn sc x => ?_⟩
  simpa using mem_topDown hrework (p := p) hn

theorem conserves_unless_stopped {level : Header → Progress → List Node → List Node × Progress}
    (hlevel : ∀ h p ns, (∀ n ∈ ns, n.Styled ok) → SameSiblings ok ns (level h p ns).1)
    (fuel : Node → Nat) :
    Conserves ok fun p n => if p.stopped then (n, p) else topDown level (fuel n) p n := by
  constructor
  · intro p n hn
    split
    · exact hn
    · exact (conserves_topDown hlevel (fuel n)).styled p n hn
  · intro p n hn sc x
    split
    · exact Iff.rfl
    · exact (conserves_topDown hlevel (fuel n)).same p n hn sc x

theorem sameSiblings_visitAll {step : Step} (h : Conserves ok step)
    (htop : ∀ p n, (step p n).1 = n.setNodes (step p n).1.nodes) {p : Progress} {ns : List Node}
    (hns : ∀ n ∈ ns, n.Styled ok) : SameSiblings ok ns (visitAll (enter step) p ns).1 := by
  refine ⟨visitAll_preserves (enter_preserves fun p n hn => h.styled_node htop hn) hns, fun sc x => ?_⟩
  have hstep : ∀ p n, n.Styled ok → (x ∈ (step p n).1.styles sc ↔
      x ∈ n.styles sc ∨ ∃ m ∈ ([] : List Unit), x ∈ ([] : List Applied)) := by
    intro p n hn
    simpa using h.same p n hn.nodes sc x
  have hvisit := mem_visitAll (mem_enter hstep) (p := p) hns
  simpa using hvisit

end Silent

/-! ### Runs that do not stop -/

section Progress

variable {p : Progress}

theorem visitAll_goes_on {step : Step}
    (hstep : ∀ p n, p.stopped = false → (step p n).2.stopped = false) (hgo : p.stopped = false)
    (ns : List Node) : (visitAll step p ns).2.stopped = false := by
  induction ns generalizing p with
  | nil => exact hgo
  | cons n ns ih => exact ih (hstep p n hgo)

theorem enter_goes_on {step : Step}
    (hstep : ∀ p n, p.stopped = false → (step p n).2.stopped = false) (hgo : p.stopped = false)
    (n : Node) : (enter step p n).2.stopped = false := by
  unfold enter
  split
  · exact hstep p n hgo
  · exact hgo

/-- A pass that stops at no group of siblings stops at no tree. -/
theorem topDown_goes_on {level : Header → Progress → List Node → List Node × Progress}
    (hlevel : ∀ h p ns, p.stopped = false → (level h p ns).2.stopped = false) (fuel : Nat)
    (hgo : p.stopped = false) (n : Node) : (topDown level fuel p n).2.stopped = false := by
  induction fuel generalizing p n with
  | zero => exact hgo
  | succ fuel ih =>
    cases n with
    | block o h ns =>
      exact visitAll_goes_on (fun p m hp => enter_goes_on (fun p m hp => ih hp m) hp m)
        (hlevel h p ns hgo) _
    | declaration o d => exact hgo
    | leaf o => exact hgo

end Progress

end StyleNesting
