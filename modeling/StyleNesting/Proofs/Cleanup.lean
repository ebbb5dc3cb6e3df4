/-
  StyleNesting/Proofs/Cleanup.lean
  ================================
  **Removing empty rules changes no meaning**: a rule without content says
  nothing, of whatever parts.  A run that removes rules never fails on the way.
-/
import StyleNesting.Pass.Cleanup
import StyleNesting.Proofs.TopDown

namespace StyleNesting

open Node

namespace Cleanup

theorem styles_of_isEmptyRule {n : Node} (h : n.isEmptyRule = true) (sc : Scope) :
    n.styles sc = [] := by
  match n, h with
  | .block _ (.rule _) [], _ => rfl

mutual
theorem styles_inside (sc : Scope) : ∀ (p : Progress) (n : Node),
    (inside p n).1.styles sc = n.styles sc
  | p, .block o (.rule s) ns => by
    simp only [inside, styles]
    exact stylesAll_among _ p ns
  | p, .block o (.atRule name params b) ns => by
    simp only [inside, styles]
    exact stylesAll_among _ p ns
  | p, .block o .sheet ns => rfl
  | p, .block o .group ns => rfl
  | p, .declaration o d => rfl
  | p, .leaf o => rfl
theorem stylesAll_among (sc : Scope) : ∀ (p : Progress) (ns : List Node),
    stylesAll sc (among p ns).1 = stylesAll sc ns
  | p, [] => rfl
  | p, n :: ns => by
    have hn := styles_inside sc p n
    rw [among]
    simp only
    split
    · rename_i hempty
      rw [stylesAll_among sc _ ns, stylesAll, ← hn, styles_of_isEmptyRule hempty, List.nil_append]
    · rw [stylesAll, stylesAll, hn, stylesAll_among sc _ ns]
end

variable {ok : Text → Prop}

mutual
theorem styled_inside : ∀ (p : Progress) (n : Node), n.Styled ok → (inside p n).1.Styled ok
  | p, .block _ (.rule _) ns, h => styled_iff.mpr ⟨h.fits, styled_among p ns h.nodes⟩
  | p, .block _ (.atRule _ _ _) ns, h => styled_iff.mpr ⟨h.fits, styled_among p ns h.nodes⟩
  | _, .block _ .sheet _, h => h
  | _, .block _ .group _, h => h
  | _, .declaration _ _, h => h
  | _, .leaf _, h => h
theorem styled_among : ∀ (p : Progress) (ns : List Node), (∀ n ∈ ns, n.Styled ok) →
    ∀ n ∈ (among p ns).1, n.Styled ok
  | p, [], h => h
  | p, n :: ns, h => by
    have hn := styled_inside p n (h n (by simp))
    have hns : ∀ m ∈ ns, m.Styled ok := fun m hm => h m (by simp [hm])
    rw [among]
    simp only
    split
    · exact styled_among _ ns hns
    · intro m hm
      rcases List.mem_cons.mp hm with rfl | hrest
      · exact hn
      · exact styled_among _ ns hns m hrest
end

theorem among_same (p : Progress) {ns : List Node} (h : ∀ n ∈ ns, n.Styled ok) :
    SameSiblings ok ns (among p ns).1 :=
  ⟨styled_among p ns h, fun sc x => by rw [stylesAll_among]⟩

mutual
theorem failure_inside : ∀ (p : Progress) (n : Node), (inside p n).2.failure = p.failure
  | p, .block _ (.rule _) ns => failure_among p ns
  | p, .block _ (.atRule _ _ _) ns => failure_among p ns
  | _, .block _ .sheet _ => rfl
  | _, .block _ .group _ => rfl
  | _, .declaration _ _ => rfl
  | _, .leaf _ => rfl
theorem failure_among : ∀ (p : Progress) (ns : List Node), (among p ns).2.failure = p.failure
  | _, [] => rfl
  | p, n :: ns => by
    rw [among]
    simp only
    split
    · exact (failure_among _ ns).trans (failure_inside p n)
    · exact (failure_among _ ns).trans (failure_inside p n)
end

end Cleanup

theorem failure_removeEmptyRules (p : Progress) (n : Node) :
    (removeEmptyRules p n).2.failure = p.failure := by
  cases n with
  | block o h ns =>
    simp only [removeEmptyRules]
    split
    · rfl
    · exact Cleanup.failure_among p ns
  | declaration o d => rfl
  | leaf o => rfl

theorem removeEmptyRules_block (p : Progress) (o : Origin) (h : Header) (ns : List Node) :
    (removeEmptyRules p (.block o h ns)).1 =
      .block o h (if p.stopped then ns else (Cleanup.among p ns).1) := by
  simp only [removeEmptyRules]
  cases p.stopped <;> rfl

/-- **Removing empty rules changes no meaning.** -/
theorem conserves_removeEmptyRules {ok : Text → Prop} : Conserves ok removeEmptyRules := by
  have hnodes : ∀ p ns, (∀ n ∈ ns, n.Styled ok) →
      SameSiblings ok ns (if p.stopped then ns else (Cleanup.among p ns).1) := by
    intro p ns hns
    split
    · exact ⟨hns, fun _ _ => Iff.rfl⟩
    · exact Cleanup.among_same p hns
  constructor
  · intro p n hn
    cases n with
    | block o h ns =>
      rw [removeEmptyRules_block]
      exact (hnodes p ns hn).styled
    | declaration o d => exact hn
    | leaf o => exact hn
  · intro p n hn sc x
    cases n with
    | block o h ns =>
      rw [removeEmptyRules_block]
      exact (hnodes p ns hn).same (sc.enter h) x
    | declaration o d => exact Iff.rfl
    | leaf o => exact Iff.rfl

end StyleNesting
