/-
  StyleNesting/Proofs/Reading.lean
  ================================
  **What the reader builds.**  Below the sheet there are rules, at-rules and
  declarations only, and the selector of every rule is normalized
  (`styled_of_parse`).  This holds of the children read so far and of the open
  blocks at every step (`Reader.Styled`).

  If the selectors are also `regular`, all their parts are `Neat`, which is what
  the passes ask of the trees they work on.
-/
import StyleNesting.Source.Parser
import StyleNesting.Proofs.NormalForm
import StyleNesting.Proofs.TopDown

namespace StyleNesting

open Node

/-- A selector as the reader leaves it. -/
def Selector.IsNormalized (s : Text) : Prop := ∃ t, s = Selector.normalize t

namespace Source

/-! ### The reader -/

/-- What has been read so far is styled, and the open blocks will be. -/
structure Reader.Styled (r : Reader) : Prop where
  nodes : ∀ n ∈ r.nodes, n.Styled Selector.IsNormalized
  opened : ∀ f ∈ r.opened, f.header.Fits Selector.IsNormalized ∧
    ∀ n ∈ f.before, n.Styled Selector.IsNormalized

variable {r r' : Reader}

theorem styled_start (t : Text) : (Reader.start t).Styled :=
  ⟨by simp [Reader.start], by simp [Reader.start]⟩

theorem Reader.Styled.take (h : r.Styled) (last : Position) (n : Nat) (b : Bool) :
    (r.take last n b).Styled := ⟨h.nodes, h.opened⟩

theorem Reader.Styled.skipLayout (h : r.Styled) : r.skipLayout.Styled := ⟨h.nodes, h.opened⟩

theorem Reader.Styled.openBlock (h : r.Styled) {hd : Header}
    (hhd : hd.Fits Selector.IsNormalized) (p : Position) : (r.openBlock p hd).Styled := by
  refine ⟨by simp [Reader.openBlock], fun f hf => ?_⟩
  rcases List.mem_cons.mp hf with rfl | hold
  · exact ⟨hhd, h.nodes⟩
  · exact h.opened f hold

theorem styled_append_singleton {ns : List Node} {n : Node}
    (hns : ∀ m ∈ ns, m.Styled Selector.IsNormalized) (hn : n.Styled Selector.IsNormalized) :
    ∀ m ∈ ns ++ [n], m.Styled Selector.IsNormalized := by
  intro m hm
  rcases List.mem_append.mp hm with hold | hnew
  · exact hns m hold
  · exact List.mem_singleton.mp hnew ▸ hn

theorem Reader.Styled.add (h : r.Styled) {n : Node} (hn : n.Styled Selector.IsNormalized) :
    (r.add n).Styled := ⟨styled_append_singleton h.nodes hn, h.opened⟩

theorem Reader.Styled.closeBlock (h : r.Styled) : r.closeBlock.Styled := by
  unfold Reader.closeBlock
  split
  · exact h
  · rename_i f fs hopened
    obtain ⟨hheader, hbefore⟩ := h.opened f (by simp [hopened])
    refine ⟨styled_append_singleton hbefore (styled_iff.mpr ⟨hheader, h.nodes⟩), fun g hg => ?_⟩
    exact h.opened g (by simp [hopened, hg])

theorem Reader.Styled.readAtRule (h : r.Styled) {n : Nat} (hr : r.readAtRule n = .ok r') :
    r'.Styled := by
  simp only [Reader.readAtRule] at hr
  split at hr
  · cases hr
  · cases hr
    refine (h.openBlock ?_ _).take _ _ _
    trivial
  · cases hr
    refine (h.add ?_).take _ _ _
    exact styled_iff.mpr ⟨trivial, by simp [Node.nodes]⟩
  · cases hr

/-- **One step of the reader.** -/
theorem Reader.Styled.step (h : r.Styled) (hr : r.step = .ok (some r')) : r'.Styled := by
  unfold Reader.step at hr
  split at hr
  · split at hr <;> cases hr
  · split at hr
    · -- a selector
      cases hr
      refine (h.openBlock ?_ _).take _ _ _
      exact ⟨_, rfl⟩
    · split at hr
      · -- a declaration
        cases hr
        exact (h.add (styled_declaration _ _)).take _ _ _
      · split at hr
        · -- an at-keyword
          rename_i n _
          cases hread : r.readAtRule n with
          | error e =>
            rw [hread] at hr
            cases hr
          | ok r'' =>
            rw [hread] at hr
            cases hr
            exact h.readAtRule hread
        · split at hr
          · cases hr
            exact h.take _ _ _
          · split at hr
            · cases hr
              exact h.closeBlock.take _ _ _
            · cases hr

theorem Reader.Styled.run (h : r.Styled) {fuel : Nat} {ns : List Node}
    (hns : r.run fuel = .ok ns) : ∀ n ∈ ns, n.Styled Selector.IsNormalized := by
  induction fuel generalizing r with
  | zero =>
    cases hns
    exact h.nodes
  | succ fuel ih =>
    rw [Reader.run] at hns
    split at hns
    · cases hns
    · cases hns
      exact h.nodes
    · rename_i r' hstep
      exact ih (h.skipLayout.step hstep) hns

/-- **What the reader builds**: below the sheet, rules with normalized selectors,
    at-rules and declarations. -/
theorem styled_of_parse {t : Text} {root : Node} (h : parse t = .ok root) :
    ∀ n ∈ root.nodes, n.Styled Selector.IsNormalized := by
  unfold parse read at h
  cases hrun : (Reader.start (blankComments t)).run ((blankComments t).length + 1) with
  | error e =>
    rw [hrun] at h
    cases h
  | ok ns =>
    rw [hrun] at h
    cases h
    exact (styled_start _).run hrun

end Source

/-! ### Regular stylesheets -/

/-- A selector that closes all its strings and brackets, escapes no blank, and
    has an ampersand only at the start of a part. -/
def Selector.regular (s : Text) : Bool :=
  balanced s && !escapesBlank s && (parts s).all fun p => !p.tail.contains '&'

/-- All rules below a node have regular selectors. -/
def Node.regular (n : Node) : Bool := n.walk.all fun m => m.selector?.all Selector.regular

theorem Selector.IsNormalized.allParts_neat {s : Text} (hs : IsNormalized s)
    (hreg : Selector.regular s = true) : AllParts Neat s := by
  obtain ⟨t, rfl⟩ := hs
  simp only [Selector.regular, Bool.and_eq_true, Bool.not_eq_true', List.all_eq_true] at hreg
  obtain ⟨⟨hbal, hesc⟩, hamp⟩ := hreg
  intro p hp
  exact ⟨tidy_of_mem_parts_normalize hbal hesc hp, by simpa using hamp p hp⟩

theorem Node.Styled.neat_of_regular {n : Node} (hn : n.Styled Selector.IsNormalized)
    (hreg : ∀ m ∈ n :: n.walk, m.selector?.all Selector.regular = true) :
    n.Styled (Selector.AllParts Selector.Neat) := by
  intro m hm
  have hfits := hn m hm
  have hregular := hreg m hm
  match m, hfits, hregular with
  | .block _ (.rule s) _, hfits, hregular => exact hfits.allParts_neat hregular
  | .block _ (.atRule _ _ _) _, _, _ => trivial
  | .declaration _ _, _, _ => trivial
  | .leaf _, _, _ => trivial

/-- **A regular stylesheet has neat selectors throughout.** -/
theorem neat_of_parse {t : Text} {root : Node} (h : Source.parse t = .ok root)
    (hreg : root.regular = true) :
    ∀ n ∈ root.nodes, n.Styled (Selector.AllParts Selector.Neat) := by
  intro n hn
  refine (Source.styled_of_parse h n hn).neat_of_regular fun m hm => ?_
  exact List.all_eq_true.mp hreg m (mem_walk_iff.mpr ⟨n, hn, hm⟩)

end StyleNesting
