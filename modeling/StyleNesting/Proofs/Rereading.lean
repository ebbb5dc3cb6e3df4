/-
  StyleNesting/Proofs/Rereading.lean
  ==================================
  **Selector text that is written and read again.**  Passes hand selectors on as text:
  they join parts into a list, they take a part apart at its last blank, and later they
  cut again what they wrote.

  A list of atoms comes back from its text as it went in, from the sorted text in order and
  without repetitions, and the parts of a text without loose ends are atoms
  (`atoms_joined_and_cut`).  Taking a part apart peels off its last compound and leaves the others
  (`splitDescendant?_peels`), commas, strings and brackets in them included: cutting
  at blanks goes by words, and only the last word of a text may leave something open.
-/
import StyleNesting.Proofs.Descent
import StyleNesting.Proofs.Likeness

namespace StyleNesting

/-! ### Parts in order -/

/-- The strict order by code point. -/
def Text.Before (a b : Text) : Prop := List.Lex (fun c d => c.toNat < d.toNat) a b

theorem Text.before_of_le {a b : Text} (h : le a b = true) (hne : a ≠ b) : Before a b := by
  induction a generalizing b with
  | nil =>
    cases b with
    | nil => exact absurd rfl hne
    | cons d u => exact .nil
  | cons c t ih =>
    cases b with
    | nil => cases h
    | cons d u =>
      rcases le_cons.mp h with hlt | ⟨rfl, htu⟩
      · exact .rel hlt
      · apply List.Lex.cons
        apply ih htu
        rintro rfl
        exact hne rfl

namespace Selector

/-- The parts of a sorted list are in strict order. -/
theorem pairwise_parts_joined {ps : List Text} (h : ∀ p ∈ ps, Atom p) :
    (parts (joined ps)).Pairwise Text.Before := by
  have hatoms : ∀ p ∈ Text.sortBy Text.le (distinct ps), Atom p := by
    intro p hp
    exact h p (mem_distinct.mp ((mem_sortBy Text.le).mp hp))
  have hsorted := Text.linear_le.pairwise_sortBy_of_nodup (nodup_eraseDups ps)
  rw [joined, parts_join hatoms]
  exact hsorted.imp fun hab => Text.before_of_le hab.1 hab.2

/-- **Selector lists survive joining and cutting.**  Atoms that are joined are cut into the
    same atoms; sorted and joined, into the distinct ones in order; and the parts of a
    balanced text in which no backslash stands in front of a blank are atoms. -/
theorem atoms_joined_and_cut :
    (∀ ps : List Text, (∀ p ∈ ps, Atom p) →
      parts (Text.join Text.commaSpace ps) = ps ∧
        (parts (joined ps)).Pairwise Text.Before ∧ ∀ p, p ∈ parts (joined ps) ↔ p ∈ ps) ∧
      ∀ t : Text, balanced t = true → escapesBlank t = false → ∀ p ∈ parts t, Atom p := by
  constructor
  · intro ps hps
    exact ⟨parts_join hps, pairwise_parts_joined hps, fun _ => mem_parts_joined hps⟩
  · intro t hbal hesc p hp
    exact atom_of_mem_parts hbal hesc hp

/-- The parts `b]`, `[x="],"]`, `a\,` and `b]`: a bracket that closes nothing, a string in
    brackets, and an escaped comma. -/
def unevenParts : List Text :=
  [['b', ']'], ['[', 'x', '=', '"', ']', ',', '"', ']'], ['a', '\\', ','], ['b', ']']]

/-- Each of them is an atom, twice the same one included, and so are the parts of their list. -/
theorem atoms_joined_and_cut_unevenParts :
    (∀ p ∈ unevenParts, Atom p) ∧
      parts (Text.join Text.commaSpace unevenParts) = unevenParts ∧
      (parts (joined unevenParts)).Pairwise Text.Before ∧
      ['b', ']'] ∈ parts (joined unevenParts) ∧
      balanced (joined unevenParts) = true ∧ escapesBlank (joined unevenParts) = false ∧
      Atom ['b', ']'] := by
  have hatoms : ∀ p ∈ unevenParts, Atom p := by decide
  obtain ⟨hjoin, hsorted, hmem⟩ := atoms_joined_and_cut.1 unevenParts hatoms
  have hpart : ['b', ']'] ∈ parts (joined unevenParts) := (hmem _).mpr (by decide)
  have hbal : balanced (joined unevenParts) = true := by decide
  have hesc : escapesBlank (joined unevenParts) = false := by decide
  exact ⟨hatoms, hjoin, hsorted, hpart, hbal, hesc, atoms_joined_and_cut.2 _ hbal hesc _ hpart⟩

/-! ### Taking a part apart -/

theorem touchesCombinator_iff {c : Text} : touchesCombinator c = true ↔
    ∃ d ∈ ['>', '+', '~', '|'], c.head? = some d ∨ c.getLast? = some d := by
  have hmem : ∀ d, isCombinator d = true ↔ d ∈ ['>', '+', '~', '|'] := by
    intro d
    simp [isCombinator, or_assoc]
  simp only [touchesCombinator, Bool.or_eq_true, Option.any_eq_true, hmem]
  constructor
  · rintro (⟨d, hd, hcomb⟩ | ⟨d, hd, hcomb⟩)
    · exact ⟨d, hcomb, Or.inl hd⟩
    · exact ⟨d, hcomb, Or.inr hd⟩
  · rintro ⟨d, hcomb, hd | hd⟩
    · exact Or.inl ⟨d, hd, hcomb⟩
    · exact Or.inr ⟨d, hd, hcomb⟩

theorem splitDescendant?_eq_none_iff {p : Text} : splitDescendant? p = none ↔
    (compounds (Text.trim p)).length < 2 ∨
      ∃ c ∈ compounds (Text.trim p), touchesCombinator c = true := by
  unfold splitDescendant?
  generalize compounds (Text.trim p) = cs
  cases hlast : cs.getLast? with
  | none =>
    rw [List.getLast?_eq_none_iff] at hlast
    simp [hlast]
  | some last =>
    simp only [hlast, Bool.or_eq_true, decide_eq_true_eq, List.any_eq_true]
    split
    · rename_i halone
      exact iff_of_true rfl halone
    · rename_i hsplit
      exact iff_of_false (Option.some_ne_none _) hsplit

/-- The words that a part descends from, written with one space between neighbours, are
    trimmed and read again, if they are balanced and escape no blanks. -/
theorem reread_words {cs : List Text} (hne : cs ≠ []) (hwords : ∀ c ∈ cs, Word c)
    (hclosed : ∀ c ∈ cs, balanced c = true) (hesc : ∀ c ∈ cs, escapesBlank c = false) :
    Text.trim (Text.join [' '] cs) = Text.join [' '] cs ∧
      compounds (Text.join [' '] cs) = cs := by
  constructor
  · apply Text.trim_eq_self
    rcases List.eq_nil_or_concat cs with hnil | ⟨init, last, hconcat⟩
    · exact absurd hnil hne
    · rw [List.concat_eq_append] at hconcat
      subst hconcat
      have hlast : last ∈ init ++ [last] := by simp
      rw [join_concat]
      exact trimmed_lead hwords ((hwords last hlast).last (hclosed last hlast) (hesc last hlast))
  · apply compounds_join hwords
    intro c hc
    exact hclosed c (List.mem_of_mem_dropLast hc)

/-- **Taking a part apart peels off one compound.**  Where no backslash stands in front of a
    blank, a part is left alone exactly if it has less than two compounds or one of them starts
    or ends with a combinator.  Otherwise the child is the last compound and the parent has
    the others; the child is not taken apart again, and the parent is unless it has one only. -/
theorem splitDescendant?_peels {p : Text} (hesc : escapesBlank p = false) :
    (splitDescendant? p = none ↔
      (compounds (Text.trim p)).length < 2 ∨
        ∃ c ∈ compounds (Text.trim p), ∃ d ∈ ['>', '+', '~', '|'],
          c.head? = some d ∨ c.getLast? = some d) ∧
      ∀ parent child, splitDescendant? p = some (parent, child) →
        (compounds (Text.trim p)).getLast? = some child ∧
          Text.trim parent = parent ∧ compounds parent = (compounds (Text.trim p)).dropLast ∧
          splitDescendant? child = none ∧
          (splitDescendant? parent = none ↔ (compounds (Text.trim p)).length = 2) := by
  constructor
  · rw [splitDescendant?_eq_none_iff]
    simp only [touchesCombinator_iff]
  intro parent child hsplit
  have hsome : splitDescendant? p ≠ none := by simp [hsplit]
  rw [ne_eq, splitDescendant?_eq_none_iff, not_or] at hsome
  obtain ⟨init, hne, hcs, rfl⟩ := exists_of_splitDescendant? hsplit
  have hinit : ∀ c ∈ init, c ∈ compounds (Text.trim p) := fun c hc => by simp [hcs, hc]
  have hwords : ∀ c ∈ init, Word c := fun c hc => word_of_mem_compounds (hinit c hc)
  have hclosed : ∀ c ∈ init, balanced c = true := by
    intro c hc
    apply balanced_of_mem_dropLast_compounds (t := Text.trim p)
    rwa [hcs, List.dropLast_concat]
  have hplain : ∀ c ∈ init, escapesBlank c = false := by
    intro c hc
    exact escapesBlank_mono ((infix_of_mem_compounds (hinit c hc)).trans (Text.infix_trim p)) hesc
  obtain ⟨htrim, hparent⟩ := reread_words hne hwords hclosed hplain
  have hchild : Word child := word_of_mem_compounds (t := Text.trim p) (by simp [hcs])
  refine ⟨by simp [hcs], htrim, by rw [hparent, hcs, List.dropLast_concat], ?_, ?_⟩
  · exact splitDescendant?_of_unbroken hchild.whole
  · -- the compounds that are left touch no combinator, so all depends on their number
    have hfree : ¬ ∃ c ∈ init, touchesCombinator c = true := by
      rintro ⟨c, hc, htouches⟩
      exact hsome.2 ⟨c, hinit c hc, htouches⟩
    have hpos : 0 < init.length := List.length_pos_iff.mpr hne
    rw [splitDescendant?_eq_none_iff, htrim, hparent, or_iff_left hfree, hcs, List.length_append,
      List.length_singleton]
    omega

/-- The part `a) [x="b c"]` with `d,e` and `f(g h` behind it, after a tab and a space. -/
def unevenPart : Text :=
  ['a', ')', ' ', '[', 'x', '=', '"', 'b', ' ', 'c', '"', ']', '\t', 'd', ',', 'e', ' ', ' ', 'f',
    '(', 'g', ' ', 'h']

/-- The bracket that stays open belongs to the child, and the parent goes on to be taken apart. -/
theorem splitDescendant?_peels_unevenPart :
    escapesBlank unevenPart = false ∧
      ∃ parent child, splitDescendant? unevenPart = some (parent, child) ∧
        child = ['f', '(', 'g', ' ', 'h'] ∧ (compounds parent).length = 3 ∧
          splitDescendant? child = none ∧ splitDescendant? parent ≠ none := by
  have hesc : escapesBlank unevenPart = false := by decide
  have hcount : (compounds (Text.trim unevenPart)).length = 4 := by decide
  obtain ⟨parent, child, hsplit⟩ : ∃ parent child,
      splitDescendant? unevenPart = some (parent, child) := ⟨_, _, rfl⟩
  obtain ⟨hlast, -, hparent, hchild, hagain⟩ := (splitDescendant?_peels hesc).2 _ _ hsplit
  refine ⟨hesc, parent, child, hsplit, ?_, ?_, hchild, ?_⟩
  · exact Option.some.inj (hlast.symm.trans rfl)
  · rw [hparent, List.length_dropLast, hcount]
  · rw [ne_eq, hagain, hcount]
    decide

end Selector

end StyleNesting
