/-
  StyleNesting/Proofs/Conservation.lean
  =====================================
  **A run keeps the meaning of a stylesheet.**  Every pass but pseudo nesting
  conserves the meaning, so their composition does.  Pseudo nesting comes last
  and loses nothing; all that a run can add is the spread of its moves
  (`mem_meaning_nest`).  No pass leaves the tree in between when it has to stop,
  so the same is true of a run that a factory cut short.

  With a factory that refuses nothing a run comes to its end (`failure_nest`).
-/
import StyleNesting.Pass.Pipeline
import StyleNesting.Proofs.Descendants
import StyleNesting.Proofs.Factoring
import StyleNesting.Proofs.Pseudos
import StyleNesting.Proofs.Reading

namespace StyleNesting

open Node Selector

/-! ### One transform after another -/

section Transforms

variable {ok : Text → Prop}

theorem runAll_append (ts us : List Transform) (p : Progress) (n : Node) :
    runAll (ts ++ us) p n = runAll us (runAll ts p n).2 (runAll ts p n).1 := by
  induction ts generalizing p n with
  | nil => rfl
  | cons t ts ih => exact ih _ _

theorem Conserves.run {t : Transform} (h : Conserves ok t.apply) : Conserves ok t.run := by
  constructor
  · intro p n hn
    unfold Transform.run
    split
    · exact hn
    · exact h.styled _ n hn
  · intro p n hn sc x
    unfold Transform.run
    split
    · exact Iff.rfl
    · exact h.same _ n hn sc x

theorem conserves_runAll {ts : List Transform} (h : ∀ t ∈ ts, Conserves ok t.apply) :
    Conserves ok (runAll ts) := by
  induction ts with
  | nil => exact ⟨fun _ _ hn => hn, fun _ _ _ _ _ => Iff.rfl⟩
  | cons t ts ih =>
    have hfirst : Conserves ok t.run := (h t (by simp)).run
    have hrest : Conserves ok (runAll ts) := ih fun u hu => h u (by simp [hu])
    constructor
    · intro p n hn
      exact hrest.styled _ _ (hfirst.styled p n hn)
    · intro p n hn sc x
      exact (hrest.same _ _ (hfirst.styled p n hn) sc x).trans (hfirst.same p n hn sc x)

theorem Conserves.meaning_eq {step : Step} (h : Conserves ok step) (p : Progress) {n : Node}
    (hn : ∀ m ∈ n.nodes, m.Styled ok) : (step p n).1.meaning = n.meaning := by
  ext x
  rw [mem_meaning, mem_meaning]
  exact h.same p n hn Scope.top x

theorem runAll_goes_on {ts : List Transform}
    (h : ∀ t ∈ ts, ∀ p n, p.stopped = false → (t.apply p n).2.stopped = false) {p : Progress}
    (hgo : p.stopped = false) (n : Node) : (runAll ts p n).2.stopped = false := by
  induction ts generalizing p n with
  | nil => exact hgo
  | cons t ts ih =>
    have hrun : (t.run p n).2.stopped = false := by
      rw [Transform.run, if_neg (by simp [hgo])]
      exact h t (by simp) _ n hgo
    exact ih (fun u hu => h u (by simp [hu])) hrun _

end Transforms

/-! ### The passes -/

theorem conserves_pass (f : Factory) {pass : Pass} (hpass : pass ≠ .pseudos) :
    Conserves (AllParts Neat) (pass.run f) := by
  cases pass with
  | descendants => exact conserves_nestDescendants f
  | collapse => exact conserves_collapseSiblings (fun _ hp => hp.tidy.atom) f
  | factor => exact conserves_factorDeclarations (fun _ hp => hp.tidy.atom) f
  | pseudos => exact absurd rfl hpass
  | cleanup => exact conserves_removeEmptyRules

theorem Pass.run_goes_on {f : Factory} (hf : f.Obliging) (pass : Pass) (p : Progress) (n : Node)
    (hgo : p.stopped = false) : (pass.run f p n).2.stopped = false := by
  cases pass with
  | descendants => exact nestDescendants_goes_on hf p n hgo
  | collapse => exact collapseSiblings_goes_on hf p n hgo
  | factor => exact factorDeclarations_goes_on hf p n hgo
  | pseudos => exact nestPseudos_goes_on hf p n hgo
  | cleanup =>
    rw [Progress.stopped, Pass.run, failure_removeEmptyRules]
    exact hgo

theorem failure_of_goes_on {p : Progress} (hgo : p.stopped = false) : p.failure = none := by
  rwa [Progress.stopped, Option.isSome_eq_false_iff, Option.isNone_iff_eq_none] at hgo

/-- **A run with an obliging factory comes to its end**, on any tree. -/
theorem failure_nest {f : Factory} (hf : f.Obliging) (o : Options) (n : Node) :
    (nest o f n).2.failure = none := by
  have hgo : (runAll (o.passes.map (·.transform f) ++ []) {} n).2.stopped = false := by
    refine runAll_goes_on (fun t ht => ?_) rfl n
    rw [List.append_nil] at ht
    obtain ⟨pass, -, rfl⟩ := List.mem_map.mp ht
    exact Pass.run_goes_on hf pass
  rw [nest, applyTransforms, failure_removeEmptyRules, failure_of_goes_on hgo]

/-! ### A whole run -/

def Options.early (o : Options) : Options := { o with nestPseudos := false }

theorem Options.passes_eq (o : Options) :
    o.passes = o.early.passes ++ if o.nestPseudos then [.pseudos] else [] := by
  rcases o with ⟨_ | _, _ | _, _ | _, _ | _⟩ <;> rfl

theorem Options.ne_pseudos_of_mem {o : Options} (ho : o.nestPseudos = false) {pass : Pass}
    (h : pass ∈ o.passes) : pass ≠ .pseudos := by
  rintro rfl
  simp [Options.passes, ho] at h

/-- The tree and the run that pseudo nesting finds. -/
def nestEarly (o : Options) (f : Factory) (n : Node) : Node × Progress :=
  runAll (o.early.passes.map (·.transform f)) {} n

/-- The moves of a run. -/
def nestMoves (o : Options) (f : Factory) (n : Node) : List Pseudos.Move :=
  if o.nestPseudos then
    pseudoMoves f ((nestEarly o f n).2.log (.running Pass.pseudos.transformName))
      (nestEarly o f n).1
  else []

theorem nest_eq (o : Options) (f : Factory) (n : Node) :
    nest o f n =
      let (n', p) := if o.nestPseudos
        then (Pass.pseudos.transform f).run (nestEarly o f n).2 (nestEarly o f n).1
        else nestEarly o f n
      removeEmptyRules p n' := by
  rw [nest, applyTransforms, List.append_nil, Options.passes_eq, List.map_append, runAll_append]
  cases o.nestPseudos <;> rfl

section Run

variable (o : Options) (f : Factory) {n : Node} (hn : ∀ m ∈ n.nodes, m.Styled (AllParts Neat))
include hn

theorem conserves_nestEarly :
    (∀ m ∈ (nestEarly o f n).1.nodes, m.Styled (AllParts Neat)) ∧
      (nestEarly o f n).1.meaning = n.meaning := by
  have hpasses : Conserves (AllParts Neat) (runAll (o.early.passes.map (·.transform f))) := by
    refine conserves_runAll fun t ht => ?_
    obtain ⟨pass, hpass, rfl⟩ := List.mem_map.mp ht
    exact conserves_pass f (Options.ne_pseudos_of_mem rfl hpass)
  exact ⟨hpasses.styled {} n hn, hpasses.meaning_eq {} hn⟩

/-- **What a stylesheet means after a run**: what it meant before, and the spread
    of the moves. -/
theorem mem_meaning_nest {x : Applied} :
    x ∈ (nest o f n).1.meaning ↔ x ∈ n.meaning ∨ ∃ m ∈ nestMoves o f n, x ∈ m.spread := by
  obtain ⟨hneat, hearly⟩ := conserves_nestEarly o f hn
  rw [nest_eq, nestMoves, ← hearly]
  cases o.nestPseudos with
  | false =>
    have hclean := conserves_removeEmptyRules.meaning_eq (nestEarly o f n).2 hneat
    simp [hclean]
  | true =>
    have hneat' : ∀ m ∈ (nestEarly o f n).1.nodes, m.Styled (AllParts Clean) :=
      fun m hm => (hneat m hm).mono fun s hs p hp => ⟨(hs p hp).tidy.atom, (hs p hp).ampersand⟩
    simp only [if_true, Transform.run, Pass.transform, Pass.run]
    split
    · -- pseudo nesting does not even begin
      rename_i hstopped
      have hclean := conserves_removeEmptyRules.meaning_eq (nestEarly o f n).2 hneat
      have hnone : ∀ e, pseudoMoves f ((nestEarly o f n).2.log e) (nestEarly o f n).1 = [] :=
        fun e => if_pos hstopped
      simp [hclean, hnone]
    · rw [conserves_removeEmptyRules.meaning_eq _ (styled_nestPseudos f hneat')]
      exact mem_meaning_nestPseudos f hneat'

end Run

/-! ### Stylesheets from the reader -/

variable {t : Text} {root : Node}

/-- **Without pseudo nesting a run comes to its end and changes no meaning.** -/
theorem meaning_nest_without_pseudos (hparse : Source.parse t = .ok root)
    (hreg : root.regular = true) {o : Options} (ho : o.nestPseudos = false) :
    (nest o Factory.clone root).2.failure = none ∧
      (nest o Factory.clone root).1.meaning = root.meaning := by
  refine ⟨failure_nest Factory.clone_obliging o root, ?_⟩
  ext x
  rw [mem_meaning_nest o _ (neat_of_parse hparse hreg)]
  simp [nestMoves, ho]

/-- The sheet `@m p{.n a,b{c:r}.n b{c:r;d:e}}`: rules to take apart, to collapse
    and to factor below an at-rule. -/
def atRuleSheet : Text :=
  ['@', 'm', ' ', 'p', '{', '.', 'n', ' ', 'a', ',', 'b', '{', 'c', ':', 'r', '}', '.', 'n', ' ',
   'b', '{', 'c', ':', 'r', ';', 'd', ':', 'e', '}', '}']

theorem meaning_nest_atRuleSheet :
    ∃ root, Source.parse atRuleSheet = .ok root ∧ root.regular = true ∧
      (nest { nestPseudos := false } Factory.clone root).2.failure = none ∧
      (nest { nestPseudos := false } Factory.clone root).1.meaning = root.meaning := by
  have hsheet : ∃ root, Source.parse atRuleSheet = .ok root ∧ root.regular = true :=
    ⟨_, rfl, by decide⟩
  obtain ⟨root, hparse, hreg⟩ := hsheet
  exact ⟨root, hparse, hreg, meaning_nest_without_pseudos hparse hreg rfl⟩

/-- **What a full run adds**: the spread of its moves, and nothing else.  So the
    meaning stays the same exactly if the sheet says all of the spread anyway, as
    it does if no rule goes into a base with several parts. -/
theorem meaning_nest_eq_iff (hparse : Source.parse t = .ok root) (hreg : root.regular = true) :
    (nest {} Factory.clone root).2.failure = none ∧
      (∀ x, x ∈ (nest {} Factory.clone root).1.meaning ↔
        x ∈ root.meaning ∨ ∃ m ∈ nestMoves {} Factory.clone root, x ∈ m.spread) ∧
      ((nest {} Factory.clone root).1.meaning = root.meaning ↔
        ∀ m ∈ nestMoves {} Factory.clone root, ∀ x ∈ m.spread, x ∈ root.meaning) ∧
      ((∀ m ∈ nestMoves {} Factory.clone root, m.base.parts = [m.part]) →
        (nest {} Factory.clone root).1.meaning = root.meaning) := by
  have hmem := fun x => mem_meaning_nest {} Factory.clone (neat_of_parse hparse hreg) (x := x)
  have hiff : (nest {} Factory.clone root).1.meaning = root.meaning ↔
      ∀ m ∈ nestMoves {} Factory.clone root, ∀ x ∈ m.spread, x ∈ root.meaning := by
    constructor
    · intro heq m hm x hx
      rw [← heq, hmem]
      exact Or.inr ⟨m, hm, hx⟩
    · intro hspread
      ext x
      rw [hmem]
      refine ⟨?_, Or.inl⟩
      rintro (hx | ⟨m, hm, hx⟩)
      · exact hx
      · exact hspread m hm x hx
  refine ⟨failure_nest Factory.clone_obliging {} root, hmem, hiff, fun hsingle => ?_⟩
  refine hiff.mpr fun m hm x hx => ?_
  rw [Pseudos.Move.spread_of_single (hsingle m hm)] at hx
  cases hx

/-- The sheet `a{c:r}a:h{c:b}`, in which one rule goes into another. -/
def hoverSheet : Text :=
  ['a', '{', 'c', ':', 'r', '}', 'a', ':', 'h', '{', 'c', ':', 'b', '}']

theorem meaning_nest_hoverSheet :
    ∃ root, Source.parse hoverSheet = .ok root ∧ root.regular = true ∧
      (nestMoves {} Factory.clone root).length = 1 ∧
      (nest {} Factory.clone root).1.meaning = root.meaning := by
  have hsheet : ∃ root, Source.parse hoverSheet = .ok root ∧ root.regular = true ∧
      (nestMoves {} Factory.clone root).length = 1 ∧
      ∀ m ∈ nestMoves {} Factory.clone root, m.base.parts = [m.part] :=
    ⟨_, rfl, by decide, by decide +kernel, by decide +kernel⟩
  obtain ⟨root, hparse, hreg, hmoves, hsingle⟩ := hsheet
  exact ⟨root, hparse, hreg, hmoves, (meaning_nest_eq_iff hparse hreg).2.2.2 hsingle⟩

/-- The sheet `.a{color:red}.b{color:red}.a:hover{color:blue}`. -/
def sharedHoverSheet : Text :=
  ['.', 'a', '{', 'c', 'o', 'l', 'o', 'r', ':', 'r', 'e', 'd', '}', '.', 'b', '{', 'c', 'o', 'l',
   'o', 'r', ':', 'r', 'e', 'd', '}', '.', 'a', ':', 'h', 'o', 'v', 'e', 'r', '{', 'c', 'o', 'l',
   'o', 'r', ':', 'b', 'l', 'u', 'e', '}']

/-- **A full run can widen a rule**: factoring makes a base `.a, .b` of two rules
    with one part each, and `.b:hover` is then said to be blue as well. -/
theorem meaning_nest_sharedHoverSheet_ne :
    ∃ root, Source.parse sharedHoverSheet = .ok root ∧ root.regular = true ∧
      (∀ m ∈ root.walk, m.isRule = true → m.parts.length = 1) ∧
      (nest {} Factory.clone root).1.meaning ≠ root.meaning :=
  ⟨_, rfl, by decide +kernel, by decide +kernel, by decide +kernel⟩

/-- **A run comes to its end and loses nothing**, whatever passes it takes. -/
theorem meaning_subset_meaning_nest (hparse : Source.parse t = .ok root)
    (hreg : root.regular = true) (o : Options) :
    (nest o Factory.clone root).2.failure = none ∧
      root.meaning ⊆ (nest o Factory.clone root).1.meaning := by
  refine ⟨failure_nest Factory.clone_obliging o root, fun x hx => ?_⟩
  exact (mem_meaning_nest o _ (neat_of_parse hparse hreg)).mpr (Or.inl hx)

/-- The sheet `a,b{c:r}a:h{c:b}`, in which a rule goes into one with two parts. -/
def listHoverSheet : Text :=
  ['a', ',', 'b', '{', 'c', ':', 'r', '}', 'a', ':', 'h', '{', 'c', ':', 'b', '}']

theorem meaning_subset_meaning_nest_listHoverSheet :
    ∃ root, Source.parse listHoverSheet = .ok root ∧ root.regular = true ∧
      root.meaning ⊆ (nest {} Factory.clone root).1.meaning := by
  have hsheet : ∃ root, Source.parse listHoverSheet = .ok root ∧ root.regular = true :=
    ⟨_, rfl, by decide⟩
  obtain ⟨root, hparse, hreg⟩ := hsheet
  exact ⟨root, hparse, hreg, (meaning_subset_meaning_nest hparse hreg {}).2⟩

/-- **A run that stops on the way loses nothing either**, whatever its factory
    refuses, and without pseudo nesting it adds nothing. -/
theorem meaning_of_refused_nest (hparse : Source.parse t = .ok root)
    (hreg : root.regular = true) (o : Options) (f : Factory) :
    root.meaning ⊆ (nest o f root).1.meaning ∧
      (o.nestPseudos = false → (nest o f root).1.meaning = root.meaning) := by
  have hmem := fun x => mem_meaning_nest o f (neat_of_parse hparse hreg) (x := x)
  refine ⟨fun x hx => (hmem x).mpr (Or.inl hx), fun ho => ?_⟩
  ext x
  rw [hmem]
  simp [nestMoves, ho]

/-- A factory that builds one rule and no more. -/
def Factory.onlyOnce : Factory :=
  ⟨true, fun kind calls => if kind = .rule ∧ 0 < calls then some "no more" else none⟩

/-- A run that stops while the rules of a sheet are taken apart. -/
theorem meaning_of_refused_nest_onlyOnce :
    ∃ root, Source.parse atRuleSheet = .ok root ∧ root.regular = true ∧
      (nest { nestPseudos := false } Factory.onlyOnce root).2.failure =
        some (.refused ⟨.rule, "no more"⟩) ∧
      (nest { nestPseudos := false } Factory.onlyOnce root).1.meaning = root.meaning := by
  have hsheet : ∃ root, Source.parse atRuleSheet = .ok root ∧ root.regular = true ∧
      (nest { nestPseudos := false } Factory.onlyOnce root).2.failure =
        some (.refused ⟨.rule, "no more"⟩) := ⟨_, rfl, by decide, rfl⟩
  obtain ⟨root, hparse, hreg, hfailure⟩ := hsheet
  exact ⟨root, hparse, hreg, hfailure,
    (meaning_of_refused_nest hparse hreg { nestPseudos := false } Factory.onlyOnce).2 rfl⟩

end StyleNesting
