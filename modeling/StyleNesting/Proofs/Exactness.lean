/-
  StyleNesting/Proofs/Exactness.lean
  ==================================
  **Pseudo nesting is exact for selectors of one part.**  A base with one part is
  read as one thing, and a rule that goes into it is read there as exactly what
  it was read as before: the suffix after the ampersand is put behind the
  effective selectors of the base, and these are what the rule's own part started
  with (`Scope.enter_enter_suffix`).  So no declaration is said more often or
  less often than before (`nestPseudos_exact`).

  The parts here are a little more general than atoms.  A blank at the end of a
  selector may be escaped; trimming cuts it off, and leaves a part whose last
  backslash has nothing to escape.  A pseudo suffix does not mind: its colon takes
  the scan back to the start either way.
-/
import StyleNesting.Proofs.Settled

namespace StyleNesting

open Node

namespace Selector

/-! ### Parts that stand alone -/

/-- A text that is a selector list of one part.  Like an atom, save that there may be a
    backslash left over at its end. -/
structure Solo (p : Text) : Prop where
  nonempty : p ≠ []
  trimmed : Text.Trimmed p
  whole : unbroken isComma Scan.start p = true
  closed : Scan.start.run p = Scan.start ∨ Scan.start.run p = Scan.dangling

theorem Solo.parts {p : Text} (h : Solo p) : parts p = [p] :=
  Piece.parts ⟨h.nonempty, h.trimmed, h.whole⟩

theorem solo_of_mem_parts {t p : Text} (hp : p ∈ Selector.parts t)
    (hclosed : Scan.start.run p = Scan.start ∨ Scan.start.run p = Scan.dangling) : Solo p := by
  obtain ⟨hne, htrimmed, hwhole⟩ := piece_of_mem_parts hp
  exact ⟨hne, htrimmed, hwhole, hclosed⟩

theorem solo_of_balanced {t p : Text} (hbal : balanced t = true) (hp : p ∈ Selector.parts t) :
    Solo p := by
  apply solo_of_mem_parts hp
  obtain ⟨piece, hpiece, rfl, -⟩ := mem_parts.mp hp
  have hpbal := balanced_of_mem_cut (fun _ => isPlain_of_isComma) hbal hpiece
  rcases run_trim hpbal with hstart | ⟨hdangling, -⟩
  · exact Or.inl (balanced_iff.mp hstart)
  · exact Or.inr hdangling

theorem exists_of_isPseudoSuffix {u : Text} (h : isPseudoSuffix u = true) : ∃ v, u = ':' :: v := by
  unfold isPseudoSuffix at h
  split at h
  · exact ⟨_, rfl⟩
  · exact ⟨_, rfl⟩
  · cases h

/-- The colon of a suffix takes the scan back to the start. -/
theorem Solo.run_suffix {p : Text} (hp : Solo p) (v : Text) :
    Scan.start.run (p ++ ':' :: v) = Scan.start.run v := by
  rw [Scan.run_append, Scan.run_cons]
  rcases hp.closed with hstart | hdangling
  · rw [hstart]
    rfl
  · rw [hdangling]
    rfl

/-- The suffix of a part stands alone behind an ampersand. -/
theorem Solo.suffix {p u : Text} (hp : Solo p) (hu : isPseudoSuffix u = true)
    (h : Solo (p ++ u)) : Solo ('&' :: u) := by
  obtain ⟨v, rfl⟩ := exists_of_isPseudoSuffix hu
  refine ⟨by simp, ⟨?_, ?_⟩, ?_, ?_⟩
  · intro c hc
    cases hc
    decide
  · intro c hc
    apply h.trimmed.last c
    rw [List.getLast?_append_of_ne_nil _ (by simp)]
    rwa [List.getLast?_cons_cons] at hc
  · have hwhole := h.whole
    rw [unbroken_append, Bool.and_eq_true, unbroken, Bool.and_eq_true] at hwhole
    have hv : unbroken isComma Scan.start v = true := by
      rcases hp.closed with hstart | hdangling
      · rw [hstart] at hwhole
        exact hwhole.2.2
      · rw [hdangling] at hwhole
        exact hwhole.2.2
    exact hv
  · have hclosed := h.closed
    rwa [hp.run_suffix] at hclosed

/-! ### Selectors of one part -/

/-- A selector with a single part, which leaves nothing open and has no ampersand but in
    front. -/
def Simple (s : Text) : Prop :=
  (Selector.parts s).length = 1 ∧ balanced s = true ∧ '&' ∉ s.tail

instance : DecidablePred Simple := fun _ => inferInstanceAs (Decidable (_ ∧ _ ∧ _))

/-- A part that stands alone, without an ampersand but in front. -/
structure Straight (p : Text) : Prop extends Solo p where
  ampersand : '&' ∉ p.tail

/-- The selector has one part, and that is straight. -/
def OnePart (s : Text) : Prop := ∃ p, Selector.parts s = [p] ∧ Straight p

theorem mem_tail_of_inner {p t : Text} (h : p <:+: t) {c : Char} (hc : c ∈ p.tail) :
    c ∈ t.tail := by
  obtain ⟨a, b, rfl⟩ := h
  cases a with
  | nil =>
    cases p with
    | nil => cases hc
    | cons d p => exact List.mem_append_left b hc
  | cons d a =>
    rw [List.cons_append, List.cons_append, List.tail_cons]
    exact List.mem_append_left b (List.mem_append_right a (List.mem_of_mem_tail hc))

theorem Simple.onePart {s : Text} (h : Simple s) : OnePart s := by
  obtain ⟨hone, hbal, hamp⟩ := h
  obtain ⟨p, hp⟩ := List.length_eq_one_iff.mp hone
  have hmem : p ∈ Selector.parts s := by simp [hp]
  refine ⟨p, hp, solo_of_balanced hbal hmem, fun hin => ?_⟩
  exact hamp (mem_tail_of_inner (infix_of_mem_parts hmem) hin)

theorem Straight.suffix {p u : Text} (hp : Straight p) (hu : isPseudoSuffix u = true)
    (h : Straight (p ++ u)) : Straight ('&' :: u) := by
  refine ⟨hp.toSolo.suffix hu h.toSolo, fun hin => h.ampersand ?_⟩
  rw [List.tail_append_of_ne_nil hp.nonempty]
  exact List.mem_append_right _ hin

end Selector

open Selector

/-- Below a rule, a suffix of its part is read as the part with the suffix was outside. -/
theorem Scope.enter_enter_suffix (sc : Scope) {s s' t p u : Text} (hs : Selector.parts s = [p])
    (hs' : Selector.parts s' = [p ++ u]) (ht : Selector.parts t = ['&' :: u]) (hu : '&' ∉ u) :
    (sc.enter (.rule s)).enter (.rule t) = sc.enter (.rule s') := by
  have hbelow : (sc.enter (.rule s)).ofPart ('&' :: u) = (sc.ofPart p).map (· ++ u) := by
    simp [Scope.enter, Scope.ofPart, hs, resolve_ampersand_cons hu]
  have hselectors : (Selector.parts t).flatMap (sc.enter (.rule s)).ofPart =
      (Selector.parts s').flatMap sc.ofPart := by
    rw [ht, hs', List.flatMap_singleton, List.flatMap_singleton, hbelow,
      Scope.ofPart_append sc p hu]
  exact congrArg (fun selectors => Scope.mk sc.context (some selectors)) hselectors

namespace Pseudos

variable {cs : List Candidate} {w : Work} {b c : Candidate} {part : Text}

theorem exists_onePart {n : Node} (h : n.Styled OnePart) (hrule : n.isRule = true) :
    ∃ p, n.parts = [p] ∧ Straight p := by
  obtain ⟨o, s, ns, rfl⟩ := exists_of_isRule hrule
  exact h.fits

/-- A rule of one part that extends another one is the other part with a suffix. -/
theorem relativeSelector_of_single {q : Text} (hparts : c.parts = [q])
    (hext : c.extendsPart part = true) :
    ∃ u, isPseudoSuffix u = true ∧ q = part ++ u ∧ c.relativeSelector part = '&' :: u := by
  rw [Candidate.extendsPart, hparts] at hext
  have hpseudo : isPseudoOf part q = true := by simpa using hext
  obtain ⟨-, u, hu, rfl⟩ := isPseudoOf_iff.mp hpseudo
  refine ⟨u, hu, rfl, ?_⟩
  rw [Candidate.relativeSelector, hparts]
  simp [Text.join]

section Moving

variable {base moved : Node} (hbase : base.Styled OnePart) (hmoved : moved.Styled OnePart)
  (hbrule : base.isRule = true) (hcrule : moved.isRule = true) (hpart : part ∈ base.parts)
  (hcparts : moved.parts = c.parts) (hext : c.extendsPart part = true)
include hbase hmoved hbrule hcrule hpart hcparts hext

theorem nested_styled (o : Origin) : (nested o c part moved).Styled OnePart := by
  obtain ⟨p, hp, hpstraight⟩ := exists_onePart hbase hbrule
  obtain ⟨q, hq, hqstraight⟩ := exists_onePart hmoved hcrule
  rw [hp, List.mem_singleton] at hpart
  subst hpart
  obtain ⟨u, hu, rfl, hrel⟩ := relativeSelector_of_single (hcparts ▸ hq) hext
  have hstraight := hpstraight.suffix hu hqstraight
  refine styled_rule.mpr ⟨?_, styled_copyAll hmoved.nodes⟩
  rw [hrel]
  exact ⟨_, hstraight.toSolo.parts, hstraight⟩

/-- **A rule inside its base** says what it said before. -/
theorem styles_absorbed (o : Origin) (sc : Scope) :
    (base.append [nested o c part moved]).styles sc = base.styles sc ++ moved.styles sc := by
  obtain ⟨p, hp, hpstraight⟩ := exists_onePart hbase hbrule
  obtain ⟨q, hq, hqstraight⟩ := exists_onePart hmoved hcrule
  rw [hp, List.mem_singleton] at hpart
  subst hpart
  obtain ⟨u, hu, rfl, hrel⟩ := relativeSelector_of_single (hcparts ▸ hq) hext
  have hstraight := hpstraight.suffix hu hqstraight
  obtain ⟨ob, s, ns, rfl⟩ := exists_of_isRule hbrule
  obtain ⟨oc, s', ms, rfl⟩ := exists_of_isRule hcrule
  have hscope := sc.enter_enter_suffix hp hq hstraight.toSolo.parts hstraight.ampersand
  rw [append, styles, stylesAll_append, nested, hrel]
  simp only [stylesAll, styles, nodes, stylesAll_copyAll, List.append_nil, hscope]

end Moving

theorem perm_stylesAll {ns ms : List Node} (h : ns.Perm ms) (sc : Scope) :
    (stylesAll sc ns).Perm (stylesAll sc ms) := by
  rw [stylesAll_eq_flatMap, stylesAll_eq_flatMap]
  exact h.flatMap_right _

/-- Siblings of one part each, which say the same things equally often. -/
structure Exact (ns ms : List Node) : Prop where
  styled : ∀ m ∈ ms, m.Styled OnePart
  perm : ∀ sc, (stylesAll sc ms).Perm (stylesAll sc ns)

theorem absorb_exact (f : Factory) (hw : Tracked cs w) (hb : b ∈ cs) (hc : c ∈ cs)
    (hpart : part ∈ b.parts) {ns : List Node} (h : Exact ns w.nodes) :
    Exact ns (absorb f b.ticket part w c).nodes := by
  rcases absorb_nodes f hw hb hc part with hsame | ⟨o, base, moved, rest, hext,
    ⟨hbrule, hbparts⟩, ⟨hcrule, hcparts⟩, -, hbefore, hafter⟩
  · rwa [hsame]
  · have hold : ∀ m ∈ base :: moved :: rest, m.Styled OnePart :=
      fun m hm => h.styled m (hbefore.mem_iff.mpr hm)
    have hbase := hold base (by simp)
    have hmoved := hold moved (by simp)
    rw [← hbparts] at hpart
    constructor
    · intro m hm
      rcases List.mem_cons.mp (hafter.mem_iff.mp hm) with rfl | hrest
      · apply hbase.append
        intro k hk
        rw [List.mem_singleton.mp hk]
        exact nested_styled hbase hmoved hbrule hcrule hpart hcparts hext o
      · exact hold m (by simp [hrest])
    · intro sc
      have hsame : stylesAll sc (base.append [nested o c part moved] :: rest) =
          stylesAll sc (base :: moved :: rest) := by
        simp only [stylesAll, List.append_assoc,
          styles_absorbed hbase hmoved hbrule hcrule hpart hcparts hext o sc]
      calc stylesAll sc (absorb f b.ticket part w c).nodes
          |>.Perm (stylesAll sc (base.append [nested o c part moved] :: rest)) :=
            perm_stylesAll hafter sc
        _ = stylesAll sc (base :: moved :: rest) := hsame
        _ |>.Perm (stylesAll sc w.nodes) := perm_stylesAll hbefore.symm sc
        _ |>.Perm (stylesAll sc ns) := h.perm sc

theorem level_exact (f : Factory) (p : Progress) {ns : List Node}
    (hns : ∀ n ∈ ns, n.Styled OnePart) : Exact ns (level f p ns).1 :=
  level_preserves (P := Exact ns) f
    (fun _ _ _ _ _ hw hb hc hpart h => absorb_exact f hw hb hc hpart h) p
    ⟨hns, fun _ => List.Perm.refl _⟩

end Pseudos

/-! ### Whole trees -/

/-- A tree of one-part selectors and what became of it say the same things equally often. -/
def SaysExactly (n m : Node) : Prop :=
  (∀ k ∈ n.nodes, k.Styled OnePart) → ∀ sc, (m.styles sc).Perm (n.styles sc)

theorem perm_of_entered {ns ms : List Node} (h : List.Forall₂ (Entered SaysExactly) ns ms)
    (hns : ∀ n ∈ ns, n.Styled OnePart) (sc : Scope) :
    (stylesAll sc ms).Perm (stylesAll sc ns) := by
  induction h with
  | nil => exact List.Perm.refl _
  | @cons n m ns ms hnm _ ih =>
    have hn : n.Styled OnePart := hns n (by simp)
    have hfirst : (m.styles sc).Perm (n.styles sc) := by
      rcases hnm with ⟨-, hexact⟩ | ⟨-, rfl⟩
      · exact hexact hn.nodes sc
      · exact List.Perm.refl _
    exact hfirst.append (ih fun k hk => hns k (by simp [hk]))

theorem follows_exactly {f : Factory} (hf : f.Obliging) :
    Follows (fun _ => Pseudos.level f) SaysExactly := by
  refine ⟨fun _ p ns hp => Pseudos.level_goes_on hf p ns hp,
    fun _ _ _ _ => List.Perm.refl _, ?_⟩
  intro o h p ns ms _ hms hns sc
  have hlevel := Pseudos.level_exact f p hns
  exact (perm_of_entered hms hlevel.styled (sc.enter h)).trans (hlevel.perm (sc.enter h))

/-- **Pseudo nesting is exact for selectors of one part.**  It comes to its end, and every
    declaration takes effect as often as before, in the same contexts and for the same
    effective selectors. -/
theorem nestPseudos_exact (n : Node) (hn : ∀ m ∈ n.nodes, m.Styled Selector.Simple) :
    (nestPseudos Factory.clone {} n).2.failure = none ∧
      ((nestPseudos Factory.clone {} n).1.styles Scope.top).Perm (n.styles Scope.top) := by
  have hends : Ends (fun _ => Pseudos.level Factory.clone) {} n (nestPseudos Factory.clone {} n) :=
    Pass.ends_run Factory.clone .pseudos rfl n
  obtain ⟨hexact, hgo⟩ := hends.follows (follows_exactly Factory.clone_obliging) rfl
  refine ⟨failure_of_goes_on hgo, hexact (fun m hm => ?_) Scope.top⟩
  exact (hn m hm).mono fun _ => Simple.onePart

/-- The sheet `@m x{a:h:i{c:r}a{c:s;&:h{c:t}}a:h{c:r}}`: the base comes after a rule that
    extends it twice over, and already has a rule with an ampersand inside. -/
def chainSheet : Node :=
  .block {} .sheet [.block {} (.atRule ['m'] ['x'] true)
    [.block {} (.rule ['a', ':', 'h', ':', 'i']) [.declaration {} ⟨['c'], ['r'], false⟩],
     .block {} (.rule ['a']) [.declaration {} ⟨['c'], ['s'], false⟩,
      .block {} (.rule ['&', ':', 'h']) [.declaration {} ⟨['c'], ['t'], false⟩]],
     .block {} (.rule ['a', ':', 'h']) [.declaration {} ⟨['c'], ['r'], false⟩]]]

theorem nestPseudos_exact_chainSheet :
    (∀ m ∈ chainSheet.nodes, m.Styled Selector.Simple) ∧
      (nestPseudos Factory.clone {} chainSheet).1 ≠ chainSheet ∧
      (nestPseudos Factory.clone {} chainSheet).2.failure = none ∧
      ((nestPseudos Factory.clone {} chainSheet).1.styles Scope.top).Perm
        (chainSheet.styles Scope.top) := by
  have hsimple : ∀ m ∈ chainSheet.nodes, m.Styled Selector.Simple := by decide +kernel
  exact ⟨hsimple, by decide +kernel, nestPseudos_exact chainSheet hsimple⟩

end StyleNesting
