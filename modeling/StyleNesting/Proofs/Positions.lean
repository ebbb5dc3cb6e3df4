/-
  StyleNesting/Proofs/Positions.lean
  ==================================
  **Positions point into the source.**  The reader works on a text whose comments
  are blanked, but the positions that it gives to nodes are meant for the text as
  it was written.  Blanking keeps every line feed and changes characters only into
  spaces (`blanked_blankFrom`), so a place in the one text is the same place in
  the other.

  The nodes that were met so far, each without its children, stand in the order of
  the text (`Reader.heads`).  A step meets one more at most, at the place of the
  reader and spelled by the text in front of it (`Reader.Move.heads`); along a
  reading the places of the nodes increase (`Reader.Reached.ordered`), and each
  node can be read again at its place (`Reader.Reached.spelled`).
-/
import Mathlib.Data.List.Forall2
import Mathlib.Data.List.Induction
import StyleNesting.Proofs.Comments
import StyleNesting.Proofs.Declarations
import StyleNesting.Proofs.Lookahead

namespace StyleNesting

/-! ### Places in a text -/

/-- The place right behind a text that starts in line 1 and column 1: lines are counted by
    line feeds, columns from the last of them. -/
def Position.behind (t : Text) : Position :=
  ⟨1 + t.count '\n', 1 + (t.reverse.takeWhile (· != '\n')).length⟩

/-- The order of places: by lines, and within a line by columns. -/
def Position.Before (p q : Position) : Prop :=
  p.line < q.line ∨ p.line = q.line ∧ p.column < q.column

theorem Position.Before.trans {p q r : Position} (hpq : p.Before q) (hqr : q.Before r) :
    p.Before r := by
  unfold Position.Before at *
  omega

theorem Source.advance_eq_behind (t : Text) : advance ⟨1, 1⟩ t = Position.behind t := by
  induction t using List.reverseRecOn with
  | nil => rfl
  | append_singleton t c ih =>
    rw [advance_append, ih]
    by_cases hc : c = '\n'
    · subst hc
      simp [advance, Position.behind, Int.add_assoc]
    · simp [advance, Position.behind, hc, Int.add_assoc]

theorem Position.before_advance_singleton (p : Position) (c : Char) :
    p.Before (Source.advance p [c]) := by
  by_cases hc : c = '\n'
  · apply Or.inl
    simp only [Source.advance, hc, List.foldl_cons, List.foldl_nil]
    exact Int.lt_add_one_of_le (Int.le_refl _)
  · apply Or.inr
    simp only [Source.advance, List.foldl_cons, List.foldl_nil, beq_iff_eq, hc, if_false]
    exact ⟨trivial, Int.lt_add_one_of_le (Int.le_refl _)⟩

theorem Position.Before.advance {p q : Position} (h : p.Before q) (u : Text) :
    p.Before (Source.advance q u) := by
  induction u generalizing q with
  | nil => exact h
  | cons c u ih => exact ih (h.trans (q.before_advance_singleton c))

theorem Position.before_advance {u : Text} (hu : u ≠ []) (p : Position) :
    p.Before (Source.advance p u) := by
  obtain ⟨c, u, rfl⟩ := List.exists_cons_of_ne_nil hu
  exact Position.Before.advance (p.before_advance_singleton c) u

/-! ### What blanking keeps -/

namespace Source

open Selector

/-- Two texts of one length that differ only where the second has a space, and nowhere in
    their line feeds. -/
def Blanked (t u : Text) : Prop := List.Forall₂ (fun c d => d = c ∨ d = ' ' ∧ c ≠ '\n') t u

theorem blanked_blankFrom (r : Region) (t : Text) : Blanked t (blankFrom r t) := by
  fun_induction blankFrom r t with
  | case1 r => exact .nil
  | case2 t hend ih | case7 t ih =>
    exact .cons (Or.inr ⟨rfl, by decide⟩) (.cons (Or.inr ⟨rfl, by decide⟩) ih)
  | case3 t hend ih | case5 q c t ih => exact .cons (Or.inl rfl) (.cons (Or.inl rfl) ih)
  | case4 c t hslash ih | case6 q c t hback ih => exact .cons (Or.inl rfl) ih
  | case8 c t hstar ih =>
    by_cases hc : c = '\n'
    · exact .cons (Or.inl (by simp [hc])) ih
    · exact .cons (Or.inr (by simp [hc])) ih

theorem Blanked.advance {t u : Text} (h : Blanked t u) (p : Position) :
    advance p t = advance p u := by
  induction h generalizing p with
  | nil => rfl
  | @cons c d t u hcd _ ih =>
    have hfeed : c = '\n' ↔ d = '\n' := by
      rcases hcd with rfl | ⟨rfl, hc⟩
      · rfl
      · exact ⟨fun h => absurd h hc, fun h => absurd h (by decide)⟩
    have hstep : Source.advance p [c] = Source.advance p [d] := by
      simp only [Source.advance, List.foldl_cons, List.foldl_nil, beq_iff_eq, hfeed]
    have htail := ih (Source.advance p [c])
    rw [hstep] at htail
    rw [← List.singleton_append, ← List.singleton_append (x := d), advance_append,
      advance_append, hstep, htail]

/-- A text without spaces stands in the source where it stands in the blanked text. -/
theorem Blanked.isPrefix {t w v : Text} (h : Blanked t (w ++ v)) (hw : ∀ c ∈ w, c ≠ ' ') :
    w <+: t := by
  induction w generalizing t with
  | nil => exact List.nil_prefix
  | cons d w ih =>
    obtain ⟨c, t, hcd, htail, rfl⟩ := List.forall₂_cons_right_iff.mp h
    have hd : d = c := hcd.resolve_right fun hspace => hw d (by simp) hspace.1
    rw [hd, List.prefix_cons_inj]
    exact ih htail fun c hc => hw c (by simp [hc])

/-! ### How a node is spelled -/

/-- The text in front of the first opening brace outside of strings and escapes. -/
def uptoBrace : Scan → Text → Text
  | _, [] => []
  | s, c :: t =>
    if s.isOutside && c == '{' then [] else c :: uptoBrace (s.step c) t

theorem Passes.uptoBrace_append {s : Scan} {u : Text} (hu : Passes s u) (v : Text) :
    uptoBrace s (u ++ '{' :: v) = u := by
  induction u generalizing s with
  | nil =>
    have hs : s.isOutside = true := Scan.isOutside_iff.mpr hu.ends
    simp [uptoBrace, hs]
  | cons c u ih =>
    obtain ⟨hpass, hu⟩ := passes_cons.mp hu
    have hbrace : (s.isOutside && c == '{') = false := by
      have hstop := not_stop_of_mayPass hpass
      by_cases hc : c = '{'
      · rw [hc] at hstop ⊢
        exact hstop
      · simp [hc]
    rw [List.cons_append, uptoBrace, hbrace, if_neg Bool.false_ne_true, ih hu]

end Source

open Source Selector

/-- What stands in the source, and in the source without comments, at the place of a node:
    the property of a declaration, which a colon follows; an at sign with the name of an
    at-rule; or the selector of a rule up to its opening brace. -/
def Node.StandsAt (source stripped : Text) : Node → Prop
  | .declaration _ d =>
    d.property <+: source ∧ (∀ c ∈ d.property, isNameChar c = true) ∧
      ∃ blanks v, stripped = d.property ++ (blanks ++ ':' :: v) ∧
        ∀ b ∈ blanks, Text.isBlank b = true
  | .block _ (.atRule name _ _) _ =>
    '@' :: name <+: source ∧ (∀ c ∈ name, isAtChar c = true) ∧
      ∃ v, stripped = '@' :: (name ++ v) ∧ ∀ c, v.head? = some c → isAtChar c = false
  | .block _ (.rule selector) _ =>
    normalize (uptoBrace Scan.start stripped) = selector ∧
      ∃ v, stripped = uptoBrace Scan.start stripped ++ '{' :: v
  | _ => False

theorem Node.origin_setNodes (ns : List Node) (n : Node) : (n.setNodes ns).origin = n.origin := by
  cases n <;> rfl

theorem Node.standsAt_setNodes {n : Node} {source stripped : Text} {ns : List Node} :
    (n.setNodes ns).StandsAt source stripped ↔ n.StandsAt source stripped := by
  cases n with
  | block o h ns => cases h <;> rfl
  | declaration o d => rfl
  | leaf o => rfl

/-- What is spelled in the blanked text is spelled in the source. -/
theorem Node.StandsAt.of_blanked {n : Node} {source stripped : Text}
    (h : n.StandsAt stripped stripped) (hblanked : Blanked source stripped) :
    n.StandsAt source stripped := by
  cases n with
  | declaration o d =>
    obtain ⟨-, hname, blanks, v, hv, hblanks⟩ := h
    refine ⟨?_, hname, blanks, v, hv, hblanks⟩
    rw [hv] at hblanked
    apply hblanked.isPrefix
    rintro c hc rfl
    exact absurd (hname ' ' hc) (by decide)
  | block o header ns =>
    cases header with
    | atRule name params hasBlock =>
      obtain ⟨-, hname, v, hv, hapart⟩ := h
      refine ⟨?_, hname, v, hv, hapart⟩
      rw [hv, ← List.cons_append] at hblanked
      apply hblanked.isPrefix
      rintro c hc rfl
      rcases List.mem_cons.mp hc with hat | hc
      · exact absurd hat (by decide)
      · exact absurd (hname ' ' hc) (by decide)
    | rule selector | sheet | group => exact h
  | leaf o => exact h

theorem Source.AtHead.standsAt {name prelude v t : Text} {c : Char} (hhead : AtHead name prelude)
    (hc : isStop c = true) (ht : t = '@' :: (name ++ (prelude ++ c :: v))) (o : Origin)
    (params : Text) (hasBlock : Bool) :
    (Node.block o (.atRule name params hasBlock) []).StandsAt t t := by
  refine ⟨?_, hhead.name, _, ht, hhead.apart_append hc v⟩
  rw [ht, ← List.cons_append]
  exact List.prefix_append _ _

/-! ### The nodes that were met, in the order of the text -/

namespace Source

/-- The nodes of a list of trees in the order of the text, each without its children. -/
def heads (ns : List Node) : List Node := (Node.walkAll ns).map (Node.setNodes [])

theorem heads_append (ns ms : List Node) : heads (ns ++ ms) = heads ns ++ heads ms := by
  simp [heads, Node.walkAll_eq_flatMap]

theorem heads_block (o : Origin) (h : Header) (ns : List Node) :
    heads [.block o h ns] = .block o h [] :: heads ns := by
  simp [heads, Node.walkAll, Node.walk, Node.setNodes]

theorem heads_declaration (o : Origin) (d : Declaration) :
    heads [.declaration o d] = [.declaration o d] := rfl

/-- The nodes that a reader has met, the open blocks included. -/
def Reader.heads (r : Reader) : List Node :=
  (r.opened.reverse.flatMap fun f => Source.heads f.before ++ [.block f.origin f.header []]) ++
    Source.heads r.nodes

/-- **A step meets one node at most**, at the place of the reader and spelled by the text in
    front of it. -/
theorem Reader.Move.heads {r r' : Reader} (h : r.Move r') :
    r'.heads = r.heads ∨
      ∃ n, r'.heads = r.heads ++ [n] ∧ n.origin.source = some r.here ∧
        n.StandsAt r.rest r.rest := by
  cases h with
  | @selector u v hrest hu hnodes hopened _ =>
    have hupto := hu.run.uptoBrace_append v
    refine Or.inr ⟨.block ⟨some r.here, none⟩ (.rule (normalize u)) [], ?_, rfl, ?_, v, ?_⟩
    · simp [Reader.heads, hnodes, hopened, Source.heads, Node.walkAll]
    · rw [hrest, hupto]
    · rw [hrest, hupto]
  | @declaration u v c hrest _ hu _ _ hnodes hopened _ =>
    refine Or.inr ⟨.declaration ⟨some r.here, none⟩ (declarationOf u), ?_, rfl, ?_⟩
    · rw [Reader.heads, Reader.heads, hnodes, hopened, heads_append, List.append_assoc,
        heads_declaration]
    · obtain ⟨-, hname, hblanks, -⟩ := hu
      rw [hrest, Node.StandsAt, declarationOf_append hname hblanks, List.append_assoc,
        List.append_assoc, List.cons_append]
      exact ⟨List.prefix_append _ _, hname, _, _, rfl, hblanks⟩
  | @block name prelude v hrest hhead hnodes hopened _ =>
    refine Or.inr ⟨.block ⟨some r.here, none⟩ (.atRule name (Text.trim prelude) true) [], ?_,
      rfl, hhead.standsAt (by decide) hrest _ _ _⟩
    simp [Reader.heads, hnodes, hopened, Source.heads, Node.walkAll]
  | @statement name prelude v hrest hhead hnodes hopened _ =>
    refine Or.inr ⟨.block ⟨some r.here, none⟩ (.atRule name (Text.trim prelude) false) [], ?_,
      rfl, hhead.standsAt (by decide) hrest _ _ _⟩
    rw [Reader.heads, Reader.heads, hnodes, hopened, heads_append, List.append_assoc, heads_block]
    rfl
  | semicolon _ hnodes hopened _ =>
    exact Or.inl (by rw [Reader.heads, Reader.heads, hnodes, hopened])
  | close _ hopen hnodes _ =>
    refine Or.inl ?_
    rw [Reader.heads, Reader.heads, hnodes, hopen, heads_append, heads_block]
    simp

/-- **The places of the nodes increase** along a reading. -/
theorem Reader.Reached.ordered {t : Text} {r : Reader} (h : Reached t r) :
    ∃ ps : List Position, r.heads.map (·.origin.source) = ps.map some ∧
      ps.Pairwise Position.Before ∧ ∀ p ∈ ps, p.Before r.here := by
  induction h with
  | start => exact ⟨[], rfl, .nil, by simp⟩
  | @step r r' _ hstep ih =>
    obtain ⟨ps, hps, hpairwise, hbefore⟩ := ih
    obtain ⟨u, hu, -, hhere, -⟩ := Reader.step_withRest hstep
    have hskip : ∀ p ∈ ps, p.Before r.skipLayout.here := fun p hp => (hbefore p hp).advance _
    have hnext : ∀ p ∈ ps, p.Before r'.here := by
      intro p hp
      rw [hhere]
      exact (hskip p hp).advance u
    rcases (Reader.move_of_step hstep).heads with hheads | ⟨n, hheads, hplace, -⟩
    · exact ⟨ps, by rw [hheads]; exact hps, hpairwise, hnext⟩
    · refine ⟨ps ++ [r.skipLayout.here], ?_, ?_, ?_⟩
      · rw [hheads, List.map_append, List.map_append, List.map_singleton, hplace]
        exact congrArg (· ++ _) hps
      · rw [List.pairwise_append]
        refine ⟨hpairwise, List.pairwise_singleton _ _, fun p hp q hq => ?_⟩
        rw [List.mem_singleton.mp hq]
        exact hskip p hp
      · intro p hp
        rcases List.mem_append.mp hp with hp | hp
        · exact hnext p hp
        · rw [List.mem_singleton.mp hp, hhere]
          exact Position.before_advance hu _

/-- **Every node can be read again at its place.** -/
theorem Reader.Reached.spelled {t : Text} {r : Reader} (h : Reached t r) :
    ∀ n ∈ r.heads, ∃ u v, t = u ++ v ∧ n.origin.source = some (Position.behind u) ∧
      n.StandsAt v v := by
  induction h with
  | start => simp [Reader.heads, Reader.start, Source.heads, Node.walkAll]
  | @step r r' hreached hstep ih =>
    intro n hn
    rcases (Reader.move_of_step hstep).heads with hheads | ⟨m, hheads, hplace, hspelled⟩
    · rw [hheads] at hn
      exact ih n hn
    · rw [hheads] at hn
      rcases List.mem_append.mp hn with hn | hn
      · exact ih n hn
      · obtain ⟨seen, ht, hhere, -⟩ := hreached.exists_front
        rw [advance_eq_behind] at hhere
        rw [List.mem_singleton.mp hn]
        exact ⟨seen, r.skipLayout.rest, ht, by rw [hplace, hhere], hspelled⟩

/-- **Positions point into the source text.**  In the order of the document the nodes of a
    tree that was parsed have increasing places, and at the place of each the source, with
    its comments or without them, reads what the node was read from. -/
theorem positions_of_parse {t : Text} {root : Node} (h : parse t = .ok root) :
    (∃ ps : List Position, root.walk.map (·.origin.source) = ps.map some ∧
        ps.Pairwise Position.Before) ∧
      ∀ n ∈ root.walk, ∃ k, n.origin.source = some (Position.behind (t.take k)) ∧
        n.StandsAt (t.drop k) ((blankComments t).drop k) := by
  obtain ⟨r, hreached, hend, rfl⟩ := exists_reached_of_read h
  have hopened : r.opened = [] := (Reader.of_step_none hend).2
  have hheads : r.heads = (Node.walkAll r.nodes).map (Node.setNodes []) := by
    simp [Reader.heads, hopened, Source.heads]
  refine ⟨?_, fun n hn => ?_⟩
  · obtain ⟨ps, hps, hpairwise, -⟩ := hreached.ordered
    refine ⟨ps, ?_, hpairwise⟩
    rw [← hps, hheads, List.map_map]
    exact List.map_congr_left fun n _ => by rw [Function.comp_apply, Node.origin_setNodes]
  · have hn' : n.setNodes [] ∈ r.heads := by
      rw [hheads]
      exact List.mem_map_of_mem hn
    obtain ⟨u, v, huv, hplace, hspelled⟩ := hreached.spelled _ hn'
    have hblanked : Blanked t (u ++ v) := huv ▸ blanked_blankFrom .plain t
    have htake : Blanked (t.take u.length) u := by
      have htake := List.forall₂_take u.length hblanked
      rwa [List.take_left] at htake
    have hdrop : Blanked (t.drop u.length) v := by
      have hdrop := List.forall₂_drop u.length hblanked
      rwa [List.drop_left] at hdrop
    refine ⟨u.length, ?_, ?_⟩
    · rw [← advance_eq_behind, htake.advance, advance_eq_behind, ← hplace, Node.origin_setNodes]
    · rw [huv, List.drop_left]
      exact (Node.standsAt_setNodes.mp hspelled).of_blanked hdrop

/-- A sheet of four lines: a comment over two lines in a selector, a string over two lines with
    a brace in it, and comments in front of a property and behind it. -/
def patchySheet : Text :=
  ['a', '/', '*', '\n', '*', '/', 'b', '{', 'c', ':', '"', '\n', '{', '"', ';', '/', '*', '\n', '*',
   '/', 'd', '/', '*', '*', '/', ':', 'e', '}', '@', 'f', ' ', 'g', ';']

theorem positions_of_parse_patchySheet :
    ∃ root, parse patchySheet = .ok root ∧
      root.walk.map (·.origin.source) =
        [some ⟨1, 1⟩, some ⟨2, 5⟩, some ⟨4, 3⟩, some ⟨4, 11⟩] ∧
      ∀ n ∈ root.walk, ∃ k, n.origin.source = some (Position.behind (patchySheet.take k)) ∧
        n.StandsAt (patchySheet.drop k) ((blankComments patchySheet).drop k) :=
  ⟨_, rfl, rfl, (positions_of_parse rfl).2⟩

end Source

end StyleNesting
