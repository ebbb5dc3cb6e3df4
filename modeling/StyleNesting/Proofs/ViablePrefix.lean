/-
  StyleNesting/Proofs/ViablePrefix.lean
  =====================================
  **Errors are not reported late.**  Whenever a text is refused, what stands in front
  of the reported place is the beginning of a text that is accepted: with a semicolon,
  if it ends in the head of an at-rule, and a closing brace for every block that is
  open, it can be read.

  What is open at the end of a text is told from the text alone, by an automaton that
  counts the braces outside of strings and escapes (`outline`).  It agrees with the
  reader wherever a reading gets to (`Reader.Reached.exists_tracked`).  An error is
  met either between statements or behind the head of an at-rule
  (`Reader.of_step_error`), and from both the blocks can be closed
  (`Reader.finish_of_braces`).
-/
import StyleNesting.Proofs.Positions

namespace StyleNesting.Source

open StyleNesting Selector

/-! ### What is open behind a text -/

/-- What is known of a text that was gone through from the left. -/
structure Outline where
  scan : Scan
  /-- The number of blocks that are open. -/
  depth : Nat
  /-- The text behind the last brace or semicolon. -/
  piece : Text

/-- The number of open blocks behind a brace or a semicolon. -/
def depthAfter (c : Char) (depth : Nat) : Nat :=
  if c == '{' then depth + 1 else if c == '}' then depth - 1 else depth

/-- Only outside of strings and escapes the braces and the semicolon count. -/
def Outline.step (o : Outline) (c : Char) : Outline :=
  if o.scan.isOutside && isStop c then ⟨o.scan.step c, depthAfter c o.depth, []⟩
  else ⟨o.scan.step c, o.depth, o.piece ++ [c]⟩

def Outline.run (o : Outline) (t : Text) : Outline := t.foldl Outline.step o

/-- What is open at the end of a text. -/
def outline (t : Text) : Outline := Outline.run ⟨Scan.start, 0, []⟩ t

/-- What a text lacks: a semicolon, if it ends in the head of an at-rule, and a closing brace
    for every block that is open. -/
def completion (t : Text) : Text :=
  (if ((outline t).piece.dropWhile isLayout).head? = some '@' then [';'] else []) ++
    List.replicate (outline t).depth '}'

theorem Outline.run_append (o : Outline) (t u : Text) : o.run (t ++ u) = (o.run t).run u :=
  List.foldl_append

/-- A run belongs to the piece it is met in. -/
theorem Outline.run_of_passes {o : Outline} {u : Text} (hu : Passes o.scan u) :
    o.run u = ⟨o.scan.run u, o.depth, o.piece ++ u⟩ := by
  induction u generalizing o with
  | nil => simp [Outline.run, Scan.run]
  | cons c u ih =>
    obtain ⟨hpass, hu⟩ := passes_cons.mp hu
    have hstep : o.step c = ⟨o.scan.step c, o.depth, o.piece ++ [c]⟩ := by
      rw [Outline.step, not_stop_of_mayPass hpass, if_neg Bool.false_ne_true]
    have htail := ih (o := o.step c) (by rw [hstep]; exact hu)
    rw [hstep] at htail
    rw [Outline.run, List.foldl_cons, hstep]
    exact htail.trans (by simp [Scan.run])

theorem Outline.step_of_stop {o : Outline} (ho : o.scan.Outside) {c : Char}
    (hc : isStop c = true) : o.step c = ⟨o.scan.step c, depthAfter c o.depth, []⟩ := by
  rw [Outline.step, Scan.isOutside_iff.mpr ho, hc]
  rfl

theorem outside_step_of_stop {s : Scan} (hs : s.Outside) {c : Char} (hc : isStop c = true) :
    (s.step c).Outside := by
  have hback : c ≠ '\\' := by
    rintro rfl
    cases hc
  have hquote : isQuote c = false := by
    rcases isStop_iff.mp hc with rfl | rfl | rfl <;> rfl
  refine ⟨Scan.escaped_step hback, ?_⟩
  rw [Scan.quote_step hs.escaped hback, hs.quote]
  simp [hquote]

/-! ### The outline along a reading -/

/-- The outline knows what the reader has open.  What the reader has in front of it belongs to
    the piece only right behind a declaration. -/
structure Outline.Tracks (o : Outline) (r : Reader) : Prop where
  outside : o.scan.Outside
  depth : o.depth = r.opened.length
  piece : (∀ c ∈ o.piece, isLayout c = true) ∨
    r.opened ≠ [] ∧ (r.rest.head? = some '}' ∨ r.rest.head? = some ';')

/-- **What a step takes off the front**: a run with the stop behind it, or a declaration without
    it. -/
theorem Reader.Move.taken {r r' : Reader} (h : r.Move r') :
    (∃ w c, r.rest = w ++ c :: r'.rest ∧ Run w ∧ isStop c = true ∧
        r'.opened.length = depthAfter c r.opened.length) ∨
      ∃ w, r.rest = w ++ r'.rest ∧ Run w ∧ r'.opened = r.opened ∧ r.opened ≠ [] ∧
        (r'.rest.head? = some '}' ∨ r'.rest.head? = some ';') := by
  cases h with
  | selector hrest hu _ hopened hrest' =>
    refine Or.inl ⟨_, '{', by rw [hrest, hrest'], hu.run, by decide, ?_⟩
    simp [hopened, depthAfter]
  | declaration hrest hc hu hopen _ _ hopened hrest' =>
    refine Or.inr ⟨_, by rw [hrest, hrest'], hu.run, hopened, hopen, ?_⟩
    rw [hrest']
    rcases hc with rfl | rfl
    · exact Or.inl rfl
    · exact Or.inr rfl
  | block hrest hhead _ hopened hrest' =>
    refine Or.inl ⟨_, '{', ?_, hhead.run_head, by decide, ?_⟩
    · rw [hrest, hrest', List.cons_append, List.append_assoc]
    · simp [hopened, depthAfter]
  | statement hrest hhead _ hopened hrest' =>
    refine Or.inl ⟨_, ';', ?_, hhead.run_head, by decide, ?_⟩
    · rw [hrest, hrest', List.cons_append, List.append_assoc]
    · simp [hopened, depthAfter]
  | semicolon hrest _ hopened hrest' =>
    refine Or.inl ⟨[], ';', by rw [hrest, hrest', List.nil_append], Run.nil, by decide, ?_⟩
    simp [hopened, depthAfter]
  | close hrest hopen _ hrest' =>
    refine Or.inl ⟨[], '}', by rw [hrest, hrest', List.nil_append], Run.nil, by decide, ?_⟩
    simp [hopen, depthAfter]

theorem Outline.Tracks.skipLayout {o : Outline} {r : Reader} (h : o.Tracks r) :
    (o.run (r.rest.takeWhile isLayout)).Tracks r.skipLayout := by
  obtain ⟨-, hlayout, -⟩ := Text.span_takeWhile isLayout r.rest
  have hrun : Run (r.rest.takeWhile isLayout) :=
    Run.of_items fun b hb => isItem_of_isBlank (isBlank_of_isLayout (hlayout b hb))
  have hpasses := Run.passes hrun h.outside
  rw [Outline.run_of_passes hpasses]
  refine ⟨hpasses.ends, h.depth, ?_⟩
  rcases h.piece with hpiece | ⟨hopen, hnext⟩
  · refine Or.inl fun c hc => ?_
    rcases List.mem_append.mp hc with hc | hc
    · exact hpiece c hc
    · exact hlayout c hc
  · refine Or.inr ⟨hopen, ?_⟩
    have hrest : r.skipLayout.rest = r.rest := by
      rcases hnext with hnext | hnext <;> exact Reader.rest_skipLayout hnext (by decide)
    rw [hrest]
    exact hnext

/-- The outline of what a step takes off the front. -/
theorem Outline.Tracks.move {o : Outline} {r r' : Reader} (h : o.Tracks r) (hmove : r.Move r') :
    ∃ u, r.rest = u ++ r'.rest ∧ (o.run u).Tracks r' := by
  rcases hmove.taken with ⟨w, c, hrest, hw, hc, hdepth⟩ | ⟨w, hrest, hw, hopened, hopen, hnext⟩
  · have hpasses := Run.passes hw h.outside
    refine ⟨w ++ [c], by rw [hrest, List.append_assoc]; rfl, ?_⟩
    have hrun : o.run (w ++ [c]) = ⟨(o.scan.run w).step c, depthAfter c o.depth, []⟩ := by
      rw [Outline.run_append, Outline.run_of_passes hpasses]
      exact Outline.step_of_stop hpasses.ends hc
    rw [hrun]
    refine ⟨outside_step_of_stop hpasses.ends hc, ?_, Or.inl (by simp)⟩
    rw [hdepth, ← h.depth]
  · have hpasses := Run.passes hw h.outside
    refine ⟨w, hrest, ?_⟩
    rw [Outline.run_of_passes hpasses]
    exact ⟨hpasses.ends, hopened ▸ h.depth, Or.inr ⟨hopened ▸ hopen, hnext⟩⟩

/-- **The outline of what was seen agrees with the reader**, wherever a reading gets to. -/
theorem Reader.Reached.exists_tracked {t : Text} {r : Reader} (h : Reached t r) :
    ∃ seen, t = seen ++ r.rest ∧ (outline seen).Tracks r := by
  induction h with
  | start => exact ⟨[], rfl, Scan.Outside.start, rfl, Or.inl (by simp [outline, Outline.run])⟩
  | @step r r' _ hstep ih =>
    obtain ⟨seen, ht, htracks⟩ := ih
    obtain ⟨u, hrest, htracks'⟩ := htracks.skipLayout.move (Reader.move_of_step hstep)
    obtain ⟨hspan, -, -⟩ := Text.span_takeWhile isLayout r.rest
    have hdrop : r.rest.dropWhile isLayout = u ++ r'.rest := hrest
    refine ⟨seen ++ (r.rest.takeWhile isLayout ++ u), ?_, ?_⟩
    · rw [List.append_assoc, List.append_assoc, ← hdrop, ← hspan]
      exact ht
    · rw [outline, Outline.run_append, Outline.run_append]
      exact htracks'

theorem Reader.Reached.tracked {t seen : Text} {r : Reader} (h : Reached t r)
    (ht : t = seen ++ r.skipLayout.rest) : (outline seen).Tracks r.skipLayout := by
  obtain ⟨seen', ht', htracks⟩ := h.exists_tracked
  obtain ⟨hspan, -, -⟩ := Text.span_takeWhile isLayout r.rest
  have hseen : seen = seen' ++ r.rest.takeWhile isLayout := by
    have ht'' : t = seen' ++ r.rest.takeWhile isLayout ++ r.skipLayout.rest := by
      rw [List.append_assoc]
      exact ht'.trans (congrArg _ hspan)
    exact List.append_cancel_right (ht.symm.trans ht'')
  rw [hseen, outline, Outline.run_append]
  exact htracks.skipLayout

/-! ### Where an error is met -/

/-- The text `p` is what stands in `t` in front of an error: all of it, if what was found is the
    end of the text, and else the text in front of the place that is reported. -/
def ParseError.Cuts (e : ParseError) (t p : Text) : Prop :=
  if e.found = .lexeme .textEnd [] then p = t else p <+: t ∧ Position.behind p = e.position

instance (e : ParseError) (t p : Text) : Decidable (e.Cuts t p) :=
  inferInstanceAs (Decidable (if e.found = .lexeme .textEnd [] then p = t
    else p <+: t ∧ Position.behind p = e.position))

theorem eq_of_behind_eq {p q : Text} (hpq : p <+: q)
    (h : Position.behind p = Position.behind q) : p = q := by
  obtain ⟨u, rfl⟩ := hpq
  rw [List.self_eq_append_right]
  by_contra hu
  have hbefore := Position.before_advance hu (Position.behind p)
  rw [← advance_eq_behind, ← advance_append, advance_eq_behind, advance_eq_behind, h] at hbefore
  rcases hbefore with hline | ⟨-, hcolumn⟩
  · exact absurd hline (Int.lt_irrefl _)
  · exact absurd hcolumn (Int.lt_irrefl _)

theorem ParseError.Cuts.unique {e : ParseError} {t p q : Text} (hp : e.Cuts t p)
    (hq : e.Cuts t q) : p = q := by
  unfold ParseError.Cuts at hp hq
  split at hp
  · rename_i hend
    rw [if_pos hend] at hq
    rw [hp, hq]
  · rename_i hend
    rw [if_neg hend] at hq
    rcases List.prefix_or_prefix_of_prefix hp.1 hq.1 with hpq | hpq
    · exact eq_of_behind_eq hpq (hp.2.trans hq.2.symm)
    · exact (eq_of_behind_eq hpq (hq.2.trans hp.2.symm)).symm

/-- An error at a character does not name the end of the text. -/
theorem found_unexpected (place : Place) (p : Position) (c : Char) (t : Text) :
    (unexpected place p c t).found ≠ .lexeme .textEnd [] := by
  have hlexeme : ∀ n, anyLexeme? (c :: t) ≠ some (.textEnd, n) := by
    intro n h
    unfold anyLexeme? at h
    repeat' split at h
    all_goals cases h
  unfold unexpected
  split
  · rename_i terminal n hn
    intro h
    rw [Found.lexeme.injEq] at h
    exact hlexeme n (h.1 ▸ hn)
  · intro h
    cases h

theorem position_unexpected (place : Place) (p : Position) (c : Char) (t : Text) :
    (unexpected place p c t).position = p := by
  unfold unexpected
  split <;> rfl

/-- What is in front of an error but behind the last statement: nothing, or the head of an
    at-rule. -/
inductive Unfinished : Text → Prop
  | nothing : Unfinished []
  | head {name prelude : Text} (hhead : AtHead name prelude) :
      Unfinished ('@' :: (name ++ prelude))

/-- An error that a reader in front of `u ++ v` meets behind `u`. -/
def ParseError.MetBehind (e : ParseError) (r : Reader) (u v : Text) : Prop :=
  if e.found = .lexeme .textEnd [] then v = [] else e.position = advance r.here u

theorem metBehind_unexpectedEnd (r : Reader) (place : Place) (last : Position) (u : Text) :
    (unexpectedEnd place last).MetBehind r u [] := by
  simp [ParseError.MetBehind, unexpectedEnd]

theorem metBehind_unexpected (r : Reader) (place : Place) (c : Char) (t u v : Text) :
    (unexpected place (advance r.here u) c t).MetBehind r u v := by
  rw [ParseError.MetBehind, if_neg (found_unexpected _ _ _ _), position_unexpected]

theorem Reader.of_readAtRule_error {r : Reader} {e : ParseError} {name t : Text}
    (hrest : r.rest = '@' :: (name ++ t)) (hne : name ≠ [])
    (hname : ∀ c ∈ name, isAtChar c = true) (ht : ∀ c, t.head? = some c → isAtChar c = false)
    (h : r.readAtRule (name.length + 1) = .error e) :
    ∃ u v, r.rest = u ++ v ∧ Unfinished u ∧ e.MetBehind r u v := by
  have hdrop : r.rest.drop (name.length + 1) = t := by simp [hrest]
  have htake : r.rest.take (name.length + 1) = '@' :: name := by simp [hrest]
  have hrun := run_take_runLength t
  have hsplit := List.prefix_append_drop (List.take_prefix (runLength t) t)
  simp only [Reader.readAtRule, hdrop, htake] at h
  generalize t.take (runLength t) = prelude at h hrun hsplit
  have hapart : ∀ c, prelude.head? = some c → isAtChar c = false := by
    intro c hc
    apply ht
    obtain ⟨w, rfl⟩ := List.head?_eq_some_iff.mp hc
    rw [hsplit]
    rfl
  refine ⟨'@' :: (name ++ prelude), t.drop prelude.length, ?_, .head ⟨hne, hname, hrun, hapart⟩, ?_⟩
  · rw [hrest, List.cons_append, List.append_assoc, ← hsplit]
  · split at h
    · rename_i hnil
      cases h
      rw [hnil]
      exact metBehind_unexpectedEnd _ _ _ _
    · cases h
    · cases h
    · cases h
      rw [← advance_append]
      exact metBehind_unexpected _ _ _ _ _ _

/-- **Where an error is met**: behind nothing but the head of an at-rule, and not in front of
    what a block may go on with. -/
theorem Reader.of_step_error {r : Reader} {e : ParseError} (h : r.step = .error e) :
    (∃ u v, r.rest = u ++ v ∧ Unfinished u ∧ e.MetBehind r u v) ∧
      ¬ (r.opened ≠ [] ∧ (r.rest.head? = some '}' ∨ r.rest.head? = some ';')) := by
  refine ⟨?_, ?_⟩
  · unfold Reader.step at h
    split at h
    · rename_i hrest
      split at h
      · cases h
      · cases h
        exact ⟨[], [], hrest, .nothing, metBehind_unexpectedEnd _ _ _ _⟩
    · rename_i c t hrest
      rw [← hrest] at h
      split at h
      · cases h
      · split at h
        · cases h
        · split at h
          · rename_i n hn
            obtain ⟨name, t', ht, rfl, hne, hname, hapart⟩ := exists_of_atKeywordLength? hn
            cases hread : r.readAtRule (name.length + 1) with
            | ok r' =>
              rw [hread] at h
              cases h
            | error e' =>
              rw [hread] at h
              cases h
              exact Reader.of_readAtRule_error ht hne hname hapart hread
          · split at h
            · cases h
            · split at h
              · cases h
              · cases h
                exact ⟨[], _, rfl, .nothing, metBehind_unexpected r r.place c t [] _⟩
  · rintro ⟨hopen, hnext | hnext⟩
    · obtain ⟨v, hv⟩ := List.head?_eq_some_iff.mp hnext
      rw [Reader.step_close_eq hv hopen] at h
      cases h
    · obtain ⟨v, hv⟩ := List.head?_eq_some_iff.mp hnext
      rw [Reader.step_semicolon_eq hv] at h
      cases h

/-! ### Closing what is open -/

/-- As many closing braces as blocks are open end the text. -/
theorem Reader.finish_of_braces {r : Reader}
    (hrest : r.rest = List.replicate r.opened.length '}') : ∃ ns, r.finish = .ok ns := by
  induction hn : r.opened.length generalizing r with
  | zero =>
    rw [hn] at hrest
    exact ⟨r.nodes, Reader.finish_nil hrest (List.length_eq_zero_iff.mp hn)⟩
  | succ n ih =>
    obtain ⟨f, fs, hopened⟩ := List.exists_cons_of_length_eq_add_one hn
    have hopenedSkip : r.skipLayout.opened = f :: fs := hopened
    have hrestSkip : r.skipLayout.rest = '}' :: List.replicate n '}' := by
      rw [Reader.skipLayout, hrest, hn, List.replicate_succ]
      rfl
    obtain ⟨r', hstep, hrest', hopened', -⟩ := Reader.step_close hrestSkip hopenedSkip
    have hlength : r'.opened.length = n := by
      rw [hopened] at hn
      rw [hopened']
      exact Nat.succ.inj hn
    rw [Reader.finish_step hstep]
    exact ih (by rw [hrest', hlength]) hlength

/-- Behind the head of an at-rule a semicolon comes first. -/
theorem Reader.finish_of_unfinished {r : Reader} {u : Text} (hu : Unfinished u)
    (hrest : r.rest =
      u ++ ((if u.head? = some '@' then [';'] else []) ++ List.replicate r.opened.length '}')) :
    ∃ ns, r.finish = .ok ns := by
  cases hu with
  | nothing => exact Reader.finish_of_braces hrest
  | @head name prelude hhead =>
    have hskip : r.skipLayout.rest =
        '@' :: (name ++ (prelude ++ ';' :: List.replicate r.opened.length '}')) := by
      rw [Reader.rest_skipLayout (c := '@') (by rw [hrest]; rfl) (by decide), hrest]
      simp
    obtain ⟨r', hstep, hrest', hopened, -⟩ := Reader.step_statement hskip hhead
    have hopened' : r'.opened = r.opened := hopened
    rw [Reader.finish_step hstep]
    exact Reader.finish_of_braces (by rw [hrest', hopened'])

/-! ### Errors are not reported late -/

theorem Unfinished.run {u : Text} (hu : Unfinished u) : Run u := by
  cases hu with
  | nothing => exact Run.nil
  | head hhead => exact hhead.run_head

theorem Unfinished.not_isLayout {u : Text} (hu : Unfinished u) :
    ∀ c, u.head? = some c → isLayout c = false := by
  intro c hc
  cases hu with
  | nothing => cases hc
  | head hhead =>
    cases hc
    rfl

/-- What a text lacks, if it ends behind the head of an at-rule or between statements. -/
theorem Outline.Tracks.completion_eq {seen u : Text} {r : Reader} (h : (outline seen).Tracks r)
    (hfree : ¬ (r.opened ≠ [] ∧ (r.rest.head? = some '}' ∨ r.rest.head? = some ';')))
    (hu : Unfinished u) :
    completion (seen ++ u) =
      (if u.head? = some '@' then [';'] else []) ++ List.replicate r.opened.length '}' := by
  have hpiece := h.piece.resolve_right hfree
  have hpasses := Run.passes hu.run h.outside
  have houtline : outline (seen ++ u) = (outline seen).run u := Outline.run_append _ _ _
  have hdrop : ((outline seen).piece ++ u).dropWhile isLayout = u :=
    Text.dropWhile_span hpiece hu.not_isLayout
  rw [completion, houtline, Outline.run_of_passes hpasses]
  simp only [hdrop, h.depth]

theorem ParseError.MetBehind.cuts {e : ParseError} {r : Reader} {seen u v : Text}
    (h : e.MetBehind r u v) (hhere : r.here = advance ⟨1, 1⟩ seen) :
    e.Cuts (seen ++ (u ++ v)) (seen ++ u) := by
  unfold ParseError.MetBehind at h
  unfold ParseError.Cuts
  split at h
  · rename_i hend
    rw [if_pos hend, h, List.append_nil]
  · rename_i hend
    rw [if_neg hend]
    refine ⟨by rw [← List.append_assoc]; exact List.prefix_append _ _, ?_⟩
    rw [h, hhere, ← advance_append, advance_eq_behind]

/-- **Errors are not reported late**: what stands in front of an error can be completed to a
    text that is accepted. -/
theorem completes_before_error {t : Text} {e : ParseError} (h : read t = .error e) :
    (∃ p, e.Cuts t p) ∧
      ∀ p, e.Cuts t p → ∃ root, read (p ++ completion p) = .ok root := by
  obtain ⟨r, hreached, herror⟩ := exists_reached_of_error h
  obtain ⟨⟨u, v, hrest, hu, hmet⟩, hfree⟩ := Reader.of_step_error herror
  obtain ⟨seen, ht, hhere, hagain⟩ := hreached.exists_front
  have hcuts : e.Cuts t (seen ++ u) := by
    rw [ht, hrest]
    exact hmet.cuts hhere
  refine ⟨⟨seen ++ u, hcuts⟩, fun p hp => ?_⟩
  have htracks := hreached.tracked ht
  rw [hp.unique hcuts, htracks.completion_eq hfree hu, List.append_assoc]
  -- an error is never met right behind a declaration, so any other text fits there
  have hfits : ∀ y, r.skipLayout.Fits y := by
    intro y hopen c hc hhead
    refine absurd ⟨hopen, ?_⟩ hfree
    rcases hc with rfl | rfl
    · exact Or.inl hhead
    · exact Or.inr hhead
  generalize hy : u ++ _ = y
  obtain ⟨ns, hns⟩ := Reader.finish_of_unfinished (r := r.skipLayout.withRest y) hu hy.symm
  have hfinish : (Reader.start (seen ++ y)).run ((seen ++ y).length + 1) = .ok ns :=
    (hagain y (hfits y)).trans hns
  exact ⟨.block {} .sheet ns, by rw [read, hfinish]; rfl⟩

/-- The text `a{b:"}";@c d}`: the block cannot end in the head of an at-rule. -/
def cutShortText : Text :=
  ['a', '{', 'b', ':', '"', '}', '"', ';', '@', 'c', ' ', 'd', '}']

/-- The error that is reported for it. -/
def cutShortError : ParseError :=
  ⟨.lexeme .rightBrace ['}'], ⟨1, 13⟩, [.leftBrace, .semicolon]⟩

theorem completes_before_error_cutShortText :
    read cutShortText = .error cutShortError ∧
      cutShortError.Cuts cutShortText (cutShortText.take 12) ∧
        completion (cutShortText.take 12) = [';', '}'] ∧
          ∃ root, read (cutShortText.take 12 ++ [';', '}']) = .ok root :=
  ⟨rfl, by decide, rfl, (completes_before_error (t := cutShortText) rfl).2 _ (by decide)⟩

end StyleNesting.Source
