/-
  StyleNesting/Proofs/Lookahead.lean
  ==================================
  **How far the reader looks ahead.**  A step of the reader takes a text off the
  front of the rest.  But for the character that ends a declaration, which stays
  in front of the reader, it does not depend on anything further behind
  (`Reader.step_withRest`).

  The readers that are reached on the way through a text are those from which a
  reading of it can be told: it ends at the first one that has no next step
  (`Reader.Reached.exists_last`).  A reader that is reached in a text is reached,
  with another rest, in every text that starts the same way
  (`Reader.Reached.exists_seen`).
-/
import StyleNesting.Proofs.Grammar

namespace StyleNesting.Source

open StyleNesting Selector

/-! ### Another text in front of the reader -/

/-- The reader in front of another text. -/
def Reader.withRest (r : Reader) (t : Text) : Reader := { r with rest := t }

/-- The reader behind a text `u` that ends with a lexeme at `last`. -/
def Reader.past (r : Reader) (last : Position) (u : Text) (afterStatement : Bool) : Reader :=
  { r with afterStatement := afterStatement, last := last, here := advance r.here u }

/-- Whether a text may stand in place of the rest without a change to what was read: inside
    of blocks, a character that may have ended a declaration has to stay. -/
def Reader.Fits (r : Reader) (t : Text) : Prop :=
  r.opened ≠ [] → ∀ c, c = '}' ∨ c = ';' → r.rest.head? = some c → t.head? = some c

theorem advance_append (p : Position) (t u : Text) : advance p (t ++ u) = advance (advance p t) u :=
  List.foldl_append

section Steps

variable {r : Reader}

theorem Reader.take_eq {u v : Text} (hrest : r.rest = u ++ v) (last : Position) (b : Bool) :
    r.take last u.length b = (r.past last u b).withRest v := by
  simp [Reader.take, Reader.past, Reader.withRest, hrest]

theorem Reader.step_selector_past {u v : Text} (hrest : r.rest = u ++ '{' :: v)
    (hu : SelectorText u) :
    r.step = .ok (some (((r.openBlock r.here (.rule (normalize u))).past (advance r.here u)
      (u ++ ['{']) false).withRest v)) := by
  have htake : r.rest.take u.length = u := by rw [hrest, List.take_left]
  have hrest' : (r.openBlock r.here (.rule (normalize u))).rest = u ++ ['{'] ++ v := by
    simp [Reader.openBlock, hrest]
  have hlength : u.length + 1 = (u ++ ['{']).length := by simp
  rw [Reader.step_selector_eq hrest hu, Reader.readSelector, htake, hlength,
    Reader.take_eq hrest']

theorem Reader.step_declaration_past {u v : Text} {c : Char} (hrest : r.rest = u ++ c :: v)
    (hc : c = '}' ∨ c = ';') (hu : DeclarationText u) (hopen : r.opened ≠ []) :
    r.step = .ok (some (((r.add (.declaration ⟨some r.here, none⟩ (declarationOf u))).past r.here
      u false).withRest (c :: v))) := by
  have htake : r.rest.take u.length = u := by rw [hrest, List.take_left]
  rw [Reader.step_declaration_eq hrest hc hu hopen, Reader.readDeclaration, htake]
  exact congrArg (fun r => Except.ok (some r)) (Reader.take_eq (r := r.add _) hrest _ _)

theorem Reader.take_head {name prelude v : Text} {c : Char}
    (hrest : r.rest = '@' :: (name ++ (prelude ++ c :: v))) (last : Position) (b : Bool) :
    r.take last (name.length + 1 + prelude.length + 1) b =
      (r.past last ('@' :: (name ++ (prelude ++ [c]))) b).withRest v := by
  have hlength : name.length + 1 + prelude.length + 1 =
      ('@' :: (name ++ (prelude ++ [c]))).length := by
    simp only [List.length_cons, List.length_append, List.length_nil]
    omega
  rw [hlength]
  exact Reader.take_eq (by simp [hrest]) last b

theorem Reader.step_block_past {name prelude v : Text}
    (hrest : r.rest = '@' :: (name ++ (prelude ++ '{' :: v))) (hhead : AtHead name prelude) :
    r.step = .ok (some (((r.openBlock r.here (.atRule name (Text.trim prelude) true)).past
      (r.headEnd name prelude) ('@' :: (name ++ (prelude ++ ['{']))) false).withRest v)) := by
  rw [Reader.step_block_eq hrest hhead]
  exact congrArg (fun r => Except.ok (some r))
    (Reader.take_head (r := r.openBlock r.here _) hrest _ _)

theorem Reader.step_statement_past {name prelude v : Text}
    (hrest : r.rest = '@' :: (name ++ (prelude ++ ';' :: v))) (hhead : AtHead name prelude) :
    r.step = .ok (some (((r.add (.block ⟨some r.here, none⟩
      (.atRule name (Text.trim prelude) false) [])).past (r.headEnd name prelude)
      ('@' :: (name ++ (prelude ++ [';']))) true).withRest v)) := by
  rw [Reader.step_statement_eq hrest hhead]
  exact congrArg (fun r => Except.ok (some r)) (Reader.take_head (r := r.add _) hrest _ _)

theorem Reader.step_semicolon_past {v : Text} (hrest : r.rest = ';' :: v) :
    r.step = .ok (some ((r.past r.here [';'] false).withRest v)) := by
  rw [Reader.step_semicolon_eq hrest]
  exact congrArg (fun r => Except.ok (some r)) (Reader.take_eq (u := [';']) hrest _ _)

theorem Reader.rest_closeBlock : r.closeBlock.rest = r.rest := by
  unfold Reader.closeBlock
  cases r.opened <;> rfl

theorem Reader.here_closeBlock : r.closeBlock.here = r.here := by
  unfold Reader.closeBlock
  cases r.opened <;> rfl

theorem Reader.closeBlock_withRest (t : Text) :
    (r.withRest t).closeBlock = r.closeBlock.withRest t := by
  obtain ⟨nodes, opened, afterStatement, last, here, rest⟩ := r
  cases opened <;> rfl

theorem Reader.step_close_past {v : Text} (hrest : r.rest = '}' :: v) (hopen : r.opened ≠ []) :
    r.step = .ok (some ((r.closeBlock.past r.here ['}'] true).withRest v)) := by
  rw [Reader.step_close_eq hrest hopen]
  refine congrArg (fun r => Except.ok (some r)) (Reader.take_eq (u := ['}']) ?_ _ _)
  rw [Reader.rest_closeBlock, hrest]
  rfl

/-- **A step takes a text off the front, and does not look further**: with another text
    behind it, which fits, the step is the same. -/
theorem Reader.step_withRest {r' : Reader} (h : r.step = .ok (some r')) :
    ∃ u, u ≠ [] ∧ r.rest = u ++ r'.rest ∧ r'.here = advance r.here u ∧
      ∀ y, r'.Fits y → (r.withRest (u ++ y)).step = .ok (some (r'.withRest y)) := by
  cases Reader.move_of_step h with
  | @selector u v hrest hu =>
    rw [Reader.step_selector_past hrest hu] at h
    cases h
    refine ⟨u ++ ['{'], by simp, by simp [Reader.withRest, hrest], rfl, fun y _ => ?_⟩
    exact Reader.step_selector_past (r := r.withRest _) (by simp [Reader.withRest]) hu
  | @declaration u v c hrest hc hu hopen =>
    rw [Reader.step_declaration_past hrest hc hu hopen] at h
    cases h
    refine ⟨u, fun hnil => ?_, hrest, rfl, fun y hy => ?_⟩
    · obtain ⟨hne, -, -, -⟩ := hu
      simp [hne] at hnil
    · obtain ⟨w, rfl⟩ := List.head?_eq_some_iff.mp (hy hopen c hc rfl)
      exact Reader.step_declaration_past (r := r.withRest _) rfl hc hu hopen
  | @block name prelude v hrest hhead =>
    rw [Reader.step_block_past hrest hhead] at h
    cases h
    refine ⟨'@' :: (name ++ (prelude ++ ['{'])), by simp, by simp [Reader.withRest, hrest], rfl,
      fun y _ => ?_⟩
    exact Reader.step_block_past (r := r.withRest _) (by simp [Reader.withRest]) hhead
  | @statement name prelude v hrest hhead =>
    rw [Reader.step_statement_past hrest hhead] at h
    cases h
    refine ⟨'@' :: (name ++ (prelude ++ [';'])), by simp, by simp [Reader.withRest, hrest], rfl,
      fun y _ => ?_⟩
    exact Reader.step_statement_past (r := r.withRest _) (by simp [Reader.withRest]) hhead
  | @semicolon v hrest =>
    rw [Reader.step_semicolon_past hrest] at h
    cases h
    exact ⟨[';'], by simp, hrest, rfl, fun y _ => Reader.step_semicolon_past rfl⟩
  | @close f v hrest hopened =>
    have hopen : r.opened ≠ [] := by simp [hopened]
    rw [Reader.step_close_past hrest hopen] at h
    cases h
    refine ⟨['}'], by simp, hrest, ?_, fun y _ => ?_⟩
    · rw [← Reader.here_closeBlock (r := r)]
      rfl
    · have hstep := Reader.step_close_past (r := r.withRest ('}' :: y)) rfl hopen
      rw [Reader.closeBlock_withRest] at hstep
      exact hstep

end Steps

/-! ### The readers on the way through a text -/

/-- The readers that are reached in a text, one step after the other. -/
inductive Reader.Reached (t : Text) : Reader → Prop where
  | start : Reached t (Reader.start t)
  | step {r r' : Reader} (h : Reached t r) (hstep : r.skipLayout.step = .ok (some r')) :
      Reached t r'

/-- **A reading ends at a reader that has no next step**, with its nodes or with its error. -/
theorem Reader.Reached.exists_last {t : Text} {r : Reader} (h : Reached t r) {fuel : Nat}
    (hfuel : r.rest.length < fuel) :
    ∃ r', Reached t r' ∧
      ((r'.skipLayout.step = .ok none ∧ r.run fuel = .ok r'.nodes) ∨
        ∃ e, r'.skipLayout.step = .error e ∧ r.run fuel = .error e) := by
  induction fuel generalizing r with
  | zero => exact absurd hfuel (Nat.not_lt_zero _)
  | succ fuel ih =>
    have hlength : r.skipLayout.rest.length ≤ r.rest.length :=
      (List.dropWhile_suffix isLayout).length_le
    rw [Reader.run]
    split
    · rename_i e hstep
      exact ⟨r, h, Or.inr ⟨e, hstep, rfl⟩⟩
    · rename_i hstep
      exact ⟨r, h, Or.inl ⟨hstep, rfl⟩⟩
    · rename_i r' hstep
      have hlt := (Reader.move_of_step hstep).length_lt
      exact ih (.step h hstep) (by omega)

theorem exists_reached_of_read {t : Text} {root : Node} (h : read t = .ok root) :
    ∃ r, Reader.Reached t r ∧ r.skipLayout.step = .ok none ∧ root = .block {} .sheet r.nodes := by
  obtain ⟨ns, rfl, hrun⟩ := exists_run_of_read h
  obtain ⟨r, hr, ⟨hstep, hnodes⟩ | ⟨e, -, herror⟩⟩ :=
    Reader.Reached.start.exists_last (Nat.lt_succ_self t.length)
  · rw [hrun, Except.ok.injEq] at hnodes
    exact ⟨r, hr, hstep, by rw [hnodes]⟩
  · rw [hrun] at herror
    cases herror

theorem exists_reached_of_error {t : Text} {e : ParseError} (h : read t = .error e) :
    ∃ r, Reader.Reached t r ∧ r.skipLayout.step = .error e := by
  unfold read at h
  obtain ⟨r, hr, ⟨-, hnodes⟩ | ⟨e', hstep, herror⟩⟩ :=
    Reader.Reached.start.exists_last (Nat.lt_succ_self t.length)
  · rw [show (Reader.start t).run (t.length + 1) = _ from hnodes] at h
    cases h
  · rw [show (Reader.start t).run (t.length + 1) = _ from herror] at h
    cases h
    exact ⟨r, hr, hstep⟩

theorem Reader.skipLayout_withRest {r : Reader} {y : Text}
    (hy : y.head? = r.skipLayout.rest.head?) :
    (r.withRest (r.rest.takeWhile isLayout ++ y)).skipLayout = r.skipLayout.withRest y := by
  obtain ⟨-, hblanks, hhead⟩ := Text.span_takeWhile isLayout r.rest
  have hhead' : ∀ c, y.head? = some c → isLayout c = false := by
    intro c hc
    exact hhead c (hy ▸ hc)
  simp only [Reader.skipLayout, Reader.withRest, Text.takeWhile_span hblanks hhead',
    Text.dropWhile_span hblanks hhead']

theorem head?_append_of_ne_nil {u : Text} (hu : u ≠ []) (v w : Text) :
    (u ++ v).head? = (u ++ w).head? := by
  obtain ⟨c, u, rfl⟩ := List.exists_cons_of_ne_nil hu
  rfl

/-- **A reader is reached behind a text that was seen, whatever follows**, as long as it
    fits. -/
theorem Reader.Reached.exists_seen {t : Text} {r : Reader} (h : Reached t r) :
    ∃ seen, t = seen ++ r.rest ∧ r.here = advance ⟨1, 1⟩ seen ∧
      ∀ y, r.Fits y → (Reader.start (seen ++ y)).finish = (r.withRest y).finish := by
  induction h with
  | start => exact ⟨[], rfl, rfl, fun _ _ => rfl⟩
  | @step r r' _ hstep ih =>
    obtain ⟨seen, ht, hhere, hfinish⟩ := ih
    obtain ⟨u, hu, hrest, hhere', hagain⟩ := Reader.step_withRest hstep
    obtain ⟨hspan, -, -⟩ := Text.span_takeWhile isLayout r.rest
    have hdrop : r.rest.dropWhile isLayout = u ++ r'.rest := hrest
    generalize hbs : r.rest.takeWhile isLayout = bs at hspan
    rw [hdrop, ← List.append_assoc] at hspan
    refine ⟨seen ++ (bs ++ u), ?_, ?_, fun y hy => ?_⟩
    · rw [ht, hspan, ← List.append_assoc]
    · rw [hhere', advance_append, advance_append, ← hhere, ← hbs]
      rfl
    · have hfits : r.Fits (bs ++ u ++ y) := by
        intro _ c _ hc
        rw [← hc, hspan]
        exact head?_append_of_ne_nil (by simp [hu]) _ _
      have hskip : (r.withRest (bs ++ (u ++ y))).skipLayout = r.skipLayout.withRest (u ++ y) := by
        rw [← hbs]
        apply Reader.skipLayout_withRest
        rw [hrest]
        exact head?_append_of_ne_nil hu _ _
      have hnext : (r.withRest (bs ++ (u ++ y))).skipLayout.step = .ok (some (r'.withRest y)) := by
        rw [hskip]
        exact hagain y hy
      rw [List.append_assoc, hfinish _ hfits, List.append_assoc]
      exact Reader.finish_step hnext

/-! ### In front of the next lexeme -/

theorem Reader.finish_layouts {bs : Text} (hbs : ∀ b ∈ bs, isLayout b = true) (r : Reader)
    (y : Text) :
    (r.withRest (bs ++ y)).finish =
      Reader.finish { r with here := advance r.here bs, rest := y } := by
  induction bs generalizing r with
  | nil => rfl
  | cons b bs ih =>
    have hlayout : isLayout b = true := hbs b (by simp)
    have hfirst : (r.withRest (b :: (bs ++ y))).finish = _ :=
      Reader.finish_layout (r := r.withRest _) hlayout rfl
    exact hfirst.trans (ih (fun c hc => hbs c (by simp [hc])) { r with here := advance r.here [b] })

theorem Reader.Fits.of_skipLayout {r : Reader} {y : Text} (hy : r.skipLayout.Fits y) :
    r.Fits (r.rest.takeWhile isLayout ++ y) := by
  intro hopen c hc hhead
  have hlayout : isLayout c = false := by rcases hc with rfl | rfl <;> rfl
  obtain ⟨w, hw⟩ := List.head?_eq_some_iff.mp hhead
  have hnone : r.rest.takeWhile isLayout = [] := by
    rw [hw]
    exact List.takeWhile_cons_of_neg (by simp [hlayout])
  have hrest : r.skipLayout.rest = r.rest := by
    rw [Reader.skipLayout, hw]
    exact List.dropWhile_cons_of_neg (by simp [hlayout])
  rw [hnone]
  exact hy hopen c hc (by rw [hrest, hhead])

/-- The same of the place where the next lexeme starts. -/
theorem Reader.Reached.exists_front {t : Text} {r : Reader} (h : Reached t r) :
    ∃ seen, t = seen ++ r.skipLayout.rest ∧ r.skipLayout.here = advance ⟨1, 1⟩ seen ∧
      ∀ y, r.skipLayout.Fits y →
        (Reader.start (seen ++ y)).finish = (r.skipLayout.withRest y).finish := by
  obtain ⟨seen, ht, hhere, hagain⟩ := h.exists_seen
  obtain ⟨hspan, hlayout, -⟩ := Text.span_takeWhile isLayout r.rest
  refine ⟨seen ++ r.rest.takeWhile isLayout, ?_, ?_, fun y hy => ?_⟩
  · rw [List.append_assoc]
    exact ht.trans (congrArg _ hspan)
  · rw [advance_append, ← hhere]
    rfl
  · rw [List.append_assoc, hagain _ hy.of_skipLayout]
    exact Reader.finish_layouts hlayout r y

end StyleNesting.Source
