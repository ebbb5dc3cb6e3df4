/-
  StyleNesting/Proofs/TrailingComment.lean
  ========================================
  **A comment behind a stylesheet.**  Blanking looks for strings without regard to
  the backslashes outside of them, the reader does not; so a quote that is escaped
  outside of strings may look like the start of a string to blanking alone.  Such
  a quote is *loose* if nothing behind it closes the string.

  A comment put behind a sheet changes nothing, unless it closes a loose quote of the
  sheet: then it is not blanked, and the sheet is not read as before
  (`parse_append_comment`).  What the reader makes of a sheet does not depend on what
  stands behind it (`Reader.finish_append`), so all that is to be known about a
  comment is what blanking leaves of it.
-/
import StyleNesting.Proofs.Lookahead
import StyleNesting.Proofs.RoundTrip

namespace StyleNesting.Source

open StyleNesting Selector

/-! ### Reading with more text behind -/

/-- The reader, with more text behind the rest. -/
def Reader.append (r : Reader) (w : Text) : Reader := { r with rest := r.rest ++ w }

section Append

variable {r : Reader}

theorem Reader.append_eq_withRest (w : Text) : r.append w = r.withRest (r.rest ++ w) := rfl

/-- A step does not see what stands behind the text. -/
theorem Reader.step_append {r' : Reader} (h : r.step = .ok (some r')) (w : Text) :
    (r.append w).step = .ok (some (r'.append w)) := by
  obtain ⟨u, -, hrest, -, hagain⟩ := Reader.step_withRest h
  have hfits : r'.Fits (r'.rest ++ w) := by
    intro _ c _ hc
    rw [List.head?_append, hc]
    rfl
  rw [Reader.append_eq_withRest, hrest, List.append_assoc]
  exact hagain _ hfits

theorem Reader.skipLayout_append (h : r.skipLayout.rest ≠ []) (w : Text) :
    (r.append w).skipLayout = r.skipLayout.append w := by
  have hspan : r.rest = r.rest.takeWhile isLayout ++ r.skipLayout.rest :=
    (Text.span_takeWhile isLayout r.rest).1
  have hhead : (r.skipLayout.rest ++ w).head? = r.skipLayout.rest.head? := by
    rw [head?_append_of_ne_nil h w [], List.append_nil]
  rw [Reader.append_eq_withRest, Reader.append_eq_withRest, ← Reader.skipLayout_withRest hhead,
    ← List.append_assoc, ← hspan]

end Append

/-- Blanks in front of the reader bring no nodes. -/
theorem Reader.exists_behind_layout {r : Reader} {bs t : Text} (hrest : r.rest = bs ++ t)
    (hbs : ∀ b ∈ bs, isLayout b = true) :
    ∃ r' : Reader, r.finish = r'.finish ∧ r'.rest = t ∧ r'.opened = r.opened ∧
      r'.nodes = r.nodes := by
  have hreads : Derives (!r.opened.isEmpty) (bs ++ t) [] t := Reads.layouts hbs .stop
  obtain ⟨r', new, hfinish, hrest', hopened, hnodes, hnew⟩ := hreads.reaches hrest rfl
  have hnil : new = [] := List.map_eq_nil_iff.mp hnew
  rw [hnil, List.append_nil] at hnodes
  exact ⟨r', hfinish, hrest', hopened, hnodes⟩

/-- **What is read does not depend on what follows**: behind a text that it accepts,
    the reader has read all of its nodes and has no block open. -/
theorem Reader.finish_append {r : Reader} {ns : List Node} (h : r.finish = .ok ns) (w : Text) :
    ∃ r' : Reader, (r.append w).finish = r'.finish ∧ r'.rest = w ∧ r'.opened = [] ∧
      r'.nodes = ns := by
  suffices hrun : ∀ (fuel : Nat) (r : Reader), r.run fuel = .ok ns → r.rest.length < fuel →
      ∃ r' : Reader, (r.append w).finish = r'.finish ∧ r'.rest = w ∧ r'.opened = [] ∧
        r'.nodes = ns from hrun _ r h (Nat.lt_succ_self _)
  intro fuel
  induction fuel with
  | zero =>
    intro r _ hfuel
    exact absurd hfuel (Nat.not_lt_zero _)
  | succ fuel ih =>
    intro r hrun hfuel
    have hlength : r.skipLayout.rest.length ≤ r.rest.length :=
      (List.dropWhile_suffix isLayout).length_le
    rw [Reader.run] at hrun
    split at hrun
    · cases hrun
    · rename_i hstep
      cases hrun
      obtain ⟨hrest, hopened⟩ := Reader.of_step_none hstep
      obtain ⟨hspan, hblanks, -⟩ := Text.span_takeWhile isLayout r.rest
      have hdrop : r.rest.dropWhile isLayout = [] := hrest
      rw [hdrop, List.append_nil] at hspan
      rw [← hspan] at hblanks
      obtain ⟨r', hfinish, hrest', hopened', hnodes⟩ :=
        Reader.exists_behind_layout (r := r.append w) rfl hblanks
      exact ⟨r', hfinish, hrest', hopened'.trans hopened, hnodes⟩
    · rename_i r' hstep
      have hlt := (Reader.move_of_step hstep).length_lt
      have hne : r.skipLayout.rest ≠ [] := by
        intro hnil
        rw [hnil] at hlt
        exact Nat.not_lt_zero _ hlt
      have hstep' : (r.append w).skipLayout.step = .ok (some (r'.append w)) := by
        rw [Reader.skipLayout_append hne]
        exact Reader.step_append hstep w
      rw [Reader.finish_step hstep']
      exact ih r' hrun (by omega)

theorem exists_behind_of_read {s : Text} {root : Node} (h : read s = .ok root) (w : Text) :
    ∃ (r : Reader) (ns : List Node), root = .block {} .sheet ns ∧
      read (s ++ w) = r.finish.map (Node.block {} .sheet) ∧ r.rest = w ∧ r.opened = [] ∧
      r.nodes = ns := by
  obtain ⟨ns, hroot, hrun⟩ := exists_run_of_read h
  obtain ⟨r, hfinish, hr⟩ := Reader.finish_append (r := Reader.start s) hrun w
  refine ⟨r, ns, hroot, ?_, hr⟩
  rw [← hfinish]
  rfl

/-- Blanks behind a sheet change nothing. -/
theorem read_append_layout {s : Text} {root : Node} (h : read s = .ok root) {bs : Text}
    (hbs : ∀ b ∈ bs, isLayout b = true) : read (s ++ bs) = .ok root := by
  obtain ⟨r, ns, rfl, hread, hrest, hopened, hnodes⟩ := exists_behind_of_read h bs
  obtain ⟨r', hfinish, hrest', hopened', hnodes'⟩ :=
    Reader.exists_behind_layout (t := []) (by rw [hrest, List.append_nil]) hbs
  rw [hread, hfinish, Reader.finish_nil hrest' (hopened'.trans hopened), hnodes', hnodes]
  rfl

/-- Nothing can be derived from a slash but a statement. -/
theorem not_derives_slash {inside : Bool} {w : Text} :
    ¬ Derives inside ('/' :: w) [] [] := by
  intro h
  generalize ht : '/' :: w = t at h
  cases h with
  | stop => cases ht
  | layout hc =>
    cases ht
    cases hc
  | semicolon => cases ht

/-- A slash behind a sheet starts one more statement, or is an error. -/
theorem read_append_slash_ne {s : Text} {root : Node} (h : read s = .ok root) (w : Text) :
    read (s ++ '/' :: w) ≠ .ok root := by
  obtain ⟨r, ns, rfl, hread, hrest, hopened, hnodes⟩ := exists_behind_of_read h ('/' :: w)
  intro hsame
  rw [hread] at hsame
  cases hfinish : r.finish with
  | error e =>
    rw [hfinish] at hsame
    cases hsame
  | ok result =>
    rw [hfinish] at hsame
    cases hsame
    have hleads : Leads (fun _ => True) r.nodes r.opened r.rest ns :=
      Reader.leads_of_run (Nat.lt_succ_self _) hfinish fun _ _ => trivial
    rw [hnodes, hopened, hrest] at hleads
    obtain ⟨new, hnew, hresult⟩ := hleads
    rw [List.self_eq_append_right.mp hresult] at hnew
    exact not_derives_slash hnew

/-! ### Loose quotes -/

/-- A comment that holds the text `c`. -/
def comment (c : Text) : Text := '/' :: '*' :: (c ++ ['*', '/'])

/-- The quotes at which blanking, on its way through a text without comments, finds no
    string, since nothing behind them closes one. -/
def looseQuotes : Region → Text → List Char
  | _, [] => []
  | .plain, c :: t =>
    if isQuote c then
      if closes c t then looseQuotes (.quoted c) t else c :: looseQuotes .plain t
    else looseQuotes .plain t
  | .quoted q, '\\' :: _ :: t => looseQuotes (.quoted q) t
  | .quoted q, c :: t => looseQuotes (if c == q then .plain else .quoted q) t
  | .comment, _ :: _ => []

theorem ne_of_isQuote {q c : Char} (hq : isQuote q = true) (hc : isQuote c = false) :
    (c == q) = false := by
  rw [beq_eq_false_iff_ne]
  rintro rfl
  rw [hq] at hc
  cases hc

theorem closesAfter_append_end {q : Char} (hq : isQuote q = true) (e : Bool) (c : Text) :
    closesAfter q e (c ++ ['*', '/']) = closesAfter q e c := by
  induction c generalizing e with
  | nil =>
    have hstar := ne_of_isQuote hq (by decide : isQuote '*' = false)
    have hslash := ne_of_isQuote hq (by decide : isQuote '/' = false)
    cases e <;> simp [closesAfter, hstar, hslash]
  | cons d c ih => rw [List.cons_append, closesAfter_cons, closesAfter_cons, ih]

/-- Behind the mark that starts a comment no escape is left over. -/
theorem closesAfter_append_comment {q : Char} (hq : isQuote q = true) (e : Bool) (t c : Text) :
    closesAfter q e (t ++ comment c) = (closesAfter q e t || closesAfter q false c) := by
  induction t generalizing e with
  | nil =>
    have hstar := ne_of_isQuote hq (by decide : isQuote '*' = false)
    have hslash := ne_of_isQuote hq (by decide : isQuote '/' = false)
    cases e <;> simp [closesAfter, comment, hstar, hslash, closesAfter_append_end hq]
  | cons d t ih => rw [List.cons_append, closesAfter_cons, closesAfter_cons, ih, Bool.or_assoc]

theorem closes_cons {q c : Char} (hc : c ≠ '\\') (t : Text) :
    closes q (c :: t) = (c == q || closes q t) := by
  rw [closes_eq, closes_eq]
  simp [closesAfter, hc]

theorem closes_append_comment {q : Char} (hq : isQuote q = true) (t c : Text) :
    closes q (t ++ comment c) = (closes q t || closes q c) := by
  rw [closes_eq, closes_eq, closes_eq]
  exact closesAfter_append_comment hq false t c

/-! ### What blanking leaves of a comment -/

theorem blankFrom_plain_cons {c : Char} {t : Text} (h : c = '/' → t.head? ≠ some '*') :
    blankFrom .plain (c :: t) =
      c :: blankFrom (if isQuote c && closes c t then .quoted c else .plain) t := by
  rw [blankFrom]
  rintro u rfl rfl
  exact h rfl rfl

theorem blankFrom_quoted_cons {q c : Char} {t : Text} (h : c = '\\' → t = []) :
    blankFrom (.quoted q) (c :: t) = c :: blankFrom (if c == q then .plain else .quoted q) t := by
  rw [blankFrom]
  rintro d u rfl rfl
  cases h rfl

/-- Nothing is blanked in a string that goes on behind `s`. -/
theorem blankFrom_quoted_append {q : Char} (hq : isQuote q = true) {s : Text}
    (h : closes q s = false) (y : Text) :
    blankFrom (.quoted q) (s ++ '/' :: '*' :: y) = s ++ '/' :: '*' :: blankFrom (.quoted q) y := by
  have hstar := ne_of_isQuote hq (by decide : isQuote '*' = false)
  have hslash := ne_of_isQuote hq (by decide : isQuote '/' = false)
  fun_induction closes q s with
  | case1 =>
    rw [List.nil_append, blankFrom_quoted_cons (by simp), hslash, if_neg (by decide),
      blankFrom_quoted_cons (by simp), hstar]
    rfl
  | case2 =>
    rw [List.cons_append, List.nil_append, blankFrom, blankFrom_quoted_cons (by simp), hstar]
    rfl
  | case3 c t ih => rw [List.cons_append, List.cons_append, blankFrom, ih h]; rfl
  | case4 c t hnil hcons ih =>
    rw [Bool.or_eq_false_iff] at h
    have hback : c ≠ '\\' := fun hc => hnil hc (eq_nil_of_no_escape hcons hc)
    rw [List.cons_append, blankFrom_quoted_cons fun hc => absurd hc hback, h.1, if_neg (by decide),
      ih h.2]
    rfl

/-- What may be left of a comment behind a text with the loose quotes `qs`. -/
inductive Leaves (qs : List Char) (c : Text) : Text → Prop
  | blanked (h : ∀ q ∈ qs, closes q c = false) :
      Leaves qs c (' ' :: ' ' :: blankFrom .comment (c ++ ['*', '/']))
  | kept {q : Char} {v : Text} (hmem : q ∈ qs) (hcloses : closes q c = true) :
      Leaves qs c ('/' :: '*' :: v)

theorem Leaves.cons {qs : List Char} {c w : Text} (h : Leaves qs c w) {q : Char}
    (hq : closes q c = false) : Leaves (q :: qs) c w := by
  cases h with
  | blanked h => exact .blanked (List.forall_mem_cons.mpr ⟨hq, h⟩)
  | kept hmem hcloses => exact .kept (List.mem_cons_of_mem q hmem) hcloses

theorem hasCommentEnd_append_end (c : Text) : hasCommentEnd (c ++ ['*', '/']) = true := by
  induction c with
  | nil => rfl
  | cons d c ih =>
    by_contra h
    rw [List.cons_append, Bool.not_eq_true] at h
    rw [no_commentEnd_of_cons h] at ih
    cases ih

theorem no_mark_of_cons {a b c : Char} {t : Text} (h : ¬ [a, b] <:+: c :: t) :
    (c = a → t.head? ≠ some b) ∧ ¬ [a, b] <:+: t := by
  refine ⟨?_, fun ht => h (List.infix_cons ht)⟩
  rintro rfl hhead
  obtain ⟨u, rfl⟩ := List.head?_eq_some_iff.mp hhead
  exact h ⟨[], u, rfl⟩

/-- **What blanking leaves of a comment behind a text** that has none: nothing but
    blanks, unless a loose quote of the text is closed in it. -/
theorem leaves_blankFrom {r : Region} {s : Text} (hr : r ≠ .comment)
    (hstring : ∀ q, r = .quoted q → closes q s = true) (hmark : ¬ ['/', '*'] <:+: s) (c : Text) :
    ∃ w, blankFrom r (s ++ comment c) = s ++ w ∧ Leaves (looseQuotes r s) c w := by
  have hnext : ∀ {d : Char} {t : Text}, ¬ ['/', '*'] <:+: d :: t →
      d = '/' → (t ++ comment c).head? ≠ some '*' := by
    intro d t hmark hd
    cases t with
    | nil => simp [comment]
    | cons e t => exact (no_mark_of_cons hmark).1 hd
  fun_induction looseQuotes r s with
  | case1 r =>
    cases r with
    | plain =>
      refine ⟨_, ?_, .blanked (by simp)⟩
      rw [List.nil_append, comment, blankFrom, if_pos (hasCommentEnd_append_end c)]
      rfl
    | quoted q => cases hstring q rfl
    | comment => exact absurd rfl hr
  | case2 d t hquote hcloses ih =>
    obtain ⟨w, hw, hleaves⟩ := ih (by simp) (by rintro _ ⟨⟩; exact hcloses) (no_mark_of_cons hmark).2
    refine ⟨w, ?_, hleaves⟩
    rw [List.cons_append, blankFrom_plain_cons (hnext hmark), closes_append_comment hquote, hquote,
      hcloses, Bool.true_or, Bool.true_and, if_pos rfl, hw]
    rfl
  | case3 d t hquote hopen ih =>
    rw [Bool.not_eq_true] at hopen
    have hregion : closes d (t ++ comment c) = closes d c := by
      rw [closes_append_comment hquote, hopen, Bool.false_or]
    rw [List.cons_append, blankFrom_plain_cons (hnext hmark), hregion, hquote, Bool.true_and]
    cases hcloses : closes d c with
    | true =>
      refine ⟨'/' :: '*' :: blankFrom (.quoted d) (c ++ ['*', '/']), ?_,
        .kept List.mem_cons_self hcloses⟩
      rw [if_pos rfl, comment, blankFrom_quoted_append hquote hopen]
      rfl
    | false =>
      obtain ⟨w, hw, hleaves⟩ := ih (by simp) (by simp) (no_mark_of_cons hmark).2
      refine ⟨w, ?_, hleaves.cons hcloses⟩
      rw [if_neg (by decide), hw]
      rfl
  | case4 d t hquote ih =>
    obtain ⟨w, hw, hleaves⟩ := ih (by simp) (by simp) (no_mark_of_cons hmark).2
    refine ⟨w, ?_, hleaves⟩
    rw [List.cons_append, blankFrom_plain_cons (hnext hmark), eq_false_of_ne_true hquote,
      Bool.false_and, if_neg (by decide), hw]
    rfl
  | case5 q d t ih =>
    have hcloses : closes q t = true := hstring q rfl
    obtain ⟨w, hw, hleaves⟩ := ih hr (by rintro _ ⟨⟩; exact hcloses)
      (no_mark_of_cons (no_mark_of_cons hmark).2).2
    refine ⟨w, ?_, hleaves⟩
    rw [List.cons_append, List.cons_append, blankFrom, hw]
    rfl
  | case6 q d t hback ih =>
    have hcloses : closes q (d :: t) = true := hstring q rfl
    have hd : d ≠ '\\' := by
      rintro rfl
      rw [eq_nil_of_no_escape hback rfl] at hcloses
      cases hcloses
    rw [closes_cons hd, Bool.or_eq_true] at hcloses
    have hstring' : ∀ q', (if d == q then Region.plain else .quoted q) = .quoted q' →
        closes q' t = true := by
      intro q' hq'
      split at hq'
      · cases hq'
      · rename_i hne
        cases hq'
        exact hcloses.resolve_left hne
    obtain ⟨w, hw, hleaves⟩ := ih (by split <;> simp) hstring' (no_mark_of_cons hmark).2
    refine ⟨w, ?_, hleaves⟩
    rw [List.cons_append, blankFrom_quoted_cons fun h => absurd h hd, hw]
    rfl
  | case7 => exact absurd rfl hr

theorem blankFrom_of_no_mark {r : Region} (hr : r ≠ .comment) {s : Text}
    (hmark : ¬ ['/', '*'] <:+: s) : blankFrom r s = s := by
  fun_induction blankFrom r s with
  | case1 => rfl
  | case2 t | case3 t => exact absurd ⟨[], t, rfl⟩ hmark
  | case4 c t hslash ih => rw [ih (by split <;> simp) (no_mark_of_cons hmark).2]
  | case5 q c t ih => rw [ih (by simp) (no_mark_of_cons (no_mark_of_cons hmark).2).2]
  | case6 q c t hback ih => rw [ih (by split <;> simp) (no_mark_of_cons hmark).2]
  | case7 | case8 => exact absurd rfl hr

/-- A comment that is blanked is blanks. -/
theorem isLayout_of_mem_blankFrom {c : Text} (hend : ¬ ['*', '/'] <:+: c) {b : Char}
    (hb : b ∈ blankFrom .comment (c ++ ['*', '/'])) : isLayout b = true := by
  induction c with
  | nil =>
    have hblanks : blankFrom .comment ['*', '/'] = [' ', ' '] := rfl
    rw [List.nil_append, hblanks] at hb
    rcases List.mem_pair.mp hb with rfl | rfl <;> rfl
  | cons d c ih =>
    obtain ⟨hhead, hend⟩ := no_mark_of_cons hend
    have hblank : blankFrom .comment (d :: (c ++ ['*', '/'])) =
        (if d == '\n' then '\n' else ' ') :: blankFrom .comment (c ++ ['*', '/']) := by
      rw [blankFrom]
      rintro u rfl hu
      cases c with
      | nil => cases hu
      | cons e c =>
        cases hu
        exact hhead rfl rfl
    rw [List.cons_append, hblank, List.mem_cons] at hb
    rcases hb with rfl | hb
    · split <;> rfl
    · exact ih hend hb

/-! ### Sheets without loose quotes -/

/-- Blanking sees no string behind a loose quote, the automaton sees nothing else. -/
theorem exists_string_of_mem_looseQuotes {r : Region} {s : Text}
    (hregion : ∀ q, r = .quoted q → isQuote q = true) (hmark : ¬ ['/', '*'] <:+: s) {q : Char}
    (hq : q ∈ looseQuotes r s) : ∃ q', (r.watch.run s).settle = .string q' := by
  fun_induction looseQuotes r s with
  | case1 => cases hq
  | case2 d t hquote hcloses ih =>
    obtain ⟨q', hrun⟩ := ih (by rintro _ ⟨⟩; exact hquote) (no_mark_of_cons hmark).2 hq
    refine ⟨q', ?_⟩
    change (Watch.run (Watch.step .plain d) t).settle = _
    rw [step_plain_quote hquote]
    exact hrun
  | case3 d t hquote hopen ih =>
    refine ⟨d, ?_⟩
    change (Watch.run (Watch.step .plain d) t).settle = _
    rw [step_plain_quote hquote]
    exact run_of_not_closes (eq_false_of_ne_true hopen)
  | case4 d t hquote ih =>
    obtain ⟨q', hrun⟩ := ih (by simp) (no_mark_of_cons hmark).2 hq
    refine ⟨q', ?_⟩
    change (Watch.run (Watch.step .plain d) t).settle = _
    rw [step_plain_other (eq_false_of_ne_true hquote)]
    split
    · rename_i hd
      rw [run_slash ((no_mark_of_cons hmark).1 (beq_iff_eq.mp hd))]
      exact hrun
    · exact hrun
  | case5 q' d t ih => exact ih hregion (no_mark_of_cons (no_mark_of_cons hmark).2).2 hq
  | case6 q' d t hback ih =>
    change ∃ q'', (Watch.run (.string q') (d :: t)).settle = _
    rw [run_string_cons (hregion q' rfl) (eq_nil_of_no_escape hback)]
    refine ih (fun q'' hq'' => ?_) (no_mark_of_cons hmark).2 hq
    split at hq''
    · cases hq''
    · exact hregion q'' hq''
  | case7 => cases hq

/-- **A sheet that escapes no quote outside of strings has no loose quotes.** -/
theorem looseQuotes_of_read {s : Text} {root : Node} (h : read s = .ok root)
    (hmark : ¬ ['/', '*'] <:+: s) (hquotes : Scan.start.along sparesQuotes s = true) :
    looseQuotes .plain s = [] := by
  obtain ⟨ns, -, hreads⟩ : ∃ ns, root = .block {} .sheet ns ∧ Derives false s ns [] :=
    reads_of_read h fun _ _ => trivial
  have hstart : Watch.Agrees .plain Scan.start := rfl
  have hagrees := hstart.run Scan.Proper.start hquotes
  refine List.eq_nil_iff_forall_not_mem.mpr fun q hq => ?_
  obtain ⟨q', hrun⟩ := exists_string_of_mem_looseQuotes (by simp) hmark hq
  exact hagrees.settle_ne_string hreads.outside q' hrun

/-! ### A comment behind a stylesheet -/

/-- **A comment behind a stylesheet changes nothing**, places included, exactly if it
    closes no loose quote of the sheet.  It never does if the sheet escapes no quote
    outside of strings. -/
theorem parse_append_comment {s c : Text} {root : Node} (h : parse s = .ok root)
    (hmark : ¬ ['/', '*'] <:+: s) (hend : ¬ ['*', '/'] <:+: c) :
    (parse (s ++ comment c) = .ok root ↔ ∀ q ∈ looseQuotes .plain s, closes q c = false) ∧
      (Scan.start.along sparesQuotes s = true → parse (s ++ comment c) = .ok root) := by
  have hread : read s = .ok root := by
    rwa [parse, blankComments, blankFrom_of_no_mark (by simp) hmark] at h
  have hexact : parse (s ++ comment c) = .ok root ↔
      ∀ q ∈ looseQuotes .plain s, closes q c = false := by
    obtain ⟨w, hw, hleaves⟩ := leaves_blankFrom (r := .plain) (by simp) (by simp) hmark c
    rw [parse, blankComments, hw]
    cases hleaves with
    | blanked hopen =>
      have hlayout : ∀ b ∈ ' ' :: ' ' :: blankFrom .comment (c ++ ['*', '/']), isLayout b = true := by
        simp only [List.forall_mem_cons]
        exact ⟨rfl, rfl, fun b hb => isLayout_of_mem_blankFrom hend hb⟩
      exact iff_of_true (read_append_layout hread hlayout) hopen
    | kept hmem hcloses =>
      refine iff_of_false (read_append_slash_ne hread _) fun hopen => ?_
      rw [hopen _ hmem] at hcloses
      cases hcloses
  refine ⟨hexact, fun hquotes => hexact.mpr fun q hq => ?_⟩
  rw [looseQuotes_of_read hread hmark hquotes] at hq
  cases hq

/-- The sheet `.a\"b{}`, in which an escaped quote is loose. -/
def escapedQuoteSheet : Text := ['.', 'a', '\\', '"', 'b', '{', '}']

/-- A comment with the other quote is harmless. -/
theorem parse_append_comment_escapedQuoteSheet :
    ¬ ['/', '*'] <:+: escapedQuoteSheet ∧ ¬ ['*', '/'] <:+: ['\''] ∧
      looseQuotes .plain escapedQuoteSheet = ['"'] ∧
        ∃ root, parse escapedQuoteSheet = .ok root ∧
          parse (escapedQuoteSheet ++ comment ['\'']) = .ok root :=
  ⟨by decide, by decide, rfl, _, rfl,
    (parse_append_comment (c := ['\'']) rfl (by decide) (by decide)).1.mpr (by decide)⟩

/-- With the same quote it is taken for the rest of a string, and the sheet is refused. -/
theorem parse_escapedQuoteSheet_comment_ne :
    ¬ ['/', '*'] <:+: escapedQuoteSheet ∧ ¬ ['*', '/'] <:+: ['"'] ∧
      ∃ root, parse escapedQuoteSheet = .ok root ∧
        parse (escapedQuoteSheet ++ comment ['"']) ≠ .ok root := by
  refine ⟨by decide, by decide, _, rfl, ?_⟩
  intro h
  cases h

end StyleNesting.Source
