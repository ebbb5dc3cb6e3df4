/-
  StyleNesting/Proofs/Comments.lean
  =================================
  **Strings and comments, followed from the left.**  Blanking comments looks ahead:
  for the quote that closes a string and for the mark that ends a comment.  The
  automaton `Watch` follows both without looking ahead; what it says in the end
  tells whether blanking would change anything.

  Text whose comments have been blanked never ends with a closed comment
  (`watch_blankComments`), and text that ends neither with a closed comment nor
  inside a string has none to blank (`blankComments_eq_self`).  The automaton is a
  gauge, so formatting cannot make a comment of what was none.
-/
import StyleNesting.Proofs.Spacing

namespace StyleNesting.Source

open StyleNesting Selector

/-! ### The automaton -/

/-- What has been seen of strings and comments. -/
inductive Watch where
  | plain
  /-- The last character was a slash. -/
  | slash
  | string (quote : Char)
  | escape (quote : Char)
  /-- Behind the start of a comment whose end has not been seen. -/
  | opened
  /-- The same, and the last character was a star. -/
  | star
  | closed
deriving DecidableEq, Repr

namespace Watch

def step : Watch → Char → Watch
  | .plain, c => if c == '/' then .slash else if isQuote c then .string c else .plain
  | .slash, c =>
    if c == '*' then .opened else if c == '/' then .slash
    else if isQuote c then .string c else .plain
  | .string q, c => if c == '\\' then .escape q else if isQuote c && c == q then .plain else .string q
  | .escape q, _ => .string q
  | .opened, c => if c == '*' then .star else .opened
  | .star, c => if c == '/' then .closed else if c == '*' then .star else .opened
  | .closed, _ => .closed

def run (w : Watch) (t : Text) : Watch := t.foldl step w

/-- What is left of the state after a character that means nothing to it. -/
def settle : Watch → Watch
  | .plain => .plain
  | .slash => .plain
  | .string q => .string q
  | .escape q => .string q
  | .opened => .opened
  | .star => .opened
  | .closed => .closed

theorem step_inert {c : Char} (hc : isInert c = true) (w : Watch) : w.step c = w.settle := by
  simp only [isInert, Bool.not_eq_true', Bool.or_eq_false_iff, beq_eq_false_iff_ne] at hc
  obtain ⟨⟨⟨hslash, hstar⟩, hquote⟩, hback⟩ := hc
  cases w <;> simp [step, settle, hslash, hstar, hquote, hback]

theorem settle_settle (w : Watch) : w.settle.settle = w.settle := by cases w <;> rfl

@[simp]
theorem run_nil (w : Watch) : w.run [] = w := rfl

@[simp]
theorem run_cons (w : Watch) (c : Char) (t : Text) : w.run (c :: t) = (w.step c).run t := rfl

end Watch

/-- The gauge that follows strings and comments. -/
def Watch.gauge : Gauge Watch where
  step := Watch.step
  settle := Watch.settle
  settle_settle := Watch.settle_settle
  step_spacing w c hc := Watch.step_inert (isInert_of_isSpacing hc) w
  step_settle w c hc := by rw [Watch.step_inert hc, Watch.step_inert hc, Watch.settle_settle]
  settle_step w c hc := by rw [Watch.step_inert hc, Watch.settle_settle]

/-! ### Closing strings -/

/-- Whether a string is closed in a text, whose first character may be escaped. -/
def closesAfter (q : Char) : Bool → Text → Bool
  | _, [] => false
  | true, _ :: t => closesAfter q false t
  | false, c :: t => if c == '\\' then closesAfter q true t else c == q || closesAfter q false t

/-- A backslash that escapes nothing is the last character. -/
theorem eq_nil_of_no_escape {c : Char} {t : Text} (h : ∀ d u, c = '\\' → t = d :: u → False)
    (hc : c = '\\') : t = [] := by
  cases t with
  | nil => rfl
  | cons d u => exact (h d u hc rfl).elim

theorem closes_eq (q : Char) (t : Text) : closes q t = closesAfter q false t := by
  fun_induction closes q t with
  | case1 => rfl
  | case2 => rfl
  | case3 c t ih => simpa [closesAfter] using ih
  | case4 c t hnil hcons ih =>
    have hc : c ≠ '\\' := fun hc => hnil hc (eq_nil_of_no_escape hcons hc)
    simp [closesAfter, hc, ih]

/-- In a string that is not closed the automaton stays. -/
theorem run_of_not_closesAfter {q : Char} {escaped : Bool} {t : Text}
    (h : closesAfter q escaped t = false) :
    (Watch.run (if escaped then .escape q else .string q) t).settle = .string q := by
  induction t generalizing escaped with
  | nil => cases escaped <;> rfl
  | cons c t ih =>
    cases escaped with
    | true =>
      have hrest : closesAfter q false t = false := h
      exact ih hrest
    | false =>
      rw [closesAfter] at h
      split at h
      · rename_i hc
        have hstep : Watch.step (.string q) c = .escape q := by simp [Watch.step, hc]
        have hrun := ih h
        simpa [hstep] using hrun
      · rename_i hc
        rw [Bool.or_eq_false_iff] at h
        have hstep : Watch.step (.string q) c = .string q := by simp [Watch.step, hc, h.1]
        have hrun := ih h.2
        simpa [hstep] using hrun

theorem run_of_not_closes {q : Char} {t : Text} (h : closes q t = false) :
    (Watch.run (.string q) t).settle = .string q := by
  rw [closes_eq] at h
  exact run_of_not_closesAfter h

theorem closesAfter_cons (q c : Char) (e : Bool) (t : Text) :
    closesAfter q e (c :: t) =
      ((!e && c != '\\' && c == q) || closesAfter q (!e && c == '\\') t) := by
  cases e with
  | true => simp [closesAfter]
  | false =>
    cases hc : c == '\\' with
    | true => simp [closesAfter, hc, bne]
    | false => simp [closesAfter, hc, bne]

theorem closesAfter_cons_mono {q c : Char} {e : Bool} {t u : Text}
    (h : ∀ e, closesAfter q e t = true → closesAfter q e u = true)
    (ht : closesAfter q e (c :: t) = true) : closesAfter q e (c :: u) = true := by
  rw [closesAfter_cons, Bool.or_eq_true] at ht ⊢
  exact ht.imp_right (h _)

theorem closesAfter_cons_blank {q b : Char} (hq : isQuote q = true) (hb : Text.isBlank b = true)
    (e : Bool) (t : Text) : closesAfter q e (b :: t) = closesAfter q false t := by
  have hplain := isPlain_of_isBlank hb
  have hback : (b == '\\') = false := by
    rw [beq_eq_false_iff_ne]
    rintro rfl
    cases hplain
  have hne : (b == q) = false := by
    rw [beq_eq_false_iff_ne]
    rintro rfl
    simp [isPlain, hq] at hplain
  simp [closesAfter_cons, hback, hne]

/-- Blanking comments closes no string, wherever it starts.  A comment is blanked
    as a whole, so behind it no escape is left over. -/
theorem closesAfter_of_blankFrom {q : Char} (hq : isQuote q = true) (r : Region) (t : Text) :
    ∀ e e', (if r = .comment then e = false else e = e') →
      closesAfter q e (blankFrom r t) = true → closesAfter q e' t = true := by
  have hblank : ∀ {e : Bool} {b : Char} {u : Text}, Text.isBlank b = true →
      closesAfter q e (b :: u) = true → closesAfter q false u = true := by
    intro e b u hb h
    rwa [closesAfter_cons_blank hq hb] at h
  fun_induction blankFrom r t with
  | case1 r =>
    intro e e' _ h
    cases e <;> cases h
  | case2 t hend ih =>
    intro e e' _ h
    have hrest := fun e' => ih false e' rfl (hblank (by decide) (hblank (by decide) h))
    rw [closesAfter_cons, closesAfter_cons, hrest]
    simp
  | case3 t hend ih =>
    rintro e _ rfl h
    exact closesAfter_cons_mono (fun e => closesAfter_cons_mono fun e => ih e e rfl) h
  | case4 c t hslash ih =>
    rintro e _ rfl h
    exact closesAfter_cons_mono (fun e => ih e e (by split <;> rfl)) h
  | case5 q' c t ih =>
    rintro e _ rfl h
    exact closesAfter_cons_mono (fun e => closesAfter_cons_mono fun e => ih e e rfl) h
  | case6 q' c t hback ih =>
    rintro e _ rfl h
    exact closesAfter_cons_mono (fun e => ih e e (by split <;> rfl)) h
  | case7 t ih =>
    intro e e' _ h
    have hrest := ih false false rfl (hblank (by decide) (hblank (by decide) h))
    rw [closesAfter_cons, closesAfter_cons]
    simp [hrest]
  | case8 c t hstar ih =>
    intro e e' _ h
    have hc : Text.isBlank (if c == '\n' then '\n' else ' ') = true := by split <;> decide
    have hrest := fun e' => ih false e' rfl (hblank hc h)
    rw [closesAfter_cons, hrest]
    simp

theorem closes_of_blankFrom_plain {q : Char} (hq : isQuote q = true) {t : Text}
    (h : closes q (blankFrom .plain t) = true) : closes q t = true := by
  rw [closes_eq] at h ⊢
  exact closesAfter_of_blankFrom hq .plain t false false rfl h

/-! ### Ends of comments -/

theorem run_closed (t : Text) : Watch.run .closed t = .closed := by
  induction t with
  | nil => rfl
  | cons c t ih => exact ih

theorem hasCommentEnd_cons {c : Char} {t : Text} (h : c = '*' → t.head? ≠ some '/') :
    hasCommentEnd (c :: t) = hasCommentEnd t := by
  rw [hasCommentEnd]
  rintro u rfl rfl
  exact h rfl rfl

theorem no_commentEnd_of_cons {c : Char} {t : Text} (h : hasCommentEnd (c :: t) = false) :
    hasCommentEnd t = false := by
  rwa [hasCommentEnd_cons] at h
  rintro rfl hhead
  obtain ⟨u, rfl⟩ := List.head?_eq_some_iff.mp hhead
  cases h

/-- Behind the start of a comment only its end counts. -/
theorem run_opened_eq_closed (t : Text) :
    (Watch.run .opened t = .closed ↔ hasCommentEnd t = true) ∧
      (Watch.run .star t = .closed ↔ hasCommentEnd ('*' :: t) = true) := by
  induction t with
  | nil => simp [hasCommentEnd]
  | cons c t ih =>
    by_cases hstar : c = '*'
    · subst hstar
      rw [hasCommentEnd_cons (c := '*') (t := '*' :: t) (by simp)]
      exact ⟨ih.2, ih.2⟩
    · by_cases hslash : c = '/'
      · subst hslash
        refine ⟨?_, by simp [Watch.step, run_closed, hasCommentEnd]⟩
        rw [hasCommentEnd_cons (by simp)]
        exact ih.1
      · rw [hasCommentEnd_cons (c := '*') (by simp [hslash]), hasCommentEnd_cons (by simp [hstar])]
        simp [Watch.step, hstar, hslash, ih.1]

/-- Without the end of a comment nothing is blanked. -/
theorem blankFrom_of_no_end {r : Region} (hr : r ≠ .comment) {t : Text}
    (h : hasCommentEnd t = false) : blankFrom r t = t := by
  fun_induction blankFrom r t with
  | case1 => rfl
  | case2 t hend ih =>
    rw [no_commentEnd_of_cons (no_commentEnd_of_cons h)] at hend
    cases hend
  | case3 t hend ih => rw [ih (by simp) (no_commentEnd_of_cons (no_commentEnd_of_cons h))]
  | case4 c t hslash ih => rw [ih (by split <;> simp) (no_commentEnd_of_cons h)]
  | case5 q c t ih => rw [ih (by simp) (no_commentEnd_of_cons (no_commentEnd_of_cons h))]
  | case6 q c t hback ih => rw [ih (by split <;> simp) (no_commentEnd_of_cons h)]
  | case7 => exact absurd rfl hr
  | case8 => exact absurd rfl hr

/-! ### What the automaton says about blanking -/

/-- The state in which a region is entered. -/
def Region.watch : Region → Watch
  | .quoted q => .string q
  | _ => .plain

theorem run_slash {t : Text} (h : t.head? ≠ some '*') :
    (Watch.run .slash t).settle = (Watch.run .plain t).settle := by
  cases t with
  | nil => rfl
  | cons c t =>
    have hc : c ≠ '*' := fun hc => h (by rw [hc]; rfl)
    simp [Watch.step, hc]

theorem head_blankFrom_plain {t : Text} (h : t.head? ≠ some '*') :
    (blankFrom .plain t).head? ≠ some '*' := by
  unfold blankFrom
  split
  · simp
  · split <;> simp
  · exact h
  all_goals rename_i hr; cases hr

theorem Watch.settle_ne_closed {w : Watch} (h : w ≠ .closed) : w.settle ≠ .closed := by
  cases w <;> simp_all [Watch.settle]

theorem step_plain_quote {c : Char} (hc : isQuote c = true) : Watch.step .plain c = .string c := by
  have hslash : c ≠ '/' := by
    rintro rfl
    cases hc
  simp [Watch.step, hslash, hc]

theorem step_plain_other {c : Char} (hc : isQuote c = false) :
    Watch.step .plain c = if c == '/' then .slash else .plain := by
  simp [Watch.step, hc]

/-- Behind a character outside of strings the automaton stands where blanking goes
    on, but for a quote that is never closed. -/
theorem run_plain_cons {c : Char} {t u : Text} (hhead : c = '/' → u.head? ≠ some '*')
    (hcloses : isQuote c = true → closes c t = false → closes c u = false) :
    (Watch.run .plain (c :: u)).settle =
        ((if isQuote c && closes c t then Region.quoted c else .plain).watch.run u).settle ∨
      (Watch.run .plain (c :: u)).settle = .string c := by
  rw [Watch.run_cons]
  cases hquote : isQuote c with
  | true =>
    rw [step_plain_quote hquote]
    cases hc : closes c t with
    | true => exact Or.inl rfl
    | false => exact Or.inr (run_of_not_closes (hcloses hquote hc))
  | false =>
    left
    rw [step_plain_other hquote]
    split
    · rename_i hc
      exact run_slash (hhead (beq_iff_eq.mp hc))
    · rfl

/-- A string goes on behind `c`, or `c` closes it. -/
theorem run_string_cons {q c : Char} (hq : isQuote q = true) {u : Text}
    (hback : c = '\\' → u = []) :
    (Watch.run (.string q) (c :: u)).settle =
      ((if c == q then Region.plain else .quoted q).watch.run u).settle := by
  by_cases hc : c = '\\'
  · subst hc
    have hne : ('\\' == q) = false := by
      rw [beq_eq_false_iff_ne]
      rintro rfl
      cases hq
    rw [hback rfl, hne]
    rfl
  · by_cases heq : c = q
    · subst heq
      simp [Watch.step, hc, hq, Region.watch]
    · simp [Watch.step, hc, heq, Region.watch]

theorem isQuote_of_region {c q : Char} {t : Text}
    (h : (if isQuote c && closes c t then Region.quoted c else .plain) = .quoted q) :
    isQuote q = true := by
  split at h
  · rename_i hc
    cases h
    exact (Bool.and_eq_true_iff.mp hc).1
  · cases h

/-- Text whose comments have been blanked has none that is closed. -/
theorem run_blankFrom (r : Region) (hr : ∀ q, r = .quoted q → isQuote q = true) (t : Text) :
    (r.watch.run (blankFrom r t)).settle ≠ .closed := by
  -- one case per equation; a mark that opens a comment is blanked (2) or left alone (3)
  fun_induction blankFrom r t with
  | case1 r => cases r <;> simp [Region.watch, Watch.settle]
  | case2 t hend ih => exact ih (by simp)
  | case3 t hend ih =>
    rw [blankFrom_of_no_end (by simp) (eq_false_of_ne_true hend)]
    refine Watch.settle_ne_closed fun hclosed => hend ?_
    exact (run_opened_eq_closed t).1.mp hclosed
  | case4 c t hslash ih =>
    generalize hu : blankFrom (if isQuote c && closes c t then .quoted c else .plain) t = u at ih ⊢
    have hhead : c = '/' → u.head? ≠ some '*' := by
      intro hc
      subst hc
      rw [← hu]
      refine head_blankFrom_plain fun hstar => ?_
      obtain ⟨v, hv⟩ := List.head?_eq_some_iff.mp hstar
      exact hslash v rfl hv
    -- a quote that is not closed in the text is not closed in what is left of it
    have hcloses : isQuote c = true → closes c t = false → closes c u = false := by
      intro hquote hopen
      refine eq_false_of_ne_true fun h => ?_
      rw [← hu, hopen, Bool.and_false] at h
      rw [closes_of_blankFrom_plain hquote h] at hopen
      cases hopen
    change (Watch.run .plain (c :: u)).settle ≠ _
    rcases run_plain_cons hhead hcloses with hrun | hrun
    · rw [hrun]
      exact ih fun q => isQuote_of_region
    · rw [hrun]
      simp
  | case5 q c t ih => exact ih hr
  | case6 q c t hback ih =>
    change (Watch.run (.string q) (c :: _)).settle ≠ _
    rw [run_string_cons (hr q rfl) ?_]
    · refine ih fun q' hq' => ?_
      split at hq'
      · cases hq'
      · exact hr q' hq'
    · intro hc
      rw [eq_nil_of_no_escape hback hc]
      rfl
  | case7 t ih => exact ih (by simp)
  | case8 c t hstar ih =>
    have hc : Watch.step .plain (if c == '\n' then '\n' else ' ') = .plain := by split <;> rfl
    change (Watch.run (Watch.step .plain _) _).settle ≠ _
    rw [hc]
    exact ih (by simp)

theorem watch_blankComments (t : Text) : Watch.gauge.read .plain (blankComments t) ≠ .closed :=
  run_blankFrom .plain (by simp) t

theorem blankFrom_eq_self {r : Region} (hr : r ≠ .comment) (hq : ∀ q, r = .quoted q → isQuote q = true)
    {t : Text} (h : (r.watch.run t).settle = .plain ∨ (r.watch.run t).settle = .opened) :
    blankFrom r t = t := by
  fun_induction blankFrom r t with
  | case1 => rfl
  | case2 t hend ih =>
    have hclosed : Watch.run .opened t = .closed := (run_opened_eq_closed t).1.mpr hend
    have hrun : Watch.run .plain ('/' :: '*' :: t) = .closed := hclosed
    simp [Region.watch, hrun, Watch.settle] at h
  | case3 t hend ih => rw [blankFrom_of_no_end (by simp) (eq_false_of_ne_true hend)]
  | case4 c t hslash ih =>
    have hhead : c = '/' → t.head? ≠ some '*' := by
      intro hc hstar
      obtain ⟨u, hu⟩ := List.head?_eq_some_iff.mp hstar
      exact hslash u hc hu
    change (Watch.run .plain (c :: t)).settle = _ ∨ (Watch.run .plain (c :: t)).settle = _ at h
    rcases run_plain_cons hhead (fun _ hopen => hopen) with hrun | hrun
    · rw [hrun] at h
      rw [ih (by split <;> simp) (fun q => isQuote_of_region) h]
    · rw [hrun] at h
      simp at h
  | case5 q c t ih => rw [ih (by simp) hq h]
  | case6 q c t hback ih =>
    change (Watch.run (.string q) (c :: t)).settle = _ ∨
      (Watch.run (.string q) (c :: t)).settle = _ at h
    rw [run_string_cons (hq q rfl) (eq_nil_of_no_escape hback)] at h
    rw [ih (by split <;> simp) (fun q' hq' => ?_) h]
    split at hq'
    · cases hq'
    · exact hq q' hq'
  | case7 => exact absurd rfl hr
  | case8 => exact absurd rfl hr

/-- **Text that ends outside of strings and without a closed comment** has no
    comment to blank. -/
theorem blankComments_eq_self {t : Text} (h : Watch.gauge.read .plain t ≠ .closed)
    (hstring : ∀ q, Watch.gauge.read .plain t ≠ .string q) : blankComments t = t := by
  refine blankFrom_eq_self (by simp) (by simp) ?_
  change (Watch.run .plain t).settle ≠ .closed at h
  change ∀ q, (Watch.run .plain t).settle ≠ .string q at hstring
  change (Watch.run .plain t).settle = .plain ∨ (Watch.run .plain t).settle = .opened
  cases hw : Watch.run .plain t with
  | plain | slash => exact Or.inl rfl
  | opened | star => exact Or.inr rfl
  | string q | escape q => exact absurd (by rw [hw]; rfl) (hstring q)
  | closed => exact absurd (by rw [hw]; rfl) h

/-! ### Plain escapes -/

/-- Whether every backslash of a text has a character behind it that is neither a
    blank nor a quote. -/
def plainEscapes : Text → Bool
  | [] => true
  | c :: t =>
    (c != '\\' || t.head?.any fun d => !(Text.isBlank d || isQuote d)) && plainEscapes t

theorem plainEscapes_of_append {t u : Text} (h : plainEscapes (t ++ u) = true) :
    plainEscapes u = true := by
  induction t with
  | nil => exact h
  | cons c t ih =>
    rw [List.cons_append, plainEscapes, Bool.and_eq_true] at h
    exact ih h.2

theorem escapesBlank_of_plainEscapes {t u : Text} (h : plainEscapes (t ++ u) = true) :
    escapesBlank t = false := by
  induction t with
  | nil => rfl
  | cons c t ih =>
    rw [List.cons_append, plainEscapes, Bool.and_eq_true, Bool.or_eq_true, bne_iff_ne] at h
    rw [escapesBlank, ih h.2, Bool.or_false, Bool.and_eq_false_iff, beq_eq_false_iff_ne]
    refine h.1.imp_right fun hnext => ?_
    cases t with
    | nil => rfl
    | cons d t =>
      simp only [List.cons_append, List.head?_cons, Option.any_some, Bool.not_eq_true',
        Bool.or_eq_false_iff] at hnext
      exact hnext.1

/-- An escape takes neither a blank nor a quote. -/
def takesPlain (s : Scan) (c : Char) : Bool := !(s.escaped && (Text.isBlank c || isQuote c))

theorem along_of_plainEscapes {t : Text} (h : plainEscapes t = true) {s : Scan}
    (hs : s.escaped = true → t.head?.all fun d => !(Text.isBlank d || isQuote d)) :
    s.along takesPlain t = true := by
  induction t generalizing s with
  | nil => rfl
  | cons c t ih =>
    rw [plainEscapes, Bool.and_eq_true, Bool.or_eq_true, bne_iff_ne] at h
    rw [Scan.along, Bool.and_eq_true]
    constructor
    · cases hescaped : s.escaped with
      | false => simp [takesPlain, hescaped]
      | true =>
        have hc := hs hescaped
        simpa [takesPlain, hescaped] using hc
    · refine ih h.2 fun hescaped => ?_
      have hnext := h.1.resolve_left fun hc => hc (Scan.eq_backslash_of_escaped hescaped)
      cases t with
      | nil => rfl
      | cons d t => exact hnext

/-! ### The automaton and the scan -/

/-- An escape takes no quote, but in a string. -/
def sparesQuotes (s : Scan) (c : Char) : Bool := !(s.escaped && s.quote.isNone && isQuote c)

theorem sparesQuotes_of_takesPlain {s : Scan} {c : Char} (h : takesPlain s c = true) :
    sparesQuotes s c = true := by
  cases hescaped : s.escaped with
  | false => simp [sparesQuotes, hescaped]
  | true =>
    simp only [takesPlain, hescaped, Bool.true_and, Bool.not_eq_true', Bool.or_eq_false_iff] at h
    simp [sparesQuotes, h.2]

/-- Whether the automaton and the scan of a selector agree on being in a string. -/
def Watch.Agrees : Watch → Scan → Prop
  | .plain, s => s.quote = none
  | .slash, s => s.quote = none
  | .string q, s => s.quote = some q ∧ s.escaped = false
  | .escape q, s => s.quote = some q ∧ s.escaped = true
  | _, _ => True

theorem Watch.Agrees.step {w : Watch} {s : Scan} (h : w.Agrees s) (hs : s.Proper) {c : Char}
    (hc : sparesQuotes s c = true) : (w.step c).Agrees (s.step c) := by
  -- outside of strings and comments, a slash only makes a comment possible
  have hplain : s.quote = none → (Watch.step .plain c).Agrees (s.step c) := by
    intro hquote
    cases hescaped : s.escaped with
    | true =>
      have hnot : isQuote c = false := by simpa [sparesQuotes, hescaped, hquote] using hc
      rw [Scan.step_escaped hescaped, step_plain_other hnot]
      split <;> exact hquote
    | false =>
      by_cases heq : c = '\\'
      · subst heq
        rw [Scan.step_backslash hescaped]
        exact hquote
      · have hstep := Scan.quote_step hescaped heq
        rw [hquote] at hstep
        cases hq : isQuote c with
        | true =>
          rw [step_plain_quote hq]
          exact ⟨by simpa [hq] using hstep, Scan.escaped_step heq⟩
        | false =>
          rw [step_plain_other hq]
          split <;> simpa [hq, Watch.Agrees] using hstep
  cases w with
  | plain => exact hplain h
  | slash =>
    by_cases hstar : c = '*'
    · subst hstar
      trivial
    · have hstep : Watch.step .slash c = Watch.step .plain c := by simp [Watch.step, hstar]
      rw [hstep]
      exact hplain h
  | string q =>
    obtain ⟨hquote, hescaped⟩ := h
    by_cases heq : c = '\\'
    · subst heq
      rw [Scan.step_backslash hescaped]
      exact ⟨hquote, rfl⟩
    · have hstep := Scan.quote_step hescaped heq
      rw [hquote] at hstep
      by_cases hcq : c = q
      · subst hcq
        simpa [Watch.step, heq, hs.quote c hquote, Watch.Agrees] using hstep
      · have hstay : Watch.step (.string q) c = .string q := by simp [Watch.step, heq, hcq]
        rw [hstay]
        exact ⟨by simpa [hcq] using hstep, Scan.escaped_step heq⟩
  | escape q =>
    rw [Scan.step_escaped h.2]
    exact ⟨h.1, rfl⟩
  | opened =>
    rw [Watch.step]
    split <;> trivial
  | star =>
    rw [Watch.step]
    repeat' split
    all_goals trivial
  | closed => trivial

theorem Watch.Agrees.run {w : Watch} {s : Scan} (h : w.Agrees s) (hs : s.Proper) {t : Text}
    (ht : s.along sparesQuotes t = true) : (w.run t).Agrees (s.run t) := by
  induction t generalizing w s with
  | nil => exact h
  | cons c t ih =>
    rw [Scan.along, Bool.and_eq_true] at ht
    exact ih (h.step hs ht.1) (hs.step c) ht.2

/-- Where the scan is outside of strings, so is the automaton. -/
theorem Watch.Agrees.settle_ne_string {w : Watch} {s : Scan} (h : w.Agrees s) (hs : s.Outside)
    (q : Char) : w.settle ≠ .string q := by
  have hquote := hs.quote
  intro hw
  cases w with
  | string q' | escape q' =>
    rw [h.1] at hquote
    cases hquote
  | plain | slash | opened | star | closed => cases hw

end StyleNesting.Source
