/-
  StyleNesting/Proofs/Runs.lean
  =============================
  **The terminals, told by the scan.**  The lexer measures runs of items by
  looking ahead for closing quotes; the selector scan walks from the left and
  remembers what it is in.  Both see the same runs: a text is a `Run` if the scan
  may pass every character of it and is outside of strings and escapes in the
  end, and the longest run in front of a stop is the one that reaches the stop
  (`runLength_append_stop`).

  From this the terminals are described by what they are made of and by the
  character that follows (`selectorLength?_append` and its siblings), which
  is all that is used of the lexer from here on.
-/
import StyleNesting.Source.Lexeme
import StyleNesting.Proofs.Parts

namespace StyleNesting

/-! ### Leading spans -/

namespace Text

theorem takeWhile_span {p : Char → Bool} {t u : Text} (ht : ∀ c ∈ t, p c = true)
    (hu : ∀ c, u.head? = some c → p c = false) : (t ++ u).takeWhile p = t := by
  rw [List.takeWhile_append_of_pos ht]
  cases u with
  | nil => simp
  | cons c u => simp [hu c rfl]

theorem dropWhile_span {p : Char → Bool} {t u : Text} (ht : ∀ c ∈ t, p c = true)
    (hu : ∀ c, u.head? = some c → p c = false) : (t ++ u).dropWhile p = u := by
  rw [List.dropWhile_append_of_pos ht]
  cases u with
  | nil => rfl
  | cons c u => simp [hu c rfl]

theorem span_takeWhile (p : Char → Bool) (t : Text) :
    t = t.takeWhile p ++ t.dropWhile p ∧ (∀ c ∈ t.takeWhile p, p c = true) ∧
      ∀ c, (t.dropWhile p).head? = some c → p c = false := by
  refine ⟨List.takeWhile_append_dropWhile.symm, fun c hc => List.all_eq_true.mp List.all_takeWhile c hc,
    fun c hc => ?_⟩
  have hnot := List.head?_dropWhile_not p t
  rw [hc] at hnot
  simpa using hnot

end Text

/-! ### Conditions along a scan -/

namespace Selector

/-- Whether every character of a text meets a condition that may depend on the
    state in which the scan meets it. -/
def Scan.along (ok : Scan → Char → Bool) : Scan → Text → Bool
  | _, [] => true
  | s, c :: t => ok s c && Scan.along ok (s.step c) t

theorem Scan.along_append (ok : Scan → Char → Bool) (s : Scan) (t u : Text) :
    s.along ok (t ++ u) = (s.along ok t && (s.run t).along ok u) := by
  induction t generalizing s with
  | nil => rfl
  | cons c t ih => simp [Scan.along, ih, Bool.and_assoc]

theorem Scan.along_mono {ok ok' : Scan → Char → Bool}
    (hok : ∀ {s : Scan} {c : Char}, ok s c = true → ok' s c = true) {s : Scan} {t : Text}
    (h : s.along ok t = true) : s.along ok' t = true := by
  induction t generalizing s with
  | nil => rfl
  | cons c t ih =>
    rw [Scan.along, Bool.and_eq_true] at h ⊢
    exact ⟨hok h.1, ih h.2⟩

/-- The scan is neither in a string nor after a backslash. -/
structure Scan.Outside (s : Scan) : Prop where
  escaped : s.escaped = false
  quote : s.quote = none

theorem Scan.Outside.start : Scan.start.Outside := ⟨rfl, rfl⟩

/-- Whether the scan is neither in a string nor after a backslash. -/
def Scan.isOutside (s : Scan) : Bool := !s.escaped && s.quote.isNone

theorem Scan.isOutside_iff {s : Scan} : s.isOutside = true ↔ s.Outside := by
  rw [Scan.isOutside, Bool.and_eq_true, Bool.not_eq_true', Option.isNone_iff_eq_none]
  exact ⟨fun h => ⟨h.1, h.2⟩, fun h => ⟨h.escaped, h.quote⟩⟩

/-- Two scans that agree but for the brackets they are in. -/
structure Scan.Alike (s s' : Scan) : Prop where
  escaped : s.escaped = s'.escaped
  quote : s.quote = s'.quote

theorem Scan.Outside.alike {s s' : Scan} (h : s.Outside) (h' : s'.Outside) : s.Alike s' :=
  ⟨h.escaped.trans h'.escaped.symm, h.quote.trans h'.quote.symm⟩

theorem Scan.Outside.congr {s s' : Scan} (h : s.Outside) (hs : s.Alike s') : s'.Outside :=
  ⟨hs.escaped ▸ h.escaped, hs.quote ▸ h.quote⟩

theorem Scan.step_escaped {s : Scan} (h : s.escaped = true) (c : Char) :
    s.step c = { s with escaped := false } := by
  simp [Scan.step, h]

theorem Scan.step_backslash {s : Scan} (h : s.escaped = false) :
    s.step '\\' = { s with escaped := true } := by
  simp [Scan.step, h]

/-- Outside of escapes, only quotes decide whether the scan is in a string. -/
theorem Scan.quote_step {s : Scan} (h : s.escaped = false) {c : Char} (hc : c ≠ '\\') :
    (s.step c).quote = match s.quote with
      | some q => if c == q then none else some q
      | none => if isQuote c then some c else none := by
  obtain ⟨escaped, quote, closers⟩ := s
  have hescaped : escaped = false := h
  subst hescaped
  cases quote with
  | some q =>
    simp only [Scan.step, Bool.false_eq_true, if_false, beq_iff_eq, hc]
    split <;> rfl
  | none =>
    simp only [Scan.step, Bool.false_eq_true, if_false, beq_iff_eq, hc]
    repeat' split
    all_goals rfl

theorem Scan.escaped_step {s : Scan} {c : Char} (hc : c ≠ '\\') : (s.step c).escaped = false := by
  cases h : (s.step c).escaped with
  | false => rfl
  | true => exact absurd (Scan.eq_backslash_of_escaped h) hc

theorem Scan.Alike.step {s s' : Scan} (h : s.Alike s') (c : Char) :
    (s.step c).Alike (s'.step c) := by
  cases hescaped : s.escaped with
  | true =>
    have hescaped' : s'.escaped = true := h.escaped ▸ hescaped
    rw [Scan.step_escaped hescaped, Scan.step_escaped hescaped']
    exact ⟨rfl, h.quote⟩
  | false =>
    have hescaped' : s'.escaped = false := h.escaped ▸ hescaped
    by_cases hc : c = '\\'
    · subst hc
      rw [Scan.step_backslash hescaped, Scan.step_backslash hescaped']
      exact ⟨rfl, h.quote⟩
    · refine ⟨by rw [Scan.escaped_step hc, Scan.escaped_step hc], ?_⟩
      rw [Scan.quote_step hescaped hc, Scan.quote_step hescaped' hc, h.quote]

theorem Scan.Alike.run {s s' : Scan} (h : s.Alike s') (t : Text) : (s.run t).Alike (s'.run t) := by
  induction t generalizing s s' with
  | nil => exact h
  | cons c t ih => exact ih (h.step c)

/-- A condition that does not look at the brackets does not see them. -/
theorem Scan.Alike.along {ok : Scan → Char → Bool}
    (hok : ∀ s s' : Scan, s.Alike s' → ∀ c, ok s c = ok s' c) {s s' : Scan} (h : s.Alike s')
    (t : Text) : s.along ok t = s'.along ok t := by
  induction t generalizing s s' with
  | nil => rfl
  | cons c t ih => rw [Scan.along, Scan.along, hok s s' h c, ih (h.step c)]

end Selector

namespace Source

open Selector

/-! ### Runs -/

/-- Whether a run may go on with `c`: not with a line feed after a backslash, and
    outside of strings not with a stop. -/
def mayPass (s : Scan) (c : Char) : Bool :=
  if s.escaped then c != '\n' else s.quote.isSome || !isStop c

theorem mayPass_congr (s s' : Scan) (h : s.Alike s') (c : Char) : mayPass s c = mayPass s' c := by
  rw [mayPass, mayPass, h.escaped, h.quote]

/-- A run does not go past a stop outside of strings and escapes. -/
theorem not_stop_of_mayPass {s : Scan} {c : Char} (h : mayPass s c = true) :
    (s.isOutside && isStop c) = false := by
  by_contra hstop
  rw [Bool.not_eq_false, Bool.and_eq_true, Scan.isOutside_iff] at hstop
  simp [mayPass, hstop.1.escaped, hstop.1.quote, hstop.2] at h

/-- A text whose every character a run may go on with, and after which the scan
    is outside of strings and escapes. -/
structure Passes (s : Scan) (u : Text) : Prop where
  along : s.along mayPass u = true
  ends : (s.run u).Outside

/-- A text that the lexer takes as a run of items. -/
abbrev Run (u : Text) : Prop := Passes Scan.start u

theorem Passes.nil {s : Scan} (h : s.Outside) : Passes s [] := ⟨rfl, h⟩

theorem Passes.cons {s : Scan} {c : Char} {u : Text} (hc : mayPass s c = true)
    (hu : Passes (s.step c) u) : Passes s (c :: u) :=
  ⟨by rw [Scan.along, hc, hu.along]; rfl, hu.ends⟩

theorem passes_cons {s : Scan} {c : Char} {u : Text} :
    Passes s (c :: u) ↔ mayPass s c = true ∧ Passes (s.step c) u := by
  refine ⟨fun h => ?_, fun h => Passes.cons h.1 h.2⟩
  have halong := h.along
  rw [Scan.along, Bool.and_eq_true] at halong
  exact ⟨halong.1, halong.2, h.ends⟩

theorem passes_escape {s : Scan} (hs : s.escaped = false) {c : Char} {u : Text} :
    Passes s ('\\' :: c :: u) ↔ c ≠ '\n' ∧ Passes s u := by
  have hstep : ({ s with escaped := true } : Scan).step c = s := by
    rw [Scan.step_escaped rfl, ← hs]
  rw [passes_cons, Scan.step_backslash hs, passes_cons, hstep]
  simp [hs, mayPass, isStop]

/-- Induction along a text that the scan may pass.  An escape is two characters long and leaves
    the scan where it is; any other character moves it. -/
theorem Passes.induct {motive : Scan → Text → Prop} (nil : ∀ s : Scan, s.Outside → motive s [])
    (escape : ∀ (s : Scan) (c : Char) (u : Text), s.escaped = false → c ≠ '\n' → motive s u →
      motive s ('\\' :: c :: u))
    (cons : ∀ (s : Scan) (c : Char) (u : Text), s.escaped = false → c ≠ '\\' →
      mayPass s c = true → motive (s.step c) u → motive s (c :: u))
    {s : Scan} {u : Text} (hs : s.escaped = false) (hu : Passes s u) : motive s u := by
  induction hn : u.length using Nat.strong_induction_on generalizing u s with
  | _ n ih =>
    subst hn
    cases u with
    | nil => exact nil s hu.ends
    | cons c u =>
      by_cases hc : c = '\\'
      · subst hc
        cases u with
        | nil =>
          have hends := hu.ends.escaped
          rw [Scan.run_cons, Scan.step_backslash hs] at hends
          cases hends
        | cons d u =>
          obtain ⟨hd, hu⟩ := (passes_escape hs).mp hu
          have hlt : u.length < ('\\' :: d :: u).length := by
            simp only [List.length_cons]
            omega
          exact escape s d u hs hd (ih u.length hlt hs hu rfl)
      · obtain ⟨hpass, hu⟩ := passes_cons.mp hu
        exact cons s c u hs hc hpass (ih u.length (by simp) (Scan.escaped_step hc) hu rfl)

theorem Passes.congr {s s' : Scan} {u : Text} (hu : Passes s u) (h : s.Alike s') : Passes s' u :=
  ⟨h.along mayPass_congr u ▸ hu.along, hu.ends.congr (h.run u)⟩

/-- A run may be met wherever the scan is outside of strings and escapes. -/
theorem Run.passes {s : Scan} {u : Text} (hu : Run u) (hs : s.Outside) : Passes s u :=
  Passes.congr hu (Scan.Outside.start.alike hs)

theorem Passes.append {s : Scan} {u v : Text} (hu : Passes s u) (hv : Run v) :
    Passes s (u ++ v) := by
  have hv' : Passes (s.run u) v := Run.passes hv hu.ends
  refine ⟨?_, ?_⟩
  · rw [Scan.along_append, hu.along, hv'.along]
    rfl
  · rw [Scan.run_append]
    exact hv'.ends

theorem Run.nil : Run [] := Passes.nil Scan.Outside.start

/-- Whether a character is an item of its own. -/
def isItem (c : Char) : Bool := !(isStop c || isQuote c || c == '\\')

theorem Run.singleton {c : Char} (hc : isItem c = true) : Run [c] := by
  simp only [isItem, Bool.not_eq_true', Bool.or_eq_false_iff, beq_eq_false_iff_ne] at hc
  obtain ⟨⟨hstop, hquote⟩, hback⟩ := hc
  refine Passes.cons ?_ (Passes.nil ⟨Scan.escaped_step hback, ?_⟩)
  · simp [mayPass, Scan.start, hstop]
  · rw [Scan.quote_step rfl hback]
    simp [Scan.start, hquote]

theorem Run.of_items {u : Text} (h : ∀ c ∈ u, isItem c = true) : Run u := by
  induction u with
  | nil => exact Run.nil
  | cons c u ih =>
    have hrest : Run u := ih fun d hd => h d (List.mem_cons_of_mem c hd)
    exact Passes.append (Run.singleton (h c (by simp))) hrest

theorem isItem_of_isBlank {c : Char} (h : Text.isBlank c = true) : isItem c = true := by
  by_contra hc
  simp only [isItem, isStop, isQuote, Bool.not_eq_true, Bool.not_eq_false', Bool.or_eq_true,
    beq_iff_eq] at hc
  rcases hc with (((rfl | rfl) | rfl) | (rfl | rfl)) | rfl <;> exact absurd h (by decide)

theorem isItem_of_isNameChar {c : Char} (h : isNameChar c = true) : isItem c = true := by
  simp only [isNameChar, isItem, Bool.not_eq_true', Bool.or_eq_false_iff] at h ⊢
  obtain ⟨⟨⟨⟨⟨hstop, -⟩, -⟩, hback⟩, hquote⟩, -⟩ := h
  exact ⟨⟨hstop, hquote⟩, hback⟩

theorem isQuote_iff {q : Char} : isQuote q = true ↔ q = '"' ∨ q = '\'' := by
  simp [isQuote]

theorem ne_backslash_of_isQuote {q : Char} (hq : isQuote q = true) : q ≠ '\\' := by
  rintro rfl
  cases hq

theorem not_isStop_of_isQuote {q : Char} (hq : isQuote q = true) : isStop q = false := by
  rcases isQuote_iff.mp hq with rfl | rfl <;> decide

/-! ### Measuring runs -/

theorem exists_runFrom_none (t : Text) : ∃ n, runFrom none t = some n := by
  suffices h : ∀ q, q = none → ∃ n, runFrom q t = some n from h none rfl
  intro q hq
  fun_induction runFrom q t <;> simp_all

theorem runFrom_none (t : Text) : runFrom none t = some (runLength t) := by
  obtain ⟨n, hn⟩ := exists_runFrom_none t
  rw [runLength, hn, Option.getD_some]

theorem runFrom_cons_quoted {q c : Char} (hc : c ≠ '\\') (t : Text) :
    runFrom (some q) (c :: t) = (runFrom (if c == q then none else some q) t).map (· + 1) := by
  rw [runFrom]
  · simp [hc]
  · simp [hc]

theorem runFrom_cons_quote {q : Char} (hq : isQuote q = true) (t : Text) :
    runFrom none (q :: t) = some ((runFrom (some q) t).elim 0 (· + 1)) := by
  have hback := ne_backslash_of_isQuote hq
  have hstop := not_isStop_of_isQuote hq
  rw [runFrom]
  · simp only [hstop, hq, Bool.false_eq_true, if_false, if_true]
    cases runFrom (some q) t <;> rfl
  · simp [hback]
  · simp [hback]

theorem runFrom_cons_item {c : Char} (hc : isItem c = true) (t : Text) :
    runFrom none (c :: t) = some (runLength t + 1) := by
  simp only [isItem, Bool.not_eq_true', Bool.or_eq_false_iff, beq_eq_false_iff_ne] at hc
  obtain ⟨⟨hstop, hquote⟩, hback⟩ := hc
  rw [runFrom]
  · simp [hstop, hquote, runFrom_none]
  · simp [hback]
  · simp [hback]

theorem runFrom_escape (q : Option Char) {c : Char} (hc : c ≠ '\n') (t : Text) :
    runFrom q ('\\' :: c :: t) = (runFrom q t).map (· + 2) := by
  cases q <;> simp [runFrom, hc]

/-- The lexer goes over all of a text that the scan may pass. -/
theorem Passes.runFrom_append {s : Scan} (hs : s.escaped = false) {u : Text} (hu : Passes s u)
    (v : Text) : runFrom s.quote (u ++ v) = some (u.length + runLength v) := by
  refine Passes.induct
    (motive := fun s u => runFrom s.quote (u ++ v) = some (u.length + runLength v)) ?_ ?_ ?_ hs hu
  · intro s hs
    rw [hs.quote, List.nil_append, runFrom_none]
    simp
  · intro s c u hs hc ih
    rw [List.cons_append, List.cons_append, runFrom_escape _ hc, ih]
    simp only [Option.map_some, List.length_cons, Option.some.injEq]
    omega
  · intro s c u hs hc hpass ih
    have hlength : (c :: u).length + runLength v = u.length + runLength v + 1 := by
      simp only [List.length_cons]
      omega
    rw [Scan.quote_step hs hc] at ih
    rw [List.cons_append, hlength]
    cases hq : s.quote with
    | some q =>
      rw [hq] at ih
      rw [runFrom_cons_quoted hc, ih, Option.map_some]
    | none =>
      rw [hq] at ih
      cases hquote : isQuote c with
      | true =>
        simp only [hquote, if_true] at ih
        rw [runFrom_cons_quote hquote, ih, Option.elim_some]
      | false =>
        have hstop : isStop c = false := by simpa [mayPass, hs, hq] using hpass
        have hitem : isItem c = true := by simp [isItem, hstop, hquote, hc]
        simp only [hquote, Bool.false_eq_true, if_false, runFrom_none, Option.some.injEq] at ih
        rw [runFrom_cons_item hitem, ih]

/-- What the lexer measures is a run. -/
theorem passes_of_runFrom {q : Option Char} {t : Text} {n : Nat} (h : runFrom q t = some n)
    {s : Scan} (hs : s.escaped = false) (hq : s.quote = q) : Passes s (t.take n) := by
  have hback : ∀ {c : Char} {t : Text}, (c = '\\' → t = [] → False) →
      (∀ d u, c = '\\' → t = d :: u → False) → c ≠ '\\' := by
    intro c t hnil hcons hc
    cases t with
    | nil => exact hnil hc rfl
    | cons d u => exact hcons d u hc rfl
  fun_induction runFrom q t generalizing n s with
  | case1 | case3 | case5 | case9 | case11 =>
    cases h
    exact Passes.nil ⟨hs, hq⟩
  | case2 | case4 | case7 => cases h
  | case6 c t hc ih | case8 q c t hc ih =>
    obtain ⟨k, hk, rfl⟩ := Option.map_eq_some_iff.mp h
    exact (passes_escape hs).mpr ⟨by simpa using hc, ih hk hs hq⟩
  | case10 c t hnil hcons hstop hquote k hk ih =>
    have hc := hback hnil hcons
    cases h
    refine Passes.cons (by simp [mayPass, hs, hq, hstop]) (ih hk (Scan.escaped_step hc) ?_)
    rw [Scan.quote_step hs hc, hq]
    simp [hquote]
  | case12 c t hnil hcons hstop hquote ih =>
    have hc := hback hnil hcons
    obtain ⟨k, hk, rfl⟩ := Option.map_eq_some_iff.mp h
    refine Passes.cons (by simp [mayPass, hs, hq, hstop]) (ih hk (Scan.escaped_step hc) ?_)
    rw [Scan.quote_step hs hc, hq]
    simp [hquote]
  | case13 q c t hnil hcons ih =>
    have hc := hback hnil hcons
    obtain ⟨k, hk, rfl⟩ := Option.map_eq_some_iff.mp h
    refine Passes.cons (by simp [mayPass, hs, hq]) (ih hk (Scan.escaped_step hc) ?_)
    rw [Scan.quote_step hs hc, hq]

theorem run_take_runLength (t : Text) : Run (t.take (runLength t)) :=
  passes_of_runFrom (runFrom_none t) rfl rfl

theorem runLength_append_stop {u : Text} (hu : Run u) {c : Char} (hc : isStop c = true)
    (v : Text) : runLength (u ++ c :: v) = u.length := by
  have happend := hu.runFrom_append rfl (c :: v)
  have hstop : runFrom none (c :: v) = some 0 := by
    have hback : c ≠ '\\' := by
      rintro rfl
      cases hc
    rw [runFrom]
    · simp [hc]
    · simp [hback]
    · simp [hback]
  rw [runFrom_none, Option.some.injEq] at hstop
  have hquote : Scan.start.quote = none := rfl
  rw [hquote, runFrom_none, Option.some.injEq, hstop] at happend
  exact happend

/-- A text that goes on after its longest run, cut behind the run. -/
theorem exists_run_of_drop {t v : Text} {c : Char} (h : t.drop (runLength t) = c :: v) :
    ∃ u, t = u ++ c :: v ∧ u.length = runLength t ∧ Run u := by
  refine ⟨t.take (runLength t), ?_, ?_, run_take_runLength t⟩
  · rw [← h, List.take_append_drop]
  · rw [List.length_take, Nat.min_eq_left]
    by_contra hlt
    rw [List.drop_eq_nil_of_le (by omega)] at h
    cases h

theorem isStop_iff {c : Char} : isStop c = true ↔ c = '{' ∨ c = '}' ∨ c = ';' := by
  simp [isStop, or_assoc]

/-! ### Selectors -/

/-- The text of a selector: a run that starts with neither an at sign nor a blank. -/
structure SelectorText (u : Text) : Prop where
  run : Run u
  nonempty : u ≠ []
  head : ∀ c, u.head? = some c → c ≠ '@' ∧ Text.isBlank c = false

theorem selectorLength?_append {u : Text} (hu : SelectorText u) (v : Text) :
    selectorLength? (u ++ '{' :: v) = some u.length := by
  have hlength := runLength_append_stop hu.run (by decide : isStop '{' = true) v
  obtain ⟨c, w, rfl⟩ := List.exists_cons_of_ne_nil hu.nonempty
  obtain ⟨hat, hblank⟩ := hu.head c rfl
  rw [List.cons_append] at hlength
  simp [selectorLength?, hat, hblank, hlength]

theorem selectorLength?_eq_none {u : Text} (hu : Run u) {c : Char} (hc : c = '}' ∨ c = ';')
    (v : Text) : selectorLength? (u ++ c :: v) = none := by
  have hlength := runLength_append_stop hu (isStop_iff.mpr (Or.inr hc)) v
  have hdrop : (u ++ c :: v).drop u.length = c :: v := List.drop_left
  have hbrace : c ≠ '{' := by rcases hc with rfl | rfl <;> decide
  cases ht : u ++ c :: v with
  | nil => rfl
  | cons d t =>
    rw [ht] at hlength hdrop
    simp only [selectorLength?, hlength, hdrop]
    split
    · rfl
    · split
      · rfl
      · split
        · rename_i heq
          cases heq
          exact absurd rfl hbrace
        · rfl

theorem exists_of_selectorLength? {t : Text} {n : Nat} (h : selectorLength? t = some n) :
    ∃ u v, t = u ++ '{' :: v ∧ u.length = n ∧ SelectorText u := by
  cases t with
  | nil => cases h
  | cons c t =>
    simp only [selectorLength?] at h
    split at h
    · cases h
    · rename_i hhead
      split at h
      · cases h
      · rename_i hne
        split at h
        · rename_i v hdrop
          cases h
          obtain ⟨u, ht, hlength, hrun⟩ := exists_run_of_drop hdrop
          have hnonempty : u ≠ [] := fun hu => hne (by rw [← hlength, hu]; rfl)
          refine ⟨u, v, ht, hlength, hrun, hnonempty, fun d hd => ?_⟩
          have hcd : c = d := by
            obtain ⟨w, rfl⟩ := List.head?_eq_some_iff.mp hd
            exact List.head_eq_of_cons_eq ht
          subst hcd
          simpa using hhead
        · cases h

/-! ### Declarations -/

/-- The text of a declaration: a name, blanks, a colon and a run. -/
inductive DeclarationText : Text → Prop
  | intro {name blanks value : Text} (hne : name ≠ []) (hname : ∀ c ∈ name, isNameChar c = true)
      (hblanks : ∀ b ∈ blanks, Text.isBlank b = true) (hvalue : Run value) :
      DeclarationText (name ++ (blanks ++ ':' :: value))

theorem DeclarationText.run {u : Text} (hu : DeclarationText u) : Run u := by
  obtain ⟨-, hname, hblanks, hvalue⟩ := hu
  have hfirst : Run _ := Run.of_items fun c hc => isItem_of_isNameChar (hname c hc)
  have hsecond : Run _ := Run.of_items fun b hb => isItem_of_isBlank (hblanks b hb)
  have hcolon : Run [':'] := Run.singleton (by decide)
  exact hfirst.append (hsecond.append (hcolon.append hvalue))

theorem not_isNameChar_of_isBlank {c : Char} (h : Text.isBlank c = true) :
    isNameChar c = false := by
  simp [isNameChar, h]

theorem declarationLength?_append {u : Text} (hu : DeclarationText u) {c : Char}
    (hc : c = '}' ∨ c = ';') (v : Text) : declarationLength? (u ++ c :: v) = some u.length := by
  obtain ⟨hne, hname, hblanks, hvalue⟩ := hu
  rename_i name blanks value
  have hstop : ∀ d, (blanks ++ ':' :: (value ++ c :: v)).head? = some d → isNameChar d = false := by
    intro d hd
    cases blanks with
    | nil =>
      cases hd
      decide
    | cons b blanks =>
      cases hd
      exact not_isNameChar_of_isBlank (hblanks d (by simp))
  have hcolon : ∀ d, (':' :: (value ++ c :: v)).head? = some d → Text.isBlank d = false := by
    intro d hd
    cases hd
    decide
  have hlength := runLength_append_stop hvalue (isStop_iff.mpr (Or.inr hc)) v
  have hdrop : (value ++ c :: v).drop value.length = c :: v := List.drop_left
  have htext : name ++ (blanks ++ ':' :: value) ++ c :: v =
      name ++ (blanks ++ ':' :: (value ++ c :: v)) := by simp
  have htotal : name.length + blanks.length + 1 + value.length =
      (name ++ (blanks ++ ':' :: value)).length := by
    simp only [List.length_append, List.length_cons]
    omega
  obtain ⟨d, w, rfl⟩ := List.exists_cons_of_ne_nil hne
  rw [htext, declarationLength?]
  simp only [Text.takeWhile_span hname hstop, Text.dropWhile_span hname hstop,
    Text.takeWhile_span hblanks hcolon, Text.dropWhile_span hblanks hcolon, hlength, hdrop, htotal]
  rcases hc with rfl | rfl <;> rfl

theorem exists_of_declarationLength? {t : Text} {n : Nat} (h : declarationLength? t = some n) :
    ∃ u c v, t = u ++ c :: v ∧ (c = '}' ∨ c = ';') ∧ u.length = n ∧ DeclarationText u := by
  obtain ⟨ht, hname, -⟩ := Text.span_takeWhile isNameChar t
  obtain ⟨hrest, hblanks, -⟩ := Text.span_takeWhile Text.isBlank (t.dropWhile isNameChar)
  simp only [declarationLength?] at h
  split at h
  · rename_i d name value hd hcolon
    rw [hcolon] at hrest
    rw [hrest] at ht
    have hne : t.takeWhile isNameChar ≠ [] := by simp [hd]
    have hend : ∀ {c : Char} {v : Text}, value.drop (runLength value) = c :: v → (c = '}' ∨ c = ';') →
        some ((t.takeWhile isNameChar).length +
          ((t.dropWhile isNameChar).takeWhile Text.isBlank).length + 1 + runLength value) = some n →
        ∃ u c v, t = u ++ c :: v ∧ (c = '}' ∨ c = ';') ∧ u.length = n ∧ DeclarationText u := by
      intro c v hdrop hc hn
      obtain ⟨w, hw, hlength, hrun⟩ := exists_run_of_drop hdrop
      refine ⟨_, c, v, ?_, hc, ?_, DeclarationText.intro hne hname hblanks hrun⟩
      · rw [hw] at ht
        rw [List.append_assoc, List.append_assoc, List.cons_append]
        exact ht
      · simp only [Option.some.injEq] at hn
        simp only [List.length_append, List.length_cons, ← hn, ← hlength]
        omega
    split at h
    · exact hend (by assumption) (Or.inr rfl) h
    · exact hend (by assumption) (Or.inl rfl) h
    · cases h
  · cases h

/-! ### At-keywords -/

/-- Whether `c` may stand in the name of an at-rule. -/
def isAtChar (c : Char) : Bool := c == '-' || Text.isWord c

theorem not_isAtChar_of_isStop {c : Char} (h : isStop c = true) : isAtChar c = false := by
  rcases isStop_iff.mp h with rfl | rfl | rfl <;> decide

/-- The code points of the blanks. -/
def blankCodes : List Nat :=
  [9, 10, 11, 12, 13, 28, 29, 30, 31, 32, 0x85, 0xA0, 0x1680, 0x2000, 0x2001, 0x2002, 0x2003,
   0x2004, 0x2005, 0x2006, 0x2007, 0x2008, 0x2009, 0x200A, 0x2028, 0x2029, 0x202F, 0x205F, 0x3000]

theorem mem_blankCodes {c : Char} (h : Text.isBlank c = true) : c.toNat ∈ blankCodes := by
  simp only [Text.isBlank, Bool.or_eq_true, Bool.and_eq_true, decide_eq_true_eq, beq_iff_eq] at h
  simp only [blankCodes, List.mem_cons, List.not_mem_nil, or_false]
  omega

theorem not_isWord_of_isBlank {c : Char} (h : Text.isBlank c = true) : Text.isWord c = false := by
  have hcode := mem_blankCodes h
  have htable : ∀ n ∈ blankCodes, Text.inRanges n Text.wordRanges = false := by decide +kernel
  have hunder : (c == '_') = false := by
    cases hc : c == '_' with
    | false => rfl
    | true =>
      rw [beq_iff_eq.mp hc] at h
      exact absurd h (by decide)
  unfold Text.isWord
  split
  · have hletter : Text.isAsciiLetter c = false ∧ Text.isAsciiDigit c = false := by
      simp only [blankCodes, List.mem_cons, List.not_mem_nil, or_false] at hcode
      simp only [Text.isAsciiLetter, Text.isAsciiDigit, Bool.or_eq_false_iff, Bool.and_eq_false_iff,
        decide_eq_false_iff_not]
      omega
    simp [hletter, hunder]
  · exact htable _ hcode

theorem not_isAtChar_of_isBlank {c : Char} (h : Text.isBlank c = true) : isAtChar c = false := by
  have hhyphen : c ≠ '-' := by
    rintro rfl
    exact absurd h (by decide)
  simp [isAtChar, not_isWord_of_isBlank h, hhyphen]

theorem isItem_of_isAtChar {c : Char} (h : isAtChar c = true) : isItem c = true := by
  by_contra hc
  simp only [isItem, isStop, isQuote, Bool.not_eq_true, Bool.not_eq_false', Bool.or_eq_true,
    beq_iff_eq] at hc
  rcases hc with (((rfl | rfl) | rfl) | (rfl | rfl)) | rfl <;> exact absurd h (by decide)

/-- The name of an at-rule and the run that follows it. -/
structure AtHead (name prelude : Text) : Prop where
  nonempty : name ≠ []
  name : ∀ c ∈ name, isAtChar c = true
  run : Run prelude
  apart : ∀ c, prelude.head? = some c → isAtChar c = false

theorem AtHead.run_head {name prelude : Text} (hhead : AtHead name prelude) :
    Run ('@' :: (name ++ prelude)) := by
  have hat : Run ['@'] := Run.singleton (by decide)
  have hname : Run name := Run.of_items fun c hc => isItem_of_isAtChar (hhead.name c hc)
  exact hat.append (hname.append hhead.run)

theorem AtHead.apart_append {name prelude : Text} (hhead : AtHead name prelude) {c : Char}
    (hc : isStop c = true) (v : Text) :
    ∀ d, (prelude ++ c :: v).head? = some d → isAtChar d = false := by
  intro d hd
  cases prelude with
  | nil =>
    cases hd
    exact not_isAtChar_of_isStop hc
  | cons e prelude =>
    cases hd
    exact hhead.apart d rfl

theorem atKeywordLength?_append {name r : Text} (hne : name ≠ [])
    (hname : ∀ c ∈ name, isAtChar c = true) (hr : ∀ c, r.head? = some c → isAtChar c = false) :
    atKeywordLength? ('@' :: (name ++ r)) = some (name.length + 1) := by
  have htake : (name ++ r).takeWhile (fun c => c == '-' || Text.isWord c) = name :=
    Text.takeWhile_span hname hr
  rw [atKeywordLength?, htake]
  cases name with
  | nil => exact absurd rfl hne
  | cons c name => rfl

theorem exists_of_atKeywordLength? {t : Text} {n : Nat} (h : atKeywordLength? t = some n) :
    ∃ name r, t = '@' :: (name ++ r) ∧ name.length + 1 = n ∧ name ≠ [] ∧
      (∀ c ∈ name, isAtChar c = true) ∧ ∀ c, r.head? = some c → isAtChar c = false := by
  unfold atKeywordLength? at h
  split at h
  · rename_i t
    obtain ⟨ht, hname, hr⟩ := Text.span_takeWhile isAtChar t
    split at h
    · cases h
    · rename_i name hne
      cases h
      exact ⟨t.takeWhile isAtChar, t.dropWhile isAtChar, by rw [← ht], rfl, hne, hname, hr⟩
  · cases h

end Source

end StyleNesting
