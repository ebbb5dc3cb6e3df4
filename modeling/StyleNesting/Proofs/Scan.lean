/-
  StyleNesting/Proofs/Scan.lean
  =============================
  **Cutting text at separators, as a theory of pieces.**  A text is *unbroken*
  if the scan meets no separator in the start state; such a text is one piece.
  Any other text starts with an unbroken, balanced piece and a separator, and
  what follows the separator is cut as if it stood alone (`cut_append_sep`).
  These two cases are the induction principle `cut_induction` of the file, and
  all that is said about pieces follows from it.
-/
import Mathlib.Data.List.Infix
import StyleNesting.Selector.Relation

namespace StyleNesting.Selector

open StyleNesting

/-! ### What single characters do to the scan -/

/-- Whether a character outside of strings and escapes leaves every scan as it is. -/
def isPlain (c : Char) : Bool :=
  !(c == '\\' || isQuote c || c == '(' || c == '[' || c == ')' || c == ']')

theorem isPlain_of_isBlank {c : Char} (h : Text.isBlank c = true) : isPlain c = true := by
  by_contra hc
  simp only [isPlain, isQuote, Bool.not_eq_true, Bool.not_eq_false', Bool.or_eq_true,
    beq_iff_eq] at hc
  rcases hc with ((((rfl | rfl | rfl) | rfl) | rfl) | rfl) | rfl <;> exact absurd h (by decide)

/-- The scans that can be reached: strings end with quotes, brackets with closers. -/
structure Scan.Proper (s : Scan) : Prop where
  quote : ∀ q, s.quote = some q → isQuote q = true
  closers : ∀ b ∈ s.closers, b = ')' ∨ b = ']'

theorem Scan.Proper.start : Scan.start.Proper :=
  ⟨(fun _ h => by cases h), (fun _ h => by cases h)⟩

theorem closer?_eq_some {c b : Char} (h : closer? c = some b) : b = ')' ∨ b = ']' := by
  unfold closer? at h
  split at h
  · exact Or.inl (Option.some.inj h).symm
  · split at h
    · exact Or.inr (Option.some.inj h).symm
    · cases h

theorem Scan.Proper.step {s : Scan} (hs : s.Proper) (c : Char) : (s.step c).Proper := by
  unfold Scan.step
  split
  · exact ⟨hs.quote, hs.closers⟩
  · split
    · exact ⟨hs.quote, hs.closers⟩
    · split
      · split
        · exact ⟨(fun _ h => by cases h), hs.closers⟩
        · exact hs
      · split
        · rename_i hq
          refine ⟨fun q h => ?_, hs.closers⟩
          cases h
          exact hq
        · split
          · rename_i b hb
            refine ⟨hs.quote, fun b' hb' => ?_⟩
            rcases List.mem_cons.mp hb' with rfl | hmem
            · exact closer?_eq_some hb
            · exact hs.closers b' hmem
          · split
            · rename_i b bs hbs
              split
              · exact ⟨hs.quote, fun b' hb' => hs.closers b' (by simp [hbs, hb'])⟩
              · exact hs
            · exact hs

theorem Scan.Proper.run {s : Scan} (hs : s.Proper) (t : Text) : (s.run t).Proper := by
  induction t generalizing s with
  | nil => exact hs
  | cons c t ih => exact ih (hs.step c)

/-- A plain character ends an escape and does nothing else. -/
theorem Scan.Proper.step_plain {s : Scan} (hs : s.Proper) {c : Char} (hc : isPlain c = true) :
    s.step c = { s with escaped := false } := by
  simp only [isPlain, Bool.not_eq_true', Bool.or_eq_false_iff, beq_eq_false_iff_ne] at hc
  obtain ⟨⟨⟨⟨⟨hback, hquote⟩, hopen⟩, hopen'⟩, hclose⟩, hclose'⟩ := hc
  obtain ⟨escaped, quote, closers⟩ := s
  cases escaped with
  | true => simp [Scan.step]
  | false =>
    cases quote with
    | some q =>
      have hq : isQuote q = true := hs.quote q rfl
      have hcq : c ≠ q := fun e => by simp [e, hq] at hquote
      simp [Scan.step, hback, hcq]
    | none =>
      have hnone : closer? c = none := by simp [closer?, hopen, hopen']
      cases closers with
      | nil => simp [Scan.step, hback, hquote, hnone]
      | cons b bs =>
        have hb : b = ')' ∨ b = ']' := hs.closers b (by simp)
        have hcb : c ≠ b := by rcases hb with rfl | rfl <;> assumption
        simp [Scan.step, hback, hquote, hnone, hcb]

theorem Scan.step_start_plain {c : Char} (hc : isPlain c = true) :
    Scan.start.step c = Scan.start := Scan.Proper.start.step_plain hc

/-- Only a backslash leaves the scan after an escape. -/
theorem Scan.eq_backslash_of_escaped {s : Scan} {c : Char} (h : (s.step c).escaped = true) :
    c = '\\' := by
  by_contra hc
  obtain ⟨escaped, quote, closers⟩ := s
  cases escaped with
  | true => simp [Scan.step] at h
  | false =>
    have hstep : ((⟨false, quote, closers⟩ : Scan).step c).escaped = false := by
      simp only [Scan.step, Bool.false_eq_true, if_false, beq_iff_eq, hc]
      repeat' split
      all_goals rfl
    rw [hstep] at h
    cases h

@[simp]
theorem Scan.run_nil (s : Scan) : s.run [] = s := rfl

@[simp]
theorem Scan.run_cons (s : Scan) (c : Char) (t : Text) : s.run (c :: t) = (s.step c).run t := rfl

theorem balanced_iff {t : Text} : balanced t = true ↔ Scan.start.run t = Scan.start := by
  simp [balanced]

theorem balanced_append {t u : Text} (ht : balanced t = true) :
    balanced (t ++ u) = balanced u := by
  rw [balanced, balanced, Scan.run_append, balanced_iff.mp ht]

/-! ### Unbroken texts -/

/-- Whether the scan of a text from `s` meets no separator in the start state. -/
def unbroken (isSep : Char → Bool) : Scan → Text → Bool
  | _, [] => true
  | s, c :: t => !(s == Scan.start && isSep c) && unbroken isSep (s.step c) t

section Cutting

variable {isSep : Char → Bool}

theorem unbroken_append (s : Scan) (t u : Text) :
    unbroken isSep s (t ++ u) = (unbroken isSep s t && unbroken isSep (s.run t) u) := by
  induction t generalizing s with
  | nil => simp [unbroken]
  | cons c t ih => simp [unbroken, ih, Bool.and_assoc]

theorem unbroken_mono {isSep' : Char → Bool} (h : ∀ c, isSep' c = true → isSep c = true)
    {s : Scan} {t : Text} (ht : unbroken isSep s t = true) : unbroken isSep' s t = true := by
  induction t generalizing s with
  | nil => rfl
  | cons c t ih =>
    simp only [unbroken, Bool.and_eq_true, Bool.not_eq_true', Bool.and_eq_false_iff] at ht ⊢
    refine ⟨?_, ih ht.2⟩
    rcases ht.1 with hs | hc
    · exact Or.inl hs
    · refine Or.inr ?_
      cases hc' : isSep' c with
      | false => rfl
      | true => exact absurd (h c hc') (by simp [hc])

theorem cut_of_unbroken {s : Scan} {t : Text} (h : unbroken isSep s t = true) :
    cut isSep s t = [t] := by
  induction t generalizing s with
  | nil => rfl
  | cons c t ih =>
    simp only [unbroken, Bool.and_eq_true, Bool.not_eq_true'] at h
    simp [cut, h.1, ih h.2, consFirst]

/-- The first piece ends at the first separator that counts. -/
theorem cut_append_sep {s : Scan} {a b : Text} {c : Char} (ha : unbroken isSep s a = true)
    (hrun : s.run a = Scan.start) (hc : isSep c = true) :
    cut isSep s (a ++ c :: b) = a :: cut isSep Scan.start b := by
  induction a generalizing s with
  | nil =>
    have hs : s = Scan.start := hrun
    subst hs
    simp [cut, hc]
  | cons d a ih =>
    simp only [unbroken, Bool.and_eq_true, Bool.not_eq_true'] at ha
    simp [cut, ha.1, ih ha.2 hrun, consFirst]

variable (isSep) in
/-- A text is unbroken, or it has a first separator that counts. -/
theorem unbroken_or_sep (s : Scan) (t : Text) :
    unbroken isSep s t = true ∨
      ∃ a c b, t = a ++ c :: b ∧ unbroken isSep s a = true ∧ s.run a = Scan.start ∧
        isSep c = true := by
  induction t generalizing s with
  | nil => exact Or.inl rfl
  | cons c t ih =>
    by_cases hc : (s == Scan.start && isSep c) = true
    · simp only [Bool.and_eq_true, beq_iff_eq] at hc
      exact Or.inr ⟨[], c, t, rfl, rfl, hc.1, hc.2⟩
    · have hc' : (s == Scan.start && isSep c) = false := eq_false_of_ne_true hc
      rcases ih (s.step c) with h | ⟨a, d, b, rfl, ha, hrun, hd⟩
      · exact Or.inl (by simp [unbroken, h, hc'])
      · exact Or.inr ⟨c :: a, d, b, rfl, by simp [unbroken, ha, hc'], hrun, hd⟩

variable (isSep) in
/-- **Induction on the pieces of a text.** -/
theorem cut_induction {motive : Text → Prop}
    (whole : ∀ t, unbroken isSep Scan.start t = true → motive t)
    (sep : ∀ a c b, unbroken isSep Scan.start a = true → balanced a = true → isSep c = true →
      motive b → motive (a ++ c :: b)) (t : Text) : motive t := by
  induction hn : t.length using Nat.strong_induction_on generalizing t with
  | _ n ih =>
    rcases unbroken_or_sep isSep Scan.start t with h | ⟨a, c, b, rfl, ha, hrun, hc⟩
    · exact whole t h
    · refine sep a c b ha (balanced_iff.mpr hrun) hc (ih b.length ?_ b rfl)
      subst hn
      simp only [List.length_append, List.length_cons]
      omega

theorem unbroken_of_mem_cut {t p : Text} (hp : p ∈ cut isSep Scan.start t) :
    unbroken isSep Scan.start p = true := by
  induction t using cut_induction isSep with
  | whole t ht =>
    rw [cut_of_unbroken ht, List.mem_singleton] at hp
    exact hp ▸ ht
  | sep a c b ha hbal hc ih =>
    rw [cut_append_sep ha (balanced_iff.mp hbal) hc] at hp
    rcases List.mem_cons.mp hp with rfl | hmem
    · exact ha
    · exact ih hmem

theorem balanced_of_mem_cut (hsep : ∀ c, isSep c = true → isPlain c = true) {t p : Text}
    (ht : balanced t = true) (hp : p ∈ cut isSep Scan.start t) : balanced p = true := by
  induction t using cut_induction isSep with
  | whole t hwhole =>
    rw [cut_of_unbroken hwhole, List.mem_singleton] at hp
    exact hp ▸ ht
  | sep a c b ha hbal hc ih =>
    rw [cut_append_sep ha (balanced_iff.mp hbal) hc] at hp
    rcases List.mem_cons.mp hp with rfl | hmem
    · exact hbal
    · refine ih ?_ hmem
      rw [balanced_append hbal] at ht
      simpa [balanced, Scan.step_start_plain (hsep c hc)] using ht

theorem infix_of_mem_cut {t p : Text} (hp : p ∈ cut isSep Scan.start t) : p <:+: t := by
  induction t using cut_induction isSep with
  | whole t ht =>
    rw [cut_of_unbroken ht, List.mem_singleton] at hp
    exact hp ▸ List.infix_rfl
  | sep a c b ha hbal hc ih =>
    rw [cut_append_sep ha (balanced_iff.mp hbal) hc] at hp
    rcases List.mem_cons.mp hp with rfl | hmem
    · exact (List.prefix_append p (c :: b)).isInfix
    · have hb : b <:+: a ++ c :: b :=
        ((List.suffix_cons c b).trans (List.suffix_append a (c :: b))).isInfix
      exact (ih hmem).trans hb

end Cutting

end StyleNesting.Selector
