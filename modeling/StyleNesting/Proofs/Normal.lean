/-
  StyleNesting/Proofs/Normal.lean
  ===============================
  **What normalising a selector list comes to.**  A blank or a comma *counts* where the
  scan meets it in the start state.  A text is normal if those that count stand as
  normalising writes them, one space between compounds and a comma with a space behind
  it between parts (`Normal`); what is in strings, brackets and escapes is free.

  Normalising makes every text normal and leaves normal texts alone, whatever they leave
  open (`normalize_idempotent`).  What it writes are finished rows, though not always the
  rows that were read, and the texts of finished rows are the normal ones: a gap that counts
  ends a token, and what follows it is normal again (`Normal.exists_finished`); and
  in front of a normal text there may stand one more token with a gap behind it
  (`Opening.normal`).
-/
import StyleNesting.Proofs.NormalForm

namespace StyleNesting.Selector

open StyleNesting

/-! ### Normal texts -/

/-- The blanks and commas that count stand as normalising writes them. -/
structure Normal (t : Text) : Prop where
  /-- The text does not end in a blank, counted or not. -/
  last : ∀ c, t.getLast? = some c → Text.isBlank c = false
  /-- A blank that counts is a space, it is not the first character, and no blank follows. -/
  blank : ∀ a c b, t = a ++ c :: b → balanced a = true → Text.isBlank c = true →
    c = ' ' ∧ a ≠ [] ∧ ∀ d, b.head? = some d → Text.isBlank d = false
  /-- A comma that counts is not the first character, no blank is in front of it, and a
      space follows. -/
  comma : ∀ a b, t = a ++ ',' :: b → balanced a = true →
    a ≠ [] ∧ (∀ d, a.getLast? = some d → Text.isBlank d = false) ∧ b.head? = some ' '

theorem Normal.nil : Normal [] := ⟨by simp, by simp, by simp⟩

theorem Normal.head {t : Text} (h : Normal t) : ∀ c, t.head? = some c → Text.isBlank c = false := by
  intro c hc
  obtain ⟨u, rfl⟩ := List.head?_eq_some_iff.mp hc
  refine eq_false_of_ne_true fun hblank => ?_
  exact (h.blank [] c u rfl rfl hblank).2.1 rfl

theorem balanced_append_space {x u : Text} (hx : balanced x = true) :
    balanced (x ++ ' ' :: u) = balanced u := by
  have hstep : Scan.start.step ' ' = Scan.start := by decide
  rw [balanced_append hx, balanced, Scan.run_cons, hstep, balanced]

theorem getLast?_append_space (x : Text) {u : Text} (hne : u ≠ []) :
    (x ++ ' ' :: u).getLast? = u.getLast? := by
  rw [List.getLast?_append_of_ne_nil x (by simp), List.getLast?_cons_of_ne_nil hne]

/-- What follows a space that counts is normal again. -/
theorem Normal.behind_space {x u : Text} (h : Normal (x ++ ' ' :: u)) (hx : balanced x = true) :
    u ≠ [] ∧ Normal u := by
  have hne : u ≠ [] := by
    rintro rfl
    exact absurd (h.last ' ' (by simp)) (by decide)
  have hsplit : ∀ {a v : Text}, u = a ++ v → x ++ ' ' :: u = (x ++ ' ' :: a) ++ v := by
    rintro a v rfl
    simp
  refine ⟨hne, ⟨fun c hc => h.last c ?_, fun a c b hu ha hc => ?_, fun a b hu ha => ?_⟩⟩
  · rw [getLast?_append_space x hne, hc]
  · obtain ⟨hspace, -, hnext⟩ :=
      h.blank (x ++ ' ' :: a) c b (hsplit hu) ((balanced_append_space hx).trans ha) hc
    refine ⟨hspace, ?_, hnext⟩
    rintro rfl
    have hhead := (h.blank x ' ' u rfl hx (by decide)).2.2 c (by rw [hu]; rfl)
    rw [hc] at hhead
    cases hhead
  · obtain ⟨-, hlast, hnext⟩ :=
      h.comma (x ++ ' ' :: a) b (hsplit hu) ((balanced_append_space hx).trans ha)
    have hane : a ≠ [] := by
      rintro rfl
      exact absurd (hlast ' ' (by simp)) (by decide)
    refine ⟨hane, fun d hd => hlast d ?_, hnext⟩
    rw [getLast?_append_space x hane, hd]

theorem Ended.cons {a : Text} {r : List Text × Text} (ha : Token a) (hbal : balanced a = true)
    (hr : Ended r) : Ended (a :: r.1, r.2) := by
  refine ⟨⟨?_, ?_⟩, hr.last⟩
  · exact List.forall_mem_cons.mpr ⟨ha, hr.row.tokens⟩
  · exact List.forall_mem_cons.mpr ⟨hbal, hr.row.closed⟩

theorem Ended.singleton {c : Text} (hc : Token c)
    (hlast : ∀ d, c.getLast? = some d → Text.isBlank d = false) : Ended ([], c) :=
  ⟨⟨by simpa using hc, by simp⟩, hlast⟩

/-- **A normal text is made of finished rows.** -/
theorem Normal.exists_finished {t : Text} (h : Normal t) (hne : t ≠ []) :
    ∃ r rs, Finished (r :: rs) ∧ t = rowsText (r :: rs) := by
  -- the first gap that counts ends the first token, and what follows it is normal again
  induction hn : t.length using Nat.strong_induction_on generalizing t with
  | _ n ih =>
    rcases unbroken_or_sep isGap Scan.start t with hwhole | ⟨a, c, b, rfl, ha, hrun, hc⟩
    · have hended : Ended ([], t) := Ended.singleton ⟨hne, hwhole⟩ h.last
      exact ⟨([], t), [], ⟨hended, fun hnil => absurd rfl hnil, trivial⟩, rfl⟩
    · have hbal : balanced a = true := balanced_iff.mpr hrun
      rcases Bool.or_eq_true_iff.mp hc with hcomma | hblank
      · obtain rfl : c = ',' := by simpa [isComma] using hcomma
        obtain ⟨hane, hlast, hnext⟩ := h.comma a b rfl hbal
        obtain ⟨u, rfl⟩ := List.head?_eq_some_iff.mp hnext
        have hclosed : balanced (a ++ [',']) = true := (balanced_append hbal).trans (by decide)
        have hsplit : a ++ ',' :: ' ' :: u = (a ++ [',']) ++ ' ' :: u := by simp
        obtain ⟨hune, hu⟩ := Normal.behind_space (hsplit ▸ h) hclosed
        obtain ⟨r, rs, hrs, rfl⟩ := ih u.length (by simp [← hn]; omega) hu hune rfl
        refine ⟨([], a), r :: rs, ⟨Ended.singleton ⟨hane, ha⟩ hlast, fun _ => hbal, hrs⟩, ?_⟩
        rw [rowsText_cons_cons]
        rfl
      · obtain ⟨rfl, hane, -⟩ := h.blank a c b rfl hbal hblank
        obtain ⟨hbne, hb⟩ := h.behind_space hbal
        obtain ⟨r, rs, ⟨hended, hclosed, hrest⟩, rfl⟩ :=
          ih b.length (by simp [← hn]; omega) hb hbne rfl
        refine ⟨(a :: r.1, r.2), rs, ⟨hended.cons ⟨hane, ha⟩ hbal, hclosed, hrest⟩, ?_⟩
        simp [rowsText, join_cons, rowText]

/-! ### Finished rows are normal -/

/-- Where a character can stand in a text that goes on. -/
theorem append_eq_append_cons {x u a b : Text} {c : Char} (h : x ++ u = a ++ c :: b) :
    (∃ b', x = a ++ c :: b' ∧ b = b' ++ u) ∨ ∃ a', a = x ++ a' ∧ u = a' ++ c :: b := by
  rcases List.append_eq_append_iff.mp h with ⟨a', ha, hu⟩ | ⟨b', hx, hb⟩
  · exact Or.inr ⟨a', ha, hu⟩
  · cases b' with
    | nil => exact Or.inr ⟨[], by simpa using hx.symm, hb.symm⟩
    | cons d b' =>
      obtain ⟨rfl, hrest⟩ := List.cons.inj hb
      exact Or.inl ⟨b', hx, hrest⟩

/-- A text in front of a space that counts, in which no gap counts but a comma at its end. -/
structure Opening (x : Text) : Prop where
  nonempty : x ≠ []
  closed : balanced x = true
  gap : ∀ a c b, x = a ++ c :: b → balanced a = true → isGap c = true →
    c = ',' ∧ b = [] ∧ a ≠ [] ∧ ∀ d, a.getLast? = some d → Text.isBlank d = false

theorem Token.opening {x : Text} (hx : Token x) (hbal : balanced x = true) : Opening x := by
  refine ⟨hx.nonempty, hbal, ?_⟩
  rintro a c b rfl ha hc
  exact absurd hx (Token.not_gap hc ha)

theorem Token.opening_comma {x : Text} (hx : Token x) (hbal : balanced x = true)
    (hlast : ∀ d, x.getLast? = some d → Text.isBlank d = false) : Opening (x ++ [',']) := by
  refine ⟨by simp, (balanced_append hbal).trans (by decide), ?_⟩
  intro a c b hsplit ha hc
  rcases append_eq_append_cons hsplit with ⟨b', rfl, -⟩ | ⟨a', rfl, hend⟩
  · exact absurd hx (Token.not_gap hc ha)
  · obtain ⟨rfl, rfl, rfl⟩ : a' = [] ∧ c = ',' ∧ b = [] := by
      simpa [eq_comm, List.append_eq_singleton_iff] using hend
    rw [List.append_nil]
    exact ⟨rfl, rfl, hx.nonempty, hlast⟩

/-- A gap that counts behind an opening is the comma at its end, the space behind it, or a
    gap of what follows. -/
theorem Opening.split {x u a b : Text} {c : Char} (hx : Opening x)
    (hsplit : x ++ ' ' :: u = a ++ c :: b) (ha : balanced a = true) (hc : isGap c = true) :
    (x = a ++ [','] ∧ c = ',' ∧ b = ' ' :: u ∧ a ≠ [] ∧
        ∀ d, a.getLast? = some d → Text.isBlank d = false) ∨
      (a = x ∧ c = ' ' ∧ b = u) ∨
        ∃ a', a = x ++ ' ' :: a' ∧ u = a' ++ c :: b ∧ balanced a' = true := by
  rcases append_eq_append_cons hsplit with ⟨b', hin, rfl⟩ | ⟨a', rfl, hrest⟩
  · obtain ⟨rfl, rfl, hne, hlast⟩ := hx.gap a c b' hin ha hc
    exact Or.inl ⟨hin, rfl, rfl, hne, hlast⟩
  · cases a' with
    | nil =>
      obtain ⟨rfl, rfl⟩ := List.cons.inj hrest
      exact Or.inr (Or.inl ⟨List.append_nil x, rfl, rfl⟩)
    | cons d a' =>
      obtain ⟨rfl, rfl⟩ := List.cons.inj hrest
      exact Or.inr (Or.inr ⟨a', rfl, rfl, (balanced_append_space hx.closed).symm.trans ha⟩)

/-- A normal text goes on from an opening. -/
theorem Opening.normal {x u : Text} (hx : Opening x) (hu : Normal u) (hne : u ≠ []) :
    Normal (x ++ ' ' :: u) := by
  refine ⟨fun c hc => hu.last c ?_, fun a c b hsplit ha hc => ?_, fun a b hsplit ha => ?_⟩
  · rwa [getLast?_append_space x hne] at hc
  · rcases hx.split hsplit ha (by simp [isGap, hc]) with
      ⟨-, rfl, -⟩ | ⟨rfl, rfl, rfl⟩ | ⟨a', rfl, rfl, ha'⟩
    · exact absurd hc (by decide)
    · exact ⟨rfl, hx.nonempty, hu.head⟩
    · obtain ⟨hspace, -, hnext⟩ := hu.blank a' c b rfl ha' hc
      exact ⟨hspace, by simp, hnext⟩
  · rcases hx.split hsplit ha (by decide) with
      ⟨-, -, rfl, hane, hlast⟩ | ⟨-, hcomma, -⟩ | ⟨a', rfl, rfl, ha'⟩
    · exact ⟨hane, hlast, rfl⟩
    · exact absurd hcomma (by decide)
    · obtain ⟨hane, hlast, hnext⟩ := hu.comma a' b rfl ha'
      refine ⟨by simp, fun d hd => hlast d ?_, hnext⟩
      rwa [getLast?_append_space x hane] at hd

theorem Token.normal {c : Text} (hc : Token c)
    (hlast : ∀ d, c.getLast? = some d → Text.isBlank d = false) : Normal c := by
  refine ⟨hlast, ?_, ?_⟩
  · rintro a d b rfl ha hd
    exact absurd hc (Token.not_gap (by simp [isGap, hd]) ha)
  · rintro a b rfl ha
    exact absurd hc (Token.not_gap (by decide) ha)

/-- Balanced tokens, each with a space behind it, in front of a normal text. -/
theorem normal_lead {init : List Text} (htokens : ∀ c ∈ init, Token c)
    (hclosed : ∀ c ∈ init, balanced c = true) {u : Text} (hu : Normal u) (hne : u ≠ []) :
    Normal (lead init ++ u) := by
  induction init with
  | nil => exact hu
  | cons c init ih =>
    rw [List.forall_mem_cons] at htokens hclosed
    rw [lead_cons, List.append_assoc, List.cons_append]
    exact (htokens.1.opening hclosed.1).normal (ih htokens.2 hclosed.2) (by simp [hne])

/-- **The text of finished rows is normal.** -/
theorem Finished.normal {rs : List (List Text × Text)} (h : Finished rs) : Normal (rowsText rs) := by
  induction rs with
  | nil => exact Normal.nil
  | cons r rs ih =>
    obtain ⟨hended, hclosed, hrest⟩ := h
    have hlast : Token r.2 := hended.row.tokens r.2 (by simp)
    have hinit : ∀ c ∈ r.1, Token c := fun c hc => hended.row.tokens c (by simp [hc])
    cases rs with
    | nil => exact normal_lead hinit hended.row.closed (hlast.normal hended.last) hlast.nonempty
    | cons r' rs =>
      have hne : rowsText (r' :: rs) ≠ [] := by
        simp [rowsText, join_cons, hrest.1.nonempty]
      have htail : Normal ((r.2 ++ [',']) ++ ' ' :: rowsText (r' :: rs)) :=
        (hlast.opening_comma (hclosed (by simp)) hended.last).normal (ih hrest) hne
      have htext : rowsText (r :: r' :: rs) =
          lead r.1 ++ ((r.2 ++ [',']) ++ ' ' :: rowsText (r' :: rs)) := by
        rw [rowsText_cons_cons]
        simp [rowText]
      rw [htext]
      exact normal_lead hinit hended.row.closed htail (by simp)

theorem Finished.normalize_eq {rs : List (List Text × Text)} (h : Finished rs) :
    normalize (rowsText rs) = rowsText rs := by
  have hblanks : ∀ b ∈ ([] : Text), Text.isBlank b = true := by simp
  have hnormal := normalize_rowsText h hblanks
  rwa [List.append_nil] at hnormal

/-- **Normalising is idempotent on all texts**, and the texts that it leaves alone are the
    normal ones. -/
theorem normalize_idempotent (t : Text) :
    normalize (normalize t) = normalize t ∧ (normalize t = t ↔ Normal t) := by
  obtain ⟨rs, hrs, htext⟩ := exists_finished_normalize t
  refine ⟨by rw [htext, hrs.normalize_eq], fun hsame => ?_, fun hnormal => ?_⟩
  · rw [← hsame, htext]
    exact hrs.normal
  · by_cases hne : t = []
    · rw [hne]
      rfl
    · obtain ⟨k, ks, hks, rfl⟩ := hnormal.exists_finished hne
      exact hks.normalize_eq

-- without the escaped blank in front of it, the comma of `a\ ,b` does not count any more
example : (parts ['a', '\\', ' ', ',', 'b']).length = 2 ∧
    parts (normalize ['a', '\\', ' ', ',', 'b']) = [['a', '\\', ',', ' ', 'b']] := by decide

end StyleNesting.Selector
