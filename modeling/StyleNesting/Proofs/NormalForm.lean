/-
  StyleNesting/Proofs/NormalForm.lean
  ===================================
  **Normal forms are read as they were written, and runs stay runs.**  Where no backslash
  stands in front of a blank, the pieces of a run are runs, and so is its normal
  form (`run_normalize`).

  Every normal form is the text of *finished* rows (`exists_finished_normalize`), so
  normalising it again, with blanks behind it, changes nothing
  (`normalize_append_blanks`).  The last part of a selector may leave brackets open;
  then its last compound goes on to the end of the text, and all that is known of
  it is that it does not end in a blank.
-/
import StyleNesting.Proofs.Compounds
import StyleNesting.Proofs.Runs

namespace StyleNesting

theorem Text.head?_join (sep : Text) {t : Text} (hne : t ≠ []) (ts : List Text) :
    (Text.join sep (t :: ts)).head? = t.head? := by
  cases ts with
  | nil => rfl
  | cons u ts =>
    have hjoin : Text.join sep (t :: u :: ts) = t ++ (sep ++ Text.join sep (u :: ts)) := by
      simp [Text.join]
    rw [hjoin, List.head?_append_of_ne_nil _ hne]

namespace Source

open Selector

/-! ### Runs cut apart -/

theorem Run.left {a b : Text} (h : Run (a ++ b)) (ha : (Scan.start.run a).Outside) : Run a := by
  have halong := h.along
  rw [Scan.along_append, Bool.and_eq_true] at halong
  exact ⟨halong.1, ha⟩

theorem Run.right {a b : Text} (h : Run (a ++ b)) (ha : (Scan.start.run a).Outside) : Run b := by
  have halong := h.along
  have hends := h.ends
  rw [Scan.along_append, Bool.and_eq_true] at halong
  rw [Scan.run_append] at hends
  have hb : Passes (Scan.start.run a) b := ⟨halong.2, hends⟩
  exact hb.congr (ha.alike Scan.Outside.start)

theorem outside_of_balanced {t : Text} (h : balanced t = true) : (Scan.start.run t).Outside := by
  rw [balanced_iff.mp h]
  exact Scan.Outside.start

/-- What holds of both sides of a text that is cut outside of strings holds of its
    pieces. -/
theorem forall_mem_cut {Q : Text → Prop}
    (hleft : ∀ a b, Q (a ++ b) → (Scan.start.run a).Outside → Q a)
    (hright : ∀ a b, Q (a ++ b) → (Scan.start.run a).Outside → Q b) {isSep : Char → Bool}
    (hsep : ∀ c, isSep c = true → isPlain c = true) {t p : Text} (ht : Q t)
    (hp : p ∈ cut isSep Scan.start t) : Q p := by
  induction t using cut_induction isSep with
  | whole t h =>
    rw [cut_of_unbroken h, List.mem_singleton] at hp
    exact hp ▸ ht
  | sep a c b ha hbal hc ih =>
    rw [cut_append_sep ha (balanced_iff.mp hbal) hc] at hp
    have houtside := outside_of_balanced hbal
    rcases List.mem_cons.mp hp with rfl | hmem
    · exact hleft p _ ht houtside
    · have hrest : Q ([c] ++ b) := hright a _ ht houtside
      have hstep : Scan.start.run [c] = Scan.start := Scan.step_start_plain (hsep c hc)
      exact ih (hright [c] b hrest (by rw [hstep]; exact Scan.Outside.start)) hmem

theorem run_of_mem_cut {isSep : Char → Bool} (hsep : ∀ c, isSep c = true → isPlain c = true)
    {t p : Text} (ht : Run t) (hp : p ∈ cut isSep Scan.start t) : Run p :=
  forall_mem_cut (fun _ _ h => h.left) (fun _ _ h => h.right) hsep ht hp

theorem Run.trim {t : Text} (ht : Run t) (hesc : escapesBlank t = false) : Run (Text.trim t) := by
  obtain ⟨as, bs, hsplit, has, hbs⟩ := Text.trim_between_blanks t
  have houtside : (Scan.start.run as).Outside := by
    rw [run_blanks_start has]
    exact Scan.Outside.start
  rw [hsplit] at ht
  have hrest : Run (Text.trim t ++ bs) := Run.right ht houtside
  refine Run.left hrest ?_
  cases bs with
  | nil => simpa using hrest.ends
  | cons b bs =>
    have hproper := Scan.Proper.start.run (Text.trim t)
    have hunescaped : ({ Scan.start.run (Text.trim t) with escaped := false } : Scan).Proper :=
      ⟨hproper.quote, hproper.closers⟩
    have hends := hrest.ends
    rw [Scan.run_append, Scan.run_cons, hproper.step_plain (isPlain_of_isBlank (hbs b (by simp))),
      hunescaped.run_blanks rfl fun c hc => hbs c (by simp [hc])] at hends
    refine ⟨?_, hends.quote⟩
    cases hescaped : (Scan.start.run (Text.trim t)).escaped with
    | false => rfl
    | true =>
      -- the blank behind it would be escaped
      obtain ⟨u, hu⟩ := eq_append_backslash_of_escaped hescaped
      have hinfix : ['\\', b] <:+: t := ⟨as ++ u, bs, by rw [hsplit, hu]; simp⟩
      rw [escapesBlank_iff.mpr ⟨b, hbs b (by simp), hinfix⟩] at hesc
      cases hesc

theorem Run.join {sep : Text} (hsep : Run sep) {ts : List Text} (h : ∀ t ∈ ts, Run t) :
    Run (Text.join sep ts) := by
  induction ts with
  | nil => exact Run.nil
  | cons t ts ih =>
    have ht := h t (by simp)
    cases ts with
    | nil => exact ht
    | cons u ts =>
      have hrest := ih fun v hv => h v (List.mem_cons_of_mem t hv)
      exact Passes.append (Passes.append ht hsep) hrest

/-- **The normal form of a run is a run.** -/
theorem run_normalize {t : Text} (ht : Run t) (hesc : escapesBlank t = false) :
    Run (normalize t) := by
  refine Run.join (Run.of_items (by decide)) fun q hq => ?_
  obtain ⟨p, hp, rfl⟩ := List.mem_map.mp hq
  obtain ⟨piece, hpiece, rfl, -⟩ := mem_parts.mp hp
  have hpart : Run (Text.trim piece) :=
    Run.trim (run_of_mem_cut (fun c => isPlain_of_isComma) ht hpiece)
      (escapesBlank_mono (infix_of_mem_cut hpiece) hesc)
  refine Run.join (Run.of_items (by decide)) fun c hc => ?_
  exact run_of_mem_cut (fun c => isPlain_of_isBlank) hpart (List.mem_of_mem_filter hc)

end Source

/-! ### Rows that end in no blank -/

namespace Selector

/-- The last compound of a text stands at its end, if the text does not end in a
    blank. -/
theorem exists_last_compound {t : Text} (hne : t ≠ [])
    (h : ∀ c, t.getLast? = some c → Text.isBlank c = false) :
    ∃ init last, compounds t = init ++ [last] ∧ last <:+ t := by
  induction t using cut_induction Text.isBlank with
  | whole t hwhole =>
    exact ⟨[], t, by simp [compounds, cut_of_unbroken hwhole, hne], List.suffix_rfl⟩
  | sep a b t ha hbal hb ih =>
    have htne : t ≠ [] := by
      rintro rfl
      rw [h b (by simp)] at hb
      cases hb
    have hlast : (a ++ b :: t).getLast? = t.getLast? := by
      rw [List.getLast?_append_of_ne_nil _ (by simp), List.getLast?_cons_of_ne_nil htne]
    obtain ⟨init, last, hcs, hsuffix⟩ := ih htne fun c hc => h c (by rw [hlast]; exact hc)
    refine ⟨[a].filter (!·.isEmpty) ++ init, last, ?_, ?_⟩
    · rw [compounds_append_blank ha hbal hb, hcs, List.append_assoc]
    · exact hsuffix.trans ((List.suffix_cons b t).trans (List.suffix_append a _))

/-- A row that does not end in a blank. -/
structure Ended (r : List Text × Text) : Prop where
  row : Row r.1 r.2
  last : ∀ d, r.2.getLast? = some d → Text.isBlank d = false

theorem Ended.trimmed {r : List Text × Text} (h : Ended r) : Text.Trimmed (rowText r) :=
  h.row.trimmed h.last

theorem Ended.nonempty {r : List Text × Text} (h : Ended r) : rowText r ≠ [] := by
  have hne := (h.row.tokens r.2 (by simp)).nonempty
  simp [rowText, hne]

/-- Only the last token of a row may leave something open. -/
theorem Ended.balanced_rowText {r : List Text × Text} (h : Ended r) :
    balanced (rowText r) = balanced r.2 := by
  rw [Bool.eq_iff_iff, balanced_iff, balanced_iff, rowText, h.row.run]

/-- Rows as normalising leaves them where no blank is escaped: only the last one may
    leave something open. -/
def Finished : List (List Text × Text) → Prop
  | [] => True
  | r :: rs => Ended r ∧ (rs ≠ [] → balanced r.2 = true) ∧ Finished rs

/-- The compounds of a part do not end in a blank. -/
theorem Row.ended {r : List Text × Text} (hrow : Row r.1 r.2) {p : Text} (hp : Piece p)
    (hcs : Selector.compounds p = r.1 ++ [r.2]) : Ended r := by
  refine ⟨hrow, ?_⟩
  obtain ⟨init, last, hcs', x, hx⟩ := exists_last_compound hp.nonempty hp.trimmed.last
  rw [hcs] at hcs'
  have heq : r.2 = last := List.singleton_inj.mp (List.append_inj_right' hcs' rfl)
  intro d hd
  apply hp.trimmed.last d
  rw [← hx, ← heq, List.getLast?_append_of_ne_nil x (hrow.tokens r.2 (by simp)).nonempty, hd]

theorem ended_of_rows {t : Text} {rs : List (List Text × Text)} (hrs : Rows rs)
    (hrows : (parts t).map compounds = rs.map fun r => r.1 ++ [r.2]) : ∀ r ∈ rs, Ended r := by
  intro r hr
  have hmem : r.1 ++ [r.2] ∈ (parts t).map compounds := by
    rw [hrows]
    exact List.mem_map_of_mem hr
  obtain ⟨p, hp, hcs⟩ := List.mem_map.mp hmem
  exact (hrs.row r hr).ended (piece_of_mem_parts hp) hcs

theorem finished_of_ended {rs : List (List Text × Text)} (hended : ∀ r ∈ rs, Ended r)
    (hclosed : ∀ r ∈ rs.dropLast, balanced r.2 = true) : Finished rs := by
  induction rs with
  | nil => trivial
  | cons r rs ih =>
    rw [List.forall_mem_cons] at hended
    by_cases hnil : rs = []
    · subst hnil
      exact ⟨hended.1, fun hne => absurd rfl hne, trivial⟩
    · rw [List.dropLast_cons_of_ne_nil hnil, List.forall_mem_cons] at hclosed
      exact ⟨hended.1, fun _ => hclosed.1, ih hended.2 hclosed.2⟩

/-- **The compounds of a list's parts are finished rows**, where no blank is escaped. -/
theorem exists_finished {t : Text} (hesc : escapesBlank t = false) :
    ∃ rs, Finished rs ∧ (parts t).map compounds = rs.map fun r => r.1 ++ [r.2] := by
  obtain ⟨rs, hrs, hclosed, hrows⟩ := exists_rows t
  exact ⟨rs, finished_of_ended (ended_of_rows hrs hrows) (hclosed hesc), hrows⟩

/-! ### Rows that are tied together -/

theorem Ended.tie {r r' : List Text × Text} (h : Ended r) (h' : Ended r')
    (hdangling : Scan.start.run r.2 = Scan.dangling) : Ended (tie r r') :=
  ⟨h.row.tie h'.row hdangling, h'.last⟩

/-- Rows that leave a backslash over are tied to the next ones; the text stays the same. -/
theorem Rows.exists_finished {r : List Text × Text} {rs : List (List Text × Text)}
    (hrs : Rows (r :: rs)) (hended : ∀ k ∈ r :: rs, Ended k) :
    ∃ k ks, Finished (k :: ks) ∧ rowsText (k :: ks) = rowsText (r :: rs) := by
  induction rs generalizing r with
  | nil => exact ⟨r, [], ⟨hended r (by simp), fun hne => absurd rfl hne, trivial⟩, rfl⟩
  | cons r' rs ih =>
    obtain ⟨hrow, hend, hrest⟩ := hrs
    obtain ⟨hfirst, hsecond, hlater⟩ : Ended r ∧ Ended r' ∧ ∀ k ∈ rs, Ended k := by
      simpa only [List.forall_mem_cons] using hended
    rcases hend (by simp) with hstart | hdangling
    · obtain ⟨k, ks, hks, htext⟩ := ih hrest (List.forall_mem_cons.mpr ⟨hsecond, hlater⟩)
      refine ⟨r, k :: ks, ⟨hfirst, fun _ => balanced_iff.mpr hstart, hks⟩, ?_⟩
      rw [rowsText_cons_cons, rowsText_cons_cons, htext]
    · have htied : Rows (Selector.tie r r' :: rs) :=
        ⟨hrow.tie hrest.1 hdangling, hrest.2.1, hrest.2.2⟩
      rw [← rowsText_tie]
      exact ih htied (List.forall_mem_cons.mpr ⟨hfirst.tie hsecond hdangling, hlater⟩)

/-- **What normalising writes is the text of finished rows**, whatever it is given. -/
theorem exists_finished_normalize (t : Text) : ∃ rs, Finished rs ∧ normalize t = rowsText rs := by
  obtain ⟨rs, hrs, -, hrows⟩ := exists_rows t
  have hended := ended_of_rows hrs hrows
  rw [normalize_eq_rowsText hrows]
  cases rs with
  | nil => exact ⟨[], trivial, rfl⟩
  | cons r rs =>
    obtain ⟨k, ks, hks, hsame⟩ := hrs.exists_finished hended
    exact ⟨k :: ks, hks, hsame.symm⟩

/-! ### Finished rows are read again -/

theorem Finished.ended {rs : List (List Text × Text)} (h : Finished rs) : ∀ r ∈ rs, Ended r := by
  induction rs with
  | nil => simp
  | cons r rs ih =>
    intro r' hr'
    rcases List.mem_cons.mp hr' with rfl | hr'
    · exact h.1
    · exact ih h.2.2 r' hr'

theorem unbroken_of_avoids {isSep : Char → Bool} {t : Text} (h : ∀ c ∈ t, isSep c = false)
    (s : Scan) : unbroken isSep s t = true := by
  induction t generalizing s with
  | nil => rfl
  | cons c t ih =>
    rw [unbroken, h c (by simp), ih fun d hd => h d (by simp [hd])]
    simp

/-- A normal form does not start with a blank. -/
theorem Finished.head {rs : List (List Text × Text)} (h : Finished rs) :
    ∀ c, (rowsText rs).head? = some c → Text.isBlank c = false := by
  intro c hc
  cases rs with
  | nil => cases hc
  | cons r rs =>
    rw [rowsText, List.map_cons, Text.head?_join _ h.1.nonempty] at hc
    exact h.1.trimmed.head c hc

theorem comma_of_isBlank {b : Char} (hb : Text.isBlank b = true) : isComma b = false := by
  cases h : isComma b with
  | false => rfl
  | true =>
    have hcomma : b = ',' := by simpa [isComma] using h
    rw [hcomma] at hb
    exact absurd hb (by decide)

/-- **Finished rows are cut into the same rows again**, whatever blanks stand behind. -/
theorem parts_rowsText {rs : List (List Text × Text)} (h : Finished rs) {bs : Text}
    (hbs : ∀ b ∈ bs, Text.isBlank b = true) : parts (rowsText rs ++ bs) = rs.map rowText := by
  have hblanks : unbroken isComma Scan.start bs = true :=
    unbroken_of_avoids (fun b hb => comma_of_isBlank (hbs b hb)) Scan.start
  induction rs with
  | nil =>
    have htrim : Text.trim bs = [] := by
      rw [Text.trim, Text.trimStart, List.dropWhile_eq_nil_iff.mpr hbs]
      rfl
    have htext : rowsText [] ++ bs = bs := rfl
    rw [htext, parts_of_unbroken hblanks, partOf, htrim]
    rfl
  | cons r rs ih =>
    obtain ⟨hended, hclosed, hrest⟩ := h
    have hpart : ∀ {bs : Text}, (∀ b ∈ bs, Text.isBlank b = true) →
        partOf (rowText r ++ bs) = [rowText r] := by
      intro bs hbs
      have htrim : Text.trim (rowText r ++ bs) = rowText r :=
        Text.trim_append (fun a ha => absurd ha List.not_mem_nil) hbs hended.trimmed
      simp [partOf, htrim, hended.nonempty]
    cases rs with
    | nil =>
      have hunbroken : unbroken isComma Scan.start (rowText r ++ bs) = true := by
        rw [unbroken_append, rowText, hended.row.no_comma,
          unbroken_of_avoids fun b hb => comma_of_isBlank (hbs b hb)]
        rfl
      have htext : rowsText [r] = rowText r := rfl
      rw [htext, parts_of_unbroken hunbroken, hpart hbs]
      rfl
    | cons r' rs =>
      have hbal : balanced (rowText r) = true := hended.balanced_rowText.trans (hclosed (by simp))
      have hunbroken : unbroken isComma Scan.start (rowText r) = true := hended.row.no_comma
      have hfirst : partOf (rowText r) = [rowText r] := by
        simpa using hpart (fun b hb => absurd hb List.not_mem_nil)
      rw [rowsText_cons_cons, List.append_assoc, List.cons_append,
        parts_append_comma hunbroken hbal, hfirst, List.singleton_append, List.cons_append,
        parts_blank_cons (by decide), ih hrest]
      rfl

/-- **Normalising finished rows changes nothing**, whatever blanks stand behind. -/
theorem normalize_rowsText {rs : List (List Text × Text)} (h : Finished rs) {bs : Text}
    (hbs : ∀ b ∈ bs, Text.isBlank b = true) : normalize (rowsText rs ++ bs) = rowsText rs := by
  have hrow : ∀ r ∈ rs, Text.join [' '] (compounds (rowText r)) = rowText r := by
    intro r hr
    rw [rowText, (h.ended r hr).row.compounds, join_concat]
  rw [normalize, parts_rowsText h hbs, List.map_map, rowsText]
  congr 1
  exact List.map_congr_left hrow

/-- A normal form stays what it is, whatever blanks stand behind. -/
theorem normalize_append_blanks (t : Text) {bs : Text} (hbs : ∀ b ∈ bs, Text.isBlank b = true) :
    normalize (normalize t ++ bs) = normalize t := by
  obtain ⟨rs, hrs, htext⟩ := exists_finished_normalize t
  rw [htext]
  exact normalize_rowsText hrs hbs

/-- **The parts of a normal form are tidy** if it is balanced and no backslash in it stands in
    front of a blank. -/
theorem tidy_of_mem_parts_normalize {t p : Text} (hbal : balanced (normalize t) = true)
    (hesc : escapesBlank (normalize t) = false) (hp : p ∈ parts (normalize t)) : Tidy p := by
  have hclosed : balanced p = true := (atom_of_mem_parts hbal hesc hp).closed
  have hplain : escapesBlank p = false := escapesBlank_mono (infix_of_mem_parts hp) hesc
  obtain ⟨rs, hrs, htext⟩ := exists_finished_normalize t
  have hblanks : ∀ b ∈ ([] : Text), Text.isBlank b = true := by simp
  rw [htext, ← List.append_nil (rowsText rs), parts_rowsText hrs hblanks] at hp
  obtain ⟨r, hr, rfl⟩ := List.mem_map.mp hp
  have hended := hrs.ended r hr
  exact hended.row.tidy (hended.balanced_rowText.symm.trans hclosed) hplain

end Selector

end StyleNesting
