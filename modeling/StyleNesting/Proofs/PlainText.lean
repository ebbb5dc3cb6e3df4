/-
  StyleNesting/Proofs/PlainText.lean
  ==================================
  **Plain text**: runs in which no escape takes a blank or a quote, and in which
  the mark that opens a comment stands in strings only.  A plain text may be cut
  wherever the scan is outside of strings (`Plain.left`, `Plain.right`), and its
  normal form is made of plain compounds (`plain_of_mem_compounds`).

  Whoever looks for comments finds none in a plain text, and no string that is not
  closed (`Plain.calm`).
-/
import StyleNesting.Proofs.Comments
import StyleNesting.Proofs.NormalForm

namespace StyleNesting.Source

open StyleNesting Selector

/-! ### Words that stand in strings only -/

/-- Whether a word stands in a text inside of strings only. -/
def onlyQuoted (word : Text) : Scan → Text → Bool
  | _, [] => true
  | s, c :: t => (s.quote.isSome || !word.isPrefixOf (c :: t)) && onlyQuoted word (s.step c) t

section Words

variable {word : Text} {s s' : Scan} {t u : Text}

theorem onlyQuoted_congr (h : s.Alike s') (t : Text) :
    onlyQuoted word s t = onlyQuoted word s' t := by
  induction t generalizing s s' with
  | nil => rfl
  | cons c t ih => rw [onlyQuoted, onlyQuoted, h.quote, ih (h.step c)]

theorem onlyQuoted_of_append (h : onlyQuoted word s (t ++ u) = true) :
    onlyQuoted word s t = true ∧ onlyQuoted word (s.run t) u = true := by
  induction t generalizing s with
  | nil => exact ⟨rfl, h⟩
  | cons c t ih =>
    rw [List.cons_append, onlyQuoted, Bool.and_eq_true, Bool.or_eq_true, Bool.not_eq_true'] at h
    obtain ⟨hleft, hright⟩ := ih h.2
    refine ⟨?_, hright⟩
    rw [onlyQuoted, hleft, Bool.and_true, Bool.or_eq_true, Bool.not_eq_true']
    refine h.1.imp_right fun hnone => ?_
    cases hword : word.isPrefixOf (c :: t) with
    | false => rfl
    | true =>
      have hlonger : word <+: (c :: t) ++ u :=
        (List.isPrefixOf_iff_prefix.mp hword).trans (List.prefix_append _ _)
      rw [← List.cons_append, List.isPrefixOf_iff_prefix.mpr hlonger] at hnone
      cases hnone

/-- A word does not reach over a character that it does not have. -/
theorem onlyQuoted_append_cons {c : Char} (hc : c ∉ word) (ht : onlyQuoted word s t = true)
    (hu : onlyQuoted word (s.run t) (c :: u) = true) : onlyQuoted word s (t ++ c :: u) = true := by
  induction t generalizing s with
  | nil => exact hu
  | cons d t ih =>
    rw [onlyQuoted, Bool.and_eq_true, Bool.or_eq_true, Bool.not_eq_true'] at ht
    rw [List.cons_append, onlyQuoted, ih ht.2 hu, Bool.and_true, Bool.or_eq_true, Bool.not_eq_true']
    refine ht.1.imp_right fun hnone => ?_
    cases hword : word.isPrefixOf (d :: (t ++ c :: u)) with
    | false => rfl
    | true =>
      obtain ⟨z, hz⟩ := List.isPrefixOf_iff_prefix.mp hword
      -- the word ends in front of `c`, so it was found without it
      have hshorter : word <+: d :: t := by
        rw [← List.cons_append] at hz
        rcases List.append_eq_append_iff.mp hz with ⟨v, hv, -⟩ | ⟨v, hv, hrest⟩
        · exact ⟨v, hv.symm⟩
        · cases v with
          | nil => exact ⟨[], by simp [hv]⟩
          | cons e v =>
            rw [List.cons_append, List.cons.injEq] at hrest
            exact absurd (by simp [hv, hrest.1]) hc
      rw [List.isPrefixOf_iff_prefix.mpr hshorter] at hnone
      cases hnone

theorem onlyQuoted_plain_cons {c : Char} (hplain : Scan.start.step c = Scan.start)
    (hc : c ∉ word) (hne : word ≠ []) (h : onlyQuoted word Scan.start t = true) :
    onlyQuoted word Scan.start (c :: t) = true := by
  obtain ⟨d, v, rfl⟩ := List.exists_cons_of_ne_nil hne
  have hd : d ≠ c := fun heq => hc (by simp [heq])
  have hnone : (d :: v).isPrefixOf (c :: t) = false := by simp [List.isPrefixOf, hd]
  rw [onlyQuoted, hplain, h, hnone, Bool.not_false, Bool.or_true, Bool.and_true]

end Words

/-! ### Plain texts -/

/-- The mark that opens a comment. -/
def commentMark : Text := ['/', '*']

structure Plain (t : Text) : Prop where
  run : Run t
  escapes : Scan.start.along takesPlain t = true
  comments : onlyQuoted commentMark Scan.start t = true

theorem along_takesPlain_congr {s s' : Scan} (h : s.Alike s') (t : Text) :
    s.along takesPlain t = s'.along takesPlain t :=
  h.along (fun s s' h c => by rw [takesPlain, takesPlain, h.escaped]) t

theorem Plain.left {a b : Text} (h : Plain (a ++ b)) (ha : (Scan.start.run a).Outside) :
    Plain a := by
  have halong := h.escapes
  rw [Scan.along_append, Bool.and_eq_true] at halong
  exact ⟨h.run.left ha, halong.1, (onlyQuoted_of_append h.comments).1⟩

theorem Plain.right {a b : Text} (h : Plain (a ++ b)) (ha : (Scan.start.run a).Outside) :
    Plain b := by
  have hstart := ha.alike Scan.Outside.start
  have halong := h.escapes
  rw [Scan.along_append, Bool.and_eq_true, along_takesPlain_congr hstart] at halong
  have hcomments := (onlyQuoted_of_append h.comments).2
  rw [onlyQuoted_congr hstart] at hcomments
  exact ⟨h.run.right ha, halong.2, hcomments⟩

theorem Plain.trim {t : Text} (h : Plain t) (hesc : escapesBlank t = false) :
    Plain (Text.trim t) := by
  have houtside := (h.run.trim hesc).ends
  obtain ⟨as, bs, hsplit, has, hbs⟩ := Text.trim_between_blanks t
  rw [hsplit] at h
  have hrest : Plain (Text.trim t ++ bs) := by
    refine h.right ?_
    rw [run_blanks_start has]
    exact Scan.Outside.start
  exact hrest.left houtside

theorem Plain.cons {c : Char} (hplain : Scan.start.step c = Scan.start) (hitem : isItem c = true)
    (hc : c ∉ commentMark) {t : Text} (h : Plain t) : Plain (c :: t) := by
  refine ⟨Passes.append (Run.singleton hitem) h.run, ?_, ?_⟩
  · rw [Scan.along, hplain, h.escapes, takesPlain]
    rfl
  · exact onlyQuoted_plain_cons hplain hc (by decide) h.comments

theorem Plain.append_space {a t : Text} (ha : Plain a) (hbal : balanced a = true) (h : Plain t) :
    Plain (a ++ ' ' :: t) := by
  have hspace : Plain (' ' :: t) := h.cons (by decide) (by decide) (by decide)
  have hrun : Scan.start.run a = Scan.start := balanced_iff.mp hbal
  refine ⟨Passes.append ha.run hspace.run, ?_, ?_⟩
  · rw [Scan.along_append, ha.escapes, hrun, hspace.escapes]
    rfl
  · refine onlyQuoted_append_cons (by decide) ha.comments ?_
    rw [hrun]
    exact hspace.comments

theorem plain_row {init : List Text} {last : Text} (h : Row init last)
    (hplain : ∀ c ∈ init ++ [last], Plain c) : Plain (lead init ++ last) := by
  induction init with
  | nil => exact hplain last (by simp)
  | cons c init ih =>
    rw [lead_cons, List.append_assoc, List.cons_append]
    have hrest := ih h.tail fun d hd => hplain d (List.mem_cons_of_mem c hd)
    exact (hplain c (by simp)).append_space (h.closed c (by simp)) hrest

/-- The compounds of a plain text are plain. -/
theorem plain_of_mem_compounds {t p c : Text} (ht : Plain t) (hesc : escapesBlank t = false)
    (hp : p ∈ parts t) (hc : c ∈ compounds p) : Plain c ∧ escapesBlank c = false := by
  obtain ⟨piece, hpiece, rfl, -⟩ := mem_parts.mp hp
  have hpieceEsc := escapesBlank_mono (infix_of_mem_cut hpiece) hesc
  have hpart : Plain (Text.trim piece) :=
    (forall_mem_cut (fun _ _ h => h.left) (fun _ _ h => h.right) (fun c => isPlain_of_isComma) ht
      hpiece).trim hpieceEsc
  have hcut := List.mem_of_mem_filter hc
  refine ⟨forall_mem_cut (fun _ _ h => h.left) (fun _ _ h => h.right)
    (fun c => isPlain_of_isBlank) hpart hcut, ?_⟩
  exact escapesBlank_mono ((infix_of_mem_cut hcut).trans (Text.infix_trim piece)) hpieceEsc

/-! ### No comments -/

/-- No comment has been opened. -/
def Watch.Calm : Watch → Prop
  | .opened => False
  | .star => False
  | .closed => False
  | _ => True

theorem Watch.run_calm {w : Watch} {s : Scan} {t : Text} (hw : w.Calm) (ha : w.Agrees s)
    (hs : s.Proper) (hnext : w = .slash → t.head? ≠ some '*')
    (halong : s.along takesPlain t = true) (honly : onlyQuoted commentMark s t = true) :
    (w.run t).Calm := by
  induction t generalizing w s with
  | nil => exact hw
  | cons c t ih =>
    rw [Scan.along, Bool.and_eq_true] at halong
    rw [onlyQuoted, Bool.and_eq_true] at honly
    -- the one way to open a comment is the mark, and it would not be quoted here
    have hopens : s.quote = none → c = '/' → t.head? ≠ some '*' := by
      rintro hquote rfl hstar
      obtain ⟨v, rfl⟩ := List.head?_eq_some_iff.mp hstar
      simp [hquote, commentMark] at honly
    have hplain : s.quote = none → (Watch.step .plain c).Calm ∧
        (Watch.step .plain c = .slash → t.head? ≠ some '*') := by
      intro hquote
      by_cases hc : c = '/'
      · exact ⟨by rw [hc]; trivial, fun _ => hopens hquote hc⟩
      · cases hq : isQuote c with
        | true => simp [step_plain_quote hq, Watch.Calm]
        | false => simp [step_plain_other hq, hc, Watch.Calm]
    have hstep : (w.step c).Calm ∧ (w.step c = .slash → t.head? ≠ some '*') := by
      cases w with
      | plain => exact hplain ha
      | slash =>
        have hstar : c ≠ '*' := by
          rintro rfl
          exact hnext rfl rfl
        have hsame : Watch.step .slash c = Watch.step .plain c := by simp [Watch.step, hstar]
        rw [hsame]
        exact hplain ha
      | string q =>
        rw [Watch.step]
        split
        · exact ⟨trivial, by simp⟩
        · split
          · exact ⟨trivial, by simp⟩
          · exact ⟨trivial, by simp⟩
      | escape q => exact ⟨trivial, by simp [Watch.step]⟩
      | opened | star | closed => exact hw.elim
    have hagrees := ha.step hs (sparesQuotes_of_takesPlain halong.1)
    exact ih hstep.1 hagrees (hs.step c) hstep.2 halong.2 honly.2

/-- **There are no comments in a plain text**, and all strings are closed. -/
theorem Plain.calm {t : Text} (h : Plain t) : Watch.gauge.read .plain t = .plain := by
  have hstart : Watch.Agrees .plain Scan.start := rfl
  have hcalm : (Watch.run .plain t).Calm :=
    Watch.run_calm trivial hstart Scan.Proper.start (by simp) h.escapes h.comments
  have hagrees :=
    hstart.run Scan.Proper.start (Scan.along_mono sparesQuotes_of_takesPlain h.escapes)
  change (Watch.run .plain t).settle = .plain
  have hquote := h.run.ends.quote
  generalize Watch.run .plain t = w at hcalm hagrees
  cases w with
  | plain | slash => rfl
  | string q | escape q =>
    rw [hagrees.1] at hquote
    cases hquote
  | opened | star | closed => exact hcalm.elim

theorem blankComments_of_calm {t : Text} (h : Watch.gauge.read .plain t = .plain) :
    blankComments t = t := by
  refine blankComments_eq_self ?_ fun q => ?_
  · rw [h]
    simp
  · rw [h]
    simp

end StyleNesting.Source
