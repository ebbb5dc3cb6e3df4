/-
  StyleNesting/Proofs/Blanking.lean
  =================================
  **Blanked text is read as it was.**  Every character of a text stands outside of
  strings and comments, in a string or in a comment (`regions`).  Blanking writes a
  space for what stands in a comment, line feeds excepted, and changes nothing else
  (`blankFrom_eq_zipWith`).

  What is left has no comments and the same strings at the same places
  (`regions_blankFrom`), although both are found by looking ahead: behind a quote
  for the one that closes it, and behind the start of a comment for its end.  The
  text that is looked at may have been blanked in part.  A string that is closed is
  not touched before its end (`closes_blankFrom_quoted`), and blanking closes no string
  that was open, for a comment leaves no escape over (`closes_of_blankFrom_plain`).
-/
import StyleNesting.Proofs.Positions
import StyleNesting.Proofs.TrailingComment

namespace StyleNesting.Source

open StyleNesting Selector

/-! ### Where the characters stand -/

/-- The region of every character of a text that starts in the given region.  Quotes
    belong to their string, and the marks around a comment to the comment. -/
def regions : Region → Text → List Region
  | _, [] => []
  | .plain, '/' :: '*' :: t =>
    if hasCommentEnd t then .comment :: .comment :: regions .comment t
    else .plain :: .plain :: regions .plain t
  | .plain, c :: t =>
    let r := if isQuote c && closes c t then .quoted c else .plain
    r :: regions r t
  | .quoted q, '\\' :: _ :: t => .quoted q :: .quoted q :: regions (.quoted q) t
  | .quoted q, c :: t => .quoted q :: regions (if c == q then .plain else .quoted q) t
  | .comment, '*' :: '/' :: t => .comment :: .comment :: regions .plain t
  | .comment, _ :: t => .comment :: regions .comment t

/-- What blanking writes for a character. -/
def Region.write : Region → Char → Char
  | .comment, c => if c == '\n' then '\n' else ' '
  | _, c => c

/-- The region that is left of a region when comments are blanked. -/
def Region.bare : Region → Region
  | .comment => .plain
  | r => r

theorem Region.bare_eq {r : Region} (h : r ≠ .comment) : r.bare = r := by
  cases r with
  | plain | quoted q => rfl
  | comment => exact absurd rfl h

theorem Region.write_bare (r : Region) (c : Char) : r.bare.write c = c := by
  cases r <;> rfl

theorem length_regions (r : Region) (t : Text) : (regions r t).length = t.length := by
  fun_induction regions r t <;> simp_all

/-- **Blanking writes over comments and nothing else.** -/
theorem blankFrom_eq_zipWith (r : Region) (t : Text) :
    blankFrom r t = List.zipWith Region.write (regions r t) t := by
  fun_induction blankFrom r t with
  | case1 r => simp [regions]
  | case2 t hend ih => simp [regions, hend, ih, Region.write]
  | case3 t hend ih => simp [regions, hend, ih, Region.write]
  | case4 c t hslash ih =>
    rw [regions, List.zipWith_cons_cons, ← ih]
    · split <;> rfl
    · exact hslash
  | case5 q c t ih => simp [regions, ih, Region.write]
  | case6 q c t hback ih =>
    rw [regions, List.zipWith_cons_cons, ← ih]
    · rfl
    · exact hback
  | case7 t ih => simp [regions, ih, Region.write]
  | case8 c t hstar ih =>
    rw [regions, List.zipWith_cons_cons, ← ih]
    · rfl
    · exact hstar

/-! ### The regions of what is left -/

theorem regions_plain_cons {c : Char} {t : Text} (h : c = '/' → t.head? ≠ some '*') :
    regions .plain (c :: t) =
      (if isQuote c && closes c t then .quoted c else .plain) ::
        regions (if isQuote c && closes c t then .quoted c else .plain) t := by
  rw [regions]
  rintro u rfl rfl
  exact h rfl rfl

theorem regions_quoted_cons {q c : Char} {t : Text} (h : c = '\\' → t = []) :
    regions (.quoted q) (c :: t) =
      .quoted q :: regions (if c == q then .plain else .quoted q) t := by
  rw [regions]
  rintro d u rfl rfl
  cases h rfl

theorem regions_blank_cons {b : Char} (hb : Text.isBlank b = true) (t : Text) :
    regions .plain (b :: t) = .plain :: regions .plain t := by
  have hquote : isQuote b = false := by
    have hplain := isPlain_of_isBlank hb
    simp only [isPlain, Bool.not_eq_true', Bool.or_eq_false_iff] at hplain
    exact hplain.1.1.1.1.2
  rw [regions_plain_cons, hquote]
  · rfl
  · rintro rfl
    cases hb

/-- A string that is closed is still closed when the comments behind it are blanked. -/
theorem closes_blankFrom_quoted {q : Char} {t : Text} (h : closes q t = true) :
    closes q (blankFrom (.quoted q) t) = true := by
  fun_induction closes q t with
  | case1 | case2 => cases h
  | case3 c t ih =>
    rw [blankFrom]
    exact ih h
  | case4 c t hnil hcons ih =>
    have hc : c ≠ '\\' := fun hc => hnil hc (eq_nil_of_no_escape hcons hc)
    rw [blankFrom_quoted_cons fun h => absurd h hc, closes_cons hc]
    cases hcq : c == q with
    | true => rfl
    | false =>
      rw [hcq, Bool.false_or] at h
      exact ih h

/-- Blanking what stands behind a quote does not change whether the quote starts a string. -/
theorem closes_blankFrom {c : Char} (hquote : isQuote c = true) (t : Text) :
    closes c (blankFrom (if closes c t then .quoted c else .plain) t) = closes c t := by
  cases h : closes c t with
  | true => exact closes_blankFrom_quoted h
  | false =>
    refine eq_false_of_ne_true fun hclosed => ?_
    rw [closes_of_blankFrom_plain hquote hclosed] at h
    cases h

/-- **What is left of a text has no comments, and the same strings in the same places.** -/
theorem regions_blankFrom (r : Region) (t : Text) :
    regions r.bare (blankFrom r t) = (regions r t).map Region.bare := by
  fun_induction blankFrom r t with
  | case1 r => cases r <;> rfl
  | case2 t hend ih =>
    change regions .plain _ = _
    rw [regions_blank_cons (by decide), regions_blank_cons (by decide), regions, if_pos hend]
    exact congrArg (fun rs => .plain :: .plain :: rs) ih
  | case3 t hend ih =>
    -- the mark is left alone, and so is everything behind it
    rw [blankFrom_of_no_end (by simp) (eq_false_of_ne_true hend)] at ih ⊢
    change regions .plain _ = _
    rw [regions, if_neg hend]
    exact congrArg (fun rs => .plain :: .plain :: rs) ih
  | case4 c t hslash ih =>
    have hhead : c = '/' → t.head? ≠ some '*' := by
      intro hc hstar
      obtain ⟨u, hu⟩ := List.head?_eq_some_iff.mp hstar
      exact hslash u hc hu
    have hregion : ∀ u, (isQuote c = true → closes c u = closes c t) →
        (if isQuote c && closes c u then Region.quoted c else .plain) =
          if isQuote c && closes c t then .quoted c else .plain := by
      intro u hu
      cases hquote : isQuote c with
      | false => rfl
      | true => rw [hu hquote]
    rw [Region.bare_eq (by split <;> simp)] at ih
    change regions .plain _ = _
    rw [regions_plain_cons, hregion, regions_plain_cons hhead, List.map_cons, ih,
      Region.bare_eq (by split <;> simp)]
    · intro hquote
      rw [hquote, Bool.true_and]
      exact closes_blankFrom hquote t
    · intro hc
      subst hc
      exact head_blankFrom_plain (hhead rfl)
  | case5 q c t ih => exact congrArg (fun rs => .quoted q :: .quoted q :: rs) ih
  | case6 q c t hback ih =>
    have hescape := eq_nil_of_no_escape hback
    rw [Region.bare_eq (by split <;> simp)] at ih
    change regions (.quoted q) _ = _
    rw [regions_quoted_cons, regions_quoted_cons hescape, List.map_cons, ih]
    · rfl
    · intro hc
      rw [hescape hc, blankFrom]
  | case7 t ih =>
    change regions .plain _ = _
    rw [regions_blank_cons (by decide), regions_blank_cons (by decide), regions]
    exact congrArg (fun rs => .plain :: .plain :: rs) ih
  | case8 c t hstar ih =>
    have hblank : Text.isBlank (if c == '\n' then '\n' else ' ') = true := by split <;> decide
    change regions .plain _ = _
    rw [regions_blank_cons hblank, regions]
    · exact congrArg (.plain :: ·) ih
    · exact hstar

/-- Nothing is written over where there are no comments. -/
theorem zipWith_write_bare {rs : List Region} {t : Text} (h : rs.length = t.length) :
    List.zipWith Region.write (rs.map Region.bare) t = t := by
  induction rs generalizing t with
  | nil => rw [List.eq_nil_of_length_eq_zero h.symm]; rfl
  | cons r rs ih =>
    obtain ⟨c, t, rfl⟩ := List.exists_cons_of_length_eq_add_one h.symm
    rw [List.map_cons, List.zipWith_cons_cons, Region.write_bare, ih (Nat.succ.inj h)]

/-! ### Blanked texts, place by place -/

theorem Blanked.getElem? {t u : Text} (h : Blanked t u) (i : Nat) :
    u[i]? = t[i]? ∨ u[i]? = some ' ' ∧ t[i]? ≠ some '\n' := by
  induction h generalizing i with
  | nil => exact Or.inl rfl
  | cons hcd _ ih =>
    cases i with
    | zero => simpa using hcd
    | succ i => simpa using ih i

/-- **Blanking keeps the geometry of a text, and a second time it changes nothing.**  The
    length and the places of line feeds stay, any other character stays or becomes a
    space; and what is left has no comment, and just the strings that were there before. -/
theorem blankComments_geometry (t : Text) :
    (blankComments t).length = t.length ∧
      (∀ i : Nat, (blankComments t)[i]? = some '\n' ↔ t[i]? = some '\n') ∧
      (∀ i : Nat, (blankComments t)[i]? = t[i]? ∨ (blankComments t)[i]? = some ' ') ∧
      blankComments (blankComments t) = blankComments t ∧
      regions .plain (blankComments t) = (regions .plain t).map Region.bare := by
  have hblanked : Blanked t (blankComments t) := blanked_blankFrom .plain t
  have hregions : regions .plain (blankComments t) = (regions .plain t).map Region.bare :=
    regions_blankFrom .plain t
  have hlength : (blankComments t).length = t.length := hblanked.length_eq.symm
  refine ⟨hlength, fun i => ?_, fun i => ?_, ?_, hregions⟩
  · rcases hblanked.getElem? i with hsame | ⟨hspace, hfeed⟩
    · rw [hsame]
    · exact iff_of_false (by simp [hspace]) hfeed
  · exact (hblanked.getElem? i).imp_right And.left
  · calc blankComments (blankComments t)
        = List.zipWith Region.write (regions .plain (blankComments t)) (blankComments t) :=
          blankFrom_eq_zipWith .plain _
      _ = List.zipWith Region.write ((regions .plain t).map Region.bare) (blankComments t) := by
          rw [hregions]
      _ = blankComments t := zipWith_write_bare ((length_regions .plain t).trans hlength.symm)

end StyleNesting.Source
