/-
  StyleNesting/Proofs/Declarations.lean
  =====================================
  **What the text of a declaration says, and how a declaration is spelled.**

  The mark of an important declaration is taken off the end of the value: the
  longest end that is a mark, so with the blanks in front of it, and of several
  marks the last one only.  What is left may be anything that does not end in a
  blank.
-/
import Mathlib.Data.List.Forall2
import StyleNesting.Proofs.Runs
import StyleNesting.Sheet.Printer
import StyleNesting.Source.Parser

namespace StyleNesting

/-- The word of the mark, as it is printed. -/
def importantWord : Text := ['i', 'm', 'p', 'o', 'r', 't', 'a', 'n', 't']

/-- The mark of an important declaration, as it is printed. -/
def importantMark : Text := ' ' :: '!' :: importantWord

/-- The value of a declaration and its mark, as they are printed. -/
def Declaration.printedValue (d : Declaration) : Text :=
  d.value ++ if d.important then importantMark else []

/-- A declaration as it is printed, without the semicolon. -/
def Declaration.spelling (d : Declaration) : Text := d.property ++ ':' :: ' ' :: d.printedValue

theorem Declaration.text_eq (d : Declaration) : d.text = d.spelling ++ [';'] := by
  simp [Declaration.text, Declaration.spelling, Declaration.printedValue, importantMark,
    importantWord]

namespace Source

open Selector

/-! ### Marks -/

/-- A word that counts as a given one, whatever its case. -/
abbrev Spells (word w : Text) : Prop := List.Forall₂ (fun l c => standsFor l c = true) word w

theorem exists_of_afterWord? {word t r : Text} (h : afterWord? word t = some r) :
    ∃ w, t = w ++ r ∧ Spells word w := by
  fun_induction afterWord? word t with
  | case1 t =>
    cases h
    exact ⟨[], rfl, .nil⟩
  | case2 => cases h
  | case3 l ls c t hc ih =>
    obtain ⟨w, rfl, hw⟩ := ih h
    exact ⟨c :: w, rfl, .cons hc hw⟩
  | case4 => cases h

/-- A mark: an exclamation mark and the word, with blanks around both. -/
structure Mark (bs bs' w bs'' : Text) : Prop where
  before : ∀ b ∈ bs, Text.isBlank b = true
  between : ∀ b ∈ bs', Text.isBlank b = true
  word : Spells importantWord w
  after : ∀ b ∈ bs'', Text.isBlank b = true

theorem exists_of_isImportantMark {m : Text} (h : isImportantMark m = true) :
    ∃ bs bs' w bs'', m = bs ++ '!' :: (bs' ++ (w ++ bs'')) ∧ Mark bs bs' w bs'' := by
  obtain ⟨hm, hbs, -⟩ := Text.span_takeWhile Text.isBlank m
  unfold isImportantMark at h
  split at h
  · rename_i u hu
    obtain ⟨hu', hbs', -⟩ := Text.span_takeWhile Text.isBlank u
    split at h
    · rename_i r hr
      obtain ⟨w, hw, hword⟩ := exists_of_afterWord? hr
      rw [hw] at hu'
      rw [hu, hu'] at hm
      exact ⟨_, _, w, r, hm, hbs, hbs', hword, List.all_eq_true.mp h⟩
    · cases h
  · cases h

/-- A character that stands for no letter of a word is not in its spellings. -/
theorem Spells.not_mem {word w : Text} (h : Spells word w) {c : Char}
    (hc : ∀ l ∈ word, standsFor l c = false) : c ∉ w := by
  induction h with
  | nil => exact List.not_mem_nil
  | @cons l d word w hd _ ih =>
    intro hmem
    rcases List.mem_cons.mp hmem with rfl | hmem
    · rw [hc l (by simp)] at hd
      cases hd
    · exact ih (fun l hl => hc l (List.mem_cons_of_mem _ hl)) hmem

theorem Spells.not_blank {w : Text} (h : Spells importantWord w) :
    ∀ c ∈ w, Text.isBlank c = false := by
  intro c hc
  cases hblank : Text.isBlank c with
  | false => rfl
  | true =>
    have htable : ∀ n ∈ blankCodes, ∀ l ∈ importantWord, standsFor l (Char.ofNat n) = false := by
      decide
    have hstands := htable c.toNat (mem_blankCodes hblank)
    rw [Char.ofNat_toNat] at hstands
    exact absurd hc (h.not_mem hstands)

theorem not_mem_blanks {bs : Text} (h : ∀ b ∈ bs, Text.isBlank b = true) {c : Char}
    (hc : Text.isBlank c = false) : c ∉ bs := by
  intro hmem
  rw [h c hmem] at hc
  cases hc

/-- A mark has one exclamation mark. -/
theorem Mark.count_bang {bs bs' w bs'' : Text} (h : Mark bs bs' w bs'') :
    (bs ++ '!' :: (bs' ++ (w ++ bs''))).count '!' = 1 := by
  have hblank : Text.isBlank '!' = false := by decide
  have hbefore := List.count_eq_zero.mpr (not_mem_blanks h.before hblank)
  have hbetween := List.count_eq_zero.mpr (not_mem_blanks h.between hblank)
  have hafter := List.count_eq_zero.mpr (not_mem_blanks h.after hblank)
  have hword := List.count_eq_zero.mpr (h.word.not_mem (c := '!') (by decide))
  simp [hbefore, hbetween, hafter, hword]

theorem isImportantMark_blank_cons {b : Char} (hb : Text.isBlank b = true) (t : Text) :
    isImportantMark (b :: t) = isImportantMark t := by
  rw [isImportantMark, isImportantMark, List.dropWhile_cons_of_pos hb]

/-! ### Taking the mark off -/

theorem splitImportant_eq {t v : Text} (h : splitImportant t = (v, true)) :
    ∃ m, t = v ++ m ∧ isImportantMark m = true ∧
      ∀ x y, v = y ++ x → x ≠ [] → isImportantMark (x ++ m) = false := by
  induction t generalizing v with
  | nil => cases h
  | cons c t ih =>
    rw [splitImportant] at h
    split at h
    · rename_i hmark
      cases h
      refine ⟨c :: t, rfl, hmark, ?_⟩
      intro x y hxy hx
      exact absurd (List.append_eq_nil_iff.mp hxy.symm).2 hx
    · rename_i hmark
      cases hsplit : splitImportant t with
      | mk v' b =>
        rw [hsplit] at h
        cases h
        obtain ⟨m, rfl, hm, hfirst⟩ := ih hsplit
        refine ⟨m, rfl, hm, ?_⟩
        intro x y hxy hx
        cases y with
        | nil =>
          rw [List.nil_append] at hxy
          rw [← hxy]
          exact eq_false_of_ne_true hmark
        | cons d y =>
          cases hxy
          exact hfirst x y rfl hx

theorem splitImportant_eq_self {t v : Text} (h : splitImportant t = (v, false)) : v = t := by
  induction t generalizing v with
  | nil =>
    cases h
    rfl
  | cons c t ih =>
    rw [splitImportant] at h
    split at h
    · cases h
    · cases hsplit : splitImportant t with
      | mk v' b =>
        rw [hsplit] at h
        cases h
        rw [ih hsplit]

theorem splitImportant_append {v m : Text} (hm : isImportantMark m = true) (hne : m ≠ [])
    (h : ∀ x y, v = y ++ x → x ≠ [] → isImportantMark (x ++ m) = false) :
    splitImportant (v ++ m) = (v, true) := by
  induction v with
  | nil =>
    cases m with
    | nil => exact absurd rfl hne
    | cons c m => rw [List.nil_append, splitImportant, hm]; rfl
  | cons c v ih =>
    have hmark : isImportantMark (c :: (v ++ m)) = false := h (c :: v) [] rfl (by simp)
    have ih := ih fun x y hxy hx => h x (c :: y) (by rw [hxy]; rfl) hx
    rw [List.cons_append, splitImportant, hmark, ih]
    rfl

/-- What is left after the mark is taken off does not end in a blank. -/
theorem last_of_splitImportant {v m : Text} (hm : isImportantMark m = true)
    (h : ∀ x y, v = y ++ x → x ≠ [] → isImportantMark (x ++ m) = false) :
    ∀ c, v.getLast? = some c → Text.isBlank c = false := by
  intro c hc
  obtain ⟨y, rfl⟩ := List.getLast?_eq_some_iff.mp hc
  cases hblank : Text.isBlank c with
  | false => rfl
  | true =>
    have hmark := h [c] y rfl (by simp)
    rw [List.singleton_append, isImportantMark_blank_cons hblank, hm] at hmark
    cases hmark

/-- The printed mark behind a text that does not end in a blank is all that is
    taken off. -/
theorem splitImportant_printed {v : Text} (h : ∀ c, v.getLast? = some c → Text.isBlank c = false) :
    splitImportant (v ++ importantMark) = (v, true) := by
  refine splitImportant_append (by decide) (by decide) ?_
  intro x y hxy hx
  cases hmark : isImportantMark (x ++ importantMark) with
  | false => rfl
  | true =>
    obtain ⟨bs, bs', w, bs'', heq, hparts⟩ := exists_of_isImportantMark hmark
    have hbang : '!' ∉ x := by
      have hcount : (x ++ importantMark).count '!' = 1 := by rw [heq, hparts.count_bang]
      rw [List.count_append] at hcount
      have hmark' : importantMark.count '!' = 1 := by decide
      rw [← List.count_eq_zero]
      omega
    -- both sides, cut at their first exclamation mark
    have hcut : x ++ [' '] = bs := by
      have hx' : ∀ c ∈ x ++ [' '], (c != '!') = true := by
        intro c hc
        rw [bne_iff_ne]
        rintro rfl
        rcases List.mem_append.mp hc with hc | hc
        · exact hbang hc
        · exact absurd hc (by decide)
      have hbs : ∀ c ∈ bs, (c != '!') = true := by
        intro c hc
        rw [bne_iff_ne]
        rintro rfl
        exact absurd (hparts.before '!' hc) (by decide)
      have hstop : ∀ {t : Text} c, ('!' :: t).head? = some c → (c != '!') = false := by
        intro t c hc
        cases hc
        rfl
      have hsplit : x ++ importantMark = (x ++ [' ']) ++ '!' :: importantWord := by
        simp [importantMark]
      have htake := congrArg (List.takeWhile (· != '!')) heq
      rw [hsplit, Text.takeWhile_span hx' hstop, Text.takeWhile_span hbs hstop] at htake
      exact htake
    obtain ⟨x', c, rfl⟩ := (List.eq_nil_or_concat x).resolve_left hx
    rw [List.concat_eq_append] at hcut hxy
    have hc : Text.isBlank c = true := hparts.before c (by rw [← hcut]; simp)
    have hlast : v.getLast? = some c := by rw [hxy]; simp
    rw [h c hlast] at hc
    cases hc

/-! ### Reading a declaration -/

theorem trimmed_of_names {name : Text} (h : ∀ c ∈ name, isNameChar c = true) : Text.Trimmed name := by
  have hblank : ∀ c ∈ name, Text.isBlank c = false := by
    intro c hc
    have hname := h c hc
    simp only [isNameChar, Bool.not_eq_true', Bool.or_eq_false_iff] at hname
    exact hname.2
  exact ⟨fun c hc => hblank c (List.mem_of_head? hc), fun c hc => hblank c (List.mem_of_getLast? hc)⟩

theorem declarationOf_append {name blanks : Text} (hname : ∀ c ∈ name, isNameChar c = true)
    (hblanks : ∀ b ∈ blanks, Text.isBlank b = true) (value : Text) :
    declarationOf (name ++ (blanks ++ ':' :: value)) =
      ⟨name, (splitImportant (Text.trim value)).1, (splitImportant (Text.trim value)).2⟩ := by
  have hcolon : ∀ c ∈ name ++ blanks, (c != ':') = true := by
    intro c hc
    rw [bne_iff_ne]
    rintro rfl
    rcases List.mem_append.mp hc with hc | hc
    · exact absurd (hname ':' hc) (by decide)
    · exact absurd (hblanks ':' hc) (by decide)
  have hstop : ∀ c, (':' :: value).head? = some c → (c != ':') = false := by
    intro c hc
    cases hc
    rfl
  have htrim : Text.trim (name ++ blanks) = name :=
    Text.trim_append (by simp : ∀ a ∈ ([] : Text), _) hblanks (trimmed_of_names hname)
  rw [← List.append_assoc, declarationOf, Text.takeWhile_span hcolon hstop,
    Text.dropWhile_span hcolon hstop, htrim, List.drop_one, List.tail_cons]

end Source

end StyleNesting
