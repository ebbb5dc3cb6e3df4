/-
  StyleNesting/Proofs/Spacing.lean
  ================================
  **Formatting changes nothing but the spacing.**  A *gauge* is an automaton that
  reads text character by character and does not see how wide a gap is: blanks,
  commas and semicolons all settle it, and next to most characters it does not
  see whether there is a gap at all.

  Whatever a gauge makes of a stylesheet that was read, it makes of the printed
  tree as well (`Gauge.read_reads`).  Two gauges are used: one that collects the
  characters that are no spacing (`ink`), below, and one that follows strings and
  comments.
-/
import StyleNesting.Proofs.Compounds
import StyleNesting.Proofs.Declarations
import StyleNesting.Proofs.Grammar

namespace StyleNesting

/-! ### Gauges -/

/-- What may be put in or left out by formatting: blanks, commas, semicolons. -/
def isSpacing (c : Char) : Bool := Text.isBlank c || c == ',' || c == ';'

/-- A character next to which a gap makes no difference to comments and strings. -/
def isInert (c : Char) : Bool := !(c == '/' || c == '*' || Selector.isQuote c || c == '\\')

/-- An automaton that does not see how wide a gap is.  A gap settles the state;
    an inert character settles it too, and finds it settled. -/
structure Gauge (σ : Type) where
  step : σ → Char → σ
  settle : σ → σ
  settle_settle : ∀ s, settle (settle s) = settle s
  step_spacing : ∀ s c, isSpacing c = true → step s c = settle s
  step_settle : ∀ s c, isInert c = true → step (settle s) c = step s c
  settle_step : ∀ s c, isInert c = true → settle (step s c) = step s c

theorem isInert_of_avoids {p : Char → Bool}
    (hp : ∀ c ∈ ['/', '*', '"', '\'', '\\'], p c = false) {c : Char} (hc : p c = true) :
    isInert c = true := by
  cases h : isInert c with
  | true => rfl
  | false =>
    have hmem : c ∈ ['/', '*', '"', '\'', '\\'] := by
      simp only [isInert, Selector.isQuote, Bool.not_eq_false', Bool.or_eq_true, beq_iff_eq] at h
      simp only [List.mem_cons, List.not_mem_nil, or_false]
      tauto
    rw [hp c hmem] at hc
    cases hc

theorem isInert_of_isSpacing {c : Char} (h : isSpacing c = true) : isInert c = true :=
  isInert_of_avoids (by decide) h

theorem isInert_of_isAtChar {c : Char} (h : Source.isAtChar c = true) : isInert c = true :=
  isInert_of_avoids (by decide) h

theorem isSpacing_of_isBlank {c : Char} (h : Text.isBlank c = true) : isSpacing c = true := by
  simp [isSpacing, h]

theorem spacing_of_blanks {t : Text} (h : ∀ b ∈ t, Text.isBlank b = true) :
    ∀ b ∈ t, isSpacing b = true := fun b hb => isSpacing_of_isBlank (h b hb)

theorem spacing_of_spaces {t : Text} (h : ∀ c ∈ t, c = ' ') : ∀ c ∈ t, isSpacing c = true := by
  intro c hc
  rw [h c hc]
  decide

namespace Gauge

variable {σ : Type} (g : Gauge σ)

/-- What a gauge makes of a text that stands between gaps. -/
def read (s : σ) (t : Text) : σ := g.settle (t.foldl g.step (g.settle s))

@[simp]
theorem read_nil (s : σ) : g.read s [] = g.settle s := g.settle_settle s

@[simp]
theorem settle_read (s : σ) (t : Text) : g.settle (g.read s t) = g.read s t := g.settle_settle _

@[simp]
theorem read_settle (s : σ) (t : Text) : g.read (g.settle s) t = g.read s t := by
  rw [read, g.settle_settle, read]

/-- Two texts that may be torn apart or put together without notice: an inert
    character stands at the seam. -/
def Seam (t u : Text) : Prop :=
  (∀ c, t.getLast? = some c → isInert c = true) ∨ ∀ c, u.head? = some c → isInert c = true

theorem Seam.of_head {c : Char} (hc : isInert c = true) (t u : Text) : Seam t (c :: u) :=
  Or.inr fun d hd => by
    cases hd
    exact hc

theorem read_append {t u : Text} (h : Seam t u) (s : σ) :
    g.read s (t ++ u) = g.read (g.read s t) u := by
  simp only [read, List.foldl_append, g.settle_settle]
  rcases h with hlast | hhead
  · rcases List.eq_nil_or_concat t with rfl | ⟨t, c, rfl⟩
    · simp only [List.foldl_nil, g.settle_settle]
    · have hc : isInert c = true := hlast c (by simp)
      simp only [List.concat_eq_append, List.foldl_append, List.foldl_cons, List.foldl_nil,
        g.settle_step _ c hc]
  · cases u with
    | nil => simp only [List.foldl_nil, g.settle_settle]
    | cons c u => simp only [List.foldl_cons, g.step_settle _ c (hhead c rfl)]

theorem read_cons {c : Char} (hc : isInert c = true) (s : σ) (t : Text) :
    g.read s (c :: t) = g.read (g.read s [c]) t := by
  have hseam : Seam [c] t := Or.inl fun d hd => by cases hd; exact hc
  exact g.read_append hseam s

theorem read_spacing_cons {c : Char} (hc : isSpacing c = true) (s : σ) (t : Text) :
    g.read s (c :: t) = g.read s t := by
  simp only [read, List.foldl_cons, g.step_spacing _ c hc, g.settle_settle]

theorem read_spacing {bs : Text} (h : ∀ b ∈ bs, isSpacing b = true) (s : σ) :
    g.read s bs = g.settle s := by
  induction bs with
  | nil => exact g.read_nil s
  | cons b bs ih =>
    rw [g.read_spacing_cons (h b (by simp)), ih fun c hc => h c (by simp [hc])]

/-- A gap between two texts. -/
theorem read_append_spacing {c : Char} (hc : isSpacing c = true) (s : σ) (t u : Text) :
    g.read s (t ++ c :: u) = g.read (g.read s t) u := by
  rw [g.read_append (Seam.of_head (isInert_of_isSpacing hc) t u), g.read_spacing_cons hc]

theorem read_before {as : Text} (h : ∀ a ∈ as, isSpacing a = true) (s : σ) (t : Text) :
    g.read s (as ++ t) = g.read s t := by
  have hseam : Seam as t := Or.inl fun c hc => isInert_of_isSpacing (h c (List.mem_of_getLast? hc))
  rw [g.read_append hseam, g.read_spacing h, g.read_settle]

theorem read_behind {bs : Text} (h : ∀ b ∈ bs, isSpacing b = true) (s : σ) (t : Text) :
    g.read s (t ++ bs) = g.read s t := by
  have hseam : Seam t bs := Or.inr fun c hc => isInert_of_isSpacing (h c (List.mem_of_head? hc))
  rw [g.read_append hseam, g.read_spacing h, g.settle_read]

theorem read_trimEnd (s : σ) (t : Text) : g.read s (Text.trimEnd t) = g.read s t := by
  obtain ⟨bs, ht, hbs⟩ := Text.trimEnd_append_blanks t
  have hbehind := g.read_behind (spacing_of_blanks hbs) s (Text.trimEnd t)
  rw [← ht] at hbehind
  exact hbehind.symm

theorem read_trim (s : σ) (t : Text) : g.read s (Text.trim t) = g.read s t := by
  obtain ⟨as, bs, ht, has, hbs⟩ := Text.trim_between_blanks t
  have haround := g.read_before (spacing_of_blanks has) s (Text.trim t ++ bs)
  rw [← ht, g.read_behind (spacing_of_blanks hbs)] at haround
  exact haround.symm

/-! ### Selectors -/

theorem read_join {sep : Text} (hne : sep ≠ []) (hsep : ∀ c ∈ sep, isSpacing c = true) (s : σ)
    (ts : List Text) : g.read s (Text.join sep ts) = ts.foldl g.read (g.settle s) := by
  induction ts generalizing s with
  | nil => exact g.read_nil s
  | cons t ts ih =>
    cases ts with
    | nil => exact (g.read_settle s t).symm
    | cons u ts =>
      obtain ⟨c, sep', rfl⟩ := List.exists_cons_of_ne_nil hne
      have hrest : ∀ d ∈ sep', isSpacing d = true := fun d hd => hsep d (List.mem_cons_of_mem c hd)
      rw [Text.join, List.append_assoc, List.cons_append,
        g.read_append_spacing (hsep c (by simp)), g.read_before hrest, ih, g.settle_read,
        ← g.read_settle s t]
      rfl

/-- A piece counts for as much whether it is dropped when it is empty or not. -/
theorem foldl_read_piece (s : σ) (t : Text) :
    ([t].filter (!·.isEmpty)).foldl g.read (g.settle s) = g.read s t := by
  cases t with
  | nil => exact (g.read_nil s).symm
  | cons c t => exact g.read_settle s (c :: t)

theorem read_compounds (s : σ) (t : Text) :
    g.read s (Text.join [' '] (Selector.compounds t)) = g.read s t := by
  rw [g.read_join (by simp) (by decide)]
  induction t using Selector.cut_induction Text.isBlank generalizing s with
  | whole t h =>
    rw [Selector.compounds, Selector.cut_of_unbroken h]
    exact g.foldl_read_piece s t
  | sep a b t ha hbal hb ih =>
    rw [Selector.compounds_append_blank ha hbal hb, List.foldl_append, g.foldl_read_piece,
      ← g.settle_read, ih, g.read_append_spacing (isSpacing_of_isBlank hb)]

/-- **Normalising a selector list changes nothing but the spacing.** -/
theorem read_normalize (s : σ) (t : Text) : g.read s (Selector.normalize t) = g.read s t := by
  rw [Selector.normalize, g.read_join (by decide) (by decide)]
  have hpiece : ∀ (s : σ) (a : Text), ((Selector.partOf a).map fun p =>
      Text.join [' '] (Selector.compounds p)).foldl g.read (g.settle s) = g.read s a := by
    intro s a
    by_cases hne : Text.trim a = []
    · have hnil : Selector.partOf a = [] := by simp [Selector.partOf, hne]
      rw [hnil, ← g.read_trim, hne]
      exact (g.read_nil s).symm
    · have hpart : Selector.partOf a = [Text.trim a] := by simp [Selector.partOf, hne]
      rw [hpart, ← g.read_trim s a, ← g.read_compounds s (Text.trim a)]
      exact g.read_settle s _
  induction t using Selector.cut_induction Selector.isComma generalizing s with
  | whole t h =>
    rw [Selector.parts_of_unbroken h]
    exact hpiece s t
  | sep a c t ha hbal hc ih =>
    have hcomma : c = ',' := by simpa [Selector.isComma] using hc
    subst hcomma
    rw [Selector.parts_append_comma ha hbal, List.map_append, List.foldl_append, hpiece,
      ← g.settle_read, ih, g.read_append_spacing (by decide)]

/-! ### Declarations and at-rules -/

/-- Whether a gauge reads the word of the mark as it is printed, wherever the word
    ends a given text. -/
def ReadsWordOf (u : Text) : Prop :=
  ∀ x w bs, u = x ++ (w ++ bs) → Source.Spells importantWord w →
    (∀ b ∈ bs, Text.isBlank b = true) → ∀ s, g.read s w = g.read s importantWord

theorem read_mark {bs bs' w bs'' : Text} (h : Source.Mark bs bs' w bs'') (s : σ) :
    g.read s (bs ++ '!' :: (bs' ++ (w ++ bs''))) = g.read (g.read s ['!']) w := by
  rw [g.read_before (spacing_of_blanks h.before), g.read_cons (by decide),
    g.read_before (spacing_of_blanks h.between), g.read_behind (spacing_of_blanks h.after)]

theorem read_value {v m : Text} (hm : Source.isImportantMark m = true)
    (hword : g.ReadsWordOf (v ++ m)) (s : σ) : g.read s (v ++ importantMark) = g.read s (v ++ m) := by
  obtain ⟨bs, bs', w, bs'', rfl, hmark⟩ := Source.exists_of_isImportantMark hm
  have hseam : ∀ t : Text, Seam v (bs ++ '!' :: t) := by
    intro t
    cases bs with
    | nil => exact Seam.of_head (by decide) v t
    | cons b bs =>
      have hb : isSpacing b = true := isSpacing_of_isBlank (hmark.before b (by simp))
      exact Seam.of_head (isInert_of_isSpacing hb) v _
  have hseam' : Seam v importantMark := Seam.of_head (by decide) v _
  rw [g.read_append (hseam _), g.read_append hseam', g.read_mark hmark, importantMark,
    g.read_spacing_cons (by decide), g.read_cons (by decide)]
  refine (hword (v ++ bs ++ '!' :: bs') w bs'' ?_ hmark.word hmark.after _).symm
  simp

theorem read_colon {name : Text} (t : Text) (s : σ) :
    g.read s (name ++ ':' :: t) = g.read (g.read (g.read s name) [':']) t := by
  rw [g.read_append (Seam.of_head (by decide) name t), g.read_cons (by decide)]

theorem read_spelling {u : Text} (hu : Source.DeclarationText u)
    (hword : (Source.declarationOf u).important = true → g.ReadsWordOf u) (s : σ) :
    g.read s (Source.declarationOf u).spelling = g.read s u := by
  obtain ⟨hne, hname, hblanks, -⟩ := hu
  rename_i name blanks value
  rw [Source.declarationOf_append hname hblanks] at hword ⊢
  -- up to the colon both are the same, so the values are left to compare
  have hprinted : ∀ d : Declaration, d.property = name →
      g.read s d.spelling = g.read (g.read (g.read s name) [':']) d.printedValue := by
    intro d hd
    rw [Declaration.spelling, hd, g.read_colon, g.read_spacing_cons (by decide)]
  have hgiven : g.read s (name ++ (blanks ++ ':' :: value)) =
      g.read (g.read (g.read s name) [':']) (Text.trim value) := by
    rw [← List.append_assoc, g.read_colon, g.read_behind (spacing_of_blanks hblanks), g.read_trim]
  rw [hprinted _ rfl, hgiven]
  obtain ⟨as, bs, hvalue, -, hbs⟩ := Text.trim_between_blanks value
  cases hsplit : Source.splitImportant (Text.trim value) with
  | mk v important =>
    rw [hsplit] at hword
    cases important with
    | false =>
      rw [Source.splitImportant_eq_self hsplit]
      simp [Declaration.printedValue]
    | true =>
      obtain ⟨m, hm, hmark, -⟩ := Source.splitImportant_eq hsplit
      have hends : g.ReadsWordOf (v ++ m) := by
        intro x w bs' hx hw hbs'
        refine hword rfl (name ++ blanks ++ ':' :: (as ++ x)) w (bs' ++ bs) ?_ hw ?_
        · rw [hvalue, hm, hx]
          simp
        · intro b hb
          rcases List.mem_append.mp hb with hb | hb
          · exact hbs' b hb
          · exact hbs b hb
      rw [hm, ← g.read_value hmark hends]
      rfl

theorem read_header {name prelude : Text} (h : Source.AtHead name prelude) (hasBlock : Bool)
    (s : σ) : g.read s (Header.atRule name (Text.trim prelude) hasBlock).text =
      g.read s ('@' :: (name ++ prelude)) := by
  have hlast : ∀ c, ('@' :: name).getLast? = some c → isInert c = true := by
    intro c hc
    rcases List.mem_cons.mp (List.mem_of_getLast? hc) with rfl | hmem
    · decide
    · exact isInert_of_isAtChar (h.name c hmem)
  have hseam : Seam ('@' :: name) prelude := Or.inl hlast
  rw [Header.text, g.read_trimEnd, ← List.cons_append, ← List.cons_append,
    g.read_append_spacing (by decide), g.read_trim, g.read_append hseam]

/-! ### Printed trees -/

theorem read_unlines_cons (s : σ) (l : Text) (ls : List Text) :
    g.read s (Node.unlines (l :: ls)) = g.read (g.read s l) (Node.unlines ls) :=
  g.read_append_spacing (by decide) s l (Node.unlines ls)

theorem read_unlines_append (s : σ) (ls ls' : List Text) :
    g.read s (Node.unlines (ls ++ ls')) = g.read (g.read s (Node.unlines ls)) (Node.unlines ls') := by
  induction ls generalizing s with
  | nil => rw [List.nil_append, Node.unlines, g.read_nil, g.read_settle]
  | cons l ls ih => rw [List.cons_append, g.read_unlines_cons, ih, g.read_unlines_cons]

theorem read_line {pad : Text} (hpad : ∀ c ∈ pad, isSpacing c = true) (s : σ) (t : Text)
    (ls : List Text) :
    g.read s (Node.unlines ((pad ++ t) :: ls)) = g.read (g.read s t) (Node.unlines ls) := by
  rw [g.read_unlines_cons, g.read_before hpad]

theorem read_open (t : Text) (s : σ) : g.read s (t ++ [' ', '{']) = g.read (g.read s t) ['{'] :=
  g.read_append_spacing (by decide) s t ['{']

section Printing

variable {indent : Text} (hindent : ∀ c ∈ indent, isSpacing c = true)

include hindent

theorem spacing_times (d : Nat) : ∀ c ∈ Text.times indent d, isSpacing c = true := by
  induction d with
  | zero => simp [Text.times]
  | succ d ih =>
    intro c hc
    rcases List.mem_append.mp hc with hc | hc
    · exact hindent c hc
    · exact ih c hc

theorem read_block {o : Origin} {h : Header} (hblock : h.isStatement = false) (ns : List Node)
    (d : Nat) (s : σ) :
    g.read s (Node.unlines (Node.lines indent d (.block o h ns))) =
      g.read (g.read (g.read (g.read s h.text) ['{'])
        (Node.unlines (Node.linesAll indent (d + 1) ns))) ['}'] := by
  have hpad := spacing_times hindent d
  have hbraces : g.read s (h.text ++ [' ', '{', '}']) =
      g.read (g.read (g.read s h.text) ['{']) ['}'] := by
    rw [g.read_append_spacing (by decide), g.read_cons (by decide)]
  cases ns with
  | nil =>
    have hlines : Node.lines indent d (.block o h []) =
        [Text.times indent d ++ (h.text ++ [' ', '{', '}'])] := by
      simp [Node.lines, hblock]
    rw [hlines, g.read_line hpad, hbraces, Node.linesAll, Node.unlines, g.read_nil, g.read_nil,
      g.settle_read, g.settle_read]
  | cons n ns =>
    have hlines : Node.lines indent d (.block o h (n :: ns)) =
        (Text.times indent d ++ (h.text ++ [' ', '{'])) ::
          (Node.linesAll indent (d + 1) (n :: ns) ++ [Text.times indent d ++ ['}']]) := by
      simp [Node.lines, hblock]
    rw [hlines, g.read_line hpad, g.read_open, g.read_unlines_append, g.read_line hpad,
      Node.unlines, g.read_nil, g.settle_read]

theorem read_declaration (o : Origin) (c : Declaration) (d : Nat) (s : σ) :
    g.read s (Node.unlines (Node.lines indent d (.declaration o c))) = g.read s c.spelling := by
  rw [Node.lines, c.text_eq, g.read_line (spacing_times hindent d), Node.unlines, g.read_nil,
    g.settle_read, g.read_behind (by decide)]

theorem read_statement {o : Origin} {h : Header} (hstatement : h.isStatement = true)
    (ns : List Node) (d : Nat) (s : σ) :
    g.read s (Node.unlines (Node.lines indent d (.block o h ns))) = g.read s h.text := by
  have hlines : Node.lines indent d (.block o h ns) =
      [Text.times indent d ++ (h.text ++ [';'])] := by
    simp [Node.lines, hstatement]
  rw [hlines, g.read_line (spacing_times hindent d), Node.unlines, g.read_nil, g.settle_read,
    g.read_behind (by decide)]

/-- **A gauge makes the same of statements and of their printed form.** -/
theorem read_reads {ok : Text → Prop}
    (hok : ∀ u, ok u → (Source.declarationOf u).important = true → g.ReadsWordOf u)
    {inside : Bool} {t r : Text} {ns : List Node} (h : Source.Reads ok inside t ns r) (d : Nat)
    (s : σ) : g.read s t = g.read (g.read s (Node.unlines (Node.linesAll indent d ns))) r := by
  -- a block is printed one step further in, so the depth changes along the derivation
  induction h generalizing d s with
  | stop => rw [Node.linesAll, Node.unlines, g.read_nil, g.read_settle]
  | layout hc _ ih =>
    rw [g.read_spacing_cons (isSpacing_of_isBlank (Source.isBlank_of_isLayout hc)), ih]
  | semicolon _ ih => rw [g.read_spacing_cons (by decide), ih]
  | @declaration u t r c ns place hu hspelled hc _ ih =>
    have hinert : isInert c = true := by rcases hc with rfl | rfl <;> decide
    rw [Node.linesAll, g.read_unlines_append, g.read_declaration hindent,
      g.read_spelling hu (hok u hspelled), g.read_append (Seam.of_head hinert u t), ih]
  | @rule inside u t t' r body ns place hu _ _ ihbody ih =>
    rw [Node.linesAll, g.read_unlines_append, g.read_block hindent rfl, Header.text,
      g.read_normalize, g.read_append (Seam.of_head (by decide) u t), g.read_cons (by decide), ihbody (d + 1),
      g.read_cons (by decide), ih]
  | @atRule inside name prelude t t' r body ns place hhead _ _ ihbody ih =>
    have hsplit : '@' :: (name ++ (prelude ++ '{' :: t)) = ('@' :: (name ++ prelude)) ++ '{' :: t := by
      simp
    rw [Node.linesAll, g.read_unlines_append, g.read_block hindent rfl, g.read_header hhead, hsplit,
      g.read_append (Seam.of_head (by decide) _ t), g.read_cons (by decide), ihbody (d + 1),
      g.read_cons (by decide), ih]
  | @statement inside name prelude t r ns place hhead _ ih =>
    have hsplit : '@' :: (name ++ (prelude ++ ';' :: t)) = ('@' :: (name ++ prelude)) ++ ';' :: t := by
      simp
    rw [Node.linesAll, g.read_unlines_append, g.read_statement hindent rfl, g.read_header hhead,
      hsplit, g.read_append_spacing (by decide), ih]

end Printing

end Gauge

/-! ### Ink -/

/-- The characters of a text that are no spacing. -/
def ink (t : Text) : Text := t.filter (!isSpacing ·)

/-- The gauge that collects the ink. -/
def Gauge.inked : Gauge Text where
  step s c := if isSpacing c then s else s ++ [c]
  settle s := s
  settle_settle _ := rfl
  step_spacing _ _ hc := if_pos hc
  step_settle _ _ _ := rfl
  settle_step _ _ _ := rfl

theorem Gauge.read_inked (s t : Text) : Gauge.inked.read s t = s ++ ink t := by
  induction t generalizing s with
  | nil => simp [Gauge.read, Gauge.inked, ink]
  | cons c t ih =>
    have hstep : Gauge.inked.read s (c :: t) = Gauge.inked.read (Gauge.inked.step s c) t := rfl
    rw [hstep, ih]
    cases hc : isSpacing c with
    | true => simp [Gauge.inked, ink, hc]
    | false => simp [Gauge.inked, ink, hc]

/-- Where the printed word ends a text, no other spelling of it does. -/
theorem Gauge.readsWordOf_inked {u : Text} (h : importantWord <:+ Text.trimEnd u) :
    Gauge.inked.ReadsWordOf u := by
  intro x w bs hu hw hbs s
  have hlength : importantWord.length = w.length := hw.length_eq
  have hne : w ≠ [] := by
    rintro rfl
    cases hlength
  have hlast : ∀ c, (x ++ w).getLast? = some c → Text.isBlank c = false := by
    intro c hc
    rw [List.getLast?_append_of_ne_nil x hne] at hc
    exact hw.not_blank c (List.mem_of_getLast? hc)
  have htrim : Text.trimEnd u = x ++ w := by
    rw [hu, ← List.append_assoc, Text.trimEnd_append _ hbs, Text.trimEnd_eq_self hlast]
  -- both words end the same text and have the same length
  rw [htrim] at h
  have hsuffix : importantWord <:+ w :=
    List.suffix_of_suffix_length_le h (List.suffix_append x w) (le_of_eq hlength)
  rw [hsuffix.eq_of_length hlength]

/-- **Formatting neither drops nor invents text**: the printed tree and the
    stylesheet, its comments blanked, have the same ink, if every text that spells
    an important declaration ends with the word in lower case. -/
theorem ink_print_of_parse {t indent : Text} {root : Node} (h : Source.parse t = .ok root)
    (hlower : ∀ u ∈ Source.declarationTexts (Source.blankComments t),
      (Source.declarationOf u).important = true → importantWord <:+ Text.trimEnd u)
    (hindent : ∀ c ∈ indent, c = ' ') :
    root.walk.filterMap Node.content? =
        (Source.declarationTexts (Source.blankComments t)).map Source.declarationOf ∧
      ink (root.print indent) = ink (Source.blankComments t) := by
  refine ⟨Source.contents_of_read h, ?_⟩
  obtain ⟨ns, rfl, hreads⟩ := Source.reads_of_read h hlower
  have hspacing := spacing_of_spaces hindent
  have hread := Gauge.inked.read_reads hspacing (fun u hu himp => Gauge.readsWordOf_inked (hu himp))
    hreads 0 []
  simp only [Gauge.read_inked, List.nil_append] at hread
  rw [Node.print, hread]
  simp [ink]

/-- The sheet `@i "x";/*;*/a , b{c : d ! important ;;}`, with a tab in front of the mark. -/
def spaciousSheet : Text :=
  ['@', 'i', ' ', '"', 'x', '"', ';', '/', '*', ';', '*', '/', 'a', ' ', ',', ' ', 'b', '{', 'c',
   ' ', ':', ' ', 'd', '\t', '!', ' ', 'i', 'm', 'p', 'o', 'r', 't', 'a', 'n', 't', ' ', ';', ';',
   '}']

theorem ink_print_spaciousSheet :
    ∃ root, Source.parse spaciousSheet = .ok root ∧
      (∃ u ∈ Source.declarationTexts (Source.blankComments spaciousSheet),
        (Source.declarationOf u).important = true ∧ importantWord <:+ Text.trimEnd u) ∧
      ink (root.print [' ', ' ']) = ink (Source.blankComments spaciousSheet) := by
  have hsheet : ∃ root, Source.parse spaciousSheet = .ok root := ⟨_, rfl⟩
  have hlower : ∀ u ∈ Source.declarationTexts (Source.blankComments spaciousSheet),
      (Source.declarationOf u).important = true ∧ importantWord <:+ Text.trimEnd u := by
    decide +kernel
  have hsome : Source.declarationTexts (Source.blankComments spaciousSheet) ≠ [] := by
    decide +kernel
  obtain ⟨root, hparse⟩ := hsheet
  obtain ⟨u, hu⟩ := List.exists_mem_of_ne_nil _ hsome
  exact ⟨root, hparse, ⟨u, hu, hlower u hu⟩,
    (ink_print_of_parse hparse (fun u hu _ => (hlower u hu).2) (by decide)).2⟩

end StyleNesting
