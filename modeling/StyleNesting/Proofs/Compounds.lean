/-
  StyleNesting/Proofs/Compounds.lean
  ==================================
  **Compounds, and the rows that normalising makes of them.**  A text is cut at blanks
  into *words*, and words with a space between neighbours are cut into the same words
  again (`compounds_join`).  A part is *tidy* if it is a row of compounds with one space
  between neighbours.  Tidy parts are atoms, and taking one apart at its last blank
  gives two tidy parts (`splitDescendant?_eq_some`).

  Normalising writes the compounds of every part as a row (`exists_rows`).  The parts of
  the normal form need not be those of the text it was made from: trimming can leave
  a backslash at the end of a part, which then escapes the comma that is written
  after it and so ties the part to the next one (`Row.tie`).
-/
import StyleNesting.Proofs.Parts

namespace StyleNesting.Selector

open StyleNesting

/-! ### Words -/

/-- A text that can stand as one piece between blanks. -/
structure Word (c : Text) : Prop where
  nonempty : c ≠ []
  whole : unbroken Text.isBlank Scan.start c = true

theorem Word.head {c : Text} (hc : Word c) : ∀ d, c.head? = some d → Text.isBlank d = false := by
  intro d hd
  cases c with
  | nil => cases hd
  | cons e c =>
    cases hd
    have h := hc.whole
    simp only [unbroken, Bool.and_eq_true, Bool.not_eq_true', BEq.rfl, Bool.true_and] at h
    exact h.1

/-- A balanced word ends in a blank only if the blank is escaped. -/
theorem Word.last {c : Text} (hc : Word c) (hbal : balanced c = true)
    (hesc : escapesBlank c = false) : ∀ d, c.getLast? = some d → Text.isBlank d = false := by
  intro d hd
  obtain ⟨u, rfl⟩ := List.getLast?_eq_some_iff.mp hd
  cases hblank : Text.isBlank d with
  | false => rfl
  | true =>
    have hrun : (Scan.start.run u).run [d] = Scan.start := by
      rw [← Scan.run_append]
      exact balanced_iff.mp hbal
    have hblanks : ∀ b ∈ [d], Text.isBlank b = true := by simp [hblank]
    rcases (Scan.Proper.start.run u).eq_of_run_blanks hblanks hrun with hstart | ⟨hdangling, -⟩
    · -- in the start state the blank would break the word
      have hwhole := hc.whole
      rw [unbroken_append, hstart] at hwhole
      simp [unbroken, hblank] at hwhole
    · obtain ⟨v, rfl⟩ := eq_append_backslash_of_dangling hdangling
      rw [escapesBlank_iff.mpr ⟨d, hblank, v, [], by simp⟩] at hesc
      cases hesc

theorem word_of_mem_compounds {t c : Text} (hc : c ∈ compounds t) : Word c := by
  obtain ⟨hpiece, hne⟩ := List.mem_filter.mp hc
  exact ⟨by simpa using hne, unbroken_of_mem_cut hpiece⟩

theorem compounds_of_word {c : Text} (hc : Word c) : compounds c = [c] := by
  have hne : c.isEmpty = false := List.isEmpty_eq_false_iff.mpr hc.nonempty
  simp [compounds, cut_of_unbroken hc.whole, hne]

theorem compounds_append_blank {a t : Text} {b : Char}
    (ha : unbroken Text.isBlank Scan.start a = true) (hbal : balanced a = true)
    (hb : Text.isBlank b = true) :
    compounds (a ++ b :: t) = [a].filter (!·.isEmpty) ++ compounds t := by
  rw [compounds, cut_append_sep ha (balanced_iff.mp hbal) hb, ← List.singleton_append,
    List.filter_append]
  rfl

/-- Only the last compound of a text may leave something open. -/
theorem balanced_of_mem_dropLast_compounds {t : Text} :
    ∀ c ∈ (compounds t).dropLast, balanced c = true := by
  have hfirst : ∀ {a c : Text}, c ∈ [a].filter (!·.isEmpty) → c = a := fun hc =>
    List.mem_singleton.mp (List.mem_of_mem_filter hc)
  induction t using cut_induction Text.isBlank with
  | whole t h =>
    have hlength : (compounds t).length ≤ 1 := by
      rw [compounds, cut_of_unbroken h]
      exact List.length_filter_le _ _
    have hnil : (compounds t).dropLast = [] := by
      apply List.eq_nil_of_length_eq_zero
      rw [List.length_dropLast]
      omega
    rw [hnil]
    exact List.forall_mem_nil _
  | sep a b t ha hbal hb ih =>
    rw [compounds_append_blank ha hbal hb]
    intro c hc
    by_cases hrest : compounds t = []
    · rw [hrest, List.append_nil] at hc
      rwa [hfirst (List.mem_of_mem_dropLast hc)]
    · rw [List.dropLast_append_of_ne_nil hrest, List.mem_append] at hc
      rcases hc with hc | hc
      · rwa [hfirst hc]
      · exact ih c hc

/-- **Words with a space between neighbours are cut into the words again**, if only the last
    one may leave something open. -/
theorem compounds_join {cs : List Text} (h : ∀ c ∈ cs, Word c)
    (hclosed : ∀ c ∈ cs.dropLast, balanced c = true) : compounds (Text.join [' '] cs) = cs := by
  induction cs with
  | nil => rfl
  | cons c cs ih =>
    rw [List.forall_mem_cons] at h
    cases cs with
    | nil => exact compounds_of_word h.1
    | cons d cs =>
      rw [List.dropLast_cons_cons, List.forall_mem_cons] at hclosed
      have hjoin : Text.join [' '] (c :: d :: cs) = c ++ ' ' :: Text.join [' '] (d :: cs) := by
        simp [Text.join]
      have hne : c.isEmpty = false := List.isEmpty_eq_false_iff.mpr h.1.nonempty
      rw [hjoin, compounds_append_blank h.1.whole hclosed.1 (by decide), ih h.2 hclosed.2]
      simp [hne]

/-! ### Rows of compounds -/

def isGap (c : Char) : Bool := isComma c || Text.isBlank c

theorem unbroken_or {isSep isSep' : Char → Bool} {s : Scan} {t : Text}
    (h : unbroken isSep s t = true) (h' : unbroken isSep' s t = true) :
    unbroken (fun c => isSep c || isSep' c) s t = true := by
  induction t generalizing s with
  | nil => rfl
  | cons c t ih =>
    simp only [unbroken, Bool.and_eq_true, Bool.not_eq_true', Bool.and_eq_false_iff,
      Bool.or_eq_false_iff] at h h' ⊢
    refine ⟨?_, ih h.2 h'.2⟩
    rcases h.1 with hs | hc
    · exact Or.inl hs
    · rcases h'.1 with hs | hc'
      · exact Or.inl hs
      · exact Or.inr ⟨hc, hc'⟩

/-- A text that can stand as one piece between blanks and commas. -/
structure Token (c : Text) : Prop where
  nonempty : c ≠ []
  whole : unbroken isGap Scan.start c = true

theorem Token.no_comma {c : Text} (hc : Token c) : unbroken isComma Scan.start c = true :=
  unbroken_mono (fun d hd => by simp [isGap, hd]) hc.whole

theorem Token.no_blank {c : Text} (hc : Token c) : unbroken Text.isBlank Scan.start c = true :=
  unbroken_mono (fun d hd => by simp [isGap, hd]) hc.whole

/-- A compound is a token that is balanced and does not end in a blank. -/
structure Compound (c : Text) : Prop extends Token c where
  closed : balanced c = true
  last : ∀ d, c.getLast? = some d → Text.isBlank d = false

theorem Token.word {c : Text} (hc : Token c) : Word c := ⟨hc.nonempty, hc.no_blank⟩

theorem Token.compound {c : Text} (hc : Token c) (hbal : balanced c = true)
    (hesc : escapesBlank c = false) : Compound c := ⟨hc, hbal, hc.word.last hbal hesc⟩

/-- The compounds in front of the last one, each with the space after it. -/
def lead (init : List Text) : Text := init.flatMap (· ++ [' '])

@[simp]
theorem lead_nil : lead [] = [] := rfl

@[simp]
theorem lead_cons (c : Text) (cs : List Text) : lead (c :: cs) = c ++ ' ' :: lead cs := by
  simp [lead]

@[simp]
theorem lead_append (cs ds : List Text) : lead (cs ++ ds) = lead cs ++ lead ds := by
  simp [lead]

theorem join_concat (init : List Text) (last : Text) :
    Text.join [' '] (init ++ [last]) = lead init ++ last := by
  induction init with
  | nil => rfl
  | cons c init ih =>
    cases init with
    | nil => simp [Text.join]
    | cons d init =>
      have hjoin : Text.join [' '] (c :: d :: init ++ [last]) =
          c ++ [' '] ++ Text.join [' '] (d :: init ++ [last]) := rfl
      rw [hjoin, ih]
      simp

theorem trimmed_lead {init : List Text} {last : Text} (h : ∀ c ∈ init ++ [last], Word c)
    (hlast : ∀ d, last.getLast? = some d → Text.isBlank d = false) :
    Text.Trimmed (lead init ++ last) := by
  constructor
  · intro d hd
    cases init with
    | nil => exact (h last (by simp)).head d hd
    | cons c init =>
      have hc := h c (by simp)
      obtain ⟨e, u, rfl⟩ := List.exists_cons_of_ne_nil hc.nonempty
      cases hd
      exact hc.head d rfl
  · intro d hd
    rw [List.getLast?_append_of_ne_nil _ (h last (by simp)).nonempty] at hd
    exact hlast d hd

theorem run_lead {init : List Text} (h : ∀ c ∈ init, balanced c = true) :
    Scan.start.run (lead init) = Scan.start := by
  induction init with
  | nil => rfl
  | cons c init ih =>
    have hc : Scan.start.run c = Scan.start := balanced_iff.mp (h c (by simp))
    have hspace : Scan.start.step ' ' = Scan.start := by decide
    rw [lead_cons, Scan.run_append, hc, Scan.run_cons, hspace]
    exact ih fun d hd => h d (by simp [hd])

/-- Tokens with a space between neighbours, all but the last of them balanced. -/
structure Row (init : List Text) (last : Text) : Prop where
  tokens : ∀ c ∈ init ++ [last], Token c
  closed : ∀ c ∈ init, balanced c = true

theorem Row.tail {c : Text} {init : List Text} {last : Text} (h : Row (c :: init) last) :
    Row init last := by
  refine ⟨fun d hd => h.tokens d ?_, fun d hd => h.closed d (by simp [hd])⟩
  rw [List.cons_append]
  exact List.mem_cons_of_mem c hd

theorem Row.run {init : List Text} {last : Text} (h : Row init last) :
    Scan.start.run (lead init ++ last) = Scan.start.run last := by
  rw [Scan.run_append, run_lead h.closed]

theorem Row.no_comma {init : List Text} {last : Text} (h : Row init last) :
    unbroken isComma Scan.start (lead init ++ last) = true := by
  induction init with
  | nil => exact (h.tokens last (by simp)).no_comma
  | cons c init ih =>
    have hc : Scan.start.run c = Scan.start := balanced_iff.mp (h.closed c (by simp))
    rw [lead_cons, List.append_assoc, unbroken_append, hc, (h.tokens c (by simp)).no_comma,
      List.cons_append, unbroken_blank_cons (by decide) (by decide), ih h.tail]
    rfl

theorem Row.trimmed {init : List Text} {last : Text} (h : Row init last)
    (hlast : ∀ d, last.getLast? = some d → Text.isBlank d = false) :
    Text.Trimmed (lead init ++ last) := trimmed_lead (fun c hc => (h.tokens c hc).word) hlast

/-- **The compounds of a row are its tokens.** -/
theorem Row.compounds {init : List Text} {last : Text} (h : Row init last) :
    compounds (lead init ++ last) = init ++ [last] := by
  rw [← join_concat]
  refine compounds_join (fun c hc => (h.tokens c hc).word) ?_
  rw [List.dropLast_concat]
  exact h.closed

/-! ### Tidy parts -/

/-- A row of compounds with one space between neighbours. -/
def Tidy (p : Text) : Prop :=
  ∃ init last, (∀ c ∈ init ++ [last], Compound c) ∧ p = lead init ++ last

theorem row_of_compounds {init : List Text} {last : Text}
    (h : ∀ c ∈ init ++ [last], Compound c) : Row init last :=
  ⟨fun c hc => (h c hc).toToken, fun c hc => (h c (by simp [hc])).closed⟩

theorem trimmed_row {init : List Text} {last : Text} (h : ∀ c ∈ init ++ [last], Compound c) :
    Text.Trimmed (lead init ++ last) := (row_of_compounds h).trimmed (h last (by simp)).last

theorem Tidy.atom {p : Text} (hp : Tidy p) : Atom p := by
  obtain ⟨init, last, h, rfl⟩ := hp
  have hrow := row_of_compounds h
  refine ⟨?_, trimmed_row h, hrow.no_comma, ?_⟩
  · have hne := (h last (by simp)).nonempty
    simp [hne]
  · rw [balanced_iff, hrow.run]
    exact balanced_iff.mp (h last (by simp)).closed

theorem Compound.tidy {c : Text} (hc : Compound c) : Tidy c := ⟨[], c, by simpa using hc, rfl⟩

/-- **Taking a tidy part apart** gives what stands before its last space and the
    compound after it. -/
theorem splitDescendant?_eq_some {p parent child : Text} (hp : Tidy p)
    (h : splitDescendant? p = some (parent, child)) :
    p = parent ++ ' ' :: child ∧ Tidy parent ∧ Compound child := by
  obtain ⟨init, last, hcs, rfl⟩ := hp
  simp only [splitDescendant?, Text.trim_eq_self (trimmed_row hcs),
    (row_of_compounds hcs).compounds, List.getLast?_concat, List.dropLast_concat,
    List.length_append, List.length_singleton] at h
  split at h
  · cases h
  · rename_i hsplit
    simp only [Option.some.injEq, Prod.mk.injEq] at h
    obtain ⟨rfl, rfl⟩ := h
    rcases List.eq_nil_or_concat init with rfl | ⟨init, c, rfl⟩
    · simp at hsplit
    · rw [List.concat_eq_append] at hcs ⊢
      rw [join_concat]
      refine ⟨by simp, ⟨init, c, ?_, rfl⟩, hcs last (by simp)⟩
      intro d hd
      exact hcs d (List.mem_append_left [last] hd)

/-- A compound that goes on from a balanced token, with an ampersand for the token. -/
theorem Compound.relative {a v : Text} (ha : Token a) (hbal : balanced a = true)
    (h : Compound (a ++ v)) : Compound ('&' :: v) := by
  have hstep : Scan.start.step '&' = Scan.start := by decide
  have hwhole := h.whole
  have hclosed := h.closed
  rw [unbroken_append, balanced_iff.mp hbal, ha.whole, Bool.true_and] at hwhole
  rw [balanced_append hbal] at hclosed
  refine ⟨⟨by simp, ?_⟩, ?_, fun d hd => ?_⟩
  · simp only [unbroken, hstep, hwhole, Bool.and_true]
    decide
  · rw [balanced_iff, Scan.run_cons, hstep]
    exact balanced_iff.mp hclosed
  · cases v with
    | nil =>
      cases hd
      decide
    | cons e v =>
      refine h.last d ?_
      rwa [List.getLast?_append_of_ne_nil _ (by simp), ← List.getLast?_cons_of_ne_nil (by simp)]

/-- Balanced tokens before a gap are the same in the same text. -/
theorem eq_of_append_space {c c' t t' : Text} (hc : Token c) (hbal : balanced c = true)
    (hc' : Token c') (hbal' : balanced c' = true) (h : c ++ ' ' :: t = c' ++ ' ' :: t') :
    c = c' ∧ t = t' := by
  have hcut := congrArg (cut Text.isBlank Scan.start) h
  rw [cut_append_sep hc.no_blank (balanced_iff.mp hbal) (by decide),
    cut_append_sep hc'.no_blank (balanced_iff.mp hbal') (by decide)] at hcut
  have heq : c = c' := (List.cons.inj hcut).1
  subst heq
  exact ⟨rfl, (List.cons.inj (List.append_cancel_left h)).2⟩

/-- No gap counts in a token. -/
theorem Token.not_gap {a b : Text} {c : Char} (hc : isGap c = true) (hbal : balanced a = true) :
    ¬ Token (a ++ c :: b) := by
  intro h
  have hwhole := h.whole
  rw [unbroken_append, balanced_iff.mp hbal, unbroken, hc, Bool.and_eq_true, Bool.and_eq_true] at hwhole
  exact absurd hwhole.2.1 (by decide)

theorem Tidy.of_cons {c t : Text} (hc : Compound c) (h : Tidy (c ++ ' ' :: t)) : Tidy t := by
  obtain ⟨init, last, hcs, heq⟩ := h
  cases init with
  | nil =>
    rw [lead_nil, List.nil_append] at heq
    exact absurd (heq ▸ (hcs last (by simp)).toToken) (Token.not_gap (by decide) hc.closed)
  | cons c' init =>
    have hc' := hcs c' (by simp)
    rw [lead_cons, List.append_assoc, List.cons_append] at heq
    obtain ⟨-, rfl⟩ := eq_of_append_space hc.toToken hc.closed hc'.toToken hc'.closed heq
    exact ⟨init, last, fun d hd => hcs d (List.mem_cons_of_mem c' hd), rfl⟩

/-- A tidy part that goes on from a compound, with an ampersand for the compound. -/
theorem Tidy.relative_compound {a u : Text} (ha : Compound a) (h : Tidy (a ++ u)) :
    Tidy ('&' :: u) := by
  obtain ⟨init, last, hcs, heq⟩ := h
  cases init with
  | nil =>
    rw [lead_nil, List.nil_append] at heq
    exact (Compound.relative ha.toToken ha.closed (heq ▸ hcs last (by simp))).tidy
  | cons c init =>
    have hc := hcs c (by simp)
    have hrest : ∀ d ∈ init ++ [last], Compound d := fun d hd => hcs d (List.mem_cons_of_mem c hd)
    have hfirst : ∀ v, Compound ('&' :: v) → u = v ++ ' ' :: (lead init ++ last) →
        Tidy ('&' :: u) := by
      intro v hv hu
      refine ⟨('&' :: v) :: init, last, ?_, by simp [hu]⟩
      intro d hd
      rcases List.mem_cons.mp hd with rfl | hd
      · exact hv
      · exact hrest d hd
    rw [lead_cons, List.append_assoc, List.cons_append] at heq
    -- the compound ends with the first one of the part or before it
    rcases List.append_eq_append_iff.mp heq with ⟨v, rfl, hu⟩ | ⟨v, rfl, hv⟩
    · exact hfirst v (Compound.relative ha.toToken ha.closed hc) hu
    · cases v with
      | nil =>
        rw [List.append_nil] at ha
        refine hfirst [] (Compound.relative ha.toToken ha.closed ?_) hv.symm
        simpa using ha
      | cons e v =>
        rw [List.cons_append, List.cons.injEq] at hv
        rw [← hv.1] at ha
        exact absurd ha.toToken (Token.not_gap (by decide) hc.closed)

/-- **A tidy part that goes on from a tidy part**, with an ampersand for it. -/
theorem Tidy.relative {base u : Text} (hbase : Tidy base) (h : Tidy (base ++ u)) :
    Tidy ('&' :: u) := by
  obtain ⟨init, last, hcs, rfl⟩ := hbase
  induction init with
  | nil => exact Tidy.relative_compound (hcs last (by simp)) (by simpa using h)
  | cons c init ih =>
    rw [lead_cons, List.append_assoc, List.append_assoc, List.cons_append] at h
    refine ih (fun d hd => hcs d (List.mem_cons_of_mem c hd)) ?_
    rw [List.append_assoc]
    exact Tidy.of_cons (hcs c (by simp)) h

/-- A tidy part that starts with an ampersand or has none. -/
structure Neat (p : Text) : Prop where
  tidy : Tidy p
  ampersand : '&' ∉ p.tail

/-- Both sides of a neat part that is taken apart are neat, and what stands
    after the space has no ampersand. -/
theorem Neat.split {p parent child : Text} (hp : Neat p)
    (h : splitDescendant? p = some (parent, child)) :
    p = parent ++ ' ' :: child ∧ Neat parent ∧ Neat child ∧ '&' ∉ child := by
  obtain ⟨rfl, hparent, hchild⟩ := splitDescendant?_eq_some hp.tidy h
  have htail : (parent ++ ' ' :: child).tail = parent.tail ++ ' ' :: child :=
    List.tail_append_of_ne_nil hparent.atom.nonempty
  have hamp := hp.ampersand
  rw [htail, List.mem_append, not_or] at hamp
  have hafter : '&' ∉ child := fun hm => hamp.2 (List.mem_cons_of_mem ' ' hm)
  exact ⟨rfl, ⟨hparent, hamp.1⟩, ⟨hchild.tidy, fun hm => hafter (List.mem_of_mem_tail hm)⟩, hafter⟩

/-! ### Normal forms -/

/-- The compounds of a text without commas are a row, and after the last of them
    the scan is where it is after the text. -/
theorem compounds_row {t : Text} (ht : unbroken isComma Scan.start t = true) :
    (compounds t = [] ∧ Scan.start.run t = Scan.start) ∨
      ∃ init last, compounds t = init ++ [last] ∧ Row init last ∧
        Scan.start.run t = Scan.start.run last := by
  induction t using cut_induction Text.isBlank with
  | whole t hwhole =>
    by_cases hne : t = []
    · subst hne
      exact Or.inl ⟨rfl, rfl⟩
    · have hempty : t.isEmpty = false := List.isEmpty_eq_false_iff.mpr hne
      refine Or.inr ⟨[], t, ?_, ⟨?_, by simp⟩, rfl⟩
      · simp [compounds, cut_of_unbroken hwhole, hempty]
      · intro c hc
        have hct : c = t := by simpa using hc
        subst hct
        exact ⟨hne, unbroken_or ht hwhole⟩
  | sep a b t ha hbal hb ih =>
    have hrun : Scan.start.run a = Scan.start := balanced_iff.mp hbal
    have hstep : Scan.start.step b = Scan.start := Scan.step_start_plain (isPlain_of_isBlank hb)
    have hruns : Scan.start.run (a ++ b :: t) = Scan.start.run t := by
      rw [Scan.run_append, hrun, Scan.run_cons, hstep]
    rw [unbroken_append, hrun, Bool.and_eq_true] at ht
    obtain ⟨hta, htb⟩ := ht
    simp only [unbroken, hstep, Bool.and_eq_true] at htb
    rw [compounds_append_blank ha hbal hb, hruns]
    by_cases hne : a = []
    · subst hne
      exact ih htb.2
    · have hempty : a.isEmpty = false := List.isEmpty_eq_false_iff.mpr hne
      have htoken : Token a := ⟨hne, unbroken_or hta ha⟩
      rcases ih htb.2 with ⟨hnil, hstart⟩ | ⟨init, last, hcs, hrow, hlast⟩
      · refine Or.inr ⟨[], a, by simp [hempty, hnil], ⟨?_, by simp⟩, by rw [hstart, hrun]⟩
        intro c hc
        have hca : c = a := by simpa using hc
        exact hca ▸ htoken
      · refine Or.inr ⟨a :: init, last, by simp [hempty, hcs], ⟨?_, ?_⟩, hlast⟩
        · intro c hc
          rcases List.mem_cons.mp hc with rfl | hmem
          · exact htoken
          · exact hrow.tokens c hmem
        · intro c hc
          rcases List.mem_cons.mp hc with rfl | hmem
          · exact hbal
          · exact hrow.closed c hmem

theorem compounds_ne_nil {t : Text} (hne : t ≠ []) (htrim : Text.Trimmed t) :
    compounds t ≠ [] := by
  rcases unbroken_or_sep Text.isBlank Scan.start t with h | ⟨a, b, u, rfl, ha, hrun, hb⟩
  · simp [compounds, cut_of_unbroken h, hne]
  · -- the first piece is not empty, since the text does not start with a blank
    have hane : a ≠ [] := by
      rintro rfl
      rw [htrim.head b rfl] at hb
      cases hb
    simp [compounds, cut_append_sep ha hrun hb, hane]

def rowText (r : List Text × Text) : Text := lead r.1 ++ r.2

/-- Rows that normalising can write one after another.  After a row that is not
    the last one, the scan stands at the start or after a dangling backslash. -/
def Rows : List (List Text × Text) → Prop
  | [] => True
  | r :: rs =>
    Row r.1 r.2 ∧
      (rs ≠ [] → Scan.start.run r.2 = Scan.start ∨ Scan.start.run r.2 = Scan.dangling) ∧ Rows rs

theorem partOf_row {piece : Text} (h : unbroken isComma Scan.start piece = true) :
    partOf piece = [] ∨ ∃ r : List Text × Text, partOf piece = [Text.trim piece] ∧
      compounds (Text.trim piece) = r.1 ++ [r.2] ∧ Row r.1 r.2 ∧
      Scan.start.run (Text.trim piece) = Scan.start.run r.2 := by
  by_cases hne : Text.trim piece = []
  · exact Or.inl (by simp [partOf, hne])
  · rcases compounds_row (unbroken_trim h) with ⟨hnil, -⟩ | ⟨init, last, hcs, hrow, hrun⟩
    · exact absurd hnil (compounds_ne_nil hne (Text.trim_trimmed piece))
    · exact Or.inr ⟨(init, last), by simp [partOf, hne], hcs, hrow, hrun⟩

theorem Rows.row {rs : List (List Text × Text)} (h : Rows rs) : ∀ r ∈ rs, Row r.1 r.2 := by
  induction rs with
  | nil => exact List.forall_mem_nil _
  | cons r rs ih =>
    obtain ⟨hrow, -, hrest⟩ := h
    exact List.forall_mem_cons.mpr ⟨hrow, ih hrest⟩

/-- **The compounds of a list's parts are rows.**  Where no blank is escaped, only the last
    row may leave something open. -/
theorem exists_rows (t : Text) :
    ∃ rs, Rows rs ∧ (escapesBlank t = false → ∀ r ∈ rs.dropLast, balanced r.2 = true) ∧
      (parts t).map compounds = rs.map fun r => r.1 ++ [r.2] := by
  induction t using cut_induction isComma with
  | whole t h =>
    rw [parts_of_unbroken h]
    rcases partOf_row h with hnil | ⟨r, hpart, hcs, hrow, -⟩
    · exact ⟨[], trivial, by simp, by rw [hnil]; rfl⟩
    · refine ⟨[r], ⟨hrow, fun hne => absurd rfl hne, trivial⟩, by simp, ?_⟩
      rw [hpart, List.map_singleton, hcs]
      rfl
  | sep a c b ha hbal hc ih =>
    obtain ⟨rs, hrs, hclosed, hrows⟩ := ih
    have hcomma : c = ',' := by simpa [isComma] using hc
    subst hcomma
    have hfirstIn : a <:+: a ++ ',' :: b := (List.prefix_append a (',' :: b)).isInfix
    have hrestIn : b <:+: a ++ ',' :: b :=
      ((List.suffix_cons ',' b).trans (List.suffix_append a _)).isInfix
    rw [parts_append_comma ha hbal, List.map_append, hrows]
    rcases partOf_row ha with hnil | ⟨r, hpart, hcs, hrow, hrun⟩
    · exact ⟨rs, hrs, fun hesc => hclosed (escapesBlank_mono hrestIn hesc), by rw [hnil]; rfl⟩
    · refine ⟨r :: rs, ⟨hrow, fun _ => ?_, hrs⟩, fun hesc => ?_, ?_⟩
      · rw [← hrun]
        rcases run_trim hbal with hstart | ⟨hdangling, -⟩
        · exact Or.inl (balanced_iff.mp hstart)
        · exact Or.inr hdangling
      · by_cases hnil : rs = []
        · simp [hnil]
        · rw [List.dropLast_cons_of_ne_nil hnil, List.forall_mem_cons]
          refine ⟨?_, hclosed (escapesBlank_mono hrestIn hesc)⟩
          rw [balanced_iff, ← hrun]
          rcases run_trim hbal with hstart | ⟨-, hescaped⟩
          · exact balanced_iff.mp hstart
          · rw [escapesBlank_mono hfirstIn hesc] at hescaped
            cases hescaped
      · rw [hpart, List.map_singleton, hcs]
        rfl

def rowsText (rs : List (List Text × Text)) : Text := Text.join Text.commaSpace (rs.map rowText)

theorem normalize_eq_rowsText {t : Text} {rs : List (List Text × Text)}
    (h : (parts t).map compounds = rs.map fun r => r.1 ++ [r.2]) : normalize t = rowsText rs := by
  have htexts : (parts t).map (fun p => Text.join [' '] (compounds p)) = rs.map rowText := by
    have hjoin := congrArg (List.map (Text.join [' '])) h
    rw [List.map_map, List.map_map] at hjoin
    exact hjoin.trans (List.map_congr_left fun r _ => join_concat r.1 r.2)
  rw [normalize, htexts, rowsText]

theorem join_cons (sep t : Text) (ts : List Text) :
    Text.join sep (t :: ts) = t ++ ts.flatMap (sep ++ ·) := by
  induction ts generalizing t with
  | nil => simp [Text.join]
  | cons u ts ih => simp [Text.join, ih]

theorem rowsText_cons_cons (r r' : List Text × Text) (rs : List (List Text × Text)) :
    rowsText (r :: r' :: rs) = rowText r ++ ',' :: ' ' :: rowsText (r' :: rs) := by
  simp [rowsText, join_cons, Text.commaSpace]

/-- Two rows that are tied together by an escaped comma. -/
def tie (r r' : List Text × Text) : List Text × Text := (r.1 ++ (r.2 ++ [',']) :: r'.1, r'.2)

theorem rowsText_tie (r r' : List Text × Text) (rs : List (List Text × Text)) :
    rowsText (tie r r' :: rs) = rowsText (r :: r' :: rs) := by
  simp [rowsText, join_cons, Text.commaSpace, tie, rowText]

theorem Row.tie {r r' : List Text × Text} (h : Row r.1 r.2) (h' : Row r'.1 r'.2)
    (hdangling : Scan.start.run r.2 = Scan.dangling) : Row (tie r r').1 (tie r r').2 := by
  have hlast := h.tokens r.2 (by simp)
  have htoken : Token (r.2 ++ [',']) := by
    refine ⟨by simp, ?_⟩
    rw [unbroken_append, hlast.whole, hdangling]
    decide
  have hclosed : balanced (r.2 ++ [',']) = true := by
    rw [balanced_iff, Scan.run_append, hdangling]
    decide
  constructor
  · intro c hc
    simp only [Selector.tie, List.append_assoc, List.cons_append, List.mem_append,
      List.mem_cons] at hc
    rcases hc with hinit | rfl | hrest
    · exact h.tokens c (by simp [hinit])
    · exact htoken
    · exact h'.tokens c (by simpa using hrest)
  · intro c hc
    simp only [Selector.tie, List.mem_append, List.mem_cons] at hc
    rcases hc with hinit | rfl | hrest
    · exact h.closed c hinit
    · exact hclosed
    · exact h'.closed c hrest

theorem infix_rowText {r : List Text × Text} {c : Text} (hc : c ∈ r.1 ++ [r.2]) :
    c <:+: rowText r := by
  rcases List.mem_append.mp hc with hinit | hlast
  · obtain ⟨xs, ys, hr⟩ := List.append_of_mem hinit
    exact ⟨lead xs, ' ' :: lead ys ++ r.2, by simp [rowText, hr]⟩
  · rw [List.mem_singleton.mp hlast]
    exact (List.suffix_append (lead r.1) r.2).isInfix

/-- A balanced row is tidy if no backslash in it stands in front of a blank. -/
theorem Row.tidy {r : List Text × Text} (h : Row r.1 r.2) (hbal : balanced r.2 = true)
    (hesc : escapesBlank (rowText r) = false) : Tidy (rowText r) := by
  refine ⟨r.1, r.2, ?_, rfl⟩
  intro c hc
  have hclosed : balanced c = true := by
    rcases List.mem_append.mp hc with hinit | hlast
    · exact h.closed c hinit
    · rw [List.mem_singleton.mp hlast]
      exact hbal
  exact (h.tokens c hc).compound hclosed (escapesBlank_mono (infix_rowText hc) hesc)

end StyleNesting.Selector
