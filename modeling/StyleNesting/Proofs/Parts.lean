/-
  StyleNesting/Proofs/Parts.lean
  ==============================
  **Selector lists survive joining and cutting.**  An *atom* is a text that can
  stand as one part of a selector list: non-empty, without blanks at its ends,
  balanced, and unbroken by commas.  The parts of a list of atoms, joined, are
  the atoms (`parts_join`), and the parts of a balanced text in which no
  backslash stands in front of a blank are atoms (`atom_of_mem_parts`).

  Trimming is where care is needed: a blank at the end of a piece may be escaped,
  and without it the backslash in front is left dangling (`run_trim`).
-/
import Mathlib.Data.List.TakeWhile
import StyleNesting.Proofs.Scan

namespace StyleNesting

/-! ### Trimming -/

namespace Text

/-- What is said of the characters of a text is decided by going over the text, and
    not over all characters there are. -/
instance decidableForallMem (p : Char → Prop) [DecidablePred p] (t : Text) :
    Decidable (∀ c ∈ t, p c) := List.decidableBAll p t

/-- Neither end of the text is a blank. -/
structure Trimmed (t : Text) : Prop where
  head : ∀ c, t.head? = some c → isBlank c = false
  last : ∀ c, t.getLast? = some c → isBlank c = false

theorem trimmed_iff {t : Text} :
    Trimmed t ↔ t.head?.all (!isBlank ·) = true ∧ t.getLast?.all (!isBlank ·) = true := by
  rw [Option.all_eq_true, Option.all_eq_true]
  simp only [Bool.not_eq_true']
  exact ⟨fun h => ⟨h.head, h.last⟩, fun h => ⟨h.1, h.2⟩⟩

instance : DecidablePred Trimmed := fun _ => decidable_of_iff _ trimmed_iff.symm

theorem trimEnd_cons_of_not_blank {c : Char} (h : isBlank c = false) (t : Text) :
    trimEnd (c :: t) = c :: trimEnd t := by
  rw [trimEnd]
  split <;> simp_all

theorem trimEnd_append_blanks (t : Text) :
    ∃ bs, t = trimEnd t ++ bs ∧ ∀ b ∈ bs, isBlank b = true := by
  induction t with
  | nil => exact ⟨[], rfl, by simp⟩
  | cons c t ih =>
    obtain ⟨bs, ht, hbs⟩ := ih
    rw [trimEnd]
    split
    · rename_i hnil
      rw [hnil, List.nil_append] at ht
      subst ht
      split
      · rename_i hc
        refine ⟨c :: t, rfl, ?_⟩
        intro b hb
        rcases List.mem_cons.mp hb with rfl | hmem
        · exact hc
        · exact hbs b hmem
      · exact ⟨t, rfl, hbs⟩
    · rename_i d u hcons
      refine ⟨bs, ?_, hbs⟩
      rw [hcons] at ht
      simp [ht]

theorem isBlank_getLast_trimEnd (t : Text) :
    ∀ c, (trimEnd t).getLast? = some c → isBlank c = false := by
  induction t with
  | nil => intro c h; cases h
  | cons d t ih =>
    rw [trimEnd]
    split
    · split
      · intro c h; cases h
      · rename_i hd
        intro c h
        cases h
        exact eq_false_of_ne_true hd
    · rename_i e u hcons
      intro c h
      rw [List.getLast?_cons_cons, ← hcons] at h
      exact ih c h

theorem trim_trimmed (t : Text) : Trimmed (trim t) := by
  refine ⟨?_, isBlank_getLast_trimEnd _⟩
  intro c h
  have hstart : ∀ d, (trimStart t).head? = some d → isBlank d = false := by
    intro d hd
    have := List.head?_dropWhile_not isBlank t
    rw [trimStart] at hd
    rw [hd] at this
    simpa using this
  unfold trim at h
  cases hu : trimStart t with
  | nil => rw [hu] at h; cases h
  | cons d u =>
    have hd : isBlank d = false := hstart d (by rw [hu]; rfl)
    rw [hu, trimEnd_cons_of_not_blank hd] at h
    cases h
    exact hd

theorem trimEnd_eq_self {t : Text} (h : ∀ c, t.getLast? = some c → isBlank c = false) :
    trimEnd t = t := by
  obtain ⟨bs, ht, hbs⟩ := trimEnd_append_blanks t
  rcases List.eq_nil_or_concat bs with rfl | ⟨as, b, rfl⟩
  · simpa using ht.symm
  · -- a blank cut off at the end would be the last character
    have hlast : t.getLast? = some b := by
      rw [ht, List.concat_eq_append, ← List.append_assoc, List.getLast?_concat]
    have hb : isBlank b = true := hbs b (by simp)
    rw [h b hlast] at hb
    cases hb

theorem trim_eq_self {t : Text} (h : Trimmed t) : trim t = t := by
  cases t with
  | nil => rfl
  | cons c t =>
    have hstart : trimStart (c :: t) = c :: t := by
      rw [trimStart, List.dropWhile_cons_of_neg (by simp [h.head c rfl])]
    rw [trim, hstart, trimEnd_eq_self h.last]

theorem trim_cons_blank {c : Char} (h : isBlank c = true) (t : Text) : trim (c :: t) = trim t := by
  rw [trim, trimStart, List.dropWhile_cons_of_pos h]
  rfl

theorem trim_between_blanks (t : Text) :
    ∃ as bs, t = as ++ (trim t ++ bs) ∧ (∀ a ∈ as, isBlank a = true) ∧
      ∀ b ∈ bs, isBlank b = true := by
  obtain ⟨bs, hend, hbs⟩ := trimEnd_append_blanks (trimStart t)
  refine ⟨t.takeWhile isBlank, bs, ?_, ?_, hbs⟩
  · have hsplit : t.takeWhile isBlank ++ trimStart t = t := List.takeWhile_append_dropWhile
    rw [trim, ← hend, hsplit]
  · intro a ha
    exact List.all_eq_true.mp List.all_takeWhile a ha

theorem infix_trim (t : Text) : trim t <:+: t := by
  obtain ⟨as, bs, hsplit, -, -⟩ := trim_between_blanks t
  refine ⟨as, bs, ?_⟩
  rw [List.append_assoc]
  exact hsplit.symm

theorem trimEnd_eq_nil {bs : Text} (h : ∀ b ∈ bs, isBlank b = true) : trimEnd bs = [] := by
  induction bs with
  | nil => rfl
  | cons b bs ih =>
    rw [trimEnd, ih fun c hc => h c (by simp [hc])]
    simp [h b (by simp)]

theorem trimEnd_append {bs : Text} (t : Text) (h : ∀ b ∈ bs, isBlank b = true) :
    trimEnd (t ++ bs) = trimEnd t := by
  induction t with
  | nil => exact trimEnd_eq_nil h
  | cons c t ih => rw [List.cons_append, trimEnd, trimEnd, ih]

/-- A trimmed text is found again between blanks. -/
theorem trim_append {as bs t : Text} (has : ∀ a ∈ as, isBlank a = true)
    (hbs : ∀ b ∈ bs, isBlank b = true) (ht : Trimmed t) : trim (as ++ (t ++ bs)) = t := by
  rw [trim, trimStart, List.dropWhile_append_of_pos has]
  cases t with
  | nil =>
    rw [List.nil_append, List.dropWhile_eq_nil_iff.mpr hbs]
    rfl
  | cons c t =>
    have hc : ¬ isBlank c = true := by simp [ht.head c rfl]
    have htrim := trim_eq_self ht
    rw [trim, trimStart, List.dropWhile_cons_of_neg hc] at htrim
    rw [List.cons_append, List.dropWhile_cons_of_neg hc, ← List.cons_append, trimEnd_append _ hbs,
      htrim]

end Text

namespace Selector

/-! ### Backslashes in front of blanks -/

/-- Whether some backslash stands right in front of a blank. -/
def escapesBlank : Text → Bool
  | [] => false
  | c :: t => (c == '\\' && t.head?.any Text.isBlank) || escapesBlank t

theorem escapesBlank_iff {t : Text} :
    escapesBlank t = true ↔ ∃ b, Text.isBlank b = true ∧ ['\\', b] <:+: t := by
  induction t with
  | nil => simp [escapesBlank]
  | cons c t ih =>
    simp only [escapesBlank, Bool.or_eq_true, Bool.and_eq_true, beq_iff_eq, ih,
      List.infix_cons_iff]
    constructor
    · rintro (⟨rfl, hb⟩ | ⟨b, hb, hin⟩)
      · cases t with
        | nil => cases hb
        | cons b t => exact ⟨b, hb, Or.inl ⟨t, rfl⟩⟩
      · exact ⟨b, hb, Or.inr hin⟩
    · rintro ⟨b, hb, ⟨u, hu⟩ | hin⟩
      · cases hu
        exact Or.inl ⟨rfl, hb⟩
      · exact Or.inr ⟨b, hb, hin⟩

theorem escapesBlank_mono {t u : Text} (h : u <:+: t) (ht : escapesBlank t = false) :
    escapesBlank u = false := by
  cases hu : escapesBlank u with
  | false => rfl
  | true =>
    obtain ⟨b, hb, hin⟩ := escapesBlank_iff.mp hu
    rw [escapesBlank_iff.mpr ⟨b, hb, hin.trans h⟩] at ht
    cases ht

/-! ### The scan across blanks -/

theorem Scan.Proper.run_blanks {s : Scan} (hs : s.Proper) (hesc : s.escaped = false) {bs : Text}
    (h : ∀ b ∈ bs, Text.isBlank b = true) : s.run bs = s := by
  induction bs with
  | nil => rfl
  | cons b bs ih =>
    have hstep : s.step b = s := by
      rw [hs.step_plain (isPlain_of_isBlank (h b (by simp))), ← hesc]
    rw [Scan.run_cons, hstep]
    exact ih fun c hc => h c (by simp [hc])

theorem run_blanks_start {bs : Text} (h : ∀ b ∈ bs, Text.isBlank b = true) :
    Scan.start.run bs = Scan.start := Scan.Proper.start.run_blanks rfl h

/-- The scan after a backslash that nothing follows. -/
def Scan.dangling : Scan := ⟨true, none, []⟩

/-- Blanks bring the scan back to the start only from there or from a dangling backslash. -/
theorem Scan.Proper.eq_of_run_blanks {s : Scan} (hs : s.Proper) {bs : Text}
    (h : ∀ b ∈ bs, Text.isBlank b = true) (hrun : s.run bs = Scan.start) :
    s = Scan.start ∨ (s = Scan.dangling ∧ bs ≠ []) := by
  cases bs with
  | nil => exact Or.inl hrun
  | cons b bs =>
    have hproper : ({ s with escaped := false } : Scan).Proper := ⟨hs.quote, hs.closers⟩
    rw [Scan.run_cons, hs.step_plain (isPlain_of_isBlank (h b (by simp))),
      hproper.run_blanks rfl fun c hc => h c (by simp [hc])] at hrun
    obtain ⟨escaped, quote, closers⟩ := s
    cases hrun
    cases escaped with
    | false => exact Or.inl rfl
    | true => exact Or.inr ⟨rfl, by simp⟩

theorem eq_append_backslash_of_escaped {t : Text} (h : (Scan.start.run t).escaped = true) :
    ∃ u, t = u ++ ['\\'] := by
  rcases List.eq_nil_or_concat t with rfl | ⟨u, c, rfl⟩
  · cases h
  · rw [List.concat_eq_append, Scan.run_append] at h
    exact ⟨u, by rw [List.concat_eq_append, Scan.eq_backslash_of_escaped h]⟩

theorem eq_append_backslash_of_dangling {t : Text} (h : Scan.start.run t = Scan.dangling) :
    ∃ u, t = u ++ ['\\'] := eq_append_backslash_of_escaped (congrArg Scan.escaped h)

/-- **Trimming a balanced text** leaves it balanced, or leaves a backslash over
    that stood in front of a blank. -/
theorem run_trim {t : Text} (ht : balanced t = true) :
    balanced (Text.trim t) = true ∨
      (Scan.start.run (Text.trim t) = Scan.dangling ∧ escapesBlank t = true) := by
  obtain ⟨as, bs, hsplit, has, hbs⟩ := Text.trim_between_blanks t
  have hrun : (Scan.start.run (Text.trim t)).run bs = Scan.start := by
    have h := balanced_iff.mp ht
    rw [hsplit, Scan.run_append, run_blanks_start has, Scan.run_append] at h
    exact h
  have hproper := Scan.Proper.start.run (Text.trim t)
  rcases hproper.eq_of_run_blanks hbs hrun with hstart | ⟨hdangling, hne⟩
  · exact Or.inl (balanced_iff.mpr hstart)
  · refine Or.inr ⟨hdangling, ?_⟩
    obtain ⟨u, hu⟩ := eq_append_backslash_of_dangling hdangling
    cases bs with
    | nil => exact absurd rfl hne
    | cons b bs =>
      refine escapesBlank_iff.mpr ⟨b, hbs b (by simp), as ++ u, bs, ?_⟩
      rw [hsplit, hu]
      simp

theorem unbroken_trim {isSep : Char → Bool} {t : Text}
    (ht : unbroken isSep Scan.start t = true) :
    unbroken isSep Scan.start (Text.trim t) = true := by
  obtain ⟨as, bs, hsplit, has, -⟩ := Text.trim_between_blanks t
  rw [hsplit, unbroken_append, run_blanks_start has, unbroken_append, Bool.and_eq_true,
    Bool.and_eq_true] at ht
  exact ht.2.1

/-! ### Atoms -/

def isComma (c : Char) : Bool := c == ','

theorem isPlain_of_isComma {c : Char} (h : isComma c = true) : isPlain c = true := by
  have hc : c = ',' := by simpa [isComma] using h
  subst hc
  decide

/-- A text that can stand as one part of a selector list. -/
structure Atom (p : Text) : Prop where
  nonempty : p ≠ []
  trimmed : Text.Trimmed p
  whole : unbroken isComma Scan.start p = true
  closed : balanced p = true

theorem atom_iff {p : Text} : Atom p ↔
    p ≠ [] ∧ Text.Trimmed p ∧ unbroken isComma Scan.start p = true ∧ balanced p = true :=
  ⟨fun h => ⟨h.nonempty, h.trimmed, h.whole, h.closed⟩, fun ⟨hne, ht, hw, hc⟩ => ⟨hne, ht, hw, hc⟩⟩

instance : DecidablePred Atom := fun _ => decidable_of_iff _ atom_iff.symm

/-- The part that one piece of a selector list gives, if any. -/
def partOf (piece : Text) : List Text := [Text.trim piece].filter (!·.isEmpty)

theorem parts_of_unbroken {t : Text} (h : unbroken isComma Scan.start t = true) :
    parts t = partOf t := by
  have hcut : cut (· == ',') Scan.start t = [t] := cut_of_unbroken h
  simp [parts, partOf, hcut]

theorem parts_append_comma {a b : Text} (ha : unbroken isComma Scan.start a = true)
    (hbal : balanced a = true) : parts (a ++ ',' :: b) = partOf a ++ parts b := by
  have hcut : cut (· == ',') Scan.start (a ++ ',' :: b) = a :: cut (· == ',') Scan.start b :=
    cut_append_sep ha (balanced_iff.mp hbal) rfl
  rw [parts, hcut, List.map_cons, partOf, parts, ← List.singleton_append, List.filter_append]

theorem mem_parts {t p : Text} :
    p ∈ parts t ↔ ∃ piece ∈ cut isComma Scan.start t, p = Text.trim piece ∧ p ≠ [] := by
  have hcut : parts t = ((cut isComma Scan.start t).map Text.trim).filter (!·.isEmpty) := rfl
  rw [hcut, List.mem_filter, List.mem_map]
  constructor
  · rintro ⟨⟨piece, hpiece, rfl⟩, hne⟩
    exact ⟨piece, hpiece, rfl, by simpa using hne⟩
  · rintro ⟨piece, hpiece, rfl, hne⟩
    exact ⟨⟨piece, hpiece, rfl⟩, by simpa using hne⟩

/-- A text that is one part of a list that it ends. -/
structure Piece (p : Text) : Prop where
  nonempty : p ≠ []
  trimmed : Text.Trimmed p
  whole : unbroken isComma Scan.start p = true

theorem piece_of_mem_parts {t p : Text} (hp : p ∈ parts t) : Piece p := by
  obtain ⟨piece, hpiece, rfl, hne⟩ := mem_parts.mp hp
  exact ⟨hne, Text.trim_trimmed piece, unbroken_trim (unbroken_of_mem_cut hpiece)⟩

theorem infix_of_mem_parts {t p : Text} (hp : p ∈ parts t) : p <:+: t := by
  obtain ⟨piece, hpiece, rfl, -⟩ := mem_parts.mp hp
  exact (Text.infix_trim piece).trans (infix_of_mem_cut hpiece)

theorem Atom.piece {p : Text} (hp : Atom p) : Piece p := ⟨hp.nonempty, hp.trimmed, hp.whole⟩

theorem Piece.partOf {p : Text} (hp : Piece p) : partOf p = [p] := by
  have hne : p.isEmpty = false := List.isEmpty_eq_false_iff.mpr hp.nonempty
  simp [Selector.partOf, Text.trim_eq_self hp.trimmed, hne]

theorem Piece.parts {p : Text} (hp : Piece p) : parts p = [p] := by
  rw [parts_of_unbroken hp.whole, hp.partOf]

theorem Atom.parts {p : Text} (hp : Atom p) : parts p = [p] := hp.piece.parts

theorem unbroken_blank_cons {isSep : Char → Bool} {b : Char} (hb : Text.isBlank b = true)
    (hsep : isSep b = false) {t : Text} :
    unbroken isSep Scan.start (b :: t) = unbroken isSep Scan.start t := by
  simp [unbroken, hsep, Scan.step_start_plain (isPlain_of_isBlank hb)]

theorem parts_blank_cons {b : Char} (hb : Text.isBlank b = true) (t : Text) :
    parts (b :: t) = parts t := by
  have hcomma : isComma b = false := by
    cases h : isComma b with
    | false => rfl
    | true =>
      have : b = ',' := by simpa [isComma] using h
      subst this
      exact absurd hb (by decide)
  rcases unbroken_or_sep isComma Scan.start t with h | ⟨a, c, u, rfl, ha, hrun, hc⟩
  · have h' : unbroken isComma Scan.start (b :: t) = true := by
      rw [unbroken_blank_cons hb hcomma]
      exact h
    rw [parts_of_unbroken h, parts_of_unbroken h', partOf, partOf, Text.trim_cons_blank hb]
  · have hc' : c = ',' := by simpa [isComma] using hc
    subst hc'
    have ha' : unbroken isComma Scan.start (b :: a) = true := by
      rw [unbroken_blank_cons hb hcomma]
      exact ha
    have hbal' : balanced (b :: a) = true := by
      rw [balanced_iff, Scan.run_cons, Scan.step_start_plain (isPlain_of_isBlank hb)]
      exact hrun
    rw [parts_append_comma ha (balanced_iff.mpr hrun), ← List.cons_append,
      parts_append_comma ha' hbal', partOf, partOf, Text.trim_cons_blank hb]

/-- Joined pieces are cut into the pieces again, if only the last one may leave something open. -/
theorem parts_join_pieces {ps : List Text} (h : ∀ p ∈ ps, Piece p)
    (hclosed : ∀ p ∈ ps.dropLast, balanced p = true) :
    parts (Text.join Text.commaSpace ps) = ps := by
  induction ps with
  | nil => rfl
  | cons p ps ih =>
    have hp : Piece p := h p (by simp)
    cases ps with
    | nil => exact hp.parts
    | cons q ps =>
      rw [List.dropLast_cons_cons, List.forall_mem_cons] at hclosed
      have ih := ih (fun r hr => h r (List.mem_cons_of_mem p hr)) hclosed.2
      have hjoin : Text.join Text.commaSpace (p :: q :: ps) =
          p ++ ',' :: ' ' :: Text.join Text.commaSpace (q :: ps) := by
        simp [Text.join, Text.commaSpace]
      rw [hjoin, parts_append_comma hp.whole hclosed.1, hp.partOf, parts_blank_cons (by decide), ih]
      rfl

/-- **Joined atoms are cut into the atoms again.** -/
theorem parts_join {ps : List Text} (h : ∀ p ∈ ps, Atom p) :
    parts (Text.join Text.commaSpace ps) = ps := by
  apply parts_join_pieces
  · intro p hp
    exact (h p hp).piece
  · intro p hp
    exact (h p (List.mem_of_mem_dropLast hp)).closed

/-- **The parts of a balanced text are atoms** if no backslash in it stands in
    front of a blank. -/
theorem atom_of_mem_parts {t p : Text} (hbal : balanced t = true) (hesc : escapesBlank t = false)
    (hp : p ∈ parts t) : Atom p := by
  obtain ⟨hne, htrimmed, hwhole⟩ := piece_of_mem_parts hp
  refine ⟨hne, htrimmed, hwhole, ?_⟩
  obtain ⟨piece, hpiece, rfl, -⟩ := mem_parts.mp hp
  rcases run_trim (balanced_of_mem_cut (fun c => isPlain_of_isComma) hbal hpiece) with h | ⟨-, h⟩
  · exact h
  · rw [escapesBlank_mono (infix_of_mem_cut hpiece) hesc] at h
    cases h

/-! ### Distinct parts in order -/

theorem mem_insertBy {α : Type} (below : α → α → Bool) {x y : α} {ys : List α} :
    x ∈ Text.insertBy below y ys ↔ x = y ∨ x ∈ ys := by
  induction ys with
  | nil => simp [Text.insertBy]
  | cons z zs ih =>
    unfold Text.insertBy
    split
    · simp
    · simp only [List.mem_cons, ih]
      tauto

theorem mem_sortBy {α : Type} (below : α → α → Bool) {x : α} {xs : List α} :
    x ∈ Text.sortBy below xs ↔ x ∈ xs := by
  induction xs with
  | nil => rfl
  | cons y ys ih => rw [Text.sortBy, mem_insertBy, ih, List.mem_cons]

theorem mem_distinct {p : Text} {ps : List Text} : p ∈ distinct ps ↔ p ∈ ps :=
  List.mem_eraseDups

/-- The parts of a joint selector list are the parts that went into it. -/
theorem mem_parts_joined {ps : List Text} (h : ∀ p ∈ ps, Atom p) {p : Text} :
    p ∈ parts (joined ps) ↔ p ∈ ps := by
  have hatoms : ∀ q ∈ Text.sortBy Text.le (distinct ps), Atom q := by
    intro q hq
    exact h q (mem_distinct.mp ((mem_sortBy Text.le).mp hq))
  rw [joined, parts_join hatoms, mem_sortBy, mem_distinct]

end Selector

end StyleNesting
