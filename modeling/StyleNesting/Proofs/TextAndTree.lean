/-
  StyleNesting/Proofs/TextAndTree.lean
  ====================================
  **The compacted text is the compacted tree.**  Reading what a run printed gives
  the tree that the run left, but for places (`parse_compacted`).

  A *wholesome* part is tidy and plain, and has no at sign outside of strings.
  Taking it apart, or putting an ampersand for its start, gives wholesome parts
  again, so they are the parts of an idiom that no pass leaves.  All that is said
  in this idiom is legible and opens no comment when it is printed.
-/
import StyleNesting.Compact
import StyleNesting.Proofs.Conservation
import StyleNesting.Proofs.Idiom
import StyleNesting.Proofs.PlainText
import StyleNesting.Proofs.RoundTrip

namespace StyleNesting

open Node Selector Source

/-! ### Wholesome parts -/

structure Wholesome (p : Text) : Prop where
  tidy : Tidy p
  plain : Plain p
  ats : onlyQuoted ['@'] Scan.start p = true

theorem Wholesome.split {p parent child : Text} (hp : Wholesome p)
    (h : splitDescendant? p = some (parent, child)) : Wholesome parent ∧ Wholesome child := by
  obtain ⟨rfl, hparent, hchild⟩ := splitDescendant?_eq_some hp.tidy h
  have hrun : Scan.start.run parent = Scan.start := balanced_iff.mp hparent.atom.closed
  have houtside := outside_of_balanced hparent.atom.closed
  have hspace : (Scan.start.run [' ']).Outside := outside_singleton (by decide) (by decide)
  obtain ⟨hatsParent, hatsRest⟩ := onlyQuoted_of_append hp.ats
  rw [hrun] at hatsRest
  have hatsChild := (onlyQuoted_of_append (t := [' ']) hatsRest).2
  have hrest : Plain ([' '] ++ child) := hp.plain.right houtside
  exact ⟨⟨hparent, hp.plain.left houtside, hatsParent⟩, ⟨hchild.tidy, hrest.right hspace, hatsChild⟩⟩

theorem Wholesome.relative {base u : Text} (hbase : Wholesome base) (h : Wholesome (base ++ u)) :
    Wholesome ('&' :: u) := by
  have hclosed := hbase.tidy.atom.closed
  have hats := (onlyQuoted_of_append h.ats).2
  rw [balanced_iff.mp hclosed] at hats
  refine ⟨Tidy.relative hbase.tidy h.tidy, ?_, ?_⟩
  · exact (h.plain.right (outside_of_balanced hclosed)).cons (by decide) (by decide) (by decide)
  · exact onlyQuoted_plain_cons (by decide) (by decide) (by decide) hats

/-- Words that are legible and open no comment. -/
def wholesomeIdiom : Idiom where
  part := Wholesome
  other h := h.Legible ∧ Watch.gauge.read .plain h.text = .plain
  content d := d.Legible ∧ Watch.gauge.read .plain d.spelling = .plain

theorem closed_wholesomeIdiom : wholesomeIdiom.Closed where
  atom hp := hp.tidy.atom
  split hp h := hp.split h
  relative hbase _ h := hbase.relative h

/-! ### Wholesome selectors -/

theorem exists_finished_of_wholesome {ps : List Text} (h : ∀ p ∈ ps, Wholesome p) :
    ∃ rs, Finished rs ∧ rs.map rowText = ps := by
  induction ps with
  | nil => exact ⟨[], trivial, rfl⟩
  | cons p ps ih =>
    obtain ⟨rs, hrs, hmap⟩ := ih fun q hq => h q (by simp [hq])
    obtain ⟨init, last, hcs, hp⟩ := (h p (by simp)).tidy
    have hlast := hcs last (by simp)
    have hended : Ended (init, last) := ⟨row_of_compounds hcs, hlast.last⟩
    exact ⟨(init, last) :: rs, ⟨hended, fun _ => hlast.closed, hrs⟩, by simp [hmap, hp, rowText]⟩

theorem Wholesome.head_ne_at {p : Text} (hp : Wholesome p) : p.head? ≠ some '@' := by
  intro hat
  obtain ⟨t, rfl⟩ := List.head?_eq_some_iff.mp hat
  have hats := hp.ats
  rw [onlyQuoted, Bool.and_eq_true] at hats
  exact absurd hats.1 (by simp [Scan.start])

theorem legible_of_lists {s : Text} (h : wholesomeIdiom.Lists s) : (Header.rule s).Legible := by
  obtain ⟨ps, hne, hps, rfl⟩ := h
  obtain ⟨rs, hrs, hmap⟩ := exists_finished_of_wholesome hps
  have htext : Text.join Text.commaSpace ps = rowsText rs := by rw [rowsText, hmap]
  have hrun : Run (Text.join Text.commaSpace ps) :=
    Run.join (Run.of_items (by decide)) fun p hp => (hps p hp).plain.run
  refine ⟨⟨Passes.append hrun (Run.singleton (by decide)), by simp, fun c hc => ?_⟩, ?_⟩
  · -- the list starts as its first part does
    obtain ⟨p, qs, rfl⟩ := List.exists_cons_of_ne_nil hne
    have hp := hps p (by simp)
    have hhead := Text.head?_join Text.commaSpace hp.tidy.atom.nonempty qs
    have hjoined : Text.join Text.commaSpace (p :: qs) ≠ [] := by
      intro hnil
      rw [hnil] at hhead
      exact hp.tidy.atom.nonempty (List.head?_eq_none_iff.mp hhead.symm)
    rw [List.head?_append_of_ne_nil _ hjoined, hhead] at hc
    exact ⟨fun hat => hp.head_ne_at (hat ▸ hc), hp.tidy.atom.trimmed.head c hc⟩
  · rw [htext]
    exact normalize_rowsText hrs (by decide)

theorem calm_of_lists {s : Text} (h : wholesomeIdiom.Lists s) :
    Watch.gauge.read .plain s = .plain := by
  obtain ⟨ps, -, hps, rfl⟩ := h
  rw [Watch.gauge.read_join (by decide) (by decide)]
  change ps.foldl Watch.gauge.read .plain = .plain
  induction ps with
  | nil => rfl
  | cons p ps ih =>
    rw [List.foldl_cons, (hps p (by simp)).plain.calm]
    exact ih fun q hq => hps q (by simp [hq])

theorem legible_of_header {h : Header} (hh : wholesomeIdiom.header h) :
    h.Legible ∧ Watch.gauge.read .plain h.text = .plain := by
  cases h with
  | rule s => exact ⟨legible_of_lists hh, calm_of_lists hh⟩
  | atRule name params hasBlock => exact hh
  | sheet => exact hh
  | group => exact hh

/-! ### Printing opens no comment -/

section Printing

variable {indent : Text} (hindent : ∀ c ∈ indent, isSpacing c = true)

theorem calm_linesAll {ns : List Node} (d : Nat)
    (h : ∀ n ∈ ns, Watch.gauge.read .plain (unlines (lines indent d n)) = .plain) :
    Watch.gauge.read .plain (unlines (linesAll indent d ns)) = .plain := by
  induction ns with
  | nil => rfl
  | cons n ns ih =>
    rw [linesAll, Watch.gauge.read_unlines_append, h n (by simp)]
    exact ih fun m hm => h m (by simp [hm])

include hindent

theorem calm_lines {inside : Bool} {n : Node} (h : wholesomeIdiom.Builds inside n) (d : Nat) :
    Watch.gauge.read .plain (unlines (lines indent d n)) = .plain := by
  induction h generalizing d with
  | declaration ho hd => rw [Watch.gauge.read_declaration hindent, hd.2]
  | @block inside o header ns ho hh hempty _ ih =>
    have hbrace : ∀ c ∈ ['{', '}'], Watch.gauge.read .plain [c] = .plain := by decide
    cases hstatement : header.isStatement with
    | true => rw [Watch.gauge.read_statement hindent hstatement, (legible_of_header hh).2]
    | false =>
      rw [Watch.gauge.read_block hindent hstatement, (legible_of_header hh).2, hbrace '{' (by simp),
        calm_linesAll (d + 1) fun n hn => ih n hn (d + 1), hbrace '}' (by simp)]

end Printing

/-! ### What was read is wholesome -/

theorem plain_of_append {u t : Text} (hu : Run u) (hesc : plainEscapes (u ++ t) = true)
    (hcomments : onlyQuoted commentMark Scan.start (u ++ t) = true) : Plain u := by
  have halong : Scan.start.along takesPlain (u ++ t) = true :=
    along_of_plainEscapes hesc fun hstart => by cases hstart
  rw [Scan.along_append, Bool.and_eq_true] at halong
  exact ⟨hu, halong.1, (onlyQuoted_of_append hcomments).1⟩

/-- In a balanced list of finished rows, every row is balanced, and has no at sign
    that the list does not have. -/
theorem rows_of_balanced {rs : List (List Text × Text)} (hrs : Finished rs)
    (hbal : balanced (rowsText rs) = true)
    (hats : onlyQuoted ['@'] Scan.start (rowsText rs) = true) :
    ∀ r ∈ rs, balanced r.2 = true ∧ onlyQuoted ['@'] Scan.start (rowText r) = true := by
  induction rs with
  | nil => simp
  | cons r rs ih =>
    obtain ⟨hended, hclosed, hrest⟩ := hrs
    cases rs with
    | nil =>
      have hlast : balanced r.2 = true := hended.balanced_rowText.symm.trans hbal
      intro r' hr'
      rw [List.mem_singleton.mp hr']
      exact ⟨hlast, hats⟩
    | cons r' rs =>
      have hlast := hclosed (by simp)
      have hfirst : balanced (rowText r) = true := hended.balanced_rowText.trans hlast
      -- row and separator leave the scan at its start: the rest is a list of its own
      have hstep : ∀ c ∈ [',', ' '], Scan.start.step c = Scan.start := by decide
      rw [rowsText_cons_cons] at hbal hats
      obtain ⟨hatsFirst, hatsRest⟩ := onlyQuoted_of_append hats
      rw [balanced_append hfirst, balanced_iff, Scan.run_cons, hstep ',' (by simp), Scan.run_cons,
        hstep ' ' (by simp)] at hbal
      rw [balanced_iff.mp hfirst] at hatsRest
      have hatsLater := (onlyQuoted_of_append (t := [',', ' ']) hatsRest).2
      intro k hk
      rcases List.mem_cons.mp hk with rfl | hk
      · exact ⟨hlast, hatsFirst⟩
      · exact ih hrest (balanced_iff.mpr hbal) hatsLater k hk

/-- The parts of a normal form are wholesome. -/
theorem lists_normalize {u : Text} (hu : Plain u) (hesc : escapesBlank u = false)
    (hne : normalize u ≠ []) (hbal : balanced (normalize u) = true)
    (hats : onlyQuoted ['@'] Scan.start (normalize u) = true) :
    wholesomeIdiom.Lists (normalize u) := by
  obtain ⟨rs, hrs, hrows⟩ := exists_finished hesc
  have hnormal := normalize_eq_rowsText hrows
  rw [hnormal] at hne hbal hats ⊢
  refine ⟨rs.map rowText, ?_, fun p hp => ?_, rfl⟩
  · intro hnil
    rw [List.map_eq_nil_iff.mp hnil] at hne
    exact hne rfl
  · obtain ⟨r, hr, rfl⟩ := List.mem_map.mp hp
    obtain ⟨hlast, hrowAts⟩ := rows_of_balanced hrs hbal hats r hr
    have hrow := (hrs.ended r hr).row
    -- the tokens of the row are compounds of the given text
    have htokens : ∀ c ∈ r.1 ++ [r.2], Plain c ∧ escapesBlank c = false := by
      have hmem : r.1 ++ [r.2] ∈ (parts u).map compounds := by
        rw [hrows]
        exact List.mem_map_of_mem hr
      obtain ⟨q, hq, hcs⟩ := List.mem_map.mp hmem
      intro c hc
      exact plain_of_mem_compounds hu hesc hq (hcs ▸ hc)
    have hclosed : ∀ c ∈ r.1 ++ [r.2], balanced c = true := by
      intro c hc
      rcases List.mem_append.mp hc with hinit | hend
      · exact hrow.closed c hinit
      · rw [List.mem_singleton.mp hend]
        exact hlast
    refine ⟨⟨r.1, r.2, fun c hc => ?_, rfl⟩, plain_row hrow fun c hc => (htokens c hc).1, hrowAts⟩
    exact (hrow.tokens c hc).compound (hclosed c hc) (htokens c hc).2

theorem calm_atRule {name prelude : Text} (h : AtHead name prelude) (hplain : Plain prelude)
    (hasBlock : Bool) : Watch.gauge.read .plain
      (Header.atRule name (Text.trim prelude) hasBlock).text = .plain := by
  have hinert : ∀ c ∈ '@' :: name, isInert c = true := by
    intro c hc
    rcases List.mem_cons.mp hc with rfl | hc
    · decide
    · exact isInert_of_isAtChar (h.name c hc)
  have hseam : Gauge.Seam ('@' :: name) prelude :=
    Or.inl fun c hc => hinert c (List.mem_of_getLast? hc)
  rw [Watch.gauge.read_header h, ← List.cons_append, Watch.gauge.read_append hseam,
    Watch.read_inert hinert]
  exact hplain.calm

/-- A selector that is not empty, closes all it opens, and has at signs in strings
    only. -/
def Selector.isContained (s : Text) : Bool :=
  !s.isEmpty && balanced s && onlyQuoted ['@'] Scan.start s

theorem carries_wholesome : Carries
    (fun t => plainEscapes t = true ∧ onlyQuoted commentMark Scan.start t = true)
    (fun s => isContained s = true) wholesomeIdiom.header wholesomeIdiom.content where
  rest u t hu h := by
    refine ⟨plainEscapes_of_append h.1, ?_⟩
    rw [← onlyQuoted_congr (hu.alike Scan.Outside.start)]
    exact (onlyQuoted_of_append h.2).2
  rule u t hu h hgood := by
    simp only [isContained, Bool.and_eq_true, Bool.not_eq_true', List.isEmpty_eq_false_iff] at hgood
    exact lists_normalize (plain_of_append hu.run h.1 h.2) (escapesBlank_of_plainEscapes h.1)
      hgood.1.1 hgood.1.2 hgood.2
  atRule name prelude t b hhead h :=
    ⟨legible_atRule hhead (escapesBlank_of_plainEscapes h.1) b,
      calm_atRule hhead (plain_of_append hhead.run h.1 h.2) b⟩
  declaration u t hu h := by
    refine ⟨declarationOf_spelling hu (escapesBlank_of_plainEscapes h.1), ?_⟩
    rw [Watch.gauge.read_spelling hu fun _ => Watch.readsWordOf u]
    exact (plain_of_append hu.run h.1 h.2).calm

/-! ### Text and tree -/

/-- **Text and tree agree after a run**, whatever its options.  Every backslash of the
    source stands before a character that is neither a blank nor a quote, and no
    comment is opened outside of strings; every selector is contained.  Then the run
    comes to its end, its text is what is printed for the tree it leaves, and this
    text is read as that tree, but for places. -/
theorem parse_compacted {t : Text} {root : Node} (h : parse t = .ok root)
    (hesc : plainEscapes (blankComments t) = true)
    (hcomments : onlyQuoted commentMark Scan.start (blankComments t) = true)
    (hselectors : ∀ m ∈ root.walk, ∀ s, m.selector? = some s → isContained s = true)
    {indent : Text} (hindent : ∀ c ∈ indent, c = ' ') (options : Options) :
    (nest options Factory.clone root).2.failure = none ∧
      (∀ settings, Options.ofTable settings = .ok options →
        compact settings indent t =
          .ok ((nest options Factory.clone root).1.print indent)) ∧
      ∃ root', parse ((nest options Factory.clone root).1.print indent) = .ok root' ∧
        root'.unplaced = (nest options Factory.clone root).1.unplaced := by
  have hfailure := failure_nest Factory.clone_obliging options root
  refine ⟨hfailure, fun settings hsettings => ?_, ?_⟩
  · simp only [compact, h, hsettings, hfailure]
  · obtain ⟨ns, rfl, hreads⟩ : ∃ ns, root = .block {} .sheet ns ∧
        Derives false (blankComments t) ns [] := reads_of_read h fun _ _ => trivial
    -- what was read is in the idiom, and the run does not leave it
    have hbuilt := (hreads.built carries_wholesome ⟨hesc, hcomments⟩ hselectors).1
    obtain ⟨ns', heq, hns'⟩ := Idiom.builds_nest closed_wholesomeIdiom Factory.clone options hbuilt
    have hlegible : ∀ n ∈ ns', n.Built Header.Legible Declaration.Legible false := fun n hn =>
      (hns' n hn).mono (fun _ hh => (legible_of_header hh).1) fun _ hd => hd.1
    have hcalm : Watch.gauge.read .plain (Node.print indent (.block {} .sheet ns')) = .plain :=
      calm_linesAll 0 fun n hn => calm_lines (spacing_of_spaces hindent) (hns' n hn) 0
    rw [heq]
    exact parse_print hlegible hindent (blankComments_of_calm hcalm)

/-- The sheet `@i "/*";a b , c{d:e}c:hover{d:e!IMPORTANT}@m (x){f g{h:"@"}}`. -/
def nestableSheet : Text :=
  ['@', 'i', ' ', '"', '/', '*', '"', ';', 'a', ' ', 'b', ' ', ',', ' ', 'c', '{', 'd', ':', 'e', '}',
   'c', ':', 'h', 'o', 'v', 'e', 'r', '{', 'd', ':', 'e', '!', 'I', 'M', 'P', 'O', 'R', 'T', 'A', 'N',
   'T', '}', '@', 'm', ' ', '(', 'x', ')', '{', 'f', ' ', 'g', '{', 'h', ':', '"', '@', '"', '}', '}']

theorem parse_compacted_nestableSheet :
    ∃ root root', parse nestableSheet = .ok root ∧
      compact [] [' ', ' '] nestableSheet =
        .ok ((nest {} Factory.clone root).1.print [' ', ' ']) ∧
      parse ((nest {} Factory.clone root).1.print [' ', ' ']) = .ok root' ∧
      root'.unplaced = (nest {} Factory.clone root).1.unplaced := by
  have hsheet : ∃ root, parse nestableSheet = .ok root ∧
      root.walk.all (fun m => m.selector?.all isContained) = true := ⟨_, rfl, by decide +kernel⟩
  obtain ⟨root, hparse, hwalk⟩ := hsheet
  have hselectors : ∀ m ∈ root.walk, ∀ s, m.selector? = some s → isContained s = true := by
    intro m hm s hs
    have hall := List.all_eq_true.mp hwalk m hm
    rwa [hs] at hall
  obtain ⟨-, hcompact, root', hread⟩ := parse_compacted hparse (by decide +kernel)
    (by decide +kernel) hselectors (by decide : ∀ c ∈ [' ', ' '], c = ' ') {}
  exact ⟨root, root', hparse, hcompact [] rfl, hread⟩

end StyleNesting
