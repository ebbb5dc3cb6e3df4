/-
  StyleNesting/Proofs/RoundTrip.lean
  ==================================
  **Formatting is stable.**  A stylesheet that was read is read again from its
  printed form, node for node, so printing it once more changes nothing
  (`parse_print_of_parse`).

  The tree is legible, so what is left to show is that the printed form has no
  comments.  It starts and ends strings where the source does, for the automaton
  that follows strings and comments does not see formatting; and no comment is
  left in the source once they are blanked.  A mark that opens a comment which
  nothing closes may well be left in it.
-/
import StyleNesting.Proofs.Comments
import StyleNesting.Proofs.Legible

namespace StyleNesting.Source

open StyleNesting Selector

/-! ### Texts without comments -/

theorem Watch.read_inert {t : Text} (h : ∀ c ∈ t, isInert c = true) (w : Watch) :
    Watch.gauge.read w t = w.settle := by
  induction t generalizing w with
  | nil => exact Watch.gauge.read_nil w
  | cons c t ih =>
    have hc : isInert c = true := h c (by simp)
    have hstep : Watch.gauge.read w [c] = w.settle := by
      change ((w.settle).step c).settle = w.settle
      rw [Watch.step_inert hc, Watch.settle_settle, Watch.settle_settle]
    rw [Watch.gauge.read_cons hc, hstep, ih fun d hd => h d (by simp [hd]), Watch.settle_settle]

theorem Spells.inert {w : Text} (h : Spells importantWord w) : ∀ c ∈ w, isInert c = true := by
  have hstrange : ∀ c ∈ ['/', '*', '"', '\'', '\\'], ∀ l ∈ importantWord, standsFor l c = false := by
    decide
  have havoids : ∀ c ∈ ['/', '*', '"', '\'', '\\'], decide (c ∈ w) = false :=
    fun c hc => decide_eq_false (h.not_mem (hstrange c hc))
  exact fun c hc => isInert_of_avoids havoids (decide_eq_true hc)

/-- However the word of a mark is spelled, the automaton does not notice. -/
theorem Watch.readsWordOf (u : Text) : Watch.gauge.ReadsWordOf u := by
  intro x w bs _ hw _ s
  rw [Watch.read_inert hw.inert, Watch.read_inert (by decide)]

/-- The statements of a text leave the scan where they found it. -/
theorem Reads.outside {ok : Text → Prop} {inside : Bool} {t : Text} {ns : List Node}
    (h : Reads ok inside t ns []) : (Scan.start.run t).Outside := by
  have hcarries : Carries (fun u => (Scan.start.run u).Alike (Scan.start.run t)) (fun _ => True)
      (fun _ => True) (fun _ => True) := by
    refine ⟨fun u v hu hsame => ?_, fun _ _ _ _ _ => trivial, fun _ _ _ _ _ _ => trivial,
      fun _ _ _ _ => trivial⟩
    rw [Scan.run_append] at hsame
    have hstart := (Scan.Outside.start.alike hu).run v
    exact ⟨hstart.escaped.trans hsame.escaped, hstart.quote.trans hsame.quote⟩
  obtain ⟨-, hend⟩ := h.built hcarries ⟨rfl, rfl⟩ fun _ _ _ _ => trivial
  exact Scan.Outside.start.congr hend

/-- **Formatting leaves no comments**: the printed form of statements that were read
    from blanked text has none to blank. -/
theorem blankComments_print {ok : Text → Prop} {t indent : Text} {ns : List Node}
    (h : Reads ok false (blankComments t) ns []) (hesc : plainEscapes (blankComments t) = true)
    (hindent : ∀ c ∈ indent, c = ' ') (o : Origin) :
    blankComments (Node.print indent (.block o .sheet ns)) =
      Node.print indent (.block o .sheet ns) := by
  have hspacing := spacing_of_spaces hindent
  have hsame : Watch.gauge.read .plain (blankComments t) =
      Watch.gauge.read .plain (Node.print indent (.block o .sheet ns)) := by
    have hread := Watch.gauge.read_reads hspacing (fun u _ _ => Watch.readsWordOf u) h 0 .plain
    rwa [Watch.gauge.read_nil, Watch.gauge.settle_read] at hread
  refine blankComments_eq_self ?_ fun q => ?_
  · rw [← hsame]
    exact watch_blankComments t
  · -- the automaton is in a string only where the scan is, and the scan ends outside
    rw [← hsame]
    have halong : Scan.start.along sparesQuotes (blankComments t) = true :=
      Scan.along_mono sparesQuotes_of_takesPlain
        (along_of_plainEscapes hesc fun hstart => by cases hstart)
    have hagrees : Watch.Agrees .plain Scan.start := rfl
    exact (hagrees.run Scan.Proper.start halong).settle_ne_string h.outside q

/-! ### Reading what was printed -/

theorem carries_legible : Carries (fun t => plainEscapes t = true)
    (fun s => s ≠ [] ∧ s.head? ≠ some '@') Header.Legible Declaration.Legible where
  rest _ _ _ h := plainEscapes_of_append h
  rule _ _ hu h hgood := legible_normalize hu (escapesBlank_of_plainEscapes h) hgood.1 hgood.2
  atRule _ _ _ b hhead h := legible_atRule hhead (escapesBlank_of_plainEscapes h) b
  declaration _ _ hu h := declarationOf_spelling hu (escapesBlank_of_plainEscapes h)

/-- A legible stylesheet whose printed form has no comments is read from it. -/
theorem parse_print {ns : List Node}
    (h : ∀ n ∈ ns, n.Built Header.Legible Declaration.Legible false) {indent : Text}
    (hindent : ∀ c ∈ indent, c = ' ') {o : Origin}
    (hcomments : blankComments (Node.print indent (.block o .sheet ns)) =
      Node.print indent (.block o .sheet ns)) :
    ∃ root, parse (Node.print indent (.block o .sheet ns)) = .ok root ∧
      root.unplaced = (Node.block {} .sheet ns).unplaced := by
  rw [parse, hcomments]
  exact read_of_reads (derives_print hindent h o)

/-- **Formatting is stable**: where every backslash stands before a character that
    is neither a blank nor a quote, and no selector is empty or starts with an at
    sign, a stylesheet is read again from its printed form, but for places; so
    printing it again gives the same text. -/
theorem parse_print_of_parse {t : Text} {root : Node} (h : parse t = .ok root)
    (hesc : plainEscapes (blankComments t) = true)
    (hselectors : ∀ m ∈ root.walk, ∀ s, m.selector? = some s → s ≠ [] ∧ s.head? ≠ some '@')
    {indent : Text} (hindent : ∀ c ∈ indent, c = ' ') :
    ∃ root', parse (root.print indent) = .ok root' ∧ root'.unplaced = root.unplaced ∧
      root'.print indent = root.print indent := by
  obtain ⟨ns, rfl, hreads⟩ : ∃ ns, root = .block {} .sheet ns ∧
      Derives false (blankComments t) ns [] := reads_of_read h fun _ _ => trivial
  have hlegible := (hreads.built carries_legible hesc hselectors).1
  obtain ⟨root', hparse, hsame⟩ :=
    parse_print hlegible hindent (blankComments_print hreads hesc hindent {})
  refine ⟨root', hparse, hsame, ?_⟩
  rw [← Node.print_unplaced, hsame, Node.print_unplaced]

/-- The sheet `@i "/*" ;/**/a\:b , c{d : /* e!Important;f:hover{}}`: one mark of a
    comment stands in a string, and another one, in a value, is never closed. -/
def unevenSheet : Text :=
  ['@', 'i', ' ', '"', '/', '*', '"', ' ', ';', '/', '*', '*', '/', 'a', '\\', ':', 'b', ' ', ',',
   ' ', 'c', '{', 'd', ' ', ':', ' ', '/', '*', ' ', 'e', '!', 'I', 'm', 'p', 'o', 'r', 't', 'a', 'n',
   't', ';', 'f', ':', 'h', 'o', 'v', 'e', 'r', '{', '}', '}']

theorem parse_print_unevenSheet :
    ∃ root root', parse unevenSheet = .ok root ∧
      parse (root.print [' ', ' ']) = .ok root' ∧ root'.unplaced = root.unplaced ∧
      root'.print [' ', ' '] = root.print [' ', ' '] := by
  have hsheet : ∃ root, parse unevenSheet = .ok root ∧ root.walk.filterMap Node.selector? =
      [['a', '\\', ':', 'b', ',', ' ', 'c'], ['f', ':', 'h', 'o', 'v', 'e', 'r']] := ⟨_, rfl, rfl⟩
  obtain ⟨root, hparse, hwalk⟩ := hsheet
  have hselectors : ∀ m ∈ root.walk, ∀ s, m.selector? = some s → s ≠ [] ∧ s.head? ≠ some '@' := by
    intro m hm s hs
    have hmem : s ∈ root.walk.filterMap Node.selector? := List.mem_filterMap.mpr ⟨m, hm, hs⟩
    rw [hwalk, List.mem_pair] at hmem
    rcases hmem with rfl | rfl <;> decide
  obtain ⟨root', hprint⟩ :=
    parse_print_of_parse hparse (by decide +kernel) hselectors (by decide : ∀ c ∈ [' ', ' '], c = ' ')
  exact ⟨root, root', hparse, hprint⟩

end StyleNesting.Source
