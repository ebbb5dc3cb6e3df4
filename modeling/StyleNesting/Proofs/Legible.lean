/-
  StyleNesting/Proofs/Legible.lean
  ================================
  **Trees that can be read back from their printed form.**  A header or a
  declaration is *legible* if what is printed for it is read as itself.  Whatever
  was read is legible, as long as no backslash stands in front of a blank: a
  selector because it is in normal form (`legible_normalize`), a declaration
  because the mark is printed where the reader finds it (`declarationOf_spelling`).

  The grammar derives from the printed form of a tree of legible headers and
  declarations that very tree (`derives_print`), whatever the indentation.
-/
import StyleNesting.Proofs.Declarations
import StyleNesting.Proofs.Grammar
import StyleNesting.Proofs.NormalForm

namespace StyleNesting

open Source Selector

/-! ### Headers -/

/-- What is printed of the parameters of an at-rule, behind its name. -/
def Header.lead (params : Text) : Text := if params = [] then [] else ' ' :: params

/-- The header of a rule or an at-rule that is read from what is printed for it. -/
def Header.Legible : Header → Prop
  | .rule s => SelectorText (s ++ [' ']) ∧ normalize (s ++ [' ']) = s
  | .atRule name params _ =>
    name ≠ [] ∧ (∀ c ∈ name, isAtChar c = true) ∧ Run params ∧ Text.Trimmed params
  | .sheet => False
  | .group => False

/-- A normal form that is not empty and does not start with an at sign is legible. -/
theorem legible_normalize {u : Text} (hu : SelectorText u) (hesc : escapesBlank u = false)
    (hne : normalize u ≠ []) (hhead : (normalize u).head? ≠ some '@') :
    (Header.rule (normalize u)).Legible := by
  have hblank : ∀ b ∈ [' '], Text.isBlank b = true := by decide
  have hrun : Run (normalize u ++ [' ']) :=
    Passes.append (run_normalize hu.run hesc) (Run.singleton (by decide))
  refine ⟨⟨hrun, by simp, fun c hc => ?_⟩, normalize_append_blanks u hblank⟩
  rw [List.head?_append_of_ne_nil _ hne] at hc
  refine ⟨fun hat => hhead (hat ▸ hc), ?_⟩
  obtain ⟨rs, hrs, htext⟩ := exists_finished_normalize u
  rw [htext] at hc
  exact hrs.head c hc

theorem legible_atRule {name prelude : Text} (h : AtHead name prelude)
    (hesc : escapesBlank prelude = false) (hasBlock : Bool) :
    (Header.atRule name (Text.trim prelude) hasBlock).Legible :=
  ⟨h.nonempty, h.name, Run.trim h.run hesc, Text.trim_trimmed prelude⟩

theorem text_atRule {name params : Text} (hname : ∀ c ∈ name, isAtChar c = true)
    (hparams : Text.Trimmed params) (hasBlock : Bool) :
    (Header.atRule name params hasBlock).text = '@' :: (name ++ Header.lead params) := by
  rw [Header.text, Header.lead]
  split
  · rename_i hnil
    have hlast : ∀ c, ('@' :: name).getLast? = some c → Text.isBlank c = false := by
      intro c hc
      cases hblank : Text.isBlank c with
      | false => rfl
      | true =>
        rcases List.mem_cons.mp (List.mem_of_getLast? hc) with rfl | hmem
        · exact absurd hblank (by decide)
        · rw [← hname c hmem, not_isAtChar_of_isBlank hblank]
    rw [hnil, ← List.cons_append, Text.trimEnd_append _ (by decide), Text.trimEnd_eq_self hlast,
      List.append_nil]
  · rename_i hne
    refine Text.trimEnd_eq_self fun c hc => hparams.last c ?_
    rw [← hc, ← List.cons_append, List.getLast?_append_of_ne_nil _ (by simp),
      List.getLast?_cons_of_ne_nil hne]

/-- What is printed behind the name of an at-rule is read as its parameters. -/
theorem atHead_lead {name params : Text} {hasBlock : Bool}
    (h : (Header.atRule name params hasBlock).Legible) {bs : Text}
    (hbs : ∀ b ∈ bs, Text.isBlank b = true) :
    AtHead name (Header.lead params ++ bs) ∧ Text.trim (Header.lead params ++ bs) = params := by
  obtain ⟨hne, hname, hrun, htrimmed⟩ := h
  have hblanks : Run bs := Run.of_items fun b hb => isItem_of_isBlank (hbs b hb)
  rw [Header.lead]
  split
  · rename_i hnil
    subst hnil
    refine ⟨⟨hne, hname, hblanks, fun c hc => ?_⟩, ?_⟩
    · exact not_isAtChar_of_isBlank (hbs c (List.mem_of_head? hc))
    · exact Text.trim_append (by simp : ∀ a ∈ ([] : Text), _) hbs htrimmed
  · have hspace : Run [' '] := Run.singleton (by decide)
    refine ⟨⟨hne, hname, Passes.append (Passes.append hspace hrun) hblanks, fun c hc => ?_⟩, ?_⟩
    · cases hc
      decide
    · exact Text.trim_append (by decide : ∀ a ∈ [' '], _) hbs htrimmed

/-! ### Declarations -/

/-- A declaration that is read from its spelling. -/
structure Declaration.Legible (d : Declaration) : Prop where
  text : DeclarationText d.spelling
  same : declarationOf d.spelling = d

theorem quote_run_of_no_quotes {t : Text} (h : ∀ c ∈ t, isQuote c = false) {s : Scan}
    (hs : s.Proper) : (s.run t).quote = s.quote := by
  induction t generalizing s with
  | nil => rfl
  | cons c t ih =>
    have hquote := h c (by simp)
    rw [Scan.run_cons, ih (fun d hd => h d (by simp [hd])) (hs.step c)]
    cases hescaped : s.escaped with
    | true => rw [Scan.step_escaped hescaped]
    | false =>
      by_cases hc : c = '\\'
      · rw [hc, Scan.step_backslash hescaped]
      · rw [Scan.quote_step hescaped hc]
        cases hq : s.quote with
        | none => simp [hquote]
        | some q =>
          have hne : c ≠ q := by
            rintro rfl
            rw [hs.quote c hq] at hquote
            cases hquote
          simp [hne]

/-- Behind anything that is no string, the printed mark may follow.  It begins with
    a space, which a backslash at the end of the value escapes. -/
theorem run_append_mark {v : Text} (halong : Scan.start.along mayPass v = true)
    (hquote : (Scan.start.run v).quote = none) : Run (v ++ importantMark) := by
  have hword : Run ('!' :: importantWord) := Run.of_items (by decide)
  have hspace : Passes (Scan.start.run v) [' '] := by
    refine passes_cons.mpr ⟨?_, Passes.nil ⟨Scan.escaped_step (by decide), ?_⟩⟩
    · cases hescaped : (Scan.start.run v).escaped with
      | true => simp [mayPass, hescaped]
      | false => simp [mayPass, hescaped, isStop]
    · have hblank : ∀ c ∈ [' '], isQuote c = false := by decide
      exact (quote_run_of_no_quotes hblank (Scan.Proper.start.run v)).trans hquote
  have hmark : Passes (Scan.start.run v) importantMark := hspace.append hword
  refine ⟨?_, ?_⟩
  · rw [Scan.along_append, halong, hmark.along]
    rfl
  · rw [Scan.run_append]
    exact hmark.ends

theorem no_quote_of_isImportantMark {m : Text} (hm : isImportantMark m = true) :
    ∀ c ∈ m, isQuote c = false := by
  obtain ⟨bs, bs', w, bs'', rfl, hmark⟩ := exists_of_isImportantMark hm
  intro c hc
  cases hquote : isQuote c with
  | false => rfl
  | true =>
    have hcases : c = '"' ∨ c = '\'' := by simpa [isQuote] using hquote
    have hblank : Text.isBlank c = false := by rcases hcases with rfl | rfl <;> decide
    have hbang : c ≠ '!' := by rcases hcases with rfl | rfl <;> decide
    have hword : c ∉ w := hmark.word.not_mem (by rcases hcases with rfl | rfl <;> decide)
    have hbefore := not_mem_blanks hmark.before hblank
    have hbetween := not_mem_blanks hmark.between hblank
    have hafter := not_mem_blanks hmark.after hblank
    simp [hbang, hword, hbefore, hbetween, hafter] at hc

/-- What is printed of a value that was read is a run, from which the value is read. -/
theorem printedValue_read {t : Text} (hrun : Run t) (ht : Text.Trimmed t) {d : Declaration}
    (hsplit : splitImportant t = (d.value, d.important)) :
    Run d.printedValue ∧
      splitImportant (Text.trim (' ' :: d.printedValue)) = (d.value, d.important) := by
  obtain ⟨property, v, important⟩ := d
  cases important with
  | false =>
    have hself : v = t := splitImportant_eq_self hsplit
    have hprinted : Declaration.printedValue ⟨property, v, false⟩ = t := by
      simp [Declaration.printedValue, hself]
    rw [hprinted, Text.trim_cons_blank (by decide), Text.trim_eq_self ht]
    exact ⟨hrun, hsplit⟩
  | true =>
    obtain ⟨m, rfl, hmark, hleft⟩ := splitImportant_eq hsplit
    have hprinted : Declaration.printedValue ⟨property, v, true⟩ = v ++ importantMark := rfl
    rw [hprinted]
    constructor
    · have halong := hrun.along
      have hends := hrun.ends.quote
      rw [Scan.along_append, Bool.and_eq_true] at halong
      rw [Scan.run_append, quote_run_of_no_quotes (no_quote_of_isImportantMark hmark)
        (Scan.Proper.start.run v)] at hends
      exact run_append_mark halong.1 hends
    · cases v with
      | nil =>
        -- nothing is left in front of the mark, and its space is trimmed with the one before it
        have hmarked : splitImportant (Text.trim (' ' :: importantMark)) = ([], true) := by decide
        exact hmarked
      | cons c v =>
        have htrimmed : Text.Trimmed (c :: v ++ importantMark) := by
          refine ⟨fun d hd => ht.head d hd, fun d hd => ?_⟩
          rw [List.getLast?_append_of_ne_nil _ (by decide)] at hd
          cases hd
          decide
        rw [Text.trim_cons_blank (by decide), Text.trim_eq_self htrimmed]
        exact splitImportant_printed (last_of_splitImportant hmark hleft)

/-- **A declaration that was read is read again from its spelling.** -/
theorem declarationOf_spelling {u : Text} (hu : DeclarationText u) (hesc : escapesBlank u = false) :
    (declarationOf u).Legible := by
  obtain ⟨hne, hname, hblanks, hvalue⟩ := hu
  rename_i name blanks value
  have hsuffix : value <:+ name ++ (blanks ++ ':' :: value) :=
    ⟨name ++ (blanks ++ [':']), by simp⟩
  have hrun : Run (Text.trim value) :=
    Run.trim hvalue (escapesBlank_mono hsuffix.isInfix hesc)
  have hread := declarationOf_append hname hblanks value
  obtain ⟨hprinted, hsplit⟩ := printedValue_read hrun (Text.trim_trimmed value)
    (d := declarationOf (name ++ (blanks ++ ':' :: value))) (by rw [hread])
  have hproperty : (declarationOf (name ++ (blanks ++ ':' :: value))).property = name := by
    rw [hread]
  generalize declarationOf (name ++ (blanks ++ ':' :: value)) = d at hprinted hsplit hproperty
  have hspelling : d.spelling = name ++ ([] ++ ':' :: (' ' :: d.printedValue)) := by
    rw [Declaration.spelling, hproperty, List.nil_append]
  have hnone : ∀ b ∈ ([] : Text), Text.isBlank b = true := by simp
  constructor
  · rw [hspelling]
    exact .intro hne hname hnone (Passes.append (Run.singleton (by decide)) hprinted)
  · rw [hspelling, declarationOf_append hname hnone, hsplit, ← hproperty]

/-! ### Trees -/

/-- A tree whose headers and declarations are of given kinds.  Declarations stand in
    blocks only, a statement has no content, and no node has a handle. -/
inductive Node.Built (header : Header → Prop) (content : Declaration → Prop) : Bool → Node → Prop
  | declaration {o : Origin} {d : Declaration} (ho : o.handle = none) (hd : content d) :
      Node.Built header content true (.declaration o d)
  | block {inside : Bool} {o : Origin} {h : Header} {ns : List Node} (ho : o.handle = none)
      (hh : header h) (hempty : h.isStatement = true → ns = [])
      (hns : ∀ n ∈ ns, Node.Built header content true n) :
      Node.Built header content inside (.block o h ns)

theorem Node.Built.mono {header header' : Header → Prop} {content content' : Declaration → Prop}
    (hheader : ∀ h, header h → header' h) (hcontent : ∀ d, content d → content' d) {inside : Bool}
    {n : Node} (h : n.Built header content inside) : n.Built header' content' inside := by
  induction h with
  | declaration ho hd => exact .declaration ho (hcontent _ hd)
  | block ho hh hempty _ ih => exact .block ho (hheader _ hh) hempty ih

/-! ### Trees that were read -/

theorem outside_singleton {c : Char} (hquote : isQuote c = false) (hback : c ≠ '\\') :
    (Scan.start.run [c]).Outside := by
  have hstep := Scan.quote_step (rfl : Scan.start.escaped = false) hback
  have houtside : (Scan.start.step c).Outside :=
    ⟨Scan.escaped_step hback, by simpa [Scan.start, hquote] using hstep⟩
  exact houtside

/-- A fact about a text that goes on holding of its rest, and what follows from it
    for the statements of the text, given that their selectors are good. -/
structure Carries (fact good : Text → Prop) (header : Header → Prop)
    (content : Declaration → Prop) : Prop where
  rest : ∀ u t, (Scan.start.run u).Outside → fact (u ++ t) → fact t
  rule : ∀ u t, SelectorText u → fact (u ++ t) → good (normalize u) → header (.rule (normalize u))
  atRule : ∀ name prelude t b, AtHead name prelude → fact (prelude ++ t) →
    header (.atRule name (Text.trim prelude) b)
  declaration : ∀ u t, DeclarationText u → fact (u ++ t) → content (declarationOf u)

section Reading

variable {fact good : Text → Prop} {header : Header → Prop} {content : Declaration → Prop}
  (hc : Carries fact good header content)

include hc

theorem Carries.cons {c : Char} {t : Text} (h : fact (c :: t)) (hquote : isQuote c = false)
    (hback : c ≠ '\\') : fact t := hc.rest [c] t (outside_singleton hquote hback) h

theorem Carries.name {name t : Text} (hname : ∀ c ∈ name, isAtChar c = true)
    (h : fact ('@' :: (name ++ t))) : fact t := by
  have hrun : Run name := Run.of_items fun c hc => isItem_of_isAtChar (hname c hc)
  exact hc.rest name t hrun.ends (hc.cons h (by decide) (by decide))

/-- The statements that were read are built of what the fact allows. -/
theorem Source.Reads.built {ok : Text → Prop} {inside : Bool} {t r : Text} {ns : List Node}
    (h : Reads ok inside t ns r) (ht : fact t)
    (hgood : ∀ m ∈ Node.walkAll ns, ∀ s, m.selector? = some s → good s) :
    (∀ n ∈ ns, n.Built header content inside) ∧ fact r := by
  -- along the derivation the fact is handed on to the text behind each statement
  induction h with
  | stop => exact ⟨by simp, ht⟩
  | layout hlayout _ ih =>
    have hrun := Run.singleton (isItem_of_isBlank (isBlank_of_isLayout hlayout))
    exact ih (hc.rest _ _ hrun.ends ht) hgood
  | semicolon _ ih => exact ih (hc.cons ht (by decide) (by decide)) hgood
  | @declaration u t r c ns place hu hok hstop _ ih =>
    obtain ⟨hns, hr⟩ := ih (hc.rest u _ hu.run.ends ht) fun m hm => hgood m (by simp [Node.walkAll, hm])
    refine ⟨List.forall_mem_cons.mpr ⟨?_, hns⟩, hr⟩
    exact .declaration rfl (hc.declaration u _ hu ht)
  | @rule inside u t t' r body ns place hu _ _ ihbody ih =>
    have hopen := hc.cons (hc.rest u _ hu.run.ends ht) (by decide) (by decide)
    obtain ⟨hbody, hclose⟩ := ihbody hopen fun m hm => hgood m (by simp [Node.walkAll, Node.walk, hm])
    obtain ⟨hns, hr⟩ := ih (hc.cons hclose (by decide) (by decide))
      fun m hm => hgood m (by simp [Node.walkAll, hm])
    have hselector : good (normalize u) :=
      hgood (.block ⟨place, none⟩ (.rule (normalize u)) body) (by simp [Node.walkAll]) _ rfl
    refine ⟨List.forall_mem_cons.mpr ⟨?_, hns⟩, hr⟩
    exact .block rfl (hc.rule u _ hu ht hselector) (fun h => by cases h) hbody
  | @atRule inside name prelude t t' r body ns place hhead _ _ ihbody ih =>
    have hprelude := hc.name hhead.name ht
    have hopen := hc.cons (hc.rest prelude _ hhead.run.ends hprelude) (by decide) (by decide)
    obtain ⟨hbody, hclose⟩ := ihbody hopen fun m hm => hgood m (by simp [Node.walkAll, Node.walk, hm])
    obtain ⟨hns, hr⟩ := ih (hc.cons hclose (by decide) (by decide))
      fun m hm => hgood m (by simp [Node.walkAll, hm])
    refine ⟨List.forall_mem_cons.mpr ⟨?_, hns⟩, hr⟩
    exact .block rfl (hc.atRule name prelude _ true hhead hprelude) (fun h => by cases h) hbody
  | @statement inside name prelude t r ns place hhead _ ih =>
    have hprelude := hc.name hhead.name ht
    have hrest := hc.cons (hc.rest prelude _ hhead.run.ends hprelude) (by decide) (by decide)
    obtain ⟨hns, hr⟩ := ih hrest fun m hm => hgood m (by simp [Node.walkAll, hm])
    refine ⟨List.forall_mem_cons.mpr ⟨?_, hns⟩, hr⟩
    exact .block rfl (hc.atRule name prelude _ false hhead hprelude) (fun _ => rfl) (by simp)

end Reading

/-! ### Reading what was printed -/

section Printing

variable {indent : Text} (hindent : ∀ c ∈ indent, c = ' ')

theorem unlines_append (ls ls' : List Text) :
    Node.unlines (ls ++ ls') = Node.unlines ls ++ Node.unlines ls' := by
  induction ls with
  | nil => rfl
  | cons l ls ih => simp [Node.unlines, ih]

/-- The grammar, with no condition on the texts of declarations. -/
abbrev Derives : Bool → Text → List Node → Text → Prop := Reads fun _ => True

/-- What is printed between the braces of a block. -/
def bodyText (indent : Text) (d : Nat) (ns : List Node) : Text :=
  if ns = [] then []
  else '\n' :: (Node.unlines (Node.linesAll indent (d + 1) ns) ++ Text.times indent d)

theorem unlines_block {o : Origin} {h : Header} (hblock : h.isStatement = false) (ns : List Node)
    (d : Nat) : Node.unlines (Node.lines indent d (.block o h ns)) =
      Text.times indent d ++ (h.text ++ ' ' :: '{' :: (bodyText indent d ns ++ ['}', '\n'])) := by
  cases ns with
  | nil => simp [Node.lines, hblock, Node.unlines, bodyText]
  | cons n ns => simp [Node.lines, hblock, Node.unlines, bodyText, unlines_append]

theorem unlines_statement {o : Origin} {h : Header} (hstatement : h.isStatement = true)
    (ns : List Node) (d : Nat) : Node.unlines (Node.lines indent d (.block o h ns)) =
      Text.times indent d ++ (h.text ++ [';', '\n']) := by
  simp [Node.lines, hstatement, Node.unlines]

theorem reads_linesAll {inside : Bool} {ns : List Node}
    (h : ∀ n ∈ ns, ∀ (d : Nat) (t r : Text) (ms : List Node), Derives inside t ms r →
      Derives inside (Node.unlines (Node.lines indent d n) ++ t) (n :: ms) r)
    (d : Nat) {t r : Text} {ms : List Node} (ht : Derives inside t ms r) :
    Derives inside (Node.unlines (Node.linesAll indent d ns) ++ t) (ns ++ ms) r := by
  induction ns with
  | nil => exact ht
  | cons n ns ih =>
    rw [Node.linesAll, unlines_append, List.append_assoc]
    exact h n (by simp) d _ _ _ (ih fun m hm => h m (by simp [hm]))

include hindent

theorem layout_times (d : Nat) : ∀ c ∈ Text.times indent d, isLayout c = true := by
  induction d with
  | zero => simp [Text.times]
  | succ d ih =>
    intro c hc
    rcases List.mem_append.mp hc with hc | hc
    · rw [hindent c hc]
      decide
    · exact ih c hc

theorem reads_bodyText {ns : List Node} {d : Nat}
    (h : ∀ {t r : Text} {ms : List Node}, Derives true t ms r →
      Derives true (Node.unlines (Node.linesAll indent (d + 1) ns) ++ t) (ns ++ ms) r)
    (t : Text) : Derives true (bodyText indent d ns ++ '}' :: t) ns ('}' :: t) := by
  rw [bodyText]
  split
  · rename_i hnil
    rw [hnil]
    exact .stop
  · have hbody := h (.layouts (layout_times hindent d) (.stop (r := '}' :: t)))
    rw [List.append_nil] at hbody
    simpa using Reads.layout (by decide) hbody

/-- **What is printed of a legible tree is read as that tree.** -/
theorem Node.Built.reads {inside : Bool} {n : Node}
    (h : n.Built Header.Legible Declaration.Legible inside) :
    ∀ (d : Nat) (t r : Text) (ms : List Node), Derives inside t ms r →
      Derives inside (Node.unlines (Node.lines indent d n) ++ t) (n :: ms) r := by
  induction h with
  | @declaration o content ho hd =>
    intro d t r ms ht
    have hlines : Node.unlines (Node.lines indent d (.declaration o content)) ++ t =
        Text.times indent d ++ (content.spelling ++ ';' :: '\n' :: t) := by
      simp [Node.lines, Node.unlines, content.text_eq]
    have hread := Reads.declaration o.source hd.text trivial (Or.inr rfl)
      (.semicolon (.layout (by decide) ht) : Reads _ true (';' :: '\n' :: t) ms r)
    obtain ⟨place, handle⟩ := o
    cases ho
    rw [hlines]
    rw [hd.same] at hread
    exact .layouts (layout_times hindent d) hread
  | @block inside o header ns ho hh hempty _ ih =>
    intro d t r ms ht
    have hafter : Derives inside ('\n' :: t) ms r := .layout (by decide) ht
    have hbody := reads_bodyText hindent (fun ht => reads_linesAll ih (d + 1) ht) ('\n' :: t)
    obtain ⟨place, handle⟩ := o
    cases ho
    match header, hh with
    | .rule s, ⟨htext, hnormal⟩ =>
      have hlines : Node.unlines (Node.lines indent d (.block ⟨place, none⟩ (.rule s) ns)) ++ t =
          Text.times indent d ++
            ((s ++ [' ']) ++ '{' :: (bodyText indent d ns ++ '}' :: '\n' :: t)) := by
        simp [unlines_block (rfl : (Header.rule s).isStatement = false), Header.text]
      have hread := Reads.rule place htext hbody hafter
      rw [hnormal] at hread
      rw [hlines]
      exact .layouts (layout_times hindent d) hread
    | .atRule name params true, hh =>
      obtain ⟨hhead, htrim⟩ := atHead_lead hh (by decide : ∀ b ∈ [' '], Text.isBlank b = true)
      have hlines : Node.unlines (Node.lines indent d
            (.block ⟨place, none⟩ (.atRule name params true) ns)) ++ t =
          Text.times indent d ++ ('@' :: (name ++ ((Header.lead params ++ [' ']) ++
            '{' :: (bodyText indent d ns ++ '}' :: '\n' :: t)))) := by
        simp [unlines_block, Header.isStatement, text_atRule hh.2.1 hh.2.2.2]
      have hread := Reads.atRule place hhead hbody hafter
      rw [htrim] at hread
      rw [hlines]
      exact .layouts (layout_times hindent d) hread
    | .atRule name params false, hh =>
      obtain ⟨hhead, htrim⟩ := atHead_lead hh (by simp : ∀ b ∈ ([] : Text), Text.isBlank b = true)
      have hlines : Node.unlines (Node.lines indent d
            (.block ⟨place, none⟩ (.atRule name params false) ns)) ++ t =
          Text.times indent d ++ ('@' :: (name ++ ((Header.lead params ++ []) ++
            ';' :: '\n' :: t))) := by
        simp [unlines_statement, Header.isStatement, text_atRule hh.2.1 hh.2.2.2]
      have hread := Reads.statement place hhead hafter
      rw [htrim] at hread
      rw [hlines, hempty rfl]
      exact .layouts (layout_times hindent d) hread

/-- The text of a legible stylesheet is derived as its statements. -/
theorem derives_print {ns : List Node}
    (h : ∀ n ∈ ns, n.Built Header.Legible Declaration.Legible false) (o : Origin) :
    Derives false (Node.print indent (.block o .sheet ns)) ns [] := by
  have hread := reads_linesAll (fun n hn => (h n hn).reads hindent) 0 (.stop (r := []))
  rwa [List.append_nil, List.append_nil] at hread

end Printing

end StyleNesting
