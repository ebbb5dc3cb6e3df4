/-
  StyleNesting/Proofs/Grammar.lean
  ================================
  **The grammar of stylesheet text, and the reader as its decision procedure.**
  `Reads` says which statements stand at the start of a text and what follows
  them, with one rule for every form of statement and no word about stacks, fuel
  or places.

  The reader accepts a text only if it can be derived (`reads_of_read`), and it
  reads every text that can be derived, into the derived nodes but for their
  places (`read_of_reads`).  What one step of the reader can do is said once, by
  `Reader.Move`.
-/
import StyleNesting.Proofs.Places
import StyleNesting.Proofs.Runs
import StyleNesting.Source.Parser

namespace StyleNesting.Source

open StyleNesting Selector

/-! ### The grammar -/

/-- `Reads ok inside t ns r`: at the start of `t`, in a block or not, stand the
    statements `ns`, and `r` is what follows.  Every declaration is spelled by a
    text that is `ok`. -/
inductive Reads (ok : Text → Prop) : Bool → Text → List Node → Text → Prop
  | stop {inside : Bool} {r : Text} : Reads ok inside r [] r
  | layout {inside : Bool} {c : Char} {t r : Text} {ns : List Node} (hc : isLayout c = true)
      (h : Reads ok inside t ns r) : Reads ok inside (c :: t) ns r
  | semicolon {inside : Bool} {t r : Text} {ns : List Node} (h : Reads ok inside t ns r) :
      Reads ok inside (';' :: t) ns r
  | declaration {u t r : Text} {c : Char} {ns : List Node} (place : Option Position)
      (hu : DeclarationText u) (hok : ok u) (hc : c = '}' ∨ c = ';')
      (h : Reads ok true (c :: t) ns r) :
      Reads ok true (u ++ c :: t) (.declaration ⟨place, none⟩ (declarationOf u) :: ns) r
  | rule {inside : Bool} {u t t' r : Text} {body ns : List Node} (place : Option Position)
      (hu : SelectorText u) (hbody : Reads ok true t body ('}' :: t'))
      (h : Reads ok inside t' ns r) :
      Reads ok inside (u ++ '{' :: t) (.block ⟨place, none⟩ (.rule (normalize u)) body :: ns) r
  | atRule {inside : Bool} {name prelude t t' r : Text} {body ns : List Node}
      (place : Option Position) (hhead : AtHead name prelude)
      (hbody : Reads ok true t body ('}' :: t')) (h : Reads ok inside t' ns r) :
      Reads ok inside ('@' :: (name ++ (prelude ++ '{' :: t)))
        (.block ⟨place, none⟩ (.atRule name (Text.trim prelude) true) body :: ns) r
  | statement {inside : Bool} {name prelude t r : Text} {ns : List Node} (place : Option Position)
      (hhead : AtHead name prelude) (h : Reads ok inside t ns r) :
      Reads ok inside ('@' :: (name ++ (prelude ++ ';' :: t)))
        (.block ⟨place, none⟩ (.atRule name (Text.trim prelude) false) [] :: ns) r

variable {ok : Text → Prop}

theorem Reads.layouts {inside : Bool} {bs t r : Text} {ns : List Node}
    (hbs : ∀ b ∈ bs, isLayout b = true) (h : Reads ok inside t ns r) :
    Reads ok inside (bs ++ t) ns r := by
  induction bs with
  | nil => exact h
  | cons b bs ih => exact .layout (hbs b (by simp)) (ih fun c hc => hbs c (by simp [hc]))

/-! ### What one step of the reader can do -/

/-- The declaration in front of the reader, if it would read one. -/
def Reader.declarationHere (r : Reader) : List Text :=
  match selectorLength? r.rest, if r.opened.isEmpty then none else declarationLength? r.rest with
  | none, some n => [r.rest.take n]
  | _, _ => []

/-- What a step does to the nodes, the open blocks and the rest. -/
inductive Reader.Move (r r' : Reader) : Prop
  | selector {u v : Text} (hrest : r.rest = u ++ '{' :: v) (hu : SelectorText u)
      (hnodes : r'.nodes = [])
      (hopened : r'.opened = ⟨⟨some r.here, none⟩, .rule (normalize u), r.nodes⟩ :: r.opened)
      (hrest' : r'.rest = v)
  | declaration {u v : Text} {c : Char} (hrest : r.rest = u ++ c :: v) (hc : c = '}' ∨ c = ';')
      (hu : DeclarationText u) (hopen : r.opened ≠ []) (hhere : r.declarationHere = [u])
      (hnodes : r'.nodes = r.nodes ++ [.declaration ⟨some r.here, none⟩ (declarationOf u)])
      (hopened : r'.opened = r.opened) (hrest' : r'.rest = c :: v)
  | block {name prelude v : Text} (hrest : r.rest = '@' :: (name ++ (prelude ++ '{' :: v)))
      (hhead : AtHead name prelude) (hnodes : r'.nodes = [])
      (hopened : r'.opened =
        ⟨⟨some r.here, none⟩, .atRule name (Text.trim prelude) true, r.nodes⟩ :: r.opened)
      (hrest' : r'.rest = v)
  | statement {name prelude v : Text} (hrest : r.rest = '@' :: (name ++ (prelude ++ ';' :: v)))
      (hhead : AtHead name prelude)
      (hnodes : r'.nodes = r.nodes ++
        [.block ⟨some r.here, none⟩ (.atRule name (Text.trim prelude) false) []])
      (hopened : r'.opened = r.opened) (hrest' : r'.rest = v)
  | semicolon {v : Text} (hrest : r.rest = ';' :: v) (hnodes : r'.nodes = r.nodes)
      (hopened : r'.opened = r.opened) (hrest' : r'.rest = v)
  | close {f : Frame} {v : Text} (hrest : r.rest = '}' :: v)
      (hopen : r.opened = f :: r'.opened)
      (hnodes : r'.nodes = f.before ++ [.block f.origin f.header r.nodes]) (hrest' : r'.rest = v)

theorem Reader.Move.length_lt {r r' : Reader} (h : r.Move r') :
    r'.rest.length < r.rest.length := by
  cases h with
  | selector hrest hu _ _ hrest' | block hrest hu _ _ hrest' | statement hrest hu _ _ hrest' =>
    rw [hrest, hrest']
    simp only [List.length_append, List.length_cons]
    omega
  | declaration hrest _ hu _ _ _ _ hrest' =>
    obtain ⟨hne, -, -, -⟩ := hu
    rw [hrest, hrest']
    simp only [List.length_append, List.length_cons]
    omega
  | semicolon hrest _ _ hrest' | close hrest _ _ hrest' =>
    rw [hrest, hrest']
    simp

theorem Reader.move_of_readAtRule {r r' : Reader} {name t : Text}
    (hrest : r.rest = '@' :: (name ++ t)) (hne : name ≠ [])
    (hname : ∀ c ∈ name, isAtChar c = true) (ht : ∀ c, t.head? = some c → isAtChar c = false)
    (h : r.readAtRule (name.length + 1) = .ok r') : r.Move r' := by
  have hdrop : r.rest.drop (name.length + 1) = t := by simp [hrest]
  have htake : (r.rest.take (name.length + 1)).drop 1 = name := by simp [hrest]
  have hrun := run_take_runLength t
  have hsplit := List.prefix_append_drop (List.take_prefix (runLength t) t)
  simp only [Reader.readAtRule, hdrop, htake] at h
  generalize t.take (runLength t) = prelude at h hrun hsplit
  have hapart : ∀ c, prelude.head? = some c → isAtChar c = false := by
    intro c hc
    apply ht
    obtain ⟨w, rfl⟩ := List.head?_eq_some_iff.mp hc
    rw [hsplit]
    rfl
  have hhead : AtHead name prelude := ⟨hne, hname, hrun, hapart⟩
  have hafter : ∀ {c : Char} {v : Text}, t.drop prelude.length = c :: v →
      r.rest = '@' :: (name ++ (prelude ++ c :: v)) ∧
        r.rest.drop (name.length + 1 + prelude.length + 1) = v := by
    intro c v hv
    rw [hv] at hsplit
    refine ⟨by rw [hrest, hsplit], ?_⟩
    rw [← List.drop_drop, ← List.drop_drop, hdrop, hsplit, List.drop_left, List.drop_one,
      List.tail_cons]
  split at h
  · cases h
  · rename_i v hv
    cases h
    exact .block (hafter hv).1 hhead rfl rfl (hafter hv).2
  · rename_i v hv
    cases h
    exact .statement (hafter hv).1 hhead rfl rfl (hafter hv).2
  · cases h

/-- **What one step of the reader can do.** -/
theorem Reader.move_of_step {r r' : Reader} (h : r.step = .ok (some r')) : r.Move r' := by
  unfold Reader.step at h
  split at h
  · split at h <;> cases h
  · rename_i c t hrest
    rw [← hrest] at h
    split at h
    · rename_i n hn
      cases h
      obtain ⟨u, v, hu, rfl, htext⟩ := exists_of_selectorLength? hn
      refine .selector hu htext rfl ?_ ?_
      · simp [Reader.readSelector, Reader.take, Reader.openBlock, hu]
      · simp [Reader.readSelector, Reader.take, Reader.openBlock, hu]
    · rename_i hselector
      split at h
      · rename_i n hn
        cases h
        have hopen : r.opened ≠ [] := by
          intro hnil
          simp [hnil] at hn
        have hhere : r.declarationHere = [r.rest.take n] := by
          simp only [Reader.declarationHere, hselector, hn]
        rw [if_neg (by simp [hopen])] at hn
        obtain ⟨u, d, v, hu, hd, rfl, htext⟩ := exists_of_declarationLength? hn
        refine .declaration hu hd htext hopen ?_ ?_ rfl ?_
        · rw [hhere, hu, List.take_left]
        · simp [Reader.readDeclaration, Reader.take, Reader.add, hu]
        · simp [Reader.readDeclaration, Reader.take, Reader.add, hu]
      · split at h
        · rename_i n hn
          obtain ⟨name, t', ht, rfl, hne, hname, hapart⟩ := exists_of_atKeywordLength? hn
          cases hread : r.readAtRule (name.length + 1) with
          | error e =>
            rw [hread] at h
            cases h
          | ok r'' =>
            rw [hread] at h
            cases h
            exact Reader.move_of_readAtRule ht hne hname hapart hread
        · split at h
          · rename_i hc
            cases h
            rw [beq_iff_eq.mp hc] at hrest
            exact .semicolon hrest rfl rfl (by simp [Reader.take, hrest])
          · split at h
            · rename_i hc
              cases h
              rw [Bool.and_eq_true, beq_iff_eq] at hc
              rw [hc.1] at hrest
              cases hopened : r.opened with
              | nil => simp [hopened] at hc
              | cons f fs =>
                refine .close (f := f) hrest ?_ ?_ ?_
                · simp [Reader.take, Reader.closeBlock, hopened]
                · simp [Reader.take, Reader.closeBlock, hopened]
                · simp [Reader.take, Reader.closeBlock, hopened, hrest]
            · cases h

/-- Only at the end of the text, and with no block open, there is no step. -/
theorem Reader.of_step_none {r : Reader} (h : r.step = .ok none) :
    r.rest = [] ∧ r.opened = [] := by
  unfold Reader.step at h
  split at h
  · rename_i hrest
    split at h
    · rename_i hopened
      exact ⟨hrest, List.isEmpty_iff.mp hopened⟩
    · cases h
  · split at h
    · cases h
    · split at h
      · cases h
      · split at h
        · rename_i n _
          cases hread : r.readAtRule n with
          | error e =>
            rw [hread] at h
            cases h
          | ok r' =>
            rw [hread] at h
            cases h
        · repeat' split at h
          all_goals cases h

/-! ### Which step the reader takes -/

theorem selectorLength?_of_at {t : Text} : selectorLength? ('@' :: t) = none := rfl

theorem declarationLength?_of_at (t : Text) : declarationLength? ('@' :: t) = none := by
  have hname : ('@' :: t).takeWhile isNameChar = [] := List.takeWhile_cons_of_neg (by decide)
  simp [declarationLength?, hname]

theorem declarationLength?_of_stop {c : Char} (hc : isStop c = true) (t : Text) :
    declarationLength? (c :: t) = none := by
  have hname : (c :: t).takeWhile isNameChar = [] :=
    List.takeWhile_cons_of_neg (by simp [isNameChar, hc])
  simp [declarationLength?, hname]

section Steps

variable {r : Reader}

theorem Reader.step_selector_eq {u v : Text} (hrest : r.rest = u ++ '{' :: v) (hu : SelectorText u) :
    r.step = .ok (some (r.readSelector u.length)) := by
  unfold Reader.step
  split
  · rename_i hnil
    simp [hrest] at hnil
  · rename_i c t hcons
    rw [← hcons, hrest, selectorLength?_append hu]

theorem Reader.step_selector {u v : Text} (hrest : r.rest = u ++ '{' :: v) (hu : SelectorText u) :
    ∃ r', r.step = .ok (some r') ∧ r'.nodes = [] ∧ r'.rest = v ∧
      r'.opened = ⟨⟨some r.here, none⟩, .rule (normalize u), r.nodes⟩ :: r.opened := by
  refine ⟨r.readSelector u.length, Reader.step_selector_eq hrest hu, rfl, ?_, ?_⟩
  · simp [Reader.readSelector, Reader.take, Reader.openBlock, hrest]
  · simp [Reader.readSelector, Reader.take, Reader.openBlock, hrest]

theorem Reader.step_declaration_eq {u v : Text} {c : Char} (hrest : r.rest = u ++ c :: v)
    (hc : c = '}' ∨ c = ';') (hu : DeclarationText u) (hopen : r.opened ≠ []) :
    r.step = .ok (some (r.readDeclaration u.length)) := by
  unfold Reader.step
  split
  · rename_i hnil
    simp [hrest] at hnil
  · rename_i d t hcons
    rw [← hcons, hrest, selectorLength?_eq_none hu.run hc, declarationLength?_append hu hc]
    simp [hopen]

theorem Reader.step_declaration {u v : Text} {c : Char} (hrest : r.rest = u ++ c :: v)
    (hc : c = '}' ∨ c = ';') (hu : DeclarationText u) (hopen : r.opened ≠ []) :
    ∃ r', r.step = .ok (some r') ∧ r'.rest = c :: v ∧ r'.opened = r.opened ∧
      r'.nodes = r.nodes ++ [.declaration ⟨some r.here, none⟩ (declarationOf u)] := by
  refine ⟨r.readDeclaration u.length, Reader.step_declaration_eq hrest hc hu hopen, ?_, rfl, ?_⟩
  · simp [Reader.readDeclaration, Reader.take, Reader.add, hrest]
  · simp [Reader.readDeclaration, Reader.take, Reader.add, hrest]

/-- In front of an at-keyword the reader reads an at-rule. -/
theorem Reader.step_at {name prelude v : Text} {c : Char} (hc : isStop c = true)
    (hrest : r.rest = '@' :: (name ++ (prelude ++ c :: v))) (hhead : AtHead name prelude) :
    r.step = (r.readAtRule (name.length + 1)).map some := by
  have hkeyword := atKeywordLength?_append hhead.nonempty hhead.name (hhead.apart_append hc v)
  simp only [Reader.step, hrest, selectorLength?_of_at, declarationLength?_of_at, ite_self,
    hkeyword]

/-- What the reader cuts off after the name of an at-rule. -/
theorem cut_at (name v : Text) {prelude : Text} {c : Char} (hc : isStop c = true) (hrun : Run prelude) :
    ('@' :: (name ++ (prelude ++ c :: v))).drop (name.length + 1) = prelude ++ c :: v ∧
      ('@' :: (name ++ (prelude ++ c :: v))).take (name.length + 1) = '@' :: name ∧
      (prelude ++ c :: v).take (runLength (prelude ++ c :: v)) = prelude ∧
      ('@' :: (name ++ (prelude ++ c :: v))).drop (name.length + 1 + prelude.length + 1) = v := by
  have hdrop : ('@' :: (name ++ (prelude ++ c :: v))).drop (name.length + 1) = prelude ++ c :: v := by
    simp
  refine ⟨hdrop, by simp, ?_, ?_⟩
  · rw [runLength_append_stop hrun hc, List.take_left]
  · rw [← List.drop_drop, ← List.drop_drop, hdrop, List.drop_left, List.drop_one, List.tail_cons]

/-- Where the brace or the semicolon stands that ends the head of an at-rule. -/
def Reader.headEnd (r : Reader) (name prelude : Text) : Position :=
  advance (advance r.here ('@' :: name)) prelude

theorem Reader.step_block_eq {name prelude v : Text}
    (hrest : r.rest = '@' :: (name ++ (prelude ++ '{' :: v))) (hhead : AtHead name prelude) :
    r.step = .ok (some ((r.openBlock r.here (.atRule name (Text.trim prelude) true)).take
      (r.headEnd name prelude) (name.length + 1 + prelude.length + 1) false)) := by
  obtain ⟨hdrop, htake, hprelude, -⟩ := cut_at name v (c := '{') rfl hhead.run
  have hstep := Reader.step_at (by decide) hrest hhead
  simp only [Reader.readAtRule, hrest, hdrop, htake, hprelude, List.drop_left] at hstep
  exact hstep

theorem Reader.step_block {name prelude v : Text}
    (hrest : r.rest = '@' :: (name ++ (prelude ++ '{' :: v))) (hhead : AtHead name prelude) :
    ∃ r', r.step = .ok (some r') ∧ r'.nodes = [] ∧ r'.rest = v ∧
      r'.opened =
        ⟨⟨some r.here, none⟩, .atRule name (Text.trim prelude) true, r.nodes⟩ :: r.opened := by
  obtain ⟨-, -, -, hafter⟩ := cut_at name v (c := '{') rfl hhead.run
  exact ⟨_, Reader.step_block_eq hrest hhead, rfl,
    by rw [Reader.take, Reader.openBlock, hrest, hafter], rfl⟩

theorem Reader.step_statement_eq {name prelude v : Text}
    (hrest : r.rest = '@' :: (name ++ (prelude ++ ';' :: v))) (hhead : AtHead name prelude) :
    r.step = .ok (some ((r.add (.block { source := some r.here }
      (.atRule name (Text.trim prelude) false) [])).take (r.headEnd name prelude)
      (name.length + 1 + prelude.length + 1) true)) := by
  obtain ⟨hdrop, htake, hprelude, -⟩ := cut_at name v (c := ';') rfl hhead.run
  have hstep := Reader.step_at (by decide) hrest hhead
  simp only [Reader.readAtRule, hrest, hdrop, htake, hprelude, List.drop_left] at hstep
  exact hstep

theorem Reader.step_statement {name prelude v : Text}
    (hrest : r.rest = '@' :: (name ++ (prelude ++ ';' :: v))) (hhead : AtHead name prelude) :
    ∃ r', r.step = .ok (some r') ∧ r'.rest = v ∧ r'.opened = r.opened ∧
      r'.nodes = r.nodes ++
        [.block ⟨some r.here, none⟩ (.atRule name (Text.trim prelude) false) []] := by
  obtain ⟨-, -, -, hafter⟩ := cut_at name v (c := ';') rfl hhead.run
  exact ⟨_, Reader.step_statement_eq hrest hhead,
    by rw [Reader.take, Reader.add, hrest, hafter], rfl, rfl⟩

theorem Reader.step_semicolon_eq {v : Text} (hrest : r.rest = ';' :: v) :
    r.step = .ok (some (r.take r.here 1 false)) := by
  have hselector : selectorLength? (';' :: v) = none :=
    selectorLength?_eq_none Run.nil (Or.inr rfl) v
  have hdeclaration := declarationLength?_of_stop (by decide : isStop ';' = true) v
  simp only [Reader.step, hrest, hselector, hdeclaration, ite_self]
  rfl

theorem Reader.step_semicolon {v : Text} (hrest : r.rest = ';' :: v) :
    ∃ r', r.step = .ok (some r') ∧ r'.rest = v ∧ r'.opened = r.opened ∧ r'.nodes = r.nodes :=
  ⟨_, Reader.step_semicolon_eq hrest, by simp [Reader.take, hrest], rfl, rfl⟩

theorem Reader.step_close_eq {v : Text} (hrest : r.rest = '}' :: v) (hopen : r.opened ≠ []) :
    r.step = .ok (some (r.closeBlock.take r.here 1 true)) := by
  have hselector : selectorLength? ('}' :: v) = none :=
    selectorLength?_eq_none Run.nil (Or.inl rfl) v
  have hdeclaration := declarationLength?_of_stop (by decide : isStop '}' = true) v
  have hnonempty : r.opened.isEmpty = false := by simp [hopen]
  simp only [Reader.step, hrest, hselector, hdeclaration, ite_self, hnonempty]
  rfl

theorem Reader.step_close {v : Text} {f : Frame} {fs : List Frame} (hrest : r.rest = '}' :: v)
    (hopened : r.opened = f :: fs) :
    ∃ r', r.step = .ok (some r') ∧ r'.rest = v ∧ r'.opened = fs ∧
      r'.nodes = f.before ++ [.block f.origin f.header r.nodes] := by
  refine ⟨_, Reader.step_close_eq hrest (by simp [hopened]), ?_, ?_, ?_⟩
  all_goals simp [Reader.take, Reader.closeBlock, hopened, hrest]

end Steps

/-! ### From the reader to the grammar -/

/-- The declarations that a reader meets on its way. -/
def Reader.lexemes : Nat → Reader → List Text
  | 0, _ => []
  | fuel + 1, r =>
    match r.skipLayout.step with
    | .ok (some r') => r.skipLayout.declarationHere ++ Reader.lexemes fuel r'
    | _ => []

/-- The contents of all declarations in a list of trees, in the order of the text. -/
def contents (ns : List Node) : List Declaration := (Node.walkAll ns).filterMap Node.content?

theorem contents_append (ns ms : List Node) : contents (ns ++ ms) = contents ns ++ contents ms := by
  simp [contents, Node.walkAll_eq_flatMap]

theorem contents_block (o : Origin) (h : Header) (ns : List Node) :
    contents [.block o h ns] = contents ns := by
  simp only [contents, Node.walkAll, Node.walk, List.append_nil]
  rfl

/-- The contents of the declarations read so far, those of the outermost block first. -/
def Reader.contents (r : Reader) : List Declaration :=
  (r.opened.reverse.flatMap fun f => Source.contents f.before) ++ Source.contents r.nodes

/-- A step reads the declaration in front of the reader, and no other. -/
theorem Reader.Move.contents {r r' : Reader} (h : r.Move r') :
    r'.contents = r.contents ++ r.declarationHere.map declarationOf := by
  have hnone : declarationLength? r.rest = none → r.declarationHere = [] := by
    intro hnone
    simp only [Reader.declarationHere, hnone, ite_self]
    cases selectorLength? r.rest <;> rfl
  cases h with
  | selector hu htext hnodes hopened _ =>
    have hhere : r.declarationHere = [] := by
      rw [Reader.declarationHere, hu, selectorLength?_append htext]
    rw [Reader.contents, Reader.contents, hnodes, hopened, hhere]
    simp [Source.contents, Node.walkAll]
  | declaration _ _ _ _ hhere hnodes hopened _ =>
    rw [Reader.contents, Reader.contents, hnodes, hopened, hhere, contents_append,
      List.append_assoc]
    rfl
  | block hu _ hnodes hopened _ =>
    have hhere := hnone (by rw [hu, declarationLength?_of_at])
    rw [Reader.contents, Reader.contents, hnodes, hopened, hhere]
    simp [Source.contents, Node.walkAll]
  | statement hu _ hnodes hopened _ =>
    have hhere := hnone (by rw [hu, declarationLength?_of_at])
    rw [Reader.contents, Reader.contents, hnodes, hopened, hhere, contents_append, contents_block]
    simp [Source.contents, Node.walkAll]
  | semicolon hu hnodes hopened _ =>
    have hhere := hnone (by rw [hu, declarationLength?_of_stop (by decide)])
    rw [Reader.contents, Reader.contents, hnodes, hopened, hhere]
    simp
  | close hu hopen hnodes _ =>
    have hhere := hnone (by rw [hu, declarationLength?_of_stop (by decide)])
    rw [Reader.contents, Reader.contents, hnodes, hopen, hhere, contents_append, contents_block]
    simp

theorem Reader.contents_of_run {r : Reader} {fuel : Nat} (hfuel : r.rest.length < fuel)
    {result : List Node} (h : r.run fuel = .ok result) :
    Source.contents result = r.contents ++ (r.lexemes fuel).map declarationOf := by
  induction fuel generalizing r with
  | zero => exact absurd hfuel (Nat.not_lt_zero _)
  | succ fuel ih =>
    have hlength : r.skipLayout.rest.length ≤ r.rest.length :=
      (List.dropWhile_suffix isLayout).length_le
    rw [Reader.run] at h
    rw [Reader.lexemes]
    split at h
    · cases h
    · rename_i hstep
      cases h
      have hopened : r.opened = [] := (Reader.of_step_none hstep).2
      simp [hstep, Reader.contents, hopened]
    · rename_i r' hstep
      have hmove := Reader.move_of_step hstep
      have hlt := hmove.length_lt
      have hkeep : r.skipLayout.contents = r.contents := rfl
      simp only [hstep]
      rw [ih (by omega) h, hmove.contents, hkeep, List.map_append, List.append_assoc]

/-- What is still to be read behind the children `before` of the innermost block,
    so that the sheet gets the children `result`. -/
def Leads (ok : Text → Prop) : List Node → List Frame → Text → List Node → Prop
  | before, [], t, result => ∃ ns, Reads ok false t ns [] ∧ result = before ++ ns
  | before, f :: fs, t, result =>
    ∃ ns t', Reads ok true t ns ('}' :: t') ∧
      Leads ok (f.before ++ [.block f.origin f.header (before ++ ns)]) fs t' result

/-- Reading a statement in front of what is still to be read. -/
theorem Leads.extend {before new : List Node} {fs : List Frame} {t t' : Text} {result : List Node}
    (h : Leads ok (before ++ new) fs t' result)
    (hread : ∀ {ns r}, Reads ok (!fs.isEmpty) t' ns r → Reads ok (!fs.isEmpty) t (new ++ ns) r) :
    Leads ok before fs t result := by
  cases fs with
  | nil =>
    obtain ⟨ns, hns, hresult⟩ := h
    exact ⟨new ++ ns, hread hns, by rw [hresult, List.append_assoc]⟩
  | cons f fs =>
    obtain ⟨ns, t'', hns, hrest⟩ := h
    refine ⟨new ++ ns, t'', hread hns, ?_⟩
    rw [← List.append_assoc]
    exact hrest

theorem Leads.skipLayout {before result : List Node} {fs : List Frame} {t : Text}
    (h : Leads ok before fs (t.dropWhile isLayout) result) : Leads ok before fs t result := by
  obtain ⟨ht, hblanks, -⟩ := Text.span_takeWhile isLayout t
  rw [← List.append_nil before] at h
  refine h.extend fun hns => ?_
  rw [ht]
  exact Reads.layouts hblanks hns

/-- One step of the reader is one rule of the grammar. -/
theorem Reader.Move.leads {r r' : Reader} (h : r.Move r') (hok : ∀ u ∈ r.declarationHere, ok u)
    {result : List Node} (hrest : Leads ok r'.nodes r'.opened r'.rest result) :
    Leads ok r.nodes r.opened r.rest result := by
  cases h with
  | selector hu htext hnodes hopened hv =>
    rw [hnodes, hopened, hv] at hrest
    obtain ⟨body, t', hbody, hrest⟩ := hrest
    rw [hu]
    exact hrest.extend fun hns => .rule _ htext hbody hns
  | declaration hu hc htext hopen hhere hnodes hopened hv =>
    rw [hnodes, hopened, hv] at hrest
    have hinside : (!r.opened.isEmpty) = true := by simp [hopen]
    have hspelled : ok _ := hok _ (by rw [hhere]; exact List.mem_singleton_self _)
    rw [hu]
    refine hrest.extend ?_
    rw [hinside]
    exact fun hns => .declaration _ htext hspelled hc hns
  | block hu hhead hnodes hopened hv =>
    rw [hnodes, hopened, hv] at hrest
    obtain ⟨body, t', hbody, hrest⟩ := hrest
    rw [hu]
    exact hrest.extend fun hns => .atRule _ hhead hbody hns
  | statement hu hhead hnodes hopened hv =>
    rw [hnodes, hopened, hv] at hrest
    rw [hu]
    exact hrest.extend fun hns => .statement _ hhead hns
  | semicolon hu hnodes hopened hv =>
    rw [hnodes, hopened, hv, ← List.append_nil r.nodes] at hrest
    rw [hu]
    exact hrest.extend fun hns => .semicolon hns
  | close hu hopen hnodes hv =>
    -- nothing more is to be read in the block that ends here
    rw [hnodes, hv] at hrest
    rw [hu, hopen]
    exact ⟨[], _, .stop, by rw [List.append_nil]; exact hrest⟩

theorem Reader.leads_of_run {r : Reader} {fuel : Nat} (hfuel : r.rest.length < fuel)
    {result : List Node} (h : r.run fuel = .ok result) (hok : ∀ u ∈ r.lexemes fuel, ok u) :
    Leads ok r.nodes r.opened r.rest result := by
  induction fuel generalizing r with
  | zero => exact absurd hfuel (Nat.not_lt_zero _)
  | succ fuel ih =>
    have hlength : r.skipLayout.rest.length ≤ r.rest.length :=
      (List.dropWhile_suffix isLayout).length_le
    apply Leads.skipLayout
    rw [Reader.run] at h
    rw [Reader.lexemes] at hok
    split at h
    · cases h
    · rename_i hstep
      cases h
      obtain ⟨hrest, hopened⟩ := Reader.of_step_none hstep
      have hrest' : r.rest.dropWhile isLayout = [] := hrest
      have hopened' : r.opened = [] := hopened
      rw [hrest', hopened']
      exact ⟨[], .stop, by rw [List.append_nil]⟩
    · rename_i r' hstep
      have hmove := Reader.move_of_step hstep
      have hlt := hmove.length_lt
      simp only [hstep, List.mem_append] at hok
      exact hmove.leads (fun u hu => hok u (Or.inl hu))
        (ih (by omega) h fun u hu => hok u (Or.inr hu))

/-- The texts of the declarations in a stylesheet without comments, in the order
    in which they are read. -/
def declarationTexts (t : Text) : List Text := (Reader.start t).lexemes (t.length + 1)

theorem exists_run_of_read {t : Text} {root : Node} (h : read t = .ok root) :
    ∃ ns, root = .block {} .sheet ns ∧ (Reader.start t).run (t.length + 1) = .ok ns := by
  unfold read at h
  cases hrun : (Reader.start t).run (t.length + 1) with
  | error e =>
    rw [hrun] at h
    cases h
  | ok ns =>
    rw [hrun] at h
    cases h
    exact ⟨ns, rfl, rfl⟩

/-- They spell the declarations of the tree that is read. -/
theorem contents_of_read {t : Text} {root : Node} (h : read t = .ok root) :
    root.walk.filterMap Node.content? = (declarationTexts t).map declarationOf := by
  obtain ⟨ns, rfl, hrun⟩ := exists_run_of_read h
  exact Reader.contents_of_run (Nat.lt_succ_self _) hrun

/-- **What is read can be derived.** -/
theorem reads_of_read {t : Text} {root : Node} (h : read t = .ok root)
    (hok : ∀ u ∈ declarationTexts t, ok u) :
    ∃ ns, root = .block {} .sheet ns ∧ Reads ok false t ns [] := by
  obtain ⟨result, rfl, hrun⟩ := exists_run_of_read h
  obtain ⟨ns, hns, hresult⟩ := Reader.leads_of_run (Nat.lt_succ_self _) hrun hok
  rw [hresult]
  exact ⟨ns, rfl, hns⟩

/-! ### From the grammar to the reader -/

/-- What the reader makes of all the rest. -/
def Reader.finish (r : Reader) : Except ParseError (List Node) := r.run (r.rest.length + 1)

theorem Reader.run_congr {r : Reader} {m n : Nat} (hm : r.rest.length < m) (hn : r.rest.length < n) :
    r.run m = r.run n := by
  induction m generalizing r n with
  | zero => exact absurd hm (Nat.not_lt_zero _)
  | succ m ih =>
    cases n with
    | zero => exact absurd hn (Nat.not_lt_zero _)
    | succ n =>
      have hlength : r.skipLayout.rest.length ≤ r.rest.length :=
        (List.dropWhile_suffix isLayout).length_le
      rw [Reader.run, Reader.run]
      split
      · rfl
      · rfl
      · rename_i r' hstep
        have hlt := (Reader.move_of_step hstep).length_lt
        exact ih (by omega) (by omega)

theorem Reader.finish_step {r r' : Reader} (h : r.skipLayout.step = .ok (some r')) :
    r.finish = r'.finish := by
  have hlength : r.skipLayout.rest.length ≤ r.rest.length :=
    (List.dropWhile_suffix isLayout).length_le
  have hlt := (Reader.move_of_step h).length_lt
  rw [Reader.finish, Reader.run, h]
  exact Reader.run_congr (by omega) (Nat.lt_succ_self _)

theorem Reader.finish_nil {r : Reader} (hrest : r.rest = []) (hopened : r.opened = []) :
    r.finish = .ok r.nodes := by
  have hstep : r.skipLayout.step = .ok none := by
    simp [Reader.skipLayout, Reader.step, hrest, hopened]
  rw [Reader.finish, Reader.run, hstep]

/-- A blank between lexemes changes the place of the reader only. -/
theorem Reader.finish_layout {r : Reader} {c : Char} {t : Text} (hc : isLayout c = true)
    (hrest : r.rest = c :: t) :
    r.finish = Reader.finish { r with here := advance r.here [c], rest := t } := by
  generalize hr' : ({ r with here := advance r.here [c], rest := t } : Reader) = r'
  have hskip : r.skipLayout = r'.skipLayout := by
    simp [← hr', Reader.skipLayout, hrest, List.takeWhile_cons_of_pos hc,
      List.dropWhile_cons_of_pos hc, advance]
  have hnodes : r.nodes = r'.nodes := by rw [← hr']
  have hlength : r'.rest.length < r.rest.length + 1 := by
    rw [← hr', hrest]
    exact Nat.lt_succ_of_lt (Nat.lt_succ_self _)
  have hfinish : r'.finish = r'.run (r.rest.length + 1) :=
    Reader.run_congr (Nat.lt_succ_self _) hlength
  rw [hfinish, Reader.finish, Reader.run, Reader.run, hskip, hnodes]

theorem isBlank_of_isLayout {c : Char} (h : isLayout c = true) : Text.isBlank c = true := by
  simp only [isLayout, Bool.or_eq_true, beq_iff_eq] at h
  rcases h with (((rfl | rfl) | rfl) | rfl) | rfl <;> decide

theorem Reader.rest_skipLayout {r : Reader} {c : Char} (hhead : r.rest.head? = some c)
    (hc : Text.isBlank c = false) : r.skipLayout.rest = r.rest := by
  obtain ⟨t, ht⟩ := List.head?_eq_some_iff.mp hhead
  have hlayout : isLayout c = false := by
    cases h : isLayout c with
    | false => rfl
    | true =>
      rw [isBlank_of_isLayout h] at hc
      cases hc
  simp [Reader.skipLayout, ht, hlayout]

theorem SelectorText.exists_head {u : Text} (hu : SelectorText u) (v : Text) :
    ∃ c, (u ++ v).head? = some c ∧ Text.isBlank c = false := by
  obtain ⟨c, w, rfl⟩ := List.exists_cons_of_ne_nil hu.nonempty
  exact ⟨c, rfl, (hu.head c rfl).2⟩

theorem DeclarationText.exists_head {u : Text} (hu : DeclarationText u) (v : Text) :
    ∃ c, (u ++ v).head? = some c ∧ Text.isBlank c = false := by
  obtain ⟨hne, hname, -, -⟩ := hu
  obtain ⟨c, w, rfl⟩ := List.exists_cons_of_ne_nil hne
  have hc := hname c (by simp)
  simp only [isNameChar, Bool.not_eq_true', Bool.or_eq_false_iff] at hc
  exact ⟨c, rfl, hc.2⟩

/-- The reader gets to the front of `rest`, and on its way it reads `ns`, but for
    their places, into the block it is in. -/
def Reader.Reaches (r : Reader) (rest : Text) (ns : List Node) : Prop :=
  ∃ (r' : Reader) (read : List Node), r.finish = r'.finish ∧ r'.rest = rest ∧
    r'.opened = r.opened ∧ r'.nodes = r.nodes ++ read ∧
      read.map Node.unplaced = ns.map Node.unplaced

theorem Reader.Reaches.after {r r' : Reader} {rest : Text} {new' ns : List Node}
    (h : r'.Reaches rest ns) (new : List Node) (hfinish : r.finish = r'.finish) (hopened : r'.opened = r.opened)
    (hnodes : r'.nodes = r.nodes ++ new') (hnew : new'.map Node.unplaced = new.map Node.unplaced) :
    r.Reaches rest (new ++ ns) := by
  obtain ⟨r'', read, hfinish', hrest, hopened', hnodes', hread⟩ := h
  refine ⟨r'', new' ++ read, hfinish.trans hfinish', hrest, hopened'.trans hopened, ?_, ?_⟩
  · rw [hnodes', hnodes, List.append_assoc]
  · rw [List.map_append, List.map_append, hnew, hread]

/-- The reader goes through a block: from behind its opening brace to behind its
    closing brace. -/
theorem Reader.Reaches.closeBlock {r r' : Reader} {f : Frame} {rest : Text} {body : List Node}
    (h : r'.Reaches ('}' :: rest) body) (hnodes : r'.nodes = []) (hopened : r'.opened = f :: r.opened)
    (hfinish : r.finish = r'.finish) :
    ∃ (r'' : Reader) (read : List Node), r.finish = r''.finish ∧ r''.rest = rest ∧
      r''.opened = r.opened ∧ r''.nodes = f.before ++ [.block f.origin f.header read] ∧
        read.map Node.unplaced = body.map Node.unplaced := by
  obtain ⟨r₁, read, hfinish₁, hrest₁, hopened₁, hnodes₁, hread⟩ := h
  rw [hnodes, List.nil_append] at hnodes₁
  have hskip : r₁.skipLayout.rest = '}' :: rest := by
    rw [Reader.rest_skipLayout (c := '}') (by rw [hrest₁]; rfl) (by decide), hrest₁]
  obtain ⟨r₂, hstep, hrest₂, hopened₂, hnodes₂⟩ :=
    Reader.step_close hskip (show r₁.skipLayout.opened = f :: r.opened from hopened₁.trans hopened)
  have hkeep : r₁.skipLayout.nodes = read := hnodes₁
  rw [hkeep] at hnodes₂
  exact ⟨r₂, read, (hfinish.trans hfinish₁).trans (Reader.finish_step hstep), hrest₂, hopened₂,
    hnodes₂, hread⟩

/-- **What can be derived is read**, from wherever the reader stands. -/
theorem Reads.reaches {inside : Bool} {t rest : Text} {ns : List Node}
    (h : Reads ok inside t ns rest) {r : Reader} (hrest : r.rest = t)
    (hinside : inside = !r.opened.isEmpty) : r.Reaches rest ns := by
  -- the reader is any, for the content of a block is read with one block more open
  induction h generalizing r with
  | stop => exact ⟨r, [], rfl, hrest, rfl, by rw [List.append_nil], rfl⟩
  | layout hc _ ih =>
    obtain ⟨r', read, hfinish, h⟩ :=
      ih (r := { r with here := advance r.here [_], rest := _ }) rfl hinside
    exact ⟨r', read, (Reader.finish_layout hc hrest).trans hfinish, h⟩
  | semicolon _ ih =>
    have hskip := Reader.rest_skipLayout (c := ';') (by rw [hrest]; rfl) (by decide)
    obtain ⟨r₁, hstep, hrest₁, hopened, hnodes⟩ := Reader.step_semicolon (hskip.trans hrest)
    have hreach := ih hrest₁ (by rw [hopened]; exact hinside)
    exact hreach.after [] (Reader.finish_step hstep) hopened
      (hnodes.trans (List.append_nil r.nodes).symm) rfl
  | declaration place hu hok hc _ ih =>
    obtain ⟨d, hhead, hblank⟩ := hu.exists_head _
    have hskip := Reader.rest_skipLayout (by rw [hrest]; exact hhead) hblank
    have hopen : r.skipLayout.opened ≠ [] := by
      intro hnil
      have hnil' : r.opened = [] := hnil
      simp [hnil'] at hinside
    obtain ⟨r₁, hstep, hrest₁, hopened, hnodes⟩ :=
      Reader.step_declaration (hskip.trans hrest) hc hu hopen
    have hreach := ih hrest₁ (by rw [hopened]; exact hinside)
    exact hreach.after [_] (Reader.finish_step hstep) hopened hnodes rfl
  | rule place hu _ _ ihbody ih =>
    obtain ⟨d, hhead, hblank⟩ := hu.exists_head _
    have hskip := Reader.rest_skipLayout (by rw [hrest]; exact hhead) hblank
    obtain ⟨r₁, hstep, hnodes, hrest₁, hopened⟩ := Reader.step_selector (hskip.trans hrest) hu
    have hbody := ihbody hrest₁ (by rw [hopened]; rfl)
    obtain ⟨r₂, read, hfinish, hrest₂, hopened₂, hnodes₂, hread⟩ :=
      hbody.closeBlock (r := r) hnodes hopened (Reader.finish_step hstep)
    have hreach := ih hrest₂ (by rw [hopened₂]; exact hinside)
    refine hreach.after [_] hfinish hopened₂ hnodes₂ ?_
    simp [Node.unplaced_block, hread, Origin.unplaced]
  | atRule place hhead _ _ ihbody ih =>
    have hskip := Reader.rest_skipLayout (c := '@') (by rw [hrest]; rfl) (by decide)
    obtain ⟨r₁, hstep, hnodes, hrest₁, hopened⟩ := Reader.step_block (hskip.trans hrest) hhead
    have hbody := ihbody hrest₁ (by rw [hopened]; rfl)
    obtain ⟨r₂, read, hfinish, hrest₂, hopened₂, hnodes₂, hread⟩ :=
      hbody.closeBlock (r := r) hnodes hopened (Reader.finish_step hstep)
    have hreach := ih hrest₂ (by rw [hopened₂]; exact hinside)
    refine hreach.after [_] hfinish hopened₂ hnodes₂ ?_
    simp [Node.unplaced_block, hread, Origin.unplaced]
  | statement place hhead _ ih =>
    have hskip := Reader.rest_skipLayout (c := '@') (by rw [hrest]; rfl) (by decide)
    obtain ⟨r₁, hstep, hrest₁, hopened, hnodes⟩ :=
      Reader.step_statement (hskip.trans hrest) hhead
    have hreach := ih hrest₁ (by rw [hopened]; exact hinside)
    exact hreach.after [_] (Reader.finish_step hstep) hopened hnodes rfl

/-- **A text that can be derived is read**, into the derived nodes but for their
    places. -/
theorem read_of_reads {t : Text} {ns : List Node} (h : Reads ok false t ns []) :
    ∃ root, read t = .ok root ∧ root.unplaced = (Node.block {} .sheet ns).unplaced := by
  obtain ⟨r, nodes, hfinish, hrest, hopened, hnodes, hread⟩ :=
    h.reaches (r := Reader.start t) rfl rfl
  rw [Reader.finish_nil hrest hopened, hnodes] at hfinish
  refine ⟨.block {} .sheet nodes, ?_, ?_⟩
  · have hrun : (Reader.start t).run (t.length + 1) = .ok nodes := hfinish
    rw [read, hrun]
    rfl
  · rw [Node.unplaced_block, Node.unplaced_block, hread]

end StyleNesting.Source
