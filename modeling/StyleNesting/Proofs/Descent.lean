/-
  StyleNesting/Proofs/Descent.lean
  ================================
  **How often nesting by descent has something to do.**  A part is taken apart at
  its last blank only, so a run leaves the rule `a b` behind where it found
  `a b c`.  The longest part that can be taken apart gets shorter by one compound
  with every run (`Node.span`), and when there is none left the pass changes
  nothing any more.

  The new selectors have to be read again as they were meant: the parent is a
  row of compounds (`Steady.bounded_parent`), the child a single one (`Steady.bounded_child`),
  and the parts that stay with a rule are cut at the same commas, because only
  the last part of a list can leave a string or a bracket open (`Steady.bounded_kept`).

  A run over a tree is told by two properties of selectors, one that all rules
  have before it and a stronger one that they have afterwards (`Lowers`): what
  is made at one level is strong at the top and as before further down, and
  that is where the pass goes next.
-/
import StyleNesting.Proofs.NormalForm
import StyleNesting.Proofs.Settled

namespace StyleNesting

open Node

/-! ### How far a part can be taken apart -/

namespace Selector

/-- The number of compounds of a part that can be taken apart; any other part counts as one. -/
def span (p : Text) : Nat :=
  if (splitDescendant? p).isSome then (compounds (Text.trim p)).length else 1

theorem span_of_none {p : Text} (h : splitDescendant? p = none) : span p = 1 := by
  simp [span, h]

theorem exists_of_splitDescendant? {p parent child : Text}
    (h : splitDescendant? p = some (parent, child)) :
    ∃ init, init ≠ [] ∧ compounds (Text.trim p) = init ++ [child] ∧
      parent = Text.join [' '] init := by
  unfold splitDescendant? at h
  simp only at h
  split at h
  · cases h
  · rename_i last hlast
    split at h
    · cases h
    · rename_i hsplit
      cases h
      obtain ⟨init, hcs⟩ := List.getLast?_eq_some_iff.mp hlast
      rw [hcs, List.dropLast_concat]
      refine ⟨init, ?_, rfl, rfl⟩
      rintro rfl
      simp [hcs] at hsplit

theorem span_of_some {p parent child : Text} (h : splitDescendant? p = some (parent, child)) :
    span p = (compounds (Text.trim p)).length := by
  simp [span, h]

theorem two_le_span {p : Text} (h : (splitDescendant? p).isSome = true) : 2 ≤ span p := by
  obtain ⟨⟨parent, child⟩, hsplit⟩ := Option.isSome_iff_exists.mp h
  obtain ⟨init, hne, hcs, -⟩ := exists_of_splitDescendant? hsplit
  have hpos := List.length_pos_iff.mpr hne
  rw [span_of_some hsplit, hcs, List.length_append, List.length_singleton]
  omega

theorem span_le_length {p : Text} (h : compounds (Text.trim p) ≠ []) :
    span p ≤ (compounds (Text.trim p)).length := by
  have hpos := List.length_pos_iff.mpr h
  rw [span]
  split
  · exact Nat.le_refl _
  · exact hpos

/-! ### Selectors that are read as they are written -/

/-- Only the last part of the list may leave something open, and no compound of a part has
    a backslash in front of a blank. -/
structure Steady (s : Text) : Prop where
  closed : ∀ p ∈ (parts s).dropLast, balanced p = true
  plain : ∀ p ∈ parts s, ∀ c ∈ compounds p, escapesBlank c = false

/-- A selector whose parts can be taken apart into `b` compounds at the most. -/
structure Bounded (b : Nat) (s : Text) : Prop where
  steady : Steady s
  span_le : ∀ p ∈ parts s, span p ≤ b

theorem Bounded.mono {b b' : Nat} {s : Text} (h : Bounded b s) (hb : b ≤ b') : Bounded b' s := by
  refine ⟨h.steady, ?_⟩
  intro p hp
  exact (h.span_le p hp).trans hb

theorem infix_of_mem_compounds {p c : Text} (hc : c ∈ compounds p) : c <:+: p :=
  infix_of_mem_cut (List.mem_of_mem_filter hc)

theorem balanced_of_mem_dropLast_parts {s : Text} (hesc : escapesBlank s = false) :
    ∀ p ∈ (parts s).dropLast, balanced p = true := by
  induction s using cut_induction isComma with
  | whole t h =>
    have hlength : (partOf t).length ≤ 1 := List.length_filter_le _ _
    have hnil : (partOf t).dropLast = [] := by
      apply List.eq_nil_of_length_eq_zero
      rw [List.length_dropLast]
      omega
    rw [parts_of_unbroken h, hnil]
    exact List.forall_mem_nil _
  | sep a c b ha hbal hc ih =>
    obtain rfl : c = ',' := by simpa [isComma] using hc
    have hescA : escapesBlank a = false :=
      escapesBlank_mono (List.prefix_append a (',' :: b)).isInfix hesc
    have hescB : escapesBlank b = false :=
      escapesBlank_mono ((List.suffix_cons ',' b).trans (List.suffix_append a _)).isInfix hesc
    have hfirst : ∀ p ∈ partOf a, balanced p = true := by
      intro p hp
      obtain rfl : p = Text.trim a := List.mem_singleton.mp (List.mem_of_mem_filter hp)
      rcases run_trim hbal with hstart | ⟨-, hdangling⟩
      · exact hstart
      · rw [hescA] at hdangling
        cases hdangling
    rw [parts_append_comma ha hbal]
    intro p hp
    by_cases hrest : parts b = []
    · rw [hrest, List.append_nil] at hp
      exact hfirst p (List.mem_of_mem_dropLast hp)
    · rw [List.dropLast_append_of_ne_nil hrest, List.mem_append] at hp
      rcases hp with hp | hp
      · exact hfirst p hp
      · exact ih hescB p hp

/-- A list without a backslash in front of a blank is steady. -/
theorem steady_of_escapesBlank {s : Text} (hesc : escapesBlank s = false) : Steady s := by
  constructor
  · exact balanced_of_mem_dropLast_parts hesc
  · intro p hp c hc
    exact escapesBlank_mono ((infix_of_mem_compounds hc).trans (infix_of_mem_parts hp)) hesc

section Split

variable {s p parent child : Text}

/-- The row of compounds that a part is made of. -/
theorem exists_row_of_mem_parts (hp : p ∈ parts s)
    (hsplit : splitDescendant? p = some (parent, child)) :
    ∃ init, init ≠ [] ∧ compounds p = init ++ [child] ∧ Row init child ∧
      parent = Text.join [' '] init := by
  have hpiece := piece_of_mem_parts hp
  obtain ⟨init, hne, hcs, hparent⟩ := exists_of_splitDescendant? hsplit
  rw [Text.trim_eq_self hpiece.trimmed] at hcs
  refine ⟨init, hne, hcs, ?_, hparent⟩
  rcases compounds_row hpiece.whole with ⟨hnil, -⟩ | ⟨init', last, hcs', hrow, -⟩
  · rw [hnil] at hcs
    exact absurd hcs.symm (by simp)
  · obtain ⟨rfl, hlast⟩ := List.append_inj' (hcs.symm.trans hcs') rfl
    obtain rfl := List.singleton_inj.mp hlast
    exact hrow

/-- **What a part descends from** has one compound less. -/
theorem Steady.bounded_parent (hs : Steady s) (hp : p ∈ parts s)
    (hsplit : splitDescendant? p = some (parent, child)) : Bounded (span p - 1) parent := by
  obtain ⟨init, hne, hcs, hrow, rfl⟩ := exists_row_of_mem_parts hp hsplit
  have hplain : ∀ c ∈ init, escapesBlank c = false := by
    intro c hc
    exact hs.plain p hp c (by simp [hcs, hc])
  have hcompounds : ∀ c ∈ init, Compound c := by
    intro c hc
    exact (hrow.tokens c (by simp [hc])).compound (hrow.closed c hc) (hplain c hc)
  have hspan : span p = init.length + 1 := by
    rw [span_of_some hsplit, Text.trim_eq_self (piece_of_mem_parts hp).trimmed, hcs,
      List.length_append, List.length_singleton]
  obtain ⟨lead', last, rfl⟩ : ∃ lead' last, init = lead' ++ [last] := by
    rcases List.eq_nil_or_concat init with hnil | ⟨lead', last, hconcat⟩
    · exact absurd hnil hne
    · exact ⟨lead', last, by rw [hconcat, List.concat_eq_append]⟩
  rw [join_concat]
  have htidy : Tidy (lead lead' ++ last) := ⟨lead', last, hcompounds, rfl⟩
  have hparts := htidy.atom.parts
  have hrow' := (row_of_compounds hcompounds).compounds
  refine ⟨⟨?_, ?_⟩, ?_⟩
  · rw [hparts]
    exact List.forall_mem_nil _
  · intro q hq c hc
    rw [hparts, List.mem_singleton] at hq
    rw [hq, hrow'] at hc
    exact hplain c hc
  · intro q hq
    rw [hparts, List.mem_singleton] at hq
    rw [hq, hspan, Nat.add_sub_cancel, ← hrow']
    have htrim := Text.trim_eq_self (trimmed_row hcompounds)
    have hle := span_le_length (p := lead lead' ++ last) (by rw [htrim, hrow']; simp)
    rwa [htrim] at hle

/-- **The last compound of a part** cannot be taken apart. -/
theorem Steady.bounded_child (hs : Steady s) (hp : p ∈ parts s)
    (hsplit : splitDescendant? p = some (parent, child)) : Bounded 1 child := by
  obtain ⟨init, -, hcs, hrow, -⟩ := exists_row_of_mem_parts hp hsplit
  have hplain : escapesBlank child = false := hs.plain p hp child (by simp [hcs])
  refine ⟨steady_of_escapesBlank hplain, ?_⟩
  intro q hq
  rw [span_of_none (splitDescendant?_child hsplit hq)]

end Split

/-! ### The parts that stay -/

section Kept

variable {α : Type}

theorem eraseDups_sublist [BEq α] (xs : List α) : xs.eraseDups.Sublist xs := by
  induction hn : xs.length using Nat.strong_induction_on generalizing xs with
  | _ n ih =>
    cases xs with
    | nil => exact List.Sublist.refl _
    | cons x xs =>
      rw [List.eraseDups_cons]
      have hless : (xs.filter fun y => !y == x).length < n := by
        rw [← hn]
        exact Nat.lt_succ_of_le (List.length_filter_le _ xs)
      exact ((ih _ hless _ rfl).trans List.filter_sublist).cons_cons x

theorem mem_dropLast_of_sublist {xs ys : List α} (h : xs.Sublist ys) {x : α}
    (hx : x ∈ xs.dropLast) : x ∈ ys.dropLast := by
  induction h with
  | slnil => exact hx
  | @cons xs ys y h ih =>
    have hne : ys ≠ [] := by
      rintro rfl
      rw [List.sublist_nil.mp h] at hx
      cases hx
    rw [List.dropLast_cons_of_ne_nil hne]
    exact List.mem_cons_of_mem y (ih hx)
  | @cons_cons xs ys y h ih =>
    have hne : xs ≠ [] := by
      rintro rfl
      cases hx
    have hne' : ys ≠ [] := by
      rintro rfl
      exact hne (List.sublist_nil.mp h)
    rw [List.dropLast_cons_of_ne_nil hne, List.mem_cons] at hx
    rw [List.dropLast_cons_of_ne_nil hne', List.mem_cons]
    exact hx.imp_right ih

end Kept

/-- **The parts that cannot be taken apart** stay what they are. -/
theorem Steady.bounded_kept {s : Text} (hs : Steady s) : Bounded 1 (Text.join Text.commaSpace
    ((distinct (parts s)).filter fun p => (splitDescendant? p).isNone)) := by
  have hsub : ((distinct (parts s)).filter fun p => (splitDescendant? p).isNone).Sublist
      (parts s) := List.filter_sublist.trans (eraseDups_sublist _)
  have hclosed : ∀ p ∈ ((distinct (parts s)).filter fun p =>
      (splitDescendant? p).isNone).dropLast, balanced p = true := by
    intro p hp
    exact hs.closed p (mem_dropLast_of_sublist hsub hp)
  have hparts := parts_join_pieces (fun p hp => piece_of_mem_parts (hsub.subset hp)) hclosed
  refine ⟨⟨?_, ?_⟩, ?_⟩
  · rw [hparts]
    exact hclosed
  · intro p hp
    rw [hparts] at hp
    exact hs.plain p (hsub.subset hp)
  · intro p hp
    rw [hparts, List.mem_filter] at hp
    rw [span_of_none (Option.isNone_iff_eq_none.mp hp.2)]

end Selector

/-! ### Headers at one level -/

namespace Node

theorem fits_setNodes {ok : Text → Prop} {n : Node} (ms : List Node) :
    (n.setNodes ms).Fits ok ↔ n.Fits ok := by
  cases n with
  | block o h ns => exact Iff.rfl
  | declaration o d => exact Iff.rfl
  | leaf o => exact Iff.rfl

end Node

namespace Descendants

open Selector

/-- What nesting by descent makes of selectors with the property `high` has the property `low`. -/
structure Lowers (high low : Text → Prop) : Prop where
  weaken : ∀ s, low s → high s
  split : ∀ s, high s → ∀ p ∈ parts s, ∀ parent child,
    splitDescendant? p = some (parent, child) → low parent ∧ low child
  kept : ∀ s, high s → low (Text.join Text.commaSpace
    ((distinct (parts s)).filter fun p => (splitDescendant? p).isNone))
  whole : ∀ s, high s → (∀ p ∈ parts s, splitDescendant? p = none) → low s

variable {high low : Text → Prop}

section Rules

variable (hL : Lowers high low) {rule : Node}
include hL

theorem Lowers.split_of_mem_parts (hstyled : rule.Styled high) {p parent child : Text}
    (hp : p ∈ rule.parts) (hsplit : splitDescendant? p = some (parent, child)) :
    low parent ∧ low child := by
  match rule, hstyled, hp with
  | .block o (.rule s) ns, hstyled, hp => exact hL.split s hstyled.fits p hp parent child hsplit

theorem Lowers.kept_of_isRule (hrule : rule.isRule = true) (hstyled : rule.Styled high) :
    (rule.setSelector (Text.join Text.commaSpace (keptParts rule))).Fits low ∧
      (rule.setSelector (Text.join Text.commaSpace (keptParts rule))).Styled high := by
  obtain ⟨o, s, ns, rfl⟩ := exists_of_isRule hrule
  have hkept := hL.kept s hstyled.fits
  exact ⟨hkept, styled_rule.mpr ⟨hL.weaken _ hkept, hstyled.nodes⟩⟩

/-- A node that cannot be taken apart is done. -/
theorem Lowers.fits_of_not_splits (hstyled : rule.Styled high) (hsplits : rule.splits = false) :
    rule.Fits low := by
  have hnone : ∀ p ∈ rule.parts, splitDescendant? p = none := by
    intro p hp
    simpa using List.any_eq_false.mp hsplits p hp
  match rule, hstyled, hnone with
  | .block o (.rule s) ns, hstyled, hnone => exact hL.whole s hstyled.fits hnone
  | .block o (.atRule name params b) ns, _, _ => trivial
  | .block o .sheet ns, hstyled, _ => exact hstyled.fits
  | .block o .group ns, hstyled, _ => exact hstyled.fits
  | .declaration o d, _, _ => trivial
  | .leaf o, _, _ => trivial

end Rules

/-- A child of the block while its rules are taken apart: what does not wait is done. -/
structure Lowered (high low : Text → Prop) (waiting : List Nat) (s : Slot) : Prop where
  styled : s.node.Styled high
  done : waiting.any s.has = false → s.node.Fits low

section Placing

variable {waiting : List Nat} {w : Work} {rule : Node} {parent child : Text}

theorem updateParent_lowered (hw : ∀ s ∈ w.slots, Lowered high low waiting s) {g : Node → Node}
    (hg : ∀ n : Node, n.Styled high → ∃ ms, g n = n.setNodes ms ∧ ∀ m ∈ ms, m.Styled high) :
    ∀ s ∈ (updateParent waiting parent g w).slots, Lowered high low waiting s := by
  apply Idiom.forall_updateLast hw
  intro s _ hs
  obtain ⟨ms, hset, hms⟩ := hg s.node hs.styled
  constructor
  · rw [hset]
    exact hs.styled.setNodes hms
  · intro hdone
    rw [hset, fits_setNodes]
    exact hs.done hdone

theorem ensureParent_lowered (f : Factory) (hparent : high parent ∧ low parent)
    (hw : ∀ s ∈ w.slots, Lowered high low waiting s) :
    ∀ s ∈ (ensureParent f waiting rule parent w).slots, Lowered high low waiting s := by
  unfold ensureParent
  split
  · exact hw
  · split
    · rename_i n p hnew
      obtain ⟨⟨o, rfl⟩, -, -⟩ := Progress.eq_of_newRule_some hnew
      intro s hs
      rcases List.mem_append.mp hs with hs | hs
      · exact hw s hs
      · rw [List.mem_singleton.mp hs]
        exact ⟨styled_rule.mpr ⟨hparent.1, List.forall_mem_nil _⟩, fun _ => hparent.2⟩
    · exact hw

theorem ensureChild_lowered (f : Factory) (hchild : high child)
    (hw : ∀ s ∈ w.slots, Lowered high low waiting s) :
    ∀ s ∈ (ensureChild f waiting rule parent child w).slots, Lowered high low waiting s := by
  unfold ensureChild
  split
  · exact hw
  · split
    · rename_i n p hnew
      obtain ⟨⟨o, rfl⟩, -, -⟩ := Progress.eq_of_newRule_some hnew
      apply updateParent_lowered (w := ⟨w.slots, p⟩) hw
      intro m hm
      refine ⟨_, append_eq_setNodes _ m, ?_⟩
      intro k hk
      rcases List.mem_append.mp hk with hk | hk
      · exact hm.nodes k hk
      · rw [List.mem_singleton.mp hk]
        exact styled_rule.mpr ⟨hchild, List.forall_mem_nil _⟩
    · exact hw

theorem fill_lowered (hrule : ∀ m ∈ rule.nodes, m.Styled high)
    (hw : ∀ s ∈ w.slots, Lowered high low waiting s) :
    ∀ s ∈ (fill waiting rule parent child w).slots, Lowered high low waiting s := by
  unfold fill
  split
  · exact hw
  · have hfilled : ∀ s ∈ (updateParent waiting parent (filled rule child) w).slots,
        Lowered high low waiting s := by
      apply updateParent_lowered hw
      intro m hm
      refine ⟨_, rfl, ?_⟩
      apply Idiom.forall_updateLast hm.nodes
      intro k _ hk
      exact hk.append (styled_copyAll hrule)
    exact hfilled

/-- Content goes into rules that are done, or new. -/
theorem place_lowered (hL : Lowers high low) (f : Factory) (hrule : ∀ m ∈ rule.nodes, m.Styled high)
    (hparent : low parent) (hchild : low child)
    (hw : ∀ s ∈ w.slots, Lowered high low waiting s) :
    ∀ s ∈ (place f waiting rule w (parent, child)).slots, Lowered high low waiting s := by
  apply fill_lowered hrule
  apply ensureChild_lowered f (hL.weaken child hchild)
  exact ensureParent_lowered f ⟨hL.weaken parent hparent, hparent⟩ hw

end Placing

section Splitting

variable (hL : Lowers high low) {f : Factory} (hf : f.Obliging) {w : Work}
include hL hf

/-- **Taking one rule apart**: when its turn is over, it is done as well. -/
theorem splitRule_lowered {t : Nat} {later : List Nat} {rule : Node} (hd : w.Distinct)
    (hgo : w.stopped = false) (hget : w.get? t = some rule) (hrule : rule.isRule = true)
    (hw : ∀ s ∈ w.slots, Lowered high low (t :: later) s) :
    ∀ s ∈ (splitRule f (t :: later) t w).slots, Lowered high low later s := by
  obtain ⟨r, hr, -, hnode⟩ := Work.exists_of_get? hget
  have hstyled : rule.Styled high := hnode ▸ (hw r hr).styled
  have hplaced := List.foldlRecOn
    (motive := fun w => ∀ s ∈ w.slots, Lowered high low (t :: later) s)
    ((distinct rule.parts).filterMap splitDescendant?) (place f (t :: later) rule) hw (by
      rintro w' hw' ⟨parent, child⟩ hmem
      obtain ⟨p, hp, hsplit⟩ := List.mem_filterMap.mp hmem
      obtain ⟨hparent, hchild⟩ := hL.split_of_mem_parts hstyled (mem_distinct.mp hp) hsplit
      exact place_lowered hL f hstyled.nodes hparent hchild hw')
  have hplacedgo : (((distinct rule.parts).filterMap splitDescendant?).foldl
      (place f (t :: later) rule) w).stopped = false := foldl_place_goes_on hf hrule hgo _
  have hframe : Frame (t :: later) w _ :=
    foldl_place_frame f rule ((distinct rule.parts).filterMap splitDescendant?)
  unfold splitRule
  simp only [hgo, hget, Bool.false_eq_true, if_false]
  generalize ((distinct rule.parts).filterMap splitDescendant?).foldl
    (place f (t :: later) rule) w = placed at hplaced hplacedgo hframe ⊢
  have hfound := (hframe.kept t (by simp)).trans hget
  -- of the others, those that do not wait any longer did not wait before either
  have hothers : ∀ r ∈ placed.slots, r.has t = false → Lowered high low later r := by
    intro r hr hrt
    refine ⟨(hplaced r hr).styled, ?_⟩
    intro hlater
    apply (hplaced r hr).done
    rw [List.any_cons, hrt, hlater]
    rfl
  rw [if_neg (by rw [hplacedgo]; exact Bool.false_ne_true)]
  split
  · intro r hr
    simp only [Work.remove, hplacedgo, hfound, Bool.false_eq_true, if_false] at hr
    obtain ⟨hr, hrt⟩ := List.mem_filter.mp hr
    exact hothers r hr (by simpa using hrt)
  · intro r hr
    obtain ⟨r', hr', rfl⟩ := List.mem_map.mp hr
    by_cases hrt : r'.has t = true
    · obtain ⟨hkept, hkeptStyled⟩ := hL.kept_of_isRule hrule hstyled
      rw [if_pos hrt, (hframe.distinct hd).node_eq hfound hr' hrt]
      exact ⟨hkeptStyled, fun _ => hkept⟩
    · rw [if_neg hrt]
      exact hothers r' hr' (eq_false_of_ne_true hrt)

theorem splitAll_lowered {waiting : List Nat} (hd : w.Distinct) (hgo : w.stopped = false)
    (hnodup : waiting.Nodup) (hpresent : Present waiting w)
    (hw : ∀ s ∈ w.slots, Lowered high low waiting s) :
    ∀ s ∈ (splitAll f waiting w).slots, Lowered high low [] s := by
  induction waiting generalizing w with
  | nil => exact hw
  | cons t later ih =>
    obtain ⟨hlater, hnodup⟩ := List.nodup_cons.mp hnodup
    obtain ⟨rule, hget, hrule⟩ := hpresent t (by simp)
    exact ih (splitRule_frame f hd).1 (splitRule_goes_on hf hrule hgo (by simp) hget) hnodup
      (hpresent.after_splitRule f hd hlater) (splitRule_lowered hL hf hd hgo hget hrule hw)

/-- **One level**: what is made of the children is `low` at the top, and `high` as before
    further down. -/
theorem level_lowered {p : Progress} (hgo : p.stopped = false) {ns : List Node}
    (hns : ∀ n ∈ ns, n.Styled high) :
    ∀ m ∈ (level f p ns).1, m.Fits low ∧ ∀ k ∈ m.nodes, k.Styled high := by
  have hstart : ∀ s ∈ (Work.start p ns).slots, Lowered high low (splitTickets p ns) s := by
    intro s hs
    have hstyled : s.node.Styled high := Work.styled_start hns s hs
    refine ⟨hstyled, ?_⟩
    intro hdone
    apply hL.fits_of_not_splits hstyled
    rwa [any_splitTickets hs] at hdone
  intro m hm
  obtain ⟨s, hs, rfl⟩ := List.mem_map.mp hm
  have hlowered := splitAll_lowered hL hf (Work.distinct_start p ns) hgo (nodup_splitTickets p ns)
    (present_splitTickets p ns) hstart s hs
  exact ⟨hlowered.done rfl, hlowered.styled.nodes⟩

end Splitting

end Descendants

/-! ### Whole trees -/

section Trees

open Descendants

variable {high low : Text → Prop}

/-- What a run makes of a block that has `high` selectors inside has `low` ones. -/
structure Sinks (high low : Text → Prop) (n m : Node) : Prop where
  header : n.Fits low → m.Fits low
  nodes : (∀ k ∈ n.nodes, k.Styled high) → ∀ k ∈ m.nodes, k.Styled low

theorem nodes_of_not_isStyleBlock {n : Node} (hfits : n.Fits low) (hn : n.isStyleBlock = false) :
    n.nodes = [] := by
  match n, hfits, hn with
  | .declaration o d, _, _ => rfl
  | .leaf o, _, _ => rfl

theorem styled_of_entered {ns ms : List Node} (h : List.Forall₂ (Entered (Sinks high low)) ns ms)
    (hns : ∀ n ∈ ns, n.Fits low ∧ ∀ k ∈ n.nodes, k.Styled high) : ∀ m ∈ ms, m.Styled low := by
  intro m hm
  obtain ⟨n, hn, hnm⟩ := exists_of_mem_forall₂ h hm
  obtain ⟨hfits, hnodes⟩ := hns n hn
  rcases hnm with ⟨-, hsinks⟩ | ⟨hplain, rfl⟩
  · exact styled_iff.mpr ⟨hsinks.header hfits, hsinks.nodes hnodes⟩
  · refine styled_iff.mpr ⟨hfits, ?_⟩
    rw [nodes_of_not_isStyleBlock hfits hplain]
    exact List.forall_mem_nil _

theorem follows_descendants (hL : Lowers high low) {f : Factory} (hf : f.Obliging) :
    Follows (fun _ => level f) (Sinks high low) where
  goes_on _ p ns hgo := level_goes_on hf p ns hgo
  plain n hn := by
    refine ⟨fun h => h, ?_⟩
    intro _ k hk
    cases n with
    | block o h ns => cases hn
    | declaration o d => cases hk
    | leaf o => cases hk
  block o h p ns ms hgo hms := by
    refine ⟨fun h => h, ?_⟩
    intro hns
    exact styled_of_entered hms (level_lowered hL hf hgo hns)

/-- **A run lowers the selectors of the whole tree.** -/
theorem styled_nestDescendants (hL : Lowers high low) {n : Node}
    (hn : ∀ k ∈ n.nodes, k.Styled high) :
    ∀ k ∈ (nestDescendants Factory.clone {} n).1.nodes, k.Styled low := by
  have hends : Ends (fun _ => level Factory.clone) {} n (nestDescendants Factory.clone {} n) :=
    Pass.ends_run Factory.clone .descendants rfl n
  exact (hends.follows (follows_descendants hL Factory.clone_obliging) rfl).1.nodes hn

end Trees

theorem lowers_bounded {b : Nat} (hb : 1 ≤ b) :
    Descendants.Lowers (Selector.Bounded b) (Selector.Bounded (max (b - 1) 1)) where
  weaken s hs := hs.mono (by omega)
  split s hs p hp parent child hsplit := by
    have hspan := hs.span_le p hp
    exact ⟨(hs.steady.bounded_parent hp hsplit).mono (by omega),
      (hs.steady.bounded_child hp hsplit).mono (by omega)⟩
  kept s hs := hs.steady.bounded_kept.mono (by omega)
  whole s hs hnone := by
    refine ⟨hs.steady, ?_⟩
    intro p hp
    rw [Selector.span_of_none (hnone p hp)]
    omega

/-! ### Nothing left to take apart -/

theorem Node.Reaches.mem_walk {n k : Node} (h : n.Reaches k) : ∀ m ∈ k.nodes, m ∈ n.walk := by
  induction h with
  | @here n =>
    intro m hm
    exact mem_walk_iff.mpr ⟨m, hm, by simp⟩
  | @inside n l k hl _ _ ih =>
    intro m hm
    exact mem_walk_iff.mpr ⟨l, hl, by simp [ih m hm]⟩

theorem Descendants.level_eq_self (f : Factory) (p : Progress) {ns : List Node}
    (h : ∀ n ∈ ns, n.splits = false) : level f p ns = (ns, p) := by
  have hnone : (Work.start p ns).slots.filter (·.node.splits) = [] := by
    apply List.filter_eq_nil_iff.mpr
    intro s hs
    simp [h s.node (Slot.mem_iff_number.mpr ⟨s, hs, rfl⟩)]
  rw [level, hnone]
  exact Prod.ext (Work.nodes_start p ns) rfl

theorem nestDescendants_eq_self {n : Node} (h : ∀ m ∈ n.walk, m.splits = false) :
    (nestDescendants Factory.clone {} n).1 = n := by
  rw [nestDescendants, if_neg (by decide), topDown_eq_self]
  intro k hk _
  apply Descendants.level_eq_self
  intro m hm
  exact h m (hk.mem_walk m hm)

/-! ### The longest part of a tree -/

namespace Node

/-- The number of compounds of the longest part that can be taken apart, of any rule below a
    node; one if there is none. -/
def span (n : Node) : Nat := ((n.walk.flatMap parts).map Selector.span).foldr max 1

theorem foldr_max_le_iff {xs : List Nat} {b : Nat} :
    xs.foldr max 1 ≤ b ↔ 1 ≤ b ∧ ∀ x ∈ xs, x ≤ b := by
  induction xs with
  | nil => simp
  | cons x xs ih =>
    rw [List.foldr_cons, Nat.max_le, ih, List.forall_mem_cons]
    exact and_left_comm

variable {n : Node} {b : Nat}

theorem span_le_iff :
    n.span ≤ b ↔ 1 ≤ b ∧ ∀ m ∈ n.walk, ∀ p ∈ m.parts, Selector.span p ≤ b := by
  rw [span, foldr_max_le_iff]
  apply and_congr_right
  intro _
  constructor
  · intro h m hm p hp
    exact h _ (List.mem_map_of_mem (List.mem_flatMap.mpr ⟨m, hm, hp⟩))
  · intro h x hx
    obtain ⟨p, hp, rfl⟩ := List.mem_map.mp hx
    obtain ⟨m, hm, hp⟩ := List.mem_flatMap.mp hp
    exact h m hm p hp

theorem span_le_of_mem_parts {m : Node} (hfits : m.Fits (Selector.Bounded b)) {p : Text}
    (hp : p ∈ m.parts) : Selector.span p ≤ b := by
  match m, hfits, hp with
  | .block o (.rule s) ns, hfits, hp => exact hfits.span_le p hp

theorem fits_of_mem_walk {ok : Text → Prop} (h : ∀ k ∈ n.nodes, k.Styled ok) :
    ∀ m ∈ n.walk, m.Fits ok := by
  intro m hm
  obtain ⟨k, hk, hm⟩ := mem_walk_iff.mp hm
  exact h k hk m hm

theorem span_le_of_styled (hb : 1 ≤ b) (h : ∀ k ∈ n.nodes, k.Styled (Selector.Bounded b)) :
    n.span ≤ b := by
  refine span_le_iff.mpr ⟨hb, ?_⟩
  intro m hm p hp
  exact span_le_of_mem_parts (fits_of_mem_walk h m hm) hp

theorem not_splits_of_span (h : n.span ≤ 1) : ∀ m ∈ n.walk, m.splits = false := by
  intro m hm
  apply List.any_eq_false.mpr
  intro p hp hsplit
  have hspan := (span_le_iff.mp h).2 m hm p hp
  have htwo := Selector.two_le_span hsplit
  omega

end Node

/-- What the reader builds is bounded, where no backslash stands in front of a blank. -/
theorem bounded_of_parse {t : Text} {root : Node} (hparse : Source.parse t = .ok root)
    (hesc : ∀ m ∈ root.walk, m.selector?.any Selector.escapesBlank = false) :
    ∀ k ∈ root.nodes, k.Styled (Selector.Bounded root.span) := by
  intro k hk m hm
  have hfits := Source.styled_of_parse hparse k hk m hm
  have hwalk : m ∈ root.walk := mem_walk_iff.mpr ⟨k, hk, hm⟩
  have hspan := (span_le_iff.mp (Nat.le_refl root.span)).2 m hwalk
  have hplain := hesc m hwalk
  match m, hfits, hspan, hplain with
  | .block o (.rule s) ns, _, hspan, hplain =>
    exact ⟨Selector.steady_of_escapesBlank hplain, hspan⟩
  | .block o (.atRule name params b) ns, _, _, _ => trivial
  | .declaration o d, _, _, _ => trivial
  | .leaf o, _, _, _ => trivial

section Repeated

variable {n : Node} (h : ∀ k ∈ n.nodes, k.Styled (Selector.Bounded n.span))
include h

theorem styled_repeated (k : Nat) : ∀ m ∈ (Pass.descendants.repeated n k).nodes,
    m.Styled (Selector.Bounded (max (n.span - k) 1)) := by
  have hpos : 1 ≤ n.span := (span_le_iff.mp (Nat.le_refl n.span)).1
  induction k with
  | zero =>
    intro m hm
    exact (h m hm).mono fun s hs => hs.mono (by omega)
  | succ k ih =>
    have hstep : max (max (n.span - k) 1 - 1) 1 = max (n.span - (k + 1)) 1 := by omega
    rw [← hstep]
    exact styled_nestDescendants (lowers_bounded (by omega)) ih

theorem span_repeated (k : Nat) : (Pass.descendants.repeated n k).span ≤ max (n.span - k) 1 :=
  span_le_of_styled (by omega) (styled_repeated h k)

theorem repeated_eq {k : Nat} (hk : n.span - 1 ≤ k) :
    Pass.descendants.repeated n k = Pass.descendants.repeated n (n.span - 1) := by
  induction k with
  | zero => rw [Nat.le_zero.mp hk]
  | succ k ih =>
    by_cases hlast : n.span - 1 = k + 1
    · rw [hlast]
    · have hspan := span_repeated h k
      rw [← ih (by omega)]
      exact nestDescendants_eq_self (not_splits_of_span (by omega))

end Repeated

/-- **Repeated nesting by descent converges.**  Every run comes to its end; after `k` runs the
    longest part that can be taken apart has at least `k` compounds less, down to one; and after
    as many runs as bring it to one there is no rule to take apart anywhere, and no further run
    changes the tree. -/
theorem nestDescendants_converges {t : Text} {root : Node} (hparse : Source.parse t = .ok root)
    (hesc : ∀ m ∈ root.walk, m.selector?.any Selector.escapesBlank = false) :
    (∀ n, (nestDescendants Factory.clone {} n).2.failure = none) ∧
      (∀ k, (Pass.descendants.repeated root k).span ≤ max (root.span - k) 1) ∧
      (∀ m ∈ (Pass.descendants.repeated root (root.span - 1)).walk, m.splits = false) ∧
      ∀ k, root.span - 1 ≤ k →
        Pass.descendants.repeated root k = Pass.descendants.repeated root (root.span - 1) := by
  have hbounded := bounded_of_parse hparse hesc
  refine ⟨?_, span_repeated hbounded, ?_, ?_⟩
  · intro n
    exact failure_of_goes_on (nestDescendants_goes_on Factory.clone_obliging {} n rfl)
  · have hspan := span_repeated hbounded (root.span - 1)
    exact not_splits_of_span (by omega)
  · intro k hk
    exact repeated_eq hbounded hk

/-- The sheet `a b c,d>e{c:r}a b{f g{c:s}}`. -/
def descentSheet : Text :=
  ['a', ' ', 'b', ' ', 'c', ',', 'd', '>', 'e', '{', 'c', ':', 'r', '}',
   'a', ' ', 'b', '{', 'f', ' ', 'g', '{', 'c', ':', 's', '}', '}']

theorem nestDescendants_converges_descentSheet :
    ∃ root, Source.parse descentSheet = .ok root ∧
      (∀ m ∈ root.walk, m.selector?.any Selector.escapesBlank = false) ∧ root.span = 3 ∧
      Pass.descendants.repeated root 2 ≠ Pass.descendants.repeated root 1 ∧
      (∀ m ∈ (Pass.descendants.repeated root (root.span - 1)).walk, m.splits = false) ∧
      ∀ k, root.span - 1 ≤ k →
        Pass.descendants.repeated root k = Pass.descendants.repeated root (root.span - 1) := by
  have hsheet : ∃ root, Source.parse descentSheet = .ok root ∧
      (∀ m ∈ root.walk, m.selector?.any Selector.escapesBlank = false) ∧ root.span = 3 ∧
      Pass.descendants.repeated root 2 ≠ Pass.descendants.repeated root 1 :=
    ⟨_, rfl, by decide +kernel, by decide +kernel, by decide +kernel⟩
  obtain ⟨root, hparse, hesc, hspan, hne⟩ := hsheet
  exact ⟨root, hparse, hesc, hspan, hne, (nestDescendants_converges hparse hesc).2.2⟩

end StyleNesting
