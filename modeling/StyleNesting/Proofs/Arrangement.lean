/-
  StyleNesting/Proofs/Arrangement.lean
  ====================================
  **Where pseudo rules belong.**  Among parts of which none ends in a colon, the
  parts that a given part extends form a chain (`isPseudoOf_of_length_le`): so
  "extends" is the order of a forest, in which every part stands right below the
  longest part that it extends.

  Siblings are *planted* if every rule stands in some rule that it extends, with
  its selector written relative to that rule (`Planted`).  That leaves many
  possibilities open.  If moreover no two siblings extend one another, at any
  level, there is only one place left for every rule, which is inside the longest
  rule that it extends (`Planted.arranged`); and two such arrangements of the same
  rules differ in nothing but the order of sibling rules (`Arranged.shuffled`).
-/
import Mathlib.Data.List.Perm.Basic
import Mathlib.Tactic.MkIffOfInductiveProp
import StyleNesting.Proofs.Edits
import StyleNesting.Proofs.Exactness
import StyleNesting.Proofs.Extensions

namespace StyleNesting

open Node

namespace Selector

/-! ### The order of parts -/

theorem length_lt_of_isPseudoOf {q p : Text} (h : isPseudoOf q p = true) :
    q.length < p.length := by
  obtain ⟨-, u, hu, rfl⟩ := eq_append_of_isPseudoOf h
  rw [List.length_append]
  exact Nat.lt_add_of_pos_right (List.length_pos_of_ne_nil hu)

theorem isPseudoOf_self (p : Text) : isPseudoOf p p = false := by
  apply eq_false_of_ne_true
  intro h
  exact Nat.lt_irrefl _ (length_lt_of_isPseudoOf h)

theorem isPseudoSuffix_iff {u : Text} :
    isPseudoSuffix u = true ↔
      ∃ c v, startsName c = true ∧ (u = ':' :: c :: v ∨ u = ':' :: ':' :: c :: v) := by
  constructor
  · intro h
    unfold isPseudoSuffix at h
    split at h
    · exact ⟨_, _, h, Or.inr rfl⟩
    · exact ⟨_, _, h, Or.inl rfl⟩
    · cases h
  · rintro ⟨c, v, hc, rfl | rfl⟩
    · have hcolon : c ≠ ':' := by
        rintro rfl
        exact absurd hc (by decide)
      unfold isPseudoSuffix
      split
      · rename_i heq
        cases heq
        exact absurd rfl hcolon
      · rename_i heq
        cases heq
        exact hc
      · rename_i hother
        exact absurd rfl (hother c v)
    · exact hc

theorem isPseudoOf_trans {q p r : Text} (h : isPseudoOf q p = true) (h' : isPseudoOf p r = true) :
    isPseudoOf q r = true := by
  obtain ⟨hne, u, hu, rfl⟩ := isPseudoOf_iff.mp h
  obtain ⟨-, v, -, rfl⟩ := isPseudoOf_iff.mp h'
  obtain ⟨c, w, hc, hshape⟩ := isPseudoSuffix_iff.mp hu
  refine isPseudoOf_iff.mpr ⟨hne, u ++ v, isPseudoSuffix_iff.mpr ⟨c, w ++ v, hc, ?_⟩, ?_⟩
  · rcases hshape with rfl | rfl
    · exact Or.inl rfl
    · exact Or.inr rfl
  · rw [List.append_assoc]

/-- A pseudo suffix is cut short only after a colon. -/
theorem isPseudoSuffix_of_append {u v : Text} (h : isPseudoSuffix (u ++ v) = true) (hne : u ≠ [])
    (hlast : u.getLast? ≠ some ':') : isPseudoSuffix u = true := by
  obtain ⟨c, w, hc, hshape⟩ := isPseudoSuffix_iff.mp h
  apply isPseudoSuffix_iff.mpr
  match u, hne, hlast, hshape with
  | [a], _, hlast, hshape =>
    rcases hshape with hone | htwo
    · cases hone
      exact absurd rfl hlast
    · cases htwo
      exact absurd rfl hlast
  | [a, b], _, hlast, hshape =>
    rcases hshape with hone | htwo
    · cases hone
      exact ⟨c, [], hc, Or.inl rfl⟩
    · cases htwo
      exact absurd rfl hlast
  | a :: b :: d :: u, _, _, hshape =>
    rcases hshape with hone | htwo
    · cases hone
      exact ⟨c, d :: u, hc, Or.inl rfl⟩
    · cases htwo
      exact ⟨c, u, hc, Or.inr rfl⟩

/-- **What a part extends is a chain**, if nothing in it ends in a colon. -/
theorem isPseudoOf_of_length_le {q q' p : Text} (h : isPseudoOf q p = true)
    (h' : isPseudoOf q' p = true) (hle : q.length ≤ q'.length) (hlast : q'.getLast? ≠ some ':') :
    q = q' ∨ isPseudoOf q q' = true := by
  obtain ⟨hne, u, hu, rfl⟩ := isPseudoOf_iff.mp h
  obtain ⟨-, u', -, heq⟩ := isPseudoOf_iff.mp h'
  have hfront : q <+: q' :=
    List.prefix_of_prefix_length_le (List.prefix_append q u) (heq ▸ List.prefix_append q' u') hle
  obtain ⟨w, rfl⟩ := hfront
  by_cases hw : w = []
  · exact Or.inl (by rw [hw, List.append_nil])
  · right
    rw [List.append_assoc, List.append_cancel_left_eq] at heq
    rw [List.getLast?_append_of_ne_nil _ hw] at hlast
    exact isPseudoOf_iff.mpr ⟨hne, w, isPseudoSuffix_of_append (heq ▸ hu) hw hlast, rfl⟩

/-! ### Parts inside other rules -/

/-- The part extends what is around it, if there is anything. -/
def Under : Option Text → Text → Prop
  | none, _ => True
  | some b, p => isPseudoOf b p = true

/-- A part as it is written inside a rule that it extends. -/
def relative : Option Text → Text → Text
  | none, p => p
  | some b, p => '&' :: p.drop b.length

theorem Under.trans {outer : Option Text} {p q : Text} (h : Under outer p)
    (h' : isPseudoOf p q = true) : Under outer q := by
  cases outer with
  | none => trivial
  | some b => exact isPseudoOf_trans h h'

theorem after?_append_append (b v w : Text) : after? (b ++ v) (b ++ w) = after? v w := by
  induction b with
  | nil => rfl
  | cons c b ih => simpa [after?] using ih

theorem isPseudoOf_relative {outer : Option Text} {p q : Text} (hp : Under outer p)
    (hq : Under outer q) : isPseudoOf (relative outer p) (relative outer q) = isPseudoOf p q := by
  cases outer with
  | none => rfl
  | some b =>
    obtain ⟨hne, v, -, rfl⟩ := isPseudoOf_iff.mp hp
    obtain ⟨-, w, -, rfl⟩ := isPseudoOf_iff.mp hq
    simp only [relative, List.drop_left]
    rw [← List.singleton_append, ← List.singleton_append (l := w)]
    simp [isPseudoOf, after?_append_append, hne, after?]

theorem eq_append_of_relative {outer : Option Text} {p q u : Text} (hp : Under outer p)
    (hq : Under outer q) (h : relative outer q = relative outer p ++ u) : q = p ++ u := by
  cases outer with
  | none => exact h
  | some b =>
    obtain ⟨-, v, -, rfl⟩ := isPseudoOf_iff.mp hp
    obtain ⟨-, w, -, rfl⟩ := isPseudoOf_iff.mp hq
    simp only [relative, List.drop_left, List.cons_append, List.cons.injEq, true_and] at h
    rw [h, List.append_assoc]

end Selector

open Selector

/-! ### Rules and their seats -/

/-- The first part of a rule. -/
def Node.part (n : Node) : Text := n.parts.headD []

/-- A rule where it belongs: as it is, or as a copy with a selector relative to the rule
    around it. -/
def Node.seat : Option Text → Node → Node
  | none, r => r
  | some b, r => .block r.origin.ofCopy (.rule (relative (some b) r.part)) (copyAll r.nodes)

/-- Rules with nothing but declarations inside and one part each.  The parts differ, none
    ends in a colon, and none leaves a string or a bracket open. -/
@[mk_iff]
structure Flat (rs : List Node) : Prop where
  rules : ∀ r ∈ rs, r.isRule = true
  plain : ∀ r ∈ rs, ∀ c ∈ r.nodes, c.content?.isSome = true
  single : ∀ r ∈ rs, r.parts = [r.part]
  colon : ∀ r ∈ rs, r.part.getLast? ≠ some ':'
  closed : ∀ r ∈ rs, (Scan.start.run r.part).quote = none ∧ (Scan.start.run r.part).closers = []
  distinct : (rs.map part).Nodup

instance decidableFlat (rs : List Node) : Decidable (Flat rs) :=
  decidable_of_iff' _ (flat_iff rs)

theorem Flat.perm {rs rs' : List Node} (h : Flat rs) (hperm : rs.Perm rs') : Flat rs' := by
  have hmem : ∀ r, r ∈ rs' → r ∈ rs := fun r => hperm.mem_iff.mpr
  exact ⟨fun r hr => h.rules r (hmem r hr), fun r hr => h.plain r (hmem r hr),
    fun r hr => h.single r (hmem r hr), fun r hr => h.colon r (hmem r hr),
    fun r hr => h.closed r (hmem r hr), (hperm.map part).nodup_iff.mp h.distinct⟩

theorem not_isRule_of_content {d : Node} (h : d.content?.isSome = true) : ¬ d.isRule = true := by
  intro hrule
  rw [content_of_isRule hrule] at h
  cases h

section Seats

variable {rs : List Node} (hrs : Flat rs) {r : Node} (hr : r ∈ rs) {outer : Option Text}
include hrs hr

theorem Flat.eq_of_part {r' : Node} (hr' : r' ∈ rs) (h : r.part = r'.part) : r = r' :=
  List.inj_on_of_nodup_map hrs.distinct hr hr' h

theorem Flat.solo : Solo r.part := by
  obtain ⟨o, s, ns, rfl⟩ := exists_of_isRule (hrs.rules r hr)
  have hmem : Node.part (.block o (.rule s) ns) ∈ Selector.parts s := by
    have hsingle : Selector.parts s = [_] := hrs.single _ hr
    simp [hsingle]
  apply solo_of_mem_parts hmem
  obtain ⟨hquote, hclosers⟩ := hrs.closed _ hr
  generalize Scan.start.run (Node.part (.block o (.rule s) ns)) = scan at hquote hclosers
  obtain ⟨escaped, quote, closers⟩ := scan
  cases hquote
  cases hclosers
  cases escaped with
  | false => exact Or.inl rfl
  | true => exact Or.inr rfl

theorem Flat.isRule_seat (outer : Option Text) : (r.seat outer).isRule = true := by
  cases outer with
  | none => exact hrs.rules r hr
  | some b => rfl

theorem Flat.plain_seat (outer : Option Text) :
    ∀ c ∈ (r.seat outer).nodes, c.content?.isSome = true := by
  cases outer with
  | none => exact hrs.plain r hr
  | some b =>
    intro c hc
    change c ∈ copyAll r.nodes at hc
    rw [copyAll_eq_map] at hc
    obtain ⟨d, hd, rfl⟩ := List.mem_map.mp hc
    have hplain := hrs.plain r hr d hd
    cases d <;> exact hplain

theorem Flat.parts_seat (hout : ∀ b ∈ outer, Solo b) (hunder : Under outer r.part) :
    (r.seat outer).parts = [relative outer r.part] := by
  cases outer with
  | none => exact hrs.single r hr
  | some b =>
    have hsolo := hrs.solo hr
    obtain ⟨-, u, hu, hpart⟩ := isPseudoOf_iff.mp hunder
    change Selector.parts (relative (some b) r.part) = _
    rw [hpart] at hsolo ⊢
    rw [relative, List.drop_left]
    exact ((hout b rfl).suffix hu hsolo).parts

end Seats

/-! ### Planted rules -/

theorem exists_map_of_perm {α β : Type} {f : α → β} {l : List α} {m : List β}
    (h : m.Perm (l.map f)) : ∃ l' : List α, m = l'.map f ∧ l'.Perm l :=
  (congrFun (congrFun (List.eq_map_comp_perm f) m) l).mpr h

/-- A rule among its siblings, with the rules that stand somewhere inside of it, and what
    was put into it. -/
structure Seated where
  rule : Node
  inner : List Node
  kids : List Node

def Seated.node (outer : Option Text) (x : Seated) : Node := (x.rule.seat outer).append x.kids

/-- The siblings `ns`, in a rule with the part `outer`, are made up of the rules `held`.  Each
    of these stands in a rule that it extends. -/
inductive Planted (rs : List Node) : Option Text → List Node → List Node → Prop where
  | intro {outer : Option Text} (seated : List Seated) :
      (∀ x ∈ seated, x.rule ∈ rs ∧ Under outer x.rule.part) →
      (∀ x ∈ seated, Planted rs (some x.rule.part) x.inner x.kids) →
      Planted rs outer (seated.flatMap fun x => x.rule :: x.inner) (seated.map (Seated.node outer))

namespace Planted

variable {rs : List Node} {outer : Option Text} {held held' ns ns' : List Node}

theorem under (h : Planted rs outer held ns) : ∀ r ∈ held, r ∈ rs ∧ Under outer r.part := by
  induction h with
  | intro seated hrule _ ih =>
    intro r hr
    obtain ⟨x, hx, hrx⟩ := List.mem_flatMap.mp hr
    rcases List.mem_cons.mp hrx with rfl | hinner
    · exact hrule x hx
    · obtain ⟨hmem, hext⟩ := ih x hx r hinner
      exact ⟨hmem, (hrule x hx).2.trans hext⟩

theorem isRule (hrs : Flat rs) (h : Planted rs outer held ns) : ∀ n ∈ ns, n.isRule = true := by
  cases h with
  | intro seated hrule _ =>
    intro n hn
    obtain ⟨x, hx, rfl⟩ := List.mem_map.mp hn
    rw [Seated.node, isRule_append]
    exact hrs.isRule_seat (hrule x hx).1 _

theorem nil (rs : List Node) (outer : Option Text) : Planted rs outer [] [] :=
  .intro [] (fun _ h => by cases h) (fun _ h => by cases h)

theorem cons {x : Seated} (hrule : x.rule ∈ rs ∧ Under outer x.rule.part)
    (hkids : Planted rs (some x.rule.part) x.inner x.kids) (h : Planted rs outer held ns) :
    Planted rs outer (x.rule :: x.inner ++ held) (x.node outer :: ns) := by
  cases h with
  | intro seated hrules hall =>
    exact .intro (x :: seated) (List.forall_mem_cons.mpr ⟨hrule, hrules⟩)
      (List.forall_mem_cons.mpr ⟨hkids, hall⟩)

theorem cons_inv {n : Node} (h : Planted rs outer held (n :: ns)) :
    ∃ (x : Seated) (rest : List Node), n = x.node outer ∧ held = x.rule :: x.inner ++ rest ∧
      (x.rule ∈ rs ∧ Under outer x.rule.part) ∧ Planted rs (some x.rule.part) x.inner x.kids ∧
      Planted rs outer rest ns := by
  generalize hms : n :: ns = ms at h
  cases h with
  | intro seated hrules hall =>
    cases seated with
    | nil => cases hms
    | cons x seated =>
      rw [List.map_cons, List.cons.injEq] at hms
      obtain ⟨rfl, rfl⟩ := hms
      refine ⟨x, _, rfl, rfl, hrules x (by simp), hall x (by simp), .intro seated ?_ ?_⟩
      · exact fun y hy => hrules y (by simp [hy])
      · exact fun y hy => hall y (by simp [hy])

theorem append (h : Planted rs outer held ns) (h' : Planted rs outer held' ns') :
    Planted rs outer (held ++ held') (ns ++ ns') := by
  cases h with
  | intro seated hrules hall =>
    cases h' with
    | intro seated' hrules' hall' =>
      rw [← List.flatMap_append, ← List.map_append]
      refine .intro (seated ++ seated') ?_ ?_
      · exact fun x hx => (List.mem_append.mp hx).elim (hrules x) (hrules' x)
      · exact fun x hx => (List.mem_append.mp hx).elim (hall x) (hall' x)

theorem perm (h : Planted rs outer held ns) (hperm : ns'.Perm ns) :
    ∃ held', held'.Perm held ∧ Planted rs outer held' ns' := by
  cases h with
  | intro seated hrules hall =>
    obtain ⟨seated', rfl, hseated⟩ := exists_map_of_perm hperm
    refine ⟨_, hseated.flatMap_right _, .intro seated' ?_ ?_⟩
    · exact fun x hx => hrules x (hseated.mem_iff.mp hx)
    · exact fun x hx => hall x (hseated.mem_iff.mp hx)

end Planted

/-! ### Arranged rules -/

/-- The rule `r` belongs right inside a rule with the part `outer`: that is the longest one
    of all parts that it extends.  Outside of all rules belong those that extend none. -/
def BelongsIn (rs : List Node) (r : Node) : Option Text → Prop
  | none => ∀ q ∈ rs, isPseudoOf q.part r.part = false
  | some b => isPseudoOf b r.part = true ∧
      ∀ q ∈ rs, isPseudoOf q.part r.part = true → q.part.length ≤ b.length

/-- The siblings are, in some order, the rules that belong right inside a rule with the part
    `outer`, and each of them is followed up inside by those that belong there. -/
inductive Arranged (rs : List Node) : Option Text → List Node → Prop where
  | intro {outer : Option Text} (seated : List (Node × List Node)) :
      (seated.map Prod.fst).Nodup →
      (∀ r, r ∈ seated.map Prod.fst ↔ r ∈ rs ∧ BelongsIn rs r outer) →
      (∀ x ∈ seated, Arranged rs (some x.1.part) x.2) →
      Arranged rs outer (seated.map fun x => (x.1.seat outer).append x.2)

/-- Siblings of which none extends another one. -/
structure Separated (rs : List Node) (seated : List Seated) : Prop where
  rules : ∀ x ∈ seated, x.rule ∈ rs
  inner : ∀ x ∈ seated, ∀ r ∈ x.inner, isPseudoOf x.rule.part r.part = true
  apart : ∀ x ∈ seated, ∀ y ∈ seated, x ≠ y → isPseudoOf x.rule.part y.rule.part = false
  nodup : (seated.map Seated.rule).Nodup

namespace Separated

variable {rs : List Node} {seated : List Seated} (h : Separated rs seated) {x y : Seated}
  (hx : x ∈ seated) (hy : y ∈ seated) {r : Node} (hr : r ∈ y.rule :: y.inner)
include h hx hy hr

/-- Whatever extends a sibling stands inside of it. -/
theorem eq_of_extends (hrs : Flat rs) (hext : isPseudoOf x.rule.part r.part = true) : x = y := by
  by_contra hne
  have hxy := h.apart x hx y hy hne
  have hyx := h.apart y hy x hx (Ne.symm hne)
  have hparts : x.rule.part ≠ y.rule.part := fun heq => hne
    (List.inj_on_of_nodup_map h.nodup hx hy (hrs.eq_of_part (h.rules x hx) (h.rules y hy) heq))
  rcases List.mem_cons.mp hr with rfl | hinner
  · rw [hxy] at hext
    cases hext
  · have hyr := h.inner y hy r hinner
    -- both parts start the same one, so the shorter of them starts the other
    rcases Nat.le_total x.rule.part.length y.rule.part.length with hle | hle
    · rcases isPseudoOf_of_length_le hext hyr hle (hrs.colon _ (h.rules y hy)) with heq | hlt
      · exact hparts heq
      · rw [hxy] at hlt
        cases hlt
    · rcases isPseudoOf_of_length_le hyr hext hle (hrs.colon _ (h.rules x hx)) with heq | hlt
      · exact hparts heq.symm
      · rw [hyx] at hlt
        cases hlt

/-- No sibling extends what stands inside of another one, or of itself. -/
theorem not_extends : isPseudoOf r.part x.rule.part = false := by
  apply eq_false_of_ne_true
  intro hext
  have hyx : isPseudoOf y.rule.part x.rule.part = true := by
    rcases List.mem_cons.mp hr with rfl | hinner
    · exact hext
    · exact isPseudoOf_trans (h.inner y hy r hinner) hext
  by_cases hxy : x = y
  · rw [hxy, isPseudoOf_self] at hyx
    cases hyx
  · rw [h.apart y hy x hx (Ne.symm hxy)] at hyx
    cases hyx

end Separated

/-- The siblings are the rules that belong where they stand. -/
theorem Separated.mem_rules_iff {rs : List Node} {seated : List Seated} (h : Separated rs seated)
    (hrs : Flat rs) {outer : Option Text} (hunder : ∀ x ∈ seated, Under outer x.rule.part)
    (hall : ∀ r ∈ rs, Under outer r.part → ∃ x ∈ seated, r ∈ x.rule :: x.inner) (r : Node) :
    r ∈ seated.map Seated.rule ↔ r ∈ rs ∧ BelongsIn rs r outer := by
  constructor
  · intro hr
    obtain ⟨x, hx, rfl⟩ := List.mem_map.mp hr
    refine ⟨h.rules x hx, ?_⟩
    cases outer with
    | none =>
      intro q hq
      obtain ⟨y, hy, hqy⟩ := hall q hq trivial
      exact h.not_extends hx hy hqy
    | some b =>
      refine ⟨hunder x hx, fun q hq hext => ?_⟩
      by_contra hlonger
      -- a longer part would extend `b`, and stand in one of the siblings
      rcases isPseudoOf_of_length_le (hunder x hx) hext (Nat.le_of_lt (Nat.not_le.mp hlonger))
        (hrs.colon q hq) with heq | hbq
      · exact hlonger (Nat.le_of_eq (congrArg List.length heq.symm))
      · obtain ⟨y, hy, hqy⟩ := hall q hq hbq
        rw [h.not_extends hx hy hqy] at hext
        cases hext
  · rintro ⟨hr, hbelongs⟩
    have hru : Under outer r.part := by
      cases outer with
      | none => trivial
      | some b => exact hbelongs.1
    obtain ⟨y, hy, hry⟩ := hall r hr hru
    rcases List.mem_cons.mp hry with rfl | hinner
    · exact List.mem_map_of_mem hy
    · have hyr := h.inner y hy r hinner
      cases outer with
      | none =>
        rw [hbelongs y.rule (h.rules y hy)] at hyr
        cases hyr
      | some b =>
        have hle := hbelongs.2 y.rule (h.rules y hy) hyr
        exact absurd hle (Nat.not_le.mpr (length_lt_of_isPseudoOf (hunder y hy)))

section Settled

variable {rs : List Node} (hrs : Flat rs) {outer : Option Text}
include hrs

theorem Flat.parts_node (hout : ∀ b ∈ outer, Solo b) {x : Seated}
    (hx : x.rule ∈ rs ∧ Under outer x.rule.part) :
    (x.node outer).parts = [relative outer x.rule.part] := by
  rw [Seated.node, append_eq_setNodes, parts_setNodes]
  exact hrs.parts_seat hx.1 hout hx.2

theorem Flat.rules_node (outer : Option Text) {x : Seated} (hx : x.rule ∈ rs)
    (hkids : Planted rs (some x.rule.part) x.inner x.kids) :
    (x.node outer).nodes = (x.rule.seat outer).nodes ++ x.kids ∧
      (x.node outer).rules = x.kids := by
  have hnodes : (x.node outer).nodes = (x.rule.seat outer).nodes ++ x.kids := by
    obtain ⟨o, s, ns, heq⟩ := exists_of_isRule (hrs.isRule_seat hx outer)
    rw [Seated.node, heq]
    rfl
  have hplain : (x.rule.seat outer).nodes.filter Node.isRule = [] := by
    rw [List.filter_eq_nil_iff]
    exact fun c hc => not_isRule_of_content (hrs.plain_seat hx outer c hc)
  refine ⟨hnodes, ?_⟩
  rw [Node.rules, hnodes, List.filter_append, hplain, List.nil_append]
  exact List.filter_eq_self.mpr (hkids.isRule hrs)

/-- If no two siblings extend one another, no two of the rules do that they are made of. -/
theorem Flat.separated (hout : ∀ b ∈ outer, Solo b) {seated : List Seated}
    (hrules : ∀ x ∈ seated, x.rule ∈ rs ∧ Under outer x.rule.part)
    (hkids : ∀ x ∈ seated, Planted rs (some x.rule.part) x.inner x.kids)
    (hnodup : (seated.flatMap fun x => x.rule :: x.inner).Nodup)
    (hapart : (seated.map (Seated.node outer)).Pairwise Apart) : Separated rs seated := by
  refine ⟨fun x hx => (hrules x hx).1, fun x hx r hr => ((hkids x hx).under r hr).2, ?_, ?_⟩
  · have hsymm : Std.Symm fun x y : Seated => Apart (x.node outer) (y.node outer) :=
      ⟨fun _ _ h => ⟨h.2, h.1⟩⟩
    intro x hx y hy hne
    obtain ⟨hnot, -⟩ := (List.pairwise_map.mp hapart).forall hx hy hne
    apply eq_false_of_ne_true
    intro hext
    apply hnot
    rw [hrs.parts_node hout (hrules x hx), hrs.parts_node hout (hrules y hy)]
    refine ⟨_, List.mem_singleton_self _, by simp, fun p hp => ?_⟩
    rw [List.mem_singleton.mp hp, isPseudoOf_relative (hrules x hx).2 (hrules y hy).2]
    exact hext
  · rw [List.Nodup, List.pairwise_map]
    refine (List.nodup_flatMap.mp hnodup).2.imp fun {x y} hxy heq => ?_
    exact hxy List.mem_cons_self (heq ▸ List.mem_cons_self)

/-- **Planted rules of which no two siblings extend one another are arranged.** -/
theorem Planted.arranged {held ns : List Node} (h : Planted rs outer held ns)
    (hout : ∀ b ∈ outer, Solo b) (hnodup : held.Nodup)
    (hall : ∀ r ∈ rs, Under outer r.part → r ∈ held) (hapart : ns.Pairwise Apart)
    (hbelow : ∀ n ∈ ns, ∀ k, n.Reaches k → k.rules.Pairwise Apart) : Arranged rs outer ns := by
  induction h with
  | @intro outer seated hrules hkids ih =>
    have hsep := hrs.separated hout hrules hkids hnodup hapart
    have hholder : ∀ r ∈ rs, Under outer r.part → ∃ x ∈ seated, r ∈ x.rule :: x.inner :=
      fun r hr hunder => List.mem_flatMap.mp (hall r hr hunder)
    have harranged : ∀ x ∈ seated, Arranged rs (some x.rule.part) x.kids := by
      intro x hx
      obtain ⟨hnodes, hinside⟩ := hrs.rules_node outer (hrules x hx).1 (hkids x hx)
      have hreach := hbelow (x.node outer) (List.mem_map_of_mem hx)
      apply ih x hx
      · rintro b ⟨⟩
        exact hrs.solo (hrules x hx).1
      · exact (List.nodup_cons.mp ((List.nodup_flatMap.mp hnodup).1 x hx)).2
      · intro r hr hext
        obtain ⟨y, hy, hry⟩ := hholder r hr ((hrules x hx).2.trans hext)
        have hxy := hsep.eq_of_extends hx hy hry hrs hext
        subst hxy
        rcases List.mem_cons.mp hry with rfl | hinner
        · rw [Under, isPseudoOf_self] at hext
          cases hext
        · exact hinner
      · rw [← hinside]
        exact hreach _ .here
      · intro k hk m hm
        have hkn : k ∈ (x.node outer).nodes := hnodes ▸ List.mem_append_right _ hk
        exact hreach m (.inside hkn (isStyleBlock_of_isRule ((hkids x hx).isRule hrs k hk)) hm)
    have hpairs : seated.map (Seated.node outer) =
        (seated.map fun x => (x.rule, x.kids)).map fun x => (x.1.seat outer).append x.2 := by
      rw [List.map_map]
      rfl
    have hfirst : (seated.map fun x => (x.rule, x.kids)).map Prod.fst = seated.map Seated.rule := by
      rw [List.map_map]
      rfl
    rw [hpairs]
    refine .intro _ (hfirst ▸ hsep.nodup) (fun r => ?_) ?_
    · rw [hfirst]
      exact hsep.mem_rules_iff hrs (fun x hx => (hrules x hx).2) hholder r
    · intro pair hpair
      obtain ⟨x, hx, rfl⟩ := List.mem_map.mp hpair
      exact harranged x hx

end Settled

/-! ### Reordering -/

/-- The same siblings, save for the order of the rules among them and of the rules further
    down.  What is not a rule keeps its place. -/
inductive Shuffled : List Node → List Node → Prop where
  | nil : Shuffled [] []
  | cons {ns ms : List Node} (n : Node) : Shuffled ns ms → Shuffled (n :: ns) (n :: ms)
  | inside {ks ls ns : List Node} (o : Origin) (h : Header) : Shuffled ks ls →
      Shuffled (.block o h ks :: ns) (.block o h ls :: ns)
  | swap {ns : List Node} (n m : Node) : n.isRule = true → m.isRule = true →
      Shuffled (n :: m :: ns) (m :: n :: ns)
  | trans {ns ms ks : List Node} : Shuffled ns ms → Shuffled ms ks → Shuffled ns ks

namespace Shuffled

variable {ns ms : List Node}

theorem append_left (l : List Node) (h : Shuffled ns ms) : Shuffled (l ++ ns) (l ++ ms) := by
  induction l with
  | nil => exact h
  | cons n l ih => exact ih.cons n

theorem of_perm (h : ns.Perm ms) (hns : ∀ n ∈ ns, n.isRule = true) : Shuffled ns ms := by
  induction h with
  | nil => exact nil
  | cons n _ ih => exact (ih fun m hm => hns m (by simp [hm])).cons n
  | swap n m ns => exact swap m n (hns m (by simp)) (hns n (by simp))
  | trans h _ ih ih' => exact (ih hns).trans (ih' fun n hn => hns n (h.mem_iff.mpr hn))

theorem append_inside {n : Node} (hn : n.isRule = true) {ks ls : List Node} (h : Shuffled ks ls)
    (hrest : Shuffled ns ms) : Shuffled (n.append ks :: ns) (n.append ls :: ms) := by
  obtain ⟨o, s, ns', rfl⟩ := exists_of_isRule hn
  exact ((h.append_left ns').inside o (.rule s)).trans (hrest.cons _)

theorem map_append {outer : Option Text} {seated seated' : List (Node × List Node)}
    (hfirst : seated.map Prod.fst = seated'.map Prod.fst)
    (hrule : ∀ x ∈ seated, (x.1.seat outer).isRule = true)
    (hkids : ∀ x ∈ seated, ∀ y ∈ seated', x.1 = y.1 → Shuffled x.2 y.2) :
    Shuffled (seated.map fun x => (x.1.seat outer).append x.2)
      (seated'.map fun x => (x.1.seat outer).append x.2) := by
  induction seated generalizing seated' with
  | nil =>
    rw [List.map_nil, eq_comm, List.map_eq_nil_iff] at hfirst
    rw [hfirst]
    exact nil
  | cons x seated ih =>
    cases seated' with
    | nil => cases hfirst
    | cons y seated' =>
      rw [List.map_cons, List.map_cons, List.cons.injEq] at hfirst
      obtain ⟨hxy, hrest⟩ := hfirst
      rw [List.map_cons, List.map_cons, ← hxy]
      refine append_inside (hrule x (by simp)) (hkids x (by simp) y (by simp) hxy) (ih hrest ?_ ?_)
      · exact fun z hz => hrule z (by simp [hz])
      · exact fun z hz z' hz' => hkids z (by simp [hz]) z' (by simp [hz'])

end Shuffled

/-- **Two arrangements of the same rules** differ in the order of sibling rules only. -/
theorem Arranged.shuffled {rs : List Node} (hrs : Flat rs) {outer : Option Text}
    {ns ms : List Node} (h : Arranged rs outer ns) (h' : Arranged rs outer ms) :
    Shuffled ns ms := by
  induction h generalizing ms with
  | @intro outer seated hnodup hmem hkids ih =>
    cases h' with
    | intro seated' hnodup' hmem' hkids' =>
      have hrule : ∀ x ∈ seated, (x.1.seat outer).isRule = true := by
        intro x hx
        exact hrs.isRule_seat ((hmem x.1).mp (List.mem_map_of_mem hx)).1 outer
      have hfirst : (seated'.map Prod.fst).Perm (seated.map Prod.fst) :=
        (List.perm_ext_iff_of_nodup hnodup' hnodup).mpr fun r => (hmem' r).trans (hmem r).symm
      obtain ⟨middle, hmiddle, hperm⟩ := exists_map_of_perm hfirst
      -- first the order of the siblings, then what is inside of them
      refine Shuffled.trans (Shuffled.of_perm (hperm.symm.map _) ?_) ?_
      · intro n hn
        obtain ⟨x, hx, rfl⟩ := List.mem_map.mp hn
        rw [isRule_append]
        exact hrule x hx
      · apply Shuffled.map_append hmiddle.symm
        · exact fun x hx => hrule x (hperm.mem_iff.mp hx)
        · intro x hx y hy hxy
          exact ih x (hperm.mem_iff.mp hx) (hxy ▸ hkids' y hy)

end StyleNesting
