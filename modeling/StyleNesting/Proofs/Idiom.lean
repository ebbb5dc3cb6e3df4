/-
  StyleNesting/Proofs/Idiom.lean
  ==============================
  **A run says nothing in words that the stylesheet did not use.**  An *idiom* is
  a choice of selector parts, of headers for the other blocks, and of
  declarations.  If taking a part apart and putting an ampersand for its start do
  not leave the idiom, no pass does: selectors are joined from parts, declarations
  and at-rules are moved and copied as they are, statements stay without content,
  and no declaration comes to stand outside of blocks (`builds_nest`).

  This is said of one group of siblings first, pass by pass, and then of trees.
-/
import StyleNesting.Pass.Pipeline
import StyleNesting.Proofs.Descendants
import StyleNesting.Proofs.Factoring
import StyleNesting.Proofs.Legible
import StyleNesting.Proofs.Pseudos

namespace StyleNesting

open Node Selector

/-! ### Idioms -/

/-- The words of a stylesheet: the parts of its selectors, the headers of the blocks
    that are no rules, and the declarations. -/
structure Idiom where
  part : Text → Prop
  other : Header → Prop
  content : Declaration → Prop

namespace Idiom

/-- Parts that taking apart and nesting do not leave. -/
structure Closed (L : Idiom) : Prop where
  atom : ∀ {p}, L.part p → Atom p
  split : ∀ {p parent child}, L.part p → splitDescendant? p = some (parent, child) →
    L.part parent ∧ L.part child
  relative : ∀ {base u}, L.part base → u ≠ [] → L.part (base ++ u) → L.part ('&' :: u)

/-- A list of one or more parts. -/
def Lists (L : Idiom) (s : Text) : Prop :=
  ∃ ps, ps ≠ [] ∧ (∀ p ∈ ps, L.part p) ∧ s = Text.join Text.commaSpace ps

def header (L : Idiom) : Header → Prop
  | .rule s => L.Lists s
  | .atRule name params hasBlock => L.other (.atRule name params hasBlock)
  | .sheet => L.other .sheet
  | .group => L.other .group

/-- Trees in the words of an idiom. -/
abbrev Builds (L : Idiom) (inside : Bool) (n : Node) : Prop := n.Built L.header L.content inside

variable {L : Idiom} {inside : Bool} {n : Node}

theorem lists_part {p : Text} (hp : L.part p) : L.Lists p := ⟨[p], by simp, by simpa using hp, rfl⟩

theorem lists_joined {ps : List Text} (hne : ps ≠ []) (h : ∀ p ∈ ps, L.part p) :
    L.Lists (joined ps) := by
  have hmem : ∀ p, p ∈ Text.sortBy Text.le (distinct ps) ↔ p ∈ ps :=
    fun p => (mem_sortBy Text.le).trans mem_distinct
  obtain ⟨p, hp⟩ := List.exists_mem_of_ne_nil ps hne
  exact ⟨_, List.ne_nil_of_mem ((hmem p).mpr hp), fun q hq => h q ((hmem q).mp hq), rfl⟩

/-! ### Building trees -/

theorem builds_rule {o : Origin} {s : Text} {ns : List Node} (ho : o.handle = none)
    (hs : L.Lists s) (hns : ∀ m ∈ ns, L.Builds true m) : L.Builds inside (.block o (.rule s) ns) :=
  .block ho hs (fun h => by cases h) hns

theorem Builds.nodes (h : L.Builds inside n) : ∀ m ∈ n.nodes, L.Builds true m := by
  cases h with
  | declaration ho hd =>
    intro m hm
    cases hm
  | block ho hh hempty hns => exact hns

theorem Builds.setNodes (h : L.Builds inside n) {ms : List Node}
    (hms : ∀ m ∈ ms, L.Builds true m) (hempty : n.nodes = [] → ms = []) :
    L.Builds inside (n.setNodes ms) := by
  cases h with
  | declaration ho hd => exact .declaration ho hd
  | block ho hh hnone hns => exact .block ho hh (fun hstatement => hempty (hnone hstatement)) hms

theorem Builds.append (h : L.Builds inside n) (hrule : n.isRule = true) {ms : List Node}
    (hms : ∀ m ∈ ms, L.Builds true m) : L.Builds inside (n.append ms) := by
  match n, hrule, h with
  | .block o (.rule s) ns, _, .block ho hh _ hns =>
    refine builds_rule ho hh fun m hm => ?_
    rcases List.mem_append.mp hm with hold | hnew
    · exact hns m hold
    · exact hms m hnew

theorem Builds.setSelector (h : L.Builds inside n) {s : Text} (hs : L.Lists s) :
    L.Builds inside (n.setSelector s) := by
  match n, h with
  | .block o (.rule _) ns, .block ho _ _ hns => exact builds_rule ho hs hns
  | .block o (.atRule _ _ _) ns, h => exact h
  | .block o .sheet ns, h => exact h
  | .block o .group ns, h => exact h
  | .declaration o d, h => exact h

theorem Builds.copy (h : L.Builds inside n) : L.Builds inside n.copy := by
  induction h with
  | declaration ho hd => exact .declaration rfl hd
  | @block inside o header ns ho hh hempty hns ih =>
    rw [Node.copy, copyAll_eq_map]
    refine .block rfl hh (fun hstatement => by rw [hempty hstatement]; rfl) fun m hm => ?_
    obtain ⟨k, hk, rfl⟩ := List.mem_map.mp hm
    exact ih k hk

theorem builds_copyAll {ns : List Node} (h : ∀ n ∈ ns, L.Builds inside n) :
    ∀ m ∈ copyAll ns, L.Builds inside m := by
  intro m hm
  rw [copyAll_eq_map] at hm
  obtain ⟨n, hn, rfl⟩ := List.mem_map.mp hm
  exact (h n hn).copy

theorem Closed.parts_eq (hL : L.Closed) {ps : List Text} (h : ∀ p ∈ ps, L.part p) :
    Selector.parts (Text.join Text.commaSpace ps) = ps := parts_join fun p hp => hL.atom (h p hp)

theorem Builds.part_of_mem (h : L.Builds inside n) (hL : L.Closed) {p : Text}
    (hp : p ∈ n.parts) : L.part p := by
  match n, h, hp with
  | .block o (.rule _) ns, .block _ ⟨ps, _, hps, rfl⟩ _ _, hp =>
    rw [Node.parts, hL.parts_eq hps] at hp
    exact hps p hp

theorem Builds.parts_ne_nil (h : L.Builds inside n) (hL : L.Closed) (hrule : n.isRule = true) :
    n.parts ≠ [] := by
  match n, hrule, h with
  | .block o (.rule _) ns, _, .block _ ⟨ps, hne, hps, rfl⟩ _ _ =>
    rwa [Node.parts, hL.parts_eq hps]

/-- The joint selector of rules, one of which there is. -/
theorem lists_jointSelector (hL : L.Closed) {rules : List Node}
    (h : ∀ r ∈ rules, L.Builds inside r) (hrule : ∃ r ∈ rules, r.isRule = true) :
    L.Lists (Collapse.jointSelector rules) := by
  obtain ⟨r, hr, hrule⟩ := hrule
  obtain ⟨p, hp⟩ := List.exists_mem_of_ne_nil _ ((h r hr).parts_ne_nil hL hrule)
  refine lists_joined (List.ne_nil_of_mem (List.mem_flatMap.mpr ⟨r, hr, hp⟩)) fun q hq => ?_
  obtain ⟨k, hk, hq⟩ := List.mem_flatMap.mp hq
  exact (h k hk).part_of_mem hL hq

/-! ### New nodes -/

theorem handle_of_originFrom? {f : Factory} {template? : Option Node} {o : Origin}
    (h : f.originFrom? template? = some o) : o.handle = none := by
  rw [Factory.originFrom?] at h
  split at h
  · obtain ⟨m, -, rfl⟩ := Option.map_eq_some_iff.mp h
    rfl
  · cases h
    rfl

theorem builds_newRule {p p' : Progress} {f : Factory} {reference : Node} {s : Text}
    (hs : L.Lists s) (h : p.newRule f reference s = (some n, p')) :
    L.Builds inside n ∧ n.isRule = true := by
  unfold Progress.newRule at h
  split at h
  · cases h
  · simp only [Factory.rule] at h
    cases hrefused : f.refusal? .rule p.ruleCalls with
    | some reason => simp [hrefused] at h
    | none =>
      cases horigin : f.originFrom? (Factory.ruleTemplate? reference reference) with
      | none => simp [hrefused, horigin] at h
      | some o =>
        simp only [hrefused, horigin, Prod.mk.injEq, Option.some.injEq] at h
        rw [← h.1]
        exact ⟨builds_rule (handle_of_originFrom? horigin) hs (by simp), rfl⟩

theorem builds_newDeclaration {p p' : Progress} {f : Factory} {reference : Node} {d : Declaration}
    (hd : L.content d) (h : p.newDeclaration f reference d = (some n, p')) : L.Builds true n := by
  unfold Progress.newDeclaration at h
  split at h
  · cases h
  · simp only [Factory.declaration] at h
    cases hrefused : f.refusal? .declaration p.declarationCalls with
    | some reason => simp [hrefused] at h
    | none =>
      cases horigin : f.originFrom? (Factory.declarationTemplate? reference reference) with
      | none => simp [hrefused, horigin] at h
      | some o =>
        simp only [hrefused, horigin, Prod.mk.injEq, Option.some.injEq] at h
        rw [← h.1]
        exact .declaration (handle_of_originFrom? horigin) hd

/-! ### Cleanup -/

mutual
theorem builds_inside : ∀ (b : Bool) (p : Progress) (n : Node), L.Builds b n →
    L.Builds b (Cleanup.inside p n).1
  | _, p, .block _ (.rule _) ns, .block ho hs _ hns =>
    builds_rule ho hs (builds_among true p ns hns)
  | _, p, .block _ (.atRule _ _ _) ns, .block ho hh hempty hns =>
    .block ho hh (fun hstatement => by rw [hempty hstatement]; rfl) (builds_among true p ns hns)
  | _, _, .block _ .sheet _, h => h
  | _, _, .block _ .group _, h => h
  | _, _, .declaration _ _, h => h
theorem builds_among : ∀ (b : Bool) (p : Progress) (ns : List Node),
    (∀ n ∈ ns, L.Builds b n) → ∀ n ∈ (Cleanup.among p ns).1, L.Builds b n
  | _, _, [], h => h
  | b, p, n :: ns, h => by
    have hn := builds_inside b p n (h n (by simp))
    have hns : ∀ m ∈ ns, L.Builds b m := fun m hm => h m (by simp [hm])
    rw [Cleanup.among]
    simp only
    split
    · exact builds_among b _ ns hns
    · intro m hm
      rcases List.mem_cons.mp hm with rfl | hrest
      · exact hn
      · exact builds_among b _ ns hns m hrest
end

/-! ### Nesting by descent -/

section Descendants

open Descendants

variable (hL : L.Closed) {w : Work} {waiting : List Nat} {rule : Node} {parent child : Text}

theorem forall_updateLast {α : Type} {P : α → Prop} {p : α → Bool} {f : α → α} {xs : List α}
    (h : ∀ x ∈ xs, P x) (hf : ∀ x, p x = true → P x → P (f x)) : ∀ x ∈ updateLast p f xs, P x := by
  rcases none_or_last p xs with hnone | ⟨l, x, r, rfl, hx, hr⟩
  · rw [updateLast, updateLast?_eq_none hnone]
    exact h
  · rw [updateLast_append_cons hx hr]
    intro y hy
    rcases List.mem_append.mp hy with hy | hy
    · exact h y (List.mem_append_left _ hy)
    · rcases List.mem_cons.mp hy with rfl | hy
      · exact hf x hx (h x (by simp))
      · exact h y (by simp [hy])

theorem isRule_of_hasSelector {s : Text} (h : n.hasSelector s = true) : n.isRule = true := by
  obtain ⟨o, ns, rfl⟩ := exists_of_hasSelector h
  rfl

theorem updateParent_builds (hw : w.All (L.Builds inside)) {g : Node → Node}
    (hg : ∀ m, m.isRule = true → L.Builds inside m → L.Builds inside (g m)) :
    (updateParent waiting parent g w).All (L.Builds inside) := by
  refine forall_updateLast hw fun s hs hbuilt => ?_
  rw [isParent, Bool.and_eq_true] at hs
  exact hg s.node (isRule_of_hasSelector hs.1) hbuilt

theorem ensureParent_builds (f : Factory) (hparent : L.part parent)
    (hw : w.All (L.Builds inside)) :
    (ensureParent f waiting rule parent w).All (L.Builds inside) := by
  unfold ensureParent
  split
  · exact hw
  · split
    · rename_i m p hnew
      exact Work.All.push (w := ⟨w.slots, p⟩) hw (builds_newRule (lists_part hparent) hnew).1
    · exact hw

theorem ensureChild_builds (f : Factory) (hchild : L.part child) (hw : w.All (L.Builds inside)) :
    (ensureChild f waiting rule parent child w).All (L.Builds inside) := by
  unfold ensureChild
  split
  · exact hw
  · split
    · rename_i m p hnew
      refine updateParent_builds (w := ⟨w.slots, p⟩) hw fun k hrule hk => hk.append hrule ?_
      intro j hj
      rw [List.mem_singleton.mp hj]
      exact (builds_newRule (lists_part hchild) hnew).1
    · exact hw

theorem fill_builds (hrule : ∀ m ∈ rule.nodes, L.Builds true m) (hw : w.All (L.Builds inside)) :
    (fill waiting rule parent child w).All (L.Builds inside) := by
  unfold fill
  split
  · exact hw
  · have hfilled : ∀ m : Node, L.Builds inside m → ∀ k ∈ updateLast (Node.hasSelector child)
        (Node.append (copyAll rule.nodes)) m.nodes, L.Builds true k := by
      intro m hm
      refine forall_updateLast hm.nodes fun k hk hbuilt => ?_
      exact hbuilt.append (isRule_of_hasSelector hk) (builds_copyAll hrule)
    refine updateParent_builds hw fun m _ hm => hm.setNodes (hfilled m hm) fun hnil => ?_
    rw [hnil]
    rfl

include hL

theorem place_builds (f : Factory) (hrule : ∀ m ∈ rule.nodes, L.Builds true m) {part : Text}
    (hpart : L.part part) (hsplit : splitDescendant? part = some (parent, child))
    (hw : w.All (L.Builds inside)) :
    (place f waiting rule w (parent, child)).All (L.Builds inside) := by
  obtain ⟨hparent, hchild⟩ := hL.split hpart hsplit
  exact fill_builds hrule (ensureChild_builds f hchild (ensureParent_builds f hparent hw))

theorem splitRule_builds (f : Factory) (t : Nat) (hw : w.All (L.Builds inside)) :
    (splitRule f waiting t w).All (L.Builds inside) := by
  unfold splitRule
  split
  · exact hw
  · cases hget : w.get? t with
    | none => exact hw
    | some rule =>
      have hrule : L.Builds inside rule := hw.get? hget
      have hparts : ∀ q ∈ distinct rule.parts, L.part q :=
        fun q hq => hrule.part_of_mem hL (mem_distinct.mp hq)
      -- the parts are those of the rule as it was found, whatever has been placed since
      have hplaced : ((distinct rule.parts).filterMap splitDescendant?).foldl
          (place f waiting rule) w |>.All (L.Builds inside) := by
        refine List.foldlRecOn _ _ hw fun w' hw' split hsplit => ?_
        obtain ⟨q, hq, hsplit⟩ := List.mem_filterMap.mp hsplit
        exact place_builds hL f hrule.nodes (hparts q hq) hsplit hw'
      simp only
      split
      · exact hplaced
      · split
        · exact hplaced.remove t
        · rename_i hkept
          refine hplaced.modify fun s hs _ => (hplaced s hs).setSelector ⟨_, ?_, ?_, rfl⟩
          · simpa [List.isEmpty_iff] using hkept
          · exact fun q hq => hparts q (List.mem_of_mem_filter hq)

theorem splitAll_builds (f : Factory) (ts : List Nat) (hw : w.All (L.Builds inside)) :
    (splitAll f ts w).All (L.Builds inside) := by
  induction ts generalizing w with
  | nil => exact hw
  | cons t later ih => exact ih (splitRule_builds hL f t hw)

theorem descend_builds (f : Factory) (p : Progress) {ns : List Node}
    (h : ∀ n ∈ ns, L.Builds inside n) : ∀ n ∈ (level f p ns).1, L.Builds inside n :=
  Work.all_iff_nodes.mp (splitAll_builds hL f _ (Work.all_start h))

end Descendants

/-! ### Collapsing siblings -/

section Collapse

open Collapse

variable (hL : L.Closed) {w : Work}

include hL

theorem merge_builds (f : Factory) {members : List Slot}
    (hmembers : ∀ s ∈ members, L.Builds inside s.node ∧ s.node.isRule = true)
    (hw : w.All (L.Builds inside)) : (merge f w members).All (L.Builds inside) := by
  unfold merge
  split
  · rename_i t first second rest
    have hfirst := hmembers ⟨some t, first⟩ (by simp)
    have hrules : ∀ r ∈ (⟨some t, first⟩ :: second :: rest : List Slot).map (·.node),
        L.Builds inside r := by
      intro r hr
      obtain ⟨s, hs, rfl⟩ := List.mem_map.mp hr
      exact (hmembers s hs).1
    have hselector := lists_jointSelector hL hrules ⟨first, by simp, hfirst.2⟩
    simp only
    split
    · exact hw
    · rename_i m p hnew
      obtain ⟨hm, hrule⟩ := builds_newRule hselector hnew
      have hinserted := Work.All.insertBefore (w := ⟨w.slots, p⟩) hw t
        (hm.append hrule (builds_copyAll hfirst.1.nodes))
      have hreplaced := List.foldlRecOn
        ((⟨some t, first⟩ :: second :: rest : List Slot).filterMap (·.ticket)) Work.remove
        hinserted fun w' hw' k _ => hw'.remove k
      split
      · exact hreplaced
      · exact hreplaced
  · exact hw

theorem collapse_builds (f : Factory) (p : Progress) {ns : List Node}
    (h : ∀ n ∈ ns, L.Builds inside n) : ∀ n ∈ (level f p ns).1, L.Builds inside n := by
  have hstart : (Work.start p ns).All (L.Builds inside) := Work.all_start h
  refine Work.all_iff_nodes.mp (List.foldlRecOn _ _ hstart fun w hw members hmem => ?_)
  have hclass := class_of_mem_classesBy p ns hmem
  exact merge_builds hL f (fun s hs => ⟨hstart s (hclass.present s hs), hclass.isRule s hs⟩) hw

end Collapse

/-! ### Factoring -/

section Factoring

open Factoring

variable (hL : L.Closed) {w : Work}

theorem Builds.content_of {d : Declaration} (h : L.Builds inside n) (hd : n.content? = some d) :
    L.content d := by
  match n, h, hd with
  | .declaration o _, .declaration _ hcontent, rfl => exact hcontent

theorem drafts_builds (f : Factory) {first : Node} (hfirst : ∀ m ∈ first.nodes, L.Builds true m)
    (p : Progress) (ds : List Declaration) : ∀ m ∈ (drafts f first p ds).1, L.Builds true m := by
  induction ds generalizing p with
  | nil => simp [drafts]
  | cons d ds ih =>
    rw [drafts]
    split
    · simp
    · cases href : first.nodes.find? (·.content? == some d) with
      | none => simp
      | some reference =>
        have hcontent : reference.content? = some d := by simpa using List.find?_some href
        have hd : L.content d := (hfirst _ (List.mem_of_find?_eq_some href)).content_of hcontent
        rcases hnew : p.newDeclaration f reference d with ⟨_ | m, p'⟩
        · simp [hnew]
        · simp only [hnew]
          intro k hk
          rcases List.mem_cons.mp hk with rfl | hk
          · exact builds_newDeclaration hd hnew
          · exact ih p' k hk

theorem strip_builds (ds : List Declaration) (t : Nat) (hw : w.All (L.Builds inside)) :
    (strip ds w t).All (L.Builds inside) := by
  unfold strip
  split
  · exact hw
  · split
    · exact hw
    · have hstripped : ∀ s ∈ w.slots, L.Builds inside (stripped ds s.node) := by
        intro s hs
        refine (hw s hs).setNodes (fun m hm => ?_) fun hnil => by rw [hnil]; rfl
        exact (hw s hs).nodes m (List.mem_of_mem_filter hm)
      exact hw.modify (f := stripped ds) fun s hs _ => hstripped s hs

include hL

theorem factorGroup_builds (f : Factory) (tickets : List Nat) (g : SharingGroup)
    (hholds : ∀ t ∈ memberTickets tickets g, Holds w g.declarations t)
    (hw : w.All (L.Builds inside)) : (factorGroup f tickets w g).All (L.Builds inside) := by
  rw [memberTickets] at hholds
  unfold factorGroup
  generalize g.members.filterMap (tickets[·]?) = members at hholds ⊢
  cases members with
  | nil => exact hw
  | cons t rest =>
    obtain ⟨first, hfirst, hrule, -⟩ := hholds t (by simp)
    have hrules : ∀ r ∈ (t :: rest).filterMap w.get?, L.Builds inside r := by
      intro r hr
      obtain ⟨k, -, hk⟩ := List.mem_filterMap.mp hr
      exact hw.get? hk
    -- the first member is a rule that is still there, so there is a part to join
    have hselector := lists_jointSelector hL hrules
      ⟨first, List.mem_filterMap.mpr ⟨t, by simp, hfirst⟩, hrule⟩
    simp only [hfirst]
    split
    · exact hw
    · rename_i m p hnew
      obtain ⟨hm, hmrule⟩ := builds_newRule hselector hnew
      have hinserted := Work.All.insertBefore
        (w := ⟨w.slots, (drafts f first p g.declarations).2⟩) hw t
        (hm.append hmrule (drafts_builds f (hw.get? hfirst).nodes p g.declarations))
      have hmoved := List.foldlRecOn (t :: rest) (strip g.declarations) hinserted
        fun w' hw' k _ => strip_builds g.declarations k hw'
      split
      · exact hmoved
      · exact hmoved

theorem factor_builds (f : Factory) (p : Progress) {ns : List Node}
    (h : ∀ n ∈ ns, L.Builds inside n) : ∀ n ∈ (level f p ns).1, L.Builds inside n := by
  have hfactored : ∀ n ∈ (factorSiblings f p ns).1, L.Builds inside n := by
    refine factorSiblings_preserves (P := fun ms => ∀ n ∈ ms, L.Builds inside n) f
      (fun tickets w g _ hholds hw => ?_) p h
    exact Work.all_iff_nodes.mp
      (factorGroup_builds hL f tickets g hholds (Work.all_iff_nodes.mpr hw))
  rw [level]
  split
  · exact h
  · simp only
    split
    · exact hfactored
    · exact builds_among inside _ _ hfactored

end Factoring

/-! ### Pseudo nesting -/

section Pseudos

open Pseudos

variable (hL : L.Closed) {w : Work} {cs : List Candidate} {b c : Candidate} {part : Text}

include hL

theorem lists_relativeSelector (hpart : L.part part) (hparts : ∀ p ∈ c.parts, L.part p)
    (hext : c.extendsPart part = true) : L.Lists (c.relativeSelector part) := by
  have hne : c.parts ≠ [] := by
    rw [Candidate.extendsPart, Bool.and_eq_true] at hext
    simpa [List.isEmpty_iff] using hext.1
  refine ⟨_, by simpa using hne, fun q hq => ?_, rfl⟩
  obtain ⟨p, hp, rfl⟩ := List.mem_map.mp hq
  obtain ⟨u, hu, rfl, hdrop⟩ := exists_suffix hext hp
  rw [hdrop]
  exact hL.relative hpart hu (hparts _ hp)

theorem absorb_builds (f : Factory) (htracked : Tracked cs w) (hb : b ∈ cs) (hc : c ∈ cs)
    (hpart : part ∈ b.parts) (hw : w.All (L.Builds inside)) :
    (absorb f b.ticket part w c).All (L.Builds inside) := by
  unfold absorb
  split
  · exact hw
  · rename_i hguard
    simp only [Bool.or_eq_true, Bool.not_eq_true', not_or, Bool.not_eq_false] at hguard
    split
    · rename_i base candidate hbase hcandidate
      -- the candidates were noted at the start; their parts are still those of the nodes
      obtain ⟨hbrule, hbparts⟩ := htracked.known b hb base hbase
      obtain ⟨-, hcparts⟩ := htracked.known c hc candidate hcandidate
      have hselector : L.Lists (c.relativeSelector part) := by
        refine lists_relativeSelector hL ?_ (fun p hp => ?_) hguard.2
        · exact (hw.get? hbase).part_of_mem hL (hbparts ▸ hpart)
        · exact (hw.get? hcandidate).part_of_mem hL (hcparts ▸ hp)
      simp only
      split
      · exact hw
      · rename_i m p hnew
        obtain ⟨hm, hrule⟩ : L.Builds true m ∧ m.isRule = true := builds_newRule hselector hnew
        have hnested := hm.append hrule (builds_copyAll (hw.get? hcandidate).nodes)
        refine (Work.All.modify (w := ⟨w.slots, p⟩) hw fun s hs hst => ?_).remove c.ticket
        have hnode : s.node = base := htracked.distinct.node_eq hbase hs hst
        refine (hw s hs).append (hnode ▸ hbrule) fun k hk => ?_
        rw [List.mem_singleton.mp hk]
        exact hnested
    · exact hw

theorem absorbAll_builds (f : Factory) (htracked : Tracked cs w) (hb : b ∈ cs)
    (hw : w.All (L.Builds inside)) :
    Tracked cs (absorbAll f cs w b) ∧ (absorbAll f cs w b).All (L.Builds inside) := by
  unfold absorbAll
  split
  · refine List.foldlRecOn (motive := fun w' => Tracked cs w' ∧ w'.All (L.Builds inside)) _ _
      ⟨htracked, hw⟩ fun w' hw' part hpart => ?_
    refine List.foldlRecOn (motive := fun w'' => Tracked cs w'' ∧ w''.All (L.Builds inside)) _ _
      hw' fun w'' hw'' c hc => ?_
    exact ⟨absorb_tracked f hw''.1 part c, absorb_builds hL f hw''.1 hb hc hpart hw''.2⟩
  · exact ⟨htracked, hw⟩

theorem pseudos_builds (f : Factory) (p : Progress) {ns : List Node}
    (h : ∀ n ∈ ns, L.Builds inside n) : ∀ n ∈ (level f p ns).1, L.Builds inside n := by
  have hall := List.foldlRecOn
    (motive := fun w => Tracked (candidates (Work.start p ns)) w ∧ w.All (L.Builds inside))
    (candidates (Work.start p ns)) (absorbAll f (candidates (Work.start p ns)))
    ⟨tracked_start p ns, Work.all_start h⟩ fun w hw b hb => absorbAll_builds hL f hw.1 hb hw.2
  exact Work.all_iff_nodes.mp hall.2

end Pseudos

/-! ### Whole trees -/

/-- A pass over groups of siblings keeps to the idiom, and adds nothing to an empty
    group. -/
structure Keeps (L : Idiom) (level : Header → Progress → List Node → List Node × Progress) :
    Prop where
  siblings : ∀ b h p ns, (∀ n ∈ ns, L.Builds b n) → ∀ n ∈ (level h p ns).1, L.Builds b n
  empty : ∀ h p, (level h p []).1 = []

/-- A step on trees leaves the header of a block, and keeps its children in the idiom. -/
def Respects (L : Idiom) (step : Step) : Prop :=
  ∀ b p o h ns, (∀ n ∈ ns, L.Builds b n) →
    ∃ ns', (step p (.block o h ns)).1 = .block o h ns' ∧ (ns = [] → ns' = []) ∧
      ∀ n ∈ ns', L.Builds b n

theorem Respects.unless_stopped {step : Step} (h : L.Respects step) :
    L.Respects fun p n => if p.stopped then (n, p) else step p n := by
  intro b p o hd ns hns
  cases hstop : p.stopped with
  | true => exact ⟨ns, by simp [hstop], id, hns⟩
  | false =>
    obtain ⟨ns', heq, hrest⟩ := h b p o hd ns hns
    exact ⟨ns', by simpa [hstop] using heq, hrest⟩

theorem visitAll_respects {step : Step} (h : L.Respects step)
    (hdeclaration : ∀ p o d, (step p (.declaration o d)).1 = .declaration o d) (b : Bool)
    (p : Progress) {ns : List Node} (hns : ∀ n ∈ ns, L.Builds b n) :
    ∀ n ∈ (visitAll (enter step) p ns).1, L.Builds b n := by
  refine visitAll_preserves (enter_preserves fun p m hm => ?_) hns
  cases hm with
  | declaration ho hd =>
    rw [hdeclaration]
    exact .declaration ho hd
  | block ho hh hempty hms =>
    obtain ⟨ms, heq, hnil, hms⟩ := h true p _ _ _ hms
    rw [heq]
    exact .block ho hh (fun hstatement => hnil (hempty hstatement)) hms

section TopDown

variable {level : Header → Progress → List Node → List Node × Progress}

theorem topDown_declaration (fuel : Nat) (p : Progress) (o : Origin) (d : Declaration) :
    (topDown level fuel p (.declaration o d)).1 = .declaration o d := by
  cases fuel <;> rfl

/-- A pass that keeps groups of siblings in the idiom keeps trees in it. -/
theorem respects_topDown (hlevel : L.Keeps level) (fuel : Nat) :
    L.Respects (topDown level fuel) := by
  induction fuel with
  | zero => exact fun b p o h ns hns => ⟨ns, rfl, id, hns⟩
  | succ fuel ih =>
    -- the group itself is worked on first, and what comes of it is walked afterwards
    intro b p o h ns hns
    refine ⟨_, rfl, fun hnil => ?_, ?_⟩
    · rw [hnil, hlevel.empty]
      rfl
    · exact visitAll_respects ih (topDown_declaration fuel) b _ (hlevel.siblings b h p ns hns)

end TopDown

/-- A pass over every group of siblings of a tree, from the top; how far down it goes
    may depend on the tree. -/
theorem respects_everywhere {level : Progress → List Node → List Node × Progress}
    (hsiblings : ∀ b p ns, (∀ n ∈ ns, L.Builds b n) → ∀ n ∈ (level p ns).1, L.Builds b n)
    (hempty : ∀ p, (level p []).1 = []) (fuel : Node → Nat) :
    L.Respects fun p n => if p.stopped then (n, p) else topDown (fun _ => level) (fuel n) p n := by
  have hkeeps : L.Keeps fun _ => level := ⟨fun b _ => hsiblings b, fun _ => hempty⟩
  intro b p o h ns hns
  exact (respects_topDown hkeeps (fuel (.block o h ns))).unless_stopped b p o h ns hns

section Passes

variable (hL : L.Closed) (f : Factory)

theorem respects_removeEmptyRules : L.Respects removeEmptyRules := by
  intro b p o h ns hns
  refine ⟨_, removeEmptyRules_block p o h ns, fun hnil => ?_, ?_⟩
  · rw [hnil]
    split <;> rfl
  · split
    · exact hns
    · exact builds_among b p ns hns

include hL

theorem keeps_levelUnder : L.Keeps (Collapse.levelUnder f) := by
  constructor
  · intro b h p ns hns
    cases h with
    | rule s => exact collapse_builds hL f p hns
    | sheet => exact hns
    | group => exact hns
    | atRule name params hasBlock => exact hns
  · intro h p
    cases h <;> rfl

/-- **No pass leaves the idiom.** -/
theorem respects_pass (pass : Pass) : L.Respects (pass.run f) := by
  cases pass with
  | descendants =>
    exact respects_everywhere (fun _ p _ hns => descend_builds hL f p hns) (fun _ => rfl) _
  | collapse =>
    intro b p o h ns hns
    refine ⟨_, rfl, fun hnil => by rw [hnil]; rfl, ?_⟩
    exact visitAll_respects (respects_topDown (keeps_levelUnder hL f) _) (topDown_declaration _) b p
      hns
  | factor => exact respects_everywhere (fun _ p _ hns => factor_builds hL f p hns) (fun _ => rfl) _
  | pseudos => exact respects_everywhere (fun _ p _ hns => pseudos_builds hL f p hns) (fun _ => rfl) _
  | cleanup => exact respects_removeEmptyRules

theorem respects_runAll (passes : List Pass) :
    L.Respects (runAll (passes.map (·.transform f))) := by
  induction passes with
  | nil => exact fun b p o h ns hns => ⟨ns, rfl, id, hns⟩
  | cons pass passes ih =>
    intro b p o h ns hns
    have hrun : L.Respects (pass.transform f).run :=
      Respects.unless_stopped fun b p => respects_pass hL f pass b _
    obtain ⟨ns', heq, hnil, hns'⟩ := hrun b p o h ns hns
    obtain ⟨ns'', heq', hnil', hns''⟩ := ih b _ o h ns' hns'
    refine ⟨ns'', ?_, fun h => hnil' (hnil h), hns''⟩
    rw [← heq', ← heq]
    rfl

/-- **A run keeps to the idiom of its stylesheet.** -/
theorem builds_nest (options : Options) {origin : Origin} {ns : List Node}
    (h : ∀ n ∈ ns, L.Builds false n) :
    ∃ ns', (nest options f (.block origin .sheet ns)).1 = .block origin .sheet ns' ∧
      ∀ n ∈ ns', L.Builds false n := by
  obtain ⟨ns', heq, -, hns'⟩ := respects_runAll hL f options.passes false {} origin .sheet ns h
  -- the cleanup that ends every run
  obtain ⟨ns'', heq', -, hns''⟩ := respects_removeEmptyRules false
    (runAll (options.passes.map (·.transform f)) {} (.block origin .sheet ns)).2 origin .sheet ns'
    hns'
  refine ⟨ns'', ?_, hns''⟩
  rw [nest, applyTransforms, List.append_nil, ← heq', ← heq]

end Passes

end Idiom

end StyleNesting
