/-
  StyleNesting/Proofs/Likeness.lean
  =================================
  **What equal signatures mean.**  Two blocks are *alike* if they hold the same
  declarations, each as often, and if their other children have the same headers
  in the same order and are alike again, one by one (`Node.Alike`).  Signatures
  decide just this (`signature_eq_iff_alike`), so rules that are collapsed for
  their signatures are alike all the way down.

  Sorting makes the declarations comparable: they are in linear order, so there
  is one way only to write a collection of them down in order
  (`Text.Linear.sortBy_eq_iff_perm`).
-/
import Mathlib.Data.List.Forall2
import StyleNesting.Sheet.Signature

namespace StyleNesting

/-! ### Sorting by a linear order -/

namespace Text

/-- A test that puts any two elements in order, and equal ones only both ways. -/
structure Linear {α : Type} (below : α → α → Bool) : Prop where
  total : ∀ a b, below a b = true ∨ below b a = true
  antisymm : ∀ a b, below a b = true → below b a = true → a = b
  trans : ∀ a b c, below a b = true → below b c = true → below a c = true

section Sorting

variable {α : Type} {below : α → α → Bool}

theorem perm_insertBy (below : α → α → Bool) (x : α) (ys : List α) :
    (insertBy below x ys).Perm (x :: ys) := by
  induction ys with
  | nil => exact List.Perm.refl _
  | cons y ys ih =>
    rw [insertBy]
    split
    · exact List.Perm.refl _
    · exact (ih.cons y).trans (List.Perm.swap x y ys)

theorem perm_sortBy (below : α → α → Bool) (xs : List α) : (sortBy below xs).Perm xs := by
  induction xs with
  | nil => exact List.Perm.refl _
  | cons x xs ih => exact (perm_insertBy below x _).trans (ih.cons x)

theorem Linear.pairwise_insertBy (h : Linear below) (x : α) {ys : List α}
    (hys : ys.Pairwise (below · ·)) : (insertBy below x ys).Pairwise (below · ·) := by
  induction ys with
  | nil => exact List.pairwise_singleton _ x
  | cons y ys ih =>
    obtain ⟨hy, hrest⟩ := List.pairwise_cons.mp hys
    rw [insertBy]
    split
    · rename_i hxy
      refine List.pairwise_cons.mpr ⟨fun z hz => ?_, hys⟩
      rcases List.mem_cons.mp hz with rfl | hz
      · exact hxy
      · exact h.trans x y z hxy (hy z hz)
    · rename_i hxy
      refine List.pairwise_cons.mpr ⟨fun z hz => ?_, ih hrest⟩
      rcases List.mem_cons.mp ((perm_insertBy below x ys).mem_iff.mp hz) with rfl | hz
      · exact (h.total z y).resolve_left hxy
      · exact hy z hz

theorem Linear.pairwise_sortBy (h : Linear below) (xs : List α) :
    (sortBy below xs).Pairwise (below · ·) := by
  induction xs with
  | nil => exact List.Pairwise.nil
  | cons x xs ih => exact h.pairwise_insertBy x ih

/-- Without repetitions the order is strict. -/
theorem Linear.pairwise_sortBy_of_nodup (h : Linear below) {xs : List α} (hxs : xs.Nodup) :
    (sortBy below xs).Pairwise fun a b => below a b = true ∧ a ≠ b :=
  (h.pairwise_sortBy xs).and ((perm_sortBy below xs).nodup_iff.mpr hxs)

/-- **Sorted by a linear order, lists with the same elements are the same.** -/
theorem Linear.sortBy_eq_iff_perm (h : Linear below) {xs ys : List α} :
    sortBy below xs = sortBy below ys ↔ xs.Perm ys := by
  constructor
  · intro heq
    calc xs.Perm (sortBy below xs) := (perm_sortBy below xs).symm
      _ = sortBy below ys := heq
      _ |>.Perm ys := perm_sortBy below ys
  · intro hperm
    have hsorted : (sortBy below xs).Perm (sortBy below ys) :=
      ((perm_sortBy below xs).trans hperm).trans (perm_sortBy below ys).symm
    exact hsorted.eq_of_pairwise (fun a b _ _ => h.antisymm a b) (h.pairwise_sortBy xs)
      (h.pairwise_sortBy ys)

end Sorting

/-! ### The order of texts and of declarations -/

theorem le_cons {c d : Char} {t u : Text} :
    le (c :: t) (d :: u) = true ↔ c.toNat < d.toNat ∨ (c = d ∧ le t u = true) := by
  simp [le, Char.toNat_inj]

/-- The order by code point is linear. -/
theorem linear_le : Linear le := by
  refine ⟨fun a => ?_, fun a => ?_, fun a => ?_⟩
  · induction a with
    | nil => exact fun b => Or.inl rfl
    | cons c t ih =>
      intro b
      cases b with
      | nil => exact Or.inr rfl
      | cons d u =>
        rw [le_cons, le_cons]
        rcases Nat.lt_trichotomy c.toNat d.toNat with hlt | heq | hgt
        · exact Or.inl (Or.inl hlt)
        · have hcd : c = d := Char.toNat_inj.mp heq
          exact (ih u).imp (fun h => Or.inr ⟨hcd, h⟩) fun h => Or.inr ⟨hcd.symm, h⟩
        · exact Or.inr (Or.inl hgt)
  · induction a with
    | nil =>
      intro b _ hba
      cases b with
      | nil => rfl
      | cons d u => cases hba
    | cons c t ih =>
      intro b hab hba
      cases b with
      | nil => cases hab
      | cons d u =>
        rw [le_cons] at hab hba
        rcases hab with hlt | ⟨rfl, htu⟩
        · rcases hba with hgt | ⟨rfl, -⟩
          · exact absurd hlt (Nat.lt_asymm hgt)
          · exact absurd hlt (Nat.lt_irrefl _)
        · rcases hba with hgt | ⟨-, hut⟩
          · exact absurd hgt (Nat.lt_irrefl _)
          · rw [ih u htu hut]
  · induction a with
    | nil => exact fun _ _ _ _ => rfl
    | cons c t ih =>
      intro b e hab hbe
      cases b with
      | nil => cases hab
      | cons d u =>
        cases e with
        | nil => cases hbe
        | cons x v =>
          rw [le_cons] at hab hbe ⊢
          rcases hab with hlt | ⟨rfl, htu⟩
          · rcases hbe with hlt' | ⟨rfl, -⟩
            · exact Or.inl (Nat.lt_trans hlt hlt')
            · exact Or.inl hlt
          · rcases hbe with hlt' | ⟨rfl, huv⟩
            · exact Or.inl hlt'
            · exact Or.inr ⟨rfl, ih u v htu huv⟩

/-- Pairs in the order of their first components, and of their second ones among equals. -/
theorem Linear.lex {α β : Type} [DecidableEq α] {first : α → α → Bool} {second : β → β → Bool}
    (h : Linear first) (h' : Linear second) :
    Linear fun a b : α × β => if a.1 ≠ b.1 then first a.1 b.1 else second a.2 b.2 := by
  have hiff : ∀ a b : α × β, (if a.1 ≠ b.1 then first a.1 b.1 else second a.2 b.2) = true ↔
      (a.1 ≠ b.1 ∧ first a.1 b.1 = true) ∨ (a.1 = b.1 ∧ second a.2 b.2 = true) := by
    intro a b
    by_cases hab : a.1 = b.1 <;> simp [hab]
  refine ⟨fun a b => ?_, fun a b hab hba => ?_, fun a b c hab hbc => ?_⟩
  · rw [hiff, hiff]
    by_cases heq : a.1 = b.1
    · exact (h'.total a.2 b.2).imp (fun hle => Or.inr ⟨heq, hle⟩) fun hle => Or.inr ⟨heq.symm, hle⟩
    · exact (h.total a.1 b.1).imp (fun hle => Or.inl ⟨heq, hle⟩)
        fun hle => Or.inl ⟨Ne.symm heq, hle⟩
  · rw [hiff] at hab hba
    rcases hab with ⟨hne, hle⟩ | ⟨heq, hle⟩
    · rcases hba with ⟨-, hge⟩ | ⟨heq, -⟩
      · exact absurd (h.antisymm _ _ hle hge) hne
      · exact absurd heq.symm hne
    · rcases hba with ⟨hne, -⟩ | ⟨-, hge⟩
      · exact absurd heq.symm hne
      · exact Prod.ext heq (h'.antisymm _ _ hle hge)
  · rw [hiff] at hab hbc ⊢
    rcases hab with ⟨hne, hle⟩ | ⟨heq, hle⟩
    · rcases hbc with ⟨hne', hle'⟩ | ⟨heq', -⟩
      · refine Or.inl ⟨fun hac => ?_, h.trans _ _ _ hle hle'⟩
        rw [← hac] at hle'
        exact hne (h.antisymm _ _ hle hle')
      · exact Or.inl ⟨heq' ▸ hne, heq' ▸ hle⟩
    · rcases hbc with ⟨hne', hle'⟩ | ⟨heq', hle'⟩
      · exact Or.inl ⟨heq ▸ hne', heq ▸ hle'⟩
      · exact Or.inr ⟨heq.trans heq', h'.trans _ _ _ hle hle'⟩

/-- An order by something that tells the elements apart. -/
theorem Linear.comap {α β : Type} {below : β → β → Bool} (h : Linear below) (key : α → β)
    (hkey : ∀ a b, key a = key b → a = b) : Linear fun a b => below (key a) (key b) :=
  ⟨fun a b => h.total (key a) (key b), fun a b hab hba => hkey a b (h.antisymm _ _ hab hba),
    fun a b c => h.trans (key a) (key b) (key c)⟩

end Text

theorem Declaration.linear_le : Text.Linear Declaration.le := by
  have hflags : Text.Linear fun a b : Bool => !a || b := ⟨by decide, by decide, by decide⟩
  refine (Text.linear_le.lex (Text.linear_le.lex hflags)).comap
    (fun d : Declaration => (d.property, d.value, d.important)) fun a b hab => ?_
  obtain ⟨property, value, important⟩ := a
  cases hab
  rfl

/-! ### Blocks that are alike -/

namespace Node

/-- What stands in front of a block. -/
def header? : Node → Option Header
  | .block _ h _ => some h
  | _ => none

/-- The children that are no declarations. -/
def nested (n : Node) : List Node := n.nodes.filter (·.content?.isNone)

/-- All nodes below a node are rules, at-rules and declarations. -/
def OnlyStyles (n : Node) : Prop := ∀ m ∈ n.walk, m.isStyleBlock = true ∨ m.content?.isSome = true

instance (n : Node) : Decidable n.OnlyStyles :=
  inferInstanceAs (Decidable (∀ m ∈ n.walk, m.isStyleBlock = true ∨ m.content?.isSome = true))

/-- Two blocks hold the same declarations in whatever order, and what else they hold is the
    same in kind and header, one by one, and alike again. -/
inductive Alike : Node → Node → Prop where
  | intro {a b : Node} : a.declarations.Perm b.declarations →
      a.nested.map header? = b.nested.map header? → List.Forall₂ Alike a.nested b.nested →
      Alike a b

theorem alike_iff {a b : Node} : a.Alike b ↔ a.declarations.Perm b.declarations ∧
    a.nested.map header? = b.nested.map header? ∧ List.Forall₂ Alike a.nested b.nested :=
  ⟨fun ⟨hds, hheaders, hall⟩ => ⟨hds, hheaders, hall⟩,
    fun ⟨hds, hheaders, hall⟩ => ⟨hds, hheaders, hall⟩⟩

section Forall₂

variable {α β : Type} {R S : α → β → Prop} {as : List α} {bs : List β}

theorem forall₂_congr_of_mem (h : ∀ a ∈ as, ∀ b ∈ bs, (R a b ↔ S a b)) :
    List.Forall₂ R as bs ↔ List.Forall₂ S as bs := by
  induction as generalizing bs with
  | nil => simp
  | cons a as ih =>
    cases bs with
    | nil => simp
    | cons b bs =>
      rw [List.forall₂_cons, List.forall₂_cons, h a (by simp) b (by simp),
        ih fun x hx y hy => h x (by simp [hx]) y (by simp [hy])]

theorem forall₂_and :
    List.Forall₂ (fun a b => R a b ∧ S a b) as bs ↔ List.Forall₂ R as bs ∧ List.Forall₂ S as bs := by
  induction as generalizing bs with
  | nil => simp
  | cons a as ih =>
    cases bs with
    | nil => simp
    | cons b bs =>
      rw [List.forall₂_cons, List.forall₂_cons, List.forall₂_cons, ih]
      exact and_and_and_comm

theorem map_eq_map_iff_forall₂ {γ : Type} {f : α → γ} {g : β → γ} :
    as.map f = bs.map g ↔ List.Forall₂ (fun a b => f a = g b) as bs := by
  rw [← List.forall₂_eq_eq_eq, List.forall₂_map_left_iff, List.forall₂_map_right_iff]

end Forall₂

variable {a b n m : Node}

theorem OnlyStyles.of_mem_nodes (h : a.OnlyStyles) (hn : n ∈ a.nodes) :
    (n.isStyleBlock = true ∨ n.content?.isSome = true) ∧ n.OnlyStyles := by
  have hwalk : ∀ m ∈ n :: n.walk, m ∈ a.walk := fun m hm => mem_walk_iff.mpr ⟨n, hn, hm⟩
  exact ⟨h n (hwalk n (by simp)), fun m hm => h m (hwalk m (by simp [hm]))⟩

theorem OnlyStyles.of_mem_nested (h : a.OnlyStyles) (hn : n ∈ a.nested) :
    n.isStyleBlock = true ∧ n.OnlyStyles := by
  obtain ⟨hnodes, hnone⟩ := List.mem_filter.mp hn
  obtain ⟨hkind, hbelow⟩ := h.of_mem_nodes hnodes
  refine ⟨hkind.resolve_right ?_, hbelow⟩
  rw [Option.isNone_iff_eq_none.mp hnone]
  exact Bool.false_ne_true

/-- The fingerprint of a rule or an at-rule tells its header and its signature. -/
theorem fingerprint?_eq_iff (hn : n.isStyleBlock = true) (hm : m.isStyleBlock = true) :
    n.fingerprint? = m.fingerprint? ↔ n.header? = m.header? ∧ n.signature = m.signature := by
  match n, hn, m, hm with
  | .block _ (.rule _) _, _, .block _ (.rule _) _, _ =>
    simp [fingerprint?, header?, signature, nodes]
  | .block _ (.rule _) _, _, .block _ (.atRule _ _ _) _, _ => simp [fingerprint?, header?]
  | .block _ (.atRule _ _ _) _, _, .block _ (.rule _) _, _ => simp [fingerprint?, header?]
  | .block _ (.atRule _ _ _) _, _, .block _ (.atRule _ _ _) _, _ =>
    simp [fingerprint?, header?, signature, nodes, and_assoc]

theorem map_some_fingerprints {ns : List Node}
    (h : ∀ n ∈ ns, n.isStyleBlock = true ∨ n.content?.isSome = true) :
    (fingerprints ns).map some = (ns.filter (·.content?.isNone)).map fingerprint? := by
  induction ns with
  | nil => rfl
  | cons n ns ih =>
    have ih := ih fun m hm => h m (by simp [hm])
    rw [fingerprints_eq_filterMap] at ih ⊢
    match n, h n (by simp) with
    | .block _ (.rule _) _, _ => simp [fingerprint?, content?, ih]
    | .block _ (.atRule _ _ _) _, _ => simp [fingerprint?, content?, ih]
    | .declaration _ _, _ =>
      rw [List.filterMap_cons_none rfl, List.filter_cons_of_neg Bool.false_ne_true, ih]

theorem fingerprints_eq_iff (ha : a.OnlyStyles) (hb : b.OnlyStyles) :
    fingerprints a.nodes = fingerprints b.nodes ↔
      a.nested.map header? = b.nested.map header? ∧
        List.Forall₂ (fun n m => n.signature = m.signature) a.nested b.nested := by
  have hsome : fingerprints a.nodes = fingerprints b.nodes ↔
      a.nested.map fingerprint? = b.nested.map fingerprint? := by
    rw [nested, nested, ← map_some_fingerprints fun n hn => (ha.of_mem_nodes hn).1,
      ← map_some_fingerprints fun n hn => (hb.of_mem_nodes hn).1,
      List.map_inj_right fun _ _ => Option.some.inj]
  rw [hsome, map_eq_map_iff_forall₂, map_eq_map_iff_forall₂, ← forall₂_and]
  refine forall₂_congr_of_mem fun n hn m hm => ?_
  exact fingerprint?_eq_iff (ha.of_mem_nested hn).1 (hb.of_mem_nested hm).1

theorem sizeOf_lt_of_mem_nested (hn : n ∈ a.nested) : sizeOf n < sizeOf a := by
  have hnodes := List.mem_of_mem_filter hn
  cases a with
  | block o hd ns =>
    have hless : sizeOf n < sizeOf ns := List.sizeOf_lt_of_mem hnodes
    rw [block.sizeOf_spec]
    omega
  | declaration o d => cases hnodes
  | leaf o => cases hnodes

/-- **Blocks have equal signatures exactly if they are alike.** -/
theorem signature_eq_iff_alike (ha : a.OnlyStyles) (hb : b.OnlyStyles) :
    a.signature = b.signature ↔ a.Alike b := by
  induction hsize : sizeOf a using Nat.strongRecOn generalizing a b with
  | ind k ih =>
    subst hsize
    have hparts : a.signature = b.signature ↔
        sortedDeclarations a.nodes = sortedDeclarations b.nodes ∧
          fingerprints a.nodes = fingerprints b.nodes := by
      simp [signature]
    -- the children are smaller, so for them the two are the same already
    have hnested : List.Forall₂ (fun n m => n.signature = m.signature) a.nested b.nested ↔
        List.Forall₂ Alike a.nested b.nested := by
      refine forall₂_congr_of_mem fun n hn m hm => ?_
      exact ih _ (sizeOf_lt_of_mem_nested hn) (ha.of_mem_nested hn).2 (hb.of_mem_nested hm).2 rfl
    rw [hparts, fingerprints_eq_iff ha hb, hnested, alike_iff, sortedDeclarations,
      sortedDeclarations, Declaration.linear_le.sortBy_eq_iff_perm]
    exact Iff.rfl

/-- The blocks `c: r; d: e; x {a: b}` and `d: e; x {a: b} c: r`, under different selectors. -/
def earlyBlock : Node :=
  .block {} (.rule ['p']) [.declaration {} ⟨['c'], ['r'], false⟩, .declaration {} ⟨['d'], ['e'], true⟩,
    .block {} (.rule ['x']) [.declaration {} ⟨['a'], ['b'], false⟩]]

def lateBlock : Node :=
  .block {} (.rule ['q']) [.declaration {} ⟨['d'], ['e'], true⟩,
    .block {} (.rule ['x']) [.declaration {} ⟨['a'], ['b'], false⟩],
    .declaration {} ⟨['c'], ['r'], false⟩]

theorem alike_earlyBlock_lateBlock :
    earlyBlock.OnlyStyles ∧ lateBlock.OnlyStyles ∧ earlyBlock.Alike lateBlock := by
  have hearly : earlyBlock.OnlyStyles := by decide
  have hlate : lateBlock.OnlyStyles := by decide
  exact ⟨hearly, hlate, (signature_eq_iff_alike hearly hlate).mp (by decide)⟩

end Node

end StyleNesting
