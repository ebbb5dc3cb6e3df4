/-
  StyleNesting/Proofs/Sharing.lean
  ================================
  **The sharing groups of some rules are what the rules share, sorted out.**  A
  declaration that two or more rules hold is in one group and in no other, and
  the members of this group are just the rules that hold it: not some of them,
  and no others (`Sharing.mem_sharingGroups_iff`).  Groups stand in the
  lexicographic order of their members, and the declarations of a group in the
  order in which they are met first when the rules are read one after another.
-/
import StyleNesting.Proofs.Likeness
import StyleNesting.Proofs.Unshared

namespace StyleNesting

open Node

namespace Sharing

/-! ### The order of groups -/

theorem indicesLe_iff {is js : List Nat} :
    indicesLe is js = true ↔ ¬List.Lex (· < ·) js is := by
  induction is generalizing js with
  | nil => simp [indicesLe]
  | cons i is ih =>
    cases js with
    | nil => simp [indicesLe]
    | cons j js =>
      have hlex : List.Lex (· < ·) (j :: js) (i :: is) ↔
          j < i ∨ (j = i ∧ List.Lex (· < ·) js is) := List.cons_lt_cons_iff
      rw [indicesLe, Bool.or_eq_true, Bool.and_eq_true, decide_eq_true_iff, beq_iff_eq, ih, hlex]
      rcases Nat.lt_trichotomy i j with hlt | rfl | hgt
      · simp [hlt, Nat.lt_asymm hlt, Nat.ne_of_gt hlt]
      · simp
      · simp [hgt, Nat.lt_asymm hgt, Nat.ne_of_gt hgt]

theorem linear_indicesLe : Text.Linear indicesLe where
  total is js := by
    rw [indicesLe_iff, indicesLe_iff]
    exact List.le_total is js
  antisymm is js h h' := List.le_antisymm (indicesLe_iff.mp h) (indicesLe_iff.mp h')
  trans is js ks h h' :=
    indicesLe_iff.mpr (List.le_trans (indicesLe_iff.mp h) (indicesLe_iff.mp h'))

/-- Groups come in lexicographic order of their members, and no two have the same. -/
theorem ordered_sharingGroups (rules : List Node) :
    (sharingGroups rules).Pairwise fun g g' => List.Lex (· < ·) g.members g'.members := by
  rw [sharingGroups, List.pairwise_map]
  refine (linear_indicesLe.pairwise_sortBy_of_nodup (nodup_eraseDups _)).imp ?_
  rintro is js ⟨hle, hne⟩
  by_contra hnot
  exact hne (linear_indicesLe.antisymm is js hle (indicesLe_iff.mpr hnot))

/-! ### The rules that hold a declaration -/

/-- The positions `members` are, in ascending order, those of the rules with `d` among their
    direct declarations. -/
def HeldBy (rules : List Node) (d : Declaration) (members : List Nat) : Prop :=
  members.Pairwise (· < ·) ∧ ∀ i, i ∈ members ↔ ∃ r, rules[i]? = some r ∧ d ∈ r.declarations

theorem pairwise_holdersFrom (d : Declaration) (k : Nat) (contents : List (List Declaration)) :
    (holdersFrom d k contents).Pairwise (· < ·) := by
  induction contents generalizing k with
  | nil => exact List.Pairwise.nil
  | cons ds rest ih =>
    rw [holdersFrom]
    split
    · refine List.pairwise_cons.mpr ⟨?_, ih (k + 1)⟩
      intro i hi
      obtain ⟨j, -, rfl, -⟩ := mem_holdersFrom.mp hi
      omega
    · exact ih (k + 1)

theorem heldBy_holders (rules : List Node) (d : Declaration) :
    HeldBy rules d (holders (rules.map declarations) d) := by
  refine ⟨pairwise_holdersFrom d 0 _, ?_⟩
  intro i
  rw [mem_holders]
  simp only [List.getElem?_map, Option.map_eq_some_iff]
  constructor
  · rintro ⟨ds, ⟨r, hr, rfl⟩, hd⟩
    exact ⟨r, hr, hd⟩
  · rintro ⟨r, hr, hd⟩
    exact ⟨r.declarations, ⟨r, hr, rfl⟩, hd⟩

/-- There is one way only to list the rules that hold a declaration. -/
theorem heldBy_iff {rules : List Node} {d : Declaration} {members : List Nat} :
    HeldBy rules d members ↔ members = holders (rules.map declarations) d := by
  constructor
  · rintro ⟨hsorted, hmem⟩
    obtain ⟨hsorted', hmem'⟩ := heldBy_holders rules d
    have hperm : members.Perm (holders (rules.map declarations) d) := by
      apply (List.perm_ext_iff_of_nodup (hsorted.imp Nat.ne_of_lt)
        (hsorted'.imp Nat.ne_of_lt)).mpr
      intro i
      exact (hmem i).trans (hmem' i).symm
    apply hperm.eq_of_pairwise _ hsorted hsorted'
    intro i j _ _ hij hji
    exact absurd hij (Nat.lt_asymm hji)
  · rintro rfl
    exact heldBy_holders rules d

/-- What the rules declare, read one after another. -/
def declared (rules : List Node) : List Declaration := rules.flatMap declarations

theorem mem_declared_of_heldBy {rules : List Node} {d : Declaration} {members : List Nat}
    (h : HeldBy rules d members) (hne : members ≠ []) : d ∈ declared rules := by
  obtain ⟨i, hi⟩ := List.exists_mem_of_ne_nil _ hne
  obtain ⟨r, hr, hd⟩ := (h.2 i).mp hi
  exact List.mem_flatMap.mpr ⟨r, List.mem_of_getElem? hr, hd⟩

/-! ### What is in a group -/

section Groups

variable {rules : List Node} {g : SharingGroup} {d : Declaration} {members : List Nat}

theorem mem_shared {s : Declaration × List Nat} :
    s ∈ shared (rules.map declarations) ↔
      s.1 ∈ declared rules ∧ s.2 = holders (rules.map declarations) s.1 ∧ 2 ≤ s.2.length := by
  rw [shared, List.mem_filter, List.mem_map, declared, List.flatMap_def]
  constructor
  · rintro ⟨⟨d, hd, rfl⟩, hlength⟩
    exact ⟨List.mem_eraseDups.mp hd, rfl, by simpa using hlength⟩
  · rintro ⟨hd, heq, hlength⟩
    exact ⟨⟨s.1, List.mem_eraseDups.mpr hd, Prod.ext rfl heq.symm⟩, by simpa using hlength⟩

/-- There is a group for every set of two or more rules that hold some declaration. -/
theorem exists_group_iff : (∃ g ∈ sharingGroups rules, g.members = members) ↔
    2 ≤ members.length ∧ ∃ d, HeldBy rules d members := by
  have hgroup : (∃ g ∈ sharingGroups rules, g.members = members) ↔
      members ∈ (shared (rules.map declarations)).map (·.2) := by
    simp only [sharingGroups, List.mem_map, Selector.mem_sortBy, List.mem_eraseDups]
    constructor
    · rintro ⟨g, ⟨is, his, rfl⟩, rfl⟩
      exact his
    · intro h
      exact ⟨_, ⟨members, h, rfl⟩, rfl⟩
  rw [hgroup, List.mem_map]
  constructor
  · rintro ⟨s, hs, rfl⟩
    obtain ⟨-, heq, hlength⟩ := mem_shared.mp hs
    exact ⟨hlength, s.1, heldBy_iff.mpr heq⟩
  · rintro ⟨hlength, d, hd⟩
    have hne : members ≠ [] := List.ne_nil_of_length_pos (by omega)
    exact ⟨(d, members), mem_shared.mpr ⟨mem_declared_of_heldBy hd hne, heldBy_iff.mp hd, hlength⟩,
      rfl⟩

theorem heldBy_of_mem_group (hg : g ∈ sharingGroups rules) (hd : d ∈ g.declarations) :
    HeldBy rules d g.members :=
  heldBy_iff.mpr (members_of_mem_sharingGroups hg hd)

theorem two_le_length_members (hg : g ∈ sharingGroups rules) : 2 ≤ g.members.length :=
  (exists_group_iff.mp ⟨g, hg, rfl⟩).1

/-- The declarations of a group are those of all rules that its members hold, and nobody else. -/
theorem declarations_eq (hg : g ∈ sharingGroups rules) :
    g.declarations = (declared rules).eraseDups.filter fun d =>
      holders (rules.map declarations) d == g.members := by
  have hlength := two_le_length_members hg
  obtain ⟨members, -, rfl⟩ := List.mem_map.mp hg
  simp only [shared, List.filter_map, List.filter_filter, List.map_map, declared, List.flatMap_def]
  refine (List.map_id _).trans (List.filter_congr ?_)
  intro d _
  by_cases heq : holders (rules.map declarations) d = members
  · subst heq
    simpa using hlength
  · simp [heq]

theorem mem_declarations_iff (hg : g ∈ sharingGroups rules) :
    d ∈ g.declarations ↔ HeldBy rules d g.members := by
  constructor
  · exact heldBy_of_mem_group hg
  · intro hd
    have hlength := two_le_length_members hg
    have hne : g.members ≠ [] := List.ne_nil_of_length_pos (by omega)
    rw [declarations_eq hg, List.mem_filter, List.mem_eraseDups, beq_iff_eq]
    exact ⟨mem_declared_of_heldBy hd hne, (heldBy_iff.mp hd).symm⟩

/-- **A declaration is listed with exactly the rules that hold it.** -/
theorem mem_sharingGroups_iff :
    (∃ g ∈ sharingGroups rules, g.members = members ∧ d ∈ g.declarations) ↔
      2 ≤ members.length ∧ HeldBy rules d members := by
  constructor
  · rintro ⟨g, hg, rfl, hd⟩
    exact ⟨two_le_length_members hg, heldBy_of_mem_group hg hd⟩
  · rintro ⟨hlength, hd⟩
    obtain ⟨g, hg, rfl⟩ := exists_group_iff.mpr ⟨hlength, d, hd⟩
    exact ⟨g, hg, rfl, (mem_declarations_iff hg).mpr hd⟩

/-- A declaration is in some group if two or more rules hold it. -/
theorem exists_mem_declarations_iff :
    (∃ g ∈ sharingGroups rules, d ∈ g.declarations) ↔
      2 ≤ rules.countP fun r => d ∈ r.declarations := by
  have hcount : (holders (rules.map declarations) d).length =
      rules.countP fun r => d ∈ r.declarations := by
    rw [length_holders, List.countP_map]
    apply List.countP_congr
    intro r _
    simp
  rw [← hcount]
  constructor
  · rintro ⟨g, hg, hd⟩
    rw [← heldBy_iff.mp (heldBy_of_mem_group hg hd)]
    exact two_le_length_members hg
  · intro hlength
    obtain ⟨g, hg, -, hd⟩ := mem_sharingGroups_iff.mpr ⟨hlength, heldBy_holders rules d⟩
    exact ⟨g, hg, hd⟩

end Groups

/-! ### The order of declarations -/

/-- Without repetitions, elements stand in the order of their first occurrence. -/
theorem pairwise_idxOf_eraseDups {α : Type} [BEq α] [LawfulBEq α] (xs : List α) :
    xs.eraseDups.Pairwise fun x y => xs.idxOf x < xs.idxOf y := by
  induction xs using List.reverseRecOn with
  | nil => exact List.Pairwise.nil
  | append_singleton xs z ih =>
    have hold : ∀ x ∈ xs, (xs ++ [z]).idxOf x = xs.idxOf x := fun x hx =>
      List.idxOf_append_of_mem hx
    rw [List.eraseDups_append, List.pairwise_append]
    refine ⟨?_, ?_, ?_⟩
    · apply ih.imp_of_mem
      intro x y hx hy hxy
      rwa [hold x (List.mem_eraseDups.mp hx), hold y (List.mem_eraseDups.mp hy)]
    · by_cases hz : z ∈ xs
      · simp [List.removeAll, hz]
      · simp [List.removeAll, hz, List.eraseDups_cons]
    · intro x hx y hy
      have hx := List.mem_eraseDups.mp hx
      obtain ⟨hyz, hnot⟩ : y = z ∧ y ∉ xs := by
        simpa [List.removeAll, List.mem_filter] using List.mem_eraseDups.mp hy
      subst hyz
      rw [hold x hx, List.idxOf_append_of_notMem hnot]
      exact Nat.lt_add_right _ (List.idxOf_lt_length_iff.mpr hx)

/-- The declarations of a group are in the order in which they are met first. -/
theorem pairwise_declarations {rules : List Node} {g : SharingGroup}
    (hg : g ∈ sharingGroups rules) : g.declarations.Pairwise fun d d' =>
      (declared rules).idxOf d < (declared rules).idxOf d' := by
  rw [declarations_eq hg]
  exact (pairwise_idxOf_eraseDups _).filter _

theorem nodup_declarations {rules : List Node} {g : SharingGroup} (hg : g ∈ sharingGroups rules) :
    g.declarations.Nodup := by
  apply (pairwise_declarations hg).imp
  rintro d _ hlt rfl
  exact Nat.lt_irrefl _ hlt

/-- **No declaration is listed twice**, and those that fewer than two rules hold are not listed. -/
theorem count_declarations (rules : List Node) (d : Declaration) :
    ((sharingGroups rules).flatMap (·.declarations)).count d =
      if 2 ≤ rules.countP (fun r => d ∈ r.declarations) then 1 else 0 := by
  have hnodup : ((sharingGroups rules).flatMap (·.declarations)).Nodup := by
    apply List.nodup_flatMap.mpr
    refine ⟨fun g hg => nodup_declarations hg, ?_⟩
    apply (pairwise_sharingGroups rules).imp
    intro g g' hapart e he he'
    exact hapart e he he'
  rw [hnodup.count]
  simp only [List.mem_flatMap, exists_mem_declarations_iff]

/-- **Sharing groups are the exact partition of what the rules share.**  The groups come in
    strictly ascending lexicographic order of their members, which are two or more positions in
    ascending order.  A declaration is listed with the members `members` exactly if these are the
    positions of all the rules that hold it; it is listed once if two or more rules hold it, and
    not at all otherwise.  Every group lists something, and it lists declarations in the order of
    their first occurrence. -/
theorem sharingGroups_partition (rules : List Node) :
    (sharingGroups rules).Pairwise (fun g g' => List.Lex (· < ·) g.members g'.members) ∧
      (∀ g ∈ sharingGroups rules, g.members.Pairwise (· < ·) ∧ 2 ≤ g.members.length) ∧
      (∀ d members, (∃ g ∈ sharingGroups rules, g.members = members ∧ d ∈ g.declarations) ↔
        2 ≤ members.length ∧ HeldBy rules d members) ∧
      (∀ d, ((sharingGroups rules).flatMap (·.declarations)).count d =
        if 2 ≤ rules.countP (fun r => d ∈ r.declarations) then 1 else 0) ∧
      ∀ g ∈ sharingGroups rules, g.declarations ≠ [] ∧ g.declarations.Pairwise fun d d' =>
        (rules.flatMap declarations).idxOf d < (rules.flatMap declarations).idxOf d' := by
  refine ⟨ordered_sharingGroups rules, ?_, fun d members => mem_sharingGroups_iff,
    count_declarations rules, ?_⟩
  · intro g hg
    obtain ⟨hlength, d, hd⟩ := exists_group_iff.mp ⟨g, hg, rfl⟩
    exact ⟨hd.1, hlength⟩
  · intro g hg
    obtain ⟨-, d, hd⟩ := exists_group_iff.mp ⟨g, hg, rfl⟩
    exact ⟨List.ne_nil_of_mem ((mem_declarations_iff hg).mpr hd), pairwise_declarations hg⟩

end Sharing

end StyleNesting
