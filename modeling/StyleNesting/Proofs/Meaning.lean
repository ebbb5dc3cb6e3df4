/-
  StyleNesting/Proofs/Meaning.lean
  ================================
  **What a stylesheet means**: the set of its declarations where they take
  effect.  A declaration takes effect in a context, which lists the at-rules
  around it, and for an effective selector.  The effective selectors of a rule
  outside of all rules are the parts of its selector list; those of a nested
  rule are its parts, read inside each effective selector of the rule around it:

      .nav { a, &:hover { color: red } }

  says `color: red` of `.nav a` and of `.nav:hover`.

  The order of declarations plays no role, and neither does saying one thing
  twice.  Everything that holds below a rule holds for each of its effective
  selectors on its own (`mem_stylesAll_some`), so the rest of the theory treats
  rules one effective selector at a time (`mem_styles_rule`).
-/
import Mathlib.Data.Finset.Dedup
import StyleNesting.Sheet.Node

namespace StyleNesting

/-- A declaration where it takes effect. -/
structure Applied where
  /-- The names and conditions of the at-rules around it, outermost first. -/
  context : List (Text × Text)
  /-- The selector it applies to; outside of all rules there is none. -/
  selector : Option Text
  declaration : Declaration
deriving DecidableEq, Repr

/-- A part as it reads inside the effective selector `outer`: an ampersand stands
    for the outer selector, and a part without one descends from it. -/
def Selector.resolve (outer part : Text) : Text :=
  if '&' ∈ part then part.flatMap fun c => if c = '&' then outer else [c]
  else outer ++ ' ' :: part

/-- What stands around a node. -/
structure Scope where
  /-- The at-rules, outermost first. -/
  context : List (Text × Text)
  /-- The effective selectors of the nearest rule, if there is one. -/
  selectors : Option (List Text)
deriving DecidableEq, Repr

namespace Scope

def top : Scope := ⟨[], none⟩

/-- The effective selectors that one part of a selector list stands for. -/
def ofPart (sc : Scope) (part : Text) : List Text :=
  match sc.selectors with
  | none => [part]
  | some outer => outer.map (Selector.resolve · part)

/-- What stands around the children of a block. -/
def enter (sc : Scope) : Header → Scope
  | .rule s => ⟨sc.context, some ((Selector.parts s).flatMap sc.ofPart)⟩
  | .atRule name params _ => ⟨sc.context ++ [(name, params)], sc.selectors⟩
  | .sheet => sc
  | .group => sc

def apply (sc : Scope) (d : Declaration) : List Applied :=
  match sc.selectors with
  | none => [⟨sc.context, none, d⟩]
  | some outer => outer.map fun s => ⟨sc.context, some s, d⟩

end Scope

namespace Node

mutual
/-- The declarations of a tree, where they take effect. -/
def styles (sc : Scope) : Node → List Applied
  | .block _ h ns => stylesAll (sc.enter h) ns
  | .declaration _ d => sc.apply d
  | .leaf _ => []
def stylesAll (sc : Scope) : List Node → List Applied
  | [] => []
  | n :: ns => styles sc n ++ stylesAll sc ns
end

/-- The meaning of a stylesheet. -/
def meaning (n : Node) : Finset Applied := (n.styles Scope.top).toFinset

theorem mem_meaning {n : Node} {x : Applied} : x ∈ n.meaning ↔ x ∈ n.styles Scope.top :=
  List.mem_toFinset

theorem stylesAll_eq_flatMap (sc : Scope) (ns : List Node) :
    stylesAll sc ns = ns.flatMap (styles sc) := by
  induction ns with
  | nil => rfl
  | cons n ns ih => simp [stylesAll, ih]

theorem mem_stylesAll {sc : Scope} {ns : List Node} {x : Applied} :
    x ∈ stylesAll sc ns ↔ ∃ n ∈ ns, x ∈ n.styles sc := by
  rw [stylesAll_eq_flatMap, List.mem_flatMap]

theorem stylesAll_append (sc : Scope) (ns ms : List Node) :
    stylesAll sc (ns ++ ms) = stylesAll sc ns ++ stylesAll sc ms := by
  simp [stylesAll_eq_flatMap]

mutual
theorem styles_copy (sc : Scope) : ∀ n : Node, n.copy.styles sc = n.styles sc
  | .block o h ns => by
    rw [copy, styles, styles]
    exact stylesAll_copyAll (sc.enter h) ns
  | .declaration o d => rfl
  | .leaf o => rfl
theorem stylesAll_copyAll (sc : Scope) :
    ∀ ns : List Node, stylesAll sc (copyAll ns) = stylesAll sc ns
  | [] => rfl
  | n :: ns => by rw [copyAll, stylesAll, stylesAll, styles_copy, stylesAll_copyAll]
end

end Node

/-! ### One effective selector at a time -/

/-- The scope below the single effective selector `s`. -/
def Scope.below (context : List (Text × Text)) (s : Text) : Scope := ⟨context, some [s]⟩

theorem Scope.mem_ofPart_some {context : List (Text × Text)} {outer : List Text} {part s : Text} :
    s ∈ Scope.ofPart ⟨context, some outer⟩ part ↔
      ∃ P ∈ outer, s ∈ (Scope.below context P).ofPart part := by
  simp [Scope.ofPart, Scope.below, eq_comm]

namespace Node

mutual
/-- What a tree says below several effective selectors it says below one of them. -/
theorem mem_styles_some (context : List (Text × Text)) (outer : List Text) (x : Applied) :
    ∀ n : Node, x ∈ n.styles ⟨context, some outer⟩ ↔
      ∃ P ∈ outer, x ∈ n.styles (Scope.below context P)
  | .block o (.rule s) ns => by
    -- both sides run through the effective selectors of the nested rule
    simp only [styles, Scope.enter]
    rw [mem_stylesAll_some context _ x ns]
    constructor
    · rintro ⟨Q, hQ, hx⟩
      obtain ⟨q, hq, hQq⟩ := List.mem_flatMap.mp hQ
      obtain ⟨P, hP, hQP⟩ := Scope.mem_ofPart_some.mp hQq
      refine ⟨P, hP, (mem_stylesAll_some context _ x ns).mpr ⟨Q, ?_, hx⟩⟩
      exact List.mem_flatMap.mpr ⟨q, hq, hQP⟩
    · rintro ⟨P, hP, hx⟩
      obtain ⟨Q, hQ, hx⟩ := (mem_stylesAll_some context _ x ns).mp hx
      obtain ⟨q, hq, hQP⟩ := List.mem_flatMap.mp hQ
      exact ⟨Q, List.mem_flatMap.mpr ⟨q, hq, Scope.mem_ofPart_some.mpr ⟨P, hP, hQP⟩⟩, hx⟩
  | .block o (.atRule name params b) ns => by
    simp only [styles, Scope.enter]
    exact mem_stylesAll_some (context ++ [(name, params)]) outer x ns
  | .block o .sheet ns => by
    simp only [styles, Scope.enter]
    exact mem_stylesAll_some context outer x ns
  | .block o .group ns => by
    simp only [styles, Scope.enter]
    exact mem_stylesAll_some context outer x ns
  | .declaration o d => by
    simp [styles, Scope.apply, Scope.below, eq_comm]
  | .leaf o => by simp [styles]
theorem mem_stylesAll_some (context : List (Text × Text)) (outer : List Text) (x : Applied) :
    ∀ ns : List Node, x ∈ stylesAll ⟨context, some outer⟩ ns ↔
      ∃ P ∈ outer, x ∈ stylesAll (Scope.below context P) ns
  | [] => by simp [stylesAll]
  | n :: ns => by
    simp only [stylesAll, List.mem_append]
    rw [mem_styles_some context outer x n, mem_stylesAll_some context outer x ns]
    constructor
    · rintro (⟨P, hP, hx⟩ | ⟨P, hP, hx⟩)
      · exact ⟨P, hP, Or.inl hx⟩
      · exact ⟨P, hP, Or.inr hx⟩
    · rintro ⟨P, hP, hx | hx⟩
      · exact Or.inl ⟨P, hP, hx⟩
      · exact Or.inr ⟨P, hP, hx⟩
end

/-- A rule says of each effective selector of each of its parts what its children say. -/
theorem mem_styles_rule {sc : Scope} {o : Origin} {s : Text} {ns : List Node} {x : Applied} :
    x ∈ (Node.block o (.rule s) ns).styles sc ↔
      ∃ q ∈ Selector.parts s, ∃ P ∈ sc.ofPart q, x ∈ stylesAll (Scope.below sc.context P) ns := by
  simp only [styles, Scope.enter]
  rw [mem_stylesAll_some]
  constructor
  · rintro ⟨P, hP, hx⟩
    obtain ⟨q, hq, hPq⟩ := List.mem_flatMap.mp hP
    exact ⟨q, hq, P, hPq, hx⟩
  · rintro ⟨q, hq, P, hP, hx⟩
    exact ⟨P, List.mem_flatMap.mpr ⟨q, hq, hP⟩, hx⟩

theorem exists_of_isRule {n : Node} (h : n.isRule = true) :
    ∃ o s ns, n = .block o (.rule s) ns := by
  match n, h with
  | .block o (.rule s) ns, _ => exact ⟨o, s, ns, rfl⟩

theorem mem_styles_of_isRule {n : Node} (hn : n.isRule = true) {sc : Scope} {x : Applied} :
    x ∈ n.styles sc ↔
      ∃ q ∈ n.parts, ∃ P ∈ sc.ofPart q, x ∈ stylesAll (Scope.below sc.context P) n.nodes := by
  obtain ⟨o, s, ns, rfl⟩ := exists_of_isRule hn
  exact mem_styles_rule

theorem mem_styles_append {n : Node} (hn : n.isRule = true) {ms : List Node} {sc : Scope}
    {x : Applied} :
    x ∈ (n.append ms).styles sc ↔ x ∈ n.styles sc ∨
      ∃ q ∈ n.parts, ∃ P ∈ sc.ofPart q, x ∈ stylesAll (Scope.below sc.context P) ms := by
  obtain ⟨o, s, ns, rfl⟩ := exists_of_isRule hn
  simp only [append, mem_styles_rule, stylesAll_append, List.mem_append, and_or_left, exists_or]
  rfl

end Node

/-! ### Parts inside parts -/

namespace Selector

theorem resolve_of_ampersand {outer part : Text} (h : '&' ∈ part) :
    resolve outer part = part.flatMap fun c => if c = '&' then outer else [c] := if_pos h

theorem resolve_of_no_ampersand {outer part : Text} (h : '&' ∉ part) :
    resolve outer part = outer ++ ' ' :: part := if_neg h

theorem replace_of_no_ampersand {outer t : Text} (h : '&' ∉ t) :
    (t.flatMap fun c => if c = '&' then outer else [c]) = t := by
  induction t with
  | nil => rfl
  | cons c t ih =>
    have hc : c ≠ '&' := fun e => h (by simp [e])
    have ht : '&' ∉ t := fun hm => h (List.mem_cons_of_mem c hm)
    simp [List.flatMap_cons, hc, ih ht]

/-- What follows a part and has no ampersand follows the effective selector. -/
theorem resolve_append {outer part u : Text} (h : '&' ∉ u) :
    resolve outer (part ++ u) = resolve outer part ++ u := by
  by_cases hp : '&' ∈ part
  · rw [resolve_of_ampersand hp, resolve_of_ampersand (List.mem_append_left u hp),
      List.flatMap_append, replace_of_no_ampersand h]
  · have hpu : '&' ∉ part ++ u := by simp [hp, h]
    rw [resolve_of_no_ampersand hp, resolve_of_no_ampersand hpu]
    simp

/-- An ampersand with a suffix is the outer selector with that suffix. -/
theorem resolve_ampersand_cons {outer u : Text} (h : '&' ∉ u) :
    resolve outer ('&' :: u) = outer ++ u := by
  rw [resolve_of_ampersand (by simp), List.flatMap_cons, replace_of_no_ampersand h, if_pos rfl]

end Selector

namespace Scope

theorem ofPart_append (sc : Scope) (part : Text) {u : Text} (h : '&' ∉ u) :
    sc.ofPart (part ++ u) = (sc.ofPart part).map (· ++ u) := by
  unfold ofPart
  cases sc.selectors with
  | none => rfl
  | some outer => simp [Selector.resolve_append h]

theorem ofPart_below (context : List (Text × Text)) (P part : Text) :
    (below context P).ofPart part = [Selector.resolve P part] := rfl

end Scope

end StyleNesting
