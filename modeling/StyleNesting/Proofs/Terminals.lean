/-
  StyleNesting/Proofs/Terminals.lean
  ==================================
  **Selectors and declarations are never mistaken for each other.**  The two
  terminals are given once more as patterns: a regular language of lexemes, and
  the characters one of which has to follow.  A pattern may match a text in many
  ways, the longest run of items is only one of them; here it is the only one.

  A run of items is the same as a text that the scan may pass
  (`mem_kstar_item_iff`), so the lexemes of the patterns are the selector and the
  declaration texts, and the lexer finds all matches there are
  (`selectorPattern_matches_iff`, `declarationPattern_matches_iff`).  A run ends
  in front of the first brace or semicolon outside of strings and escapes
  (`Run.firstStop`), whose character tells the two terminals apart.

  Of the terminals that are looked for between statements no two match at one
  place (`Terminal.eq_of_length?`), so a reader may look for them in any order
  (`Reader.stepTrying_eq`).
-/
import Mathlib.Computability.Language
import StyleNesting.Proofs.Grammar

namespace StyleNesting.Source

open StyleNesting Selector
open scoped Computability

/-! ### Patterns -/

/-- A pattern: the lexemes it takes, and the characters one of which has to follow. -/
structure Pattern where
  body : Language Char
  ahead : Char → Bool

/-- The pattern can take the first `n` characters of a text, in one way or another. -/
def Pattern.Matches (p : Pattern) (t : Text) (n : Nat) : Prop :=
  ∃ u c v, t = u ++ c :: v ∧ u.length = n ∧ u ∈ p.body ∧ p.ahead c = true

/-- One character of a class. -/
def charOf (p : Char → Bool) : Language Char := {u | ∃ c, p c = true ∧ u = [c]}

/-- A backslash with the character after it, unless that is a line feed. -/
def escape : Language Char := charOf (· == '\\') * charOf (· != '\n')

/-- What a string between two quotes is made of. -/
def stringPiece (q : Char) : Language Char := escape + charOf fun c => c != q && c != '\\'

/-- A closed string. -/
def quoted (q : Char) : Language Char := charOf (· == q) * (stringPiece q)∗ * charOf (· == q)

/-- An item of a run, with the class of the characters that are items of their own. -/
def itemOf (p : Char → Bool) : Language Char := charOf p + escape + quoted '"' + quoted '\''

/-- An item of a run. -/
def item : Language Char := itemOf isItem

/-- Whether a selector may start with `c` as an item of its own. -/
def isSelectorStart (c : Char) : Bool := isItem c && c != '@' && !Text.isBlank c

/-- An item that is neither blank nor an at sign, more items, and an opening brace ahead. -/
def selectorPattern : Pattern where
  body := itemOf isSelectorStart * item∗
  ahead c := c == '{'

/-- A name, blanks, a colon, items, and a semicolon or a closing brace ahead. -/
def declarationPattern : Pattern where
  body := charOf isNameChar * (charOf isNameChar)∗ * (charOf Text.isBlank)∗ * charOf (· == ':') *
    item∗
  ahead c := c == ';' || c == '}'

theorem mem_charOf {p : Char → Bool} {u : Text} : u ∈ charOf p ↔ ∃ c, p c = true ∧ u = [c] :=
  Iff.rfl

theorem mem_charOf_beq {q : Char} {u : Text} : u ∈ charOf (· == q) ↔ u = [q] := by
  simp [mem_charOf]

theorem mem_escape {u : Text} : u ∈ escape ↔ ∃ c, c ≠ '\n' ∧ u = ['\\', c] := by
  simp only [escape, Language.mem_mul, mem_charOf_beq]
  constructor
  · rintro ⟨_, rfl, _, ⟨c, hc, rfl⟩, rfl⟩
    exact ⟨c, by simpa using hc, rfl⟩
  · rintro ⟨c, hc, rfl⟩
    exact ⟨_, rfl, _, ⟨c, by simpa using hc, rfl⟩, rfl⟩

theorem mem_quoted {q : Char} {u : Text} :
    u ∈ quoted q ↔ ∃ body ∈ (stringPiece q)∗, u = q :: (body ++ [q]) := by
  simp only [quoted, Language.mem_mul, mem_charOf_beq]
  constructor
  · rintro ⟨_, ⟨_, rfl, body, hbody, rfl⟩, _, rfl, rfl⟩
    exact ⟨body, hbody, rfl⟩
  · rintro ⟨body, hbody, rfl⟩
    exact ⟨_, ⟨_, rfl, body, hbody, rfl⟩, _, rfl, rfl⟩

theorem mem_itemOf {p : Char → Bool} {u : Text} :
    u ∈ itemOf p ↔ u ∈ charOf p ∨ u ∈ escape ∨ ∃ q, isQuote q = true ∧ u ∈ quoted q := by
  simp only [itemOf, Language.mem_add, isQuote_iff, or_and_right, exists_or, exists_eq_left,
    or_assoc]

theorem append_mem_kstar {l : Language Char} {u v : Text} (hu : u ∈ l) (hv : v ∈ l∗) :
    u ++ v ∈ l∗ :=
  (mul_kstar_le_kstar : l * l∗ ≤ l∗) (Language.append_mem_mul hu hv)

theorem mem_kstar_charOf {p : Char → Bool} {u : Text} :
    u ∈ (charOf p)∗ ↔ ∀ c ∈ u, p c = true := by
  constructor
  · rintro ⟨pieces, rfl, hpieces⟩ c hc
    obtain ⟨piece, hpiece, hc⟩ := List.mem_flatten.mp hc
    obtain ⟨d, hd, rfl⟩ := hpieces piece hpiece
    rw [List.mem_singleton.mp hc]
    exact hd
  · intro hu
    induction u with
    | nil => exact Language.nil_mem_kstar _
    | cons c u ih =>
      obtain ⟨hc, hu⟩ := List.forall_mem_cons.mp hu
      exact append_mem_kstar (u := [c]) ⟨c, hc, rfl⟩ (ih hu)

/-! ### Runs are made of items -/

/-- Inside of a string, the scan goes over its pieces and stays where it is. -/
theorem passes_append_of_stringPiece {s : Scan} (hs : s.escaped = false) {q : Char}
    (hq : s.quote = some q) {u : Text} (hu : u ∈ stringPiece q) (v : Text) :
    Passes s (u ++ v) ↔ Passes s v := by
  rcases hu with hu | ⟨c, hc, rfl⟩
  · obtain ⟨c, hc, rfl⟩ := mem_escape.mp hu
    exact (passes_escape hs).trans (and_iff_right hc)
  · rw [Bool.and_eq_true, bne_iff_ne, bne_iff_ne] at hc
    have hstep : s.step c = s := by simp [Scan.step, hs, hq, hc]
    have hpass : mayPass s c = true := by simp [mayPass, hs, hq]
    rw [List.singleton_append, passes_cons, hstep]
    exact and_iff_right hpass

theorem passes_append_of_stringPieces {s : Scan} (hs : s.escaped = false) {q : Char}
    (hq : s.quote = some q) {u : Text} (hu : u ∈ (stringPiece q)∗) (v : Text) :
    Passes s (u ++ v) ↔ Passes s v := by
  obtain ⟨pieces, rfl, hpieces⟩ := hu
  induction pieces with
  | nil => rfl
  | cons piece pieces ih =>
    rw [List.flatten_cons, List.append_assoc,
      passes_append_of_stringPiece hs hq (hpieces piece (by simp)),
      ih fun y hy => hpieces y (by simp [hy])]

theorem Run.of_quoted {q : Char} (hq : isQuote q = true) {u : Text} (hu : u ∈ quoted q) :
    Run u := by
  obtain ⟨body, hbody, rfl⟩ := mem_quoted.mp hu
  have hback := ne_backslash_of_isQuote hq
  have hescaped : (Scan.start.step q).escaped = false := Scan.escaped_step hback
  have hquote : (Scan.start.step q).quote = some q := by
    rw [Scan.quote_step rfl hback]
    simp [Scan.start, hq]
  have hclose : Passes (Scan.start.step q) [q] := by
    have hpass : mayPass (Scan.start.step q) q = true := by simp [mayPass, hescaped, hquote]
    refine Passes.cons hpass (Passes.nil ⟨Scan.escaped_step hback, ?_⟩)
    rw [Scan.quote_step hescaped hback, hquote]
    simp
  have hopen : mayPass Scan.start q = true := by
    simp [mayPass, Scan.start, not_isStop_of_isQuote hq]
  exact Passes.cons hopen ((passes_append_of_stringPieces hescaped hquote hbody [q]).mpr hclose)

theorem Run.of_item {u : Text} (hu : u ∈ item) : Run u := by
  rcases mem_itemOf.mp hu with ⟨c, hc, rfl⟩ | hescape | ⟨q, hq, hquoted⟩
  · exact Run.singleton hc
  · obtain ⟨c, hc, rfl⟩ := mem_escape.mp hescape
    exact (passes_escape rfl).mpr ⟨hc, Run.nil⟩
  · exact Run.of_quoted hq hquoted

/-- What is left of a run of items, outside of strings or inside of one. -/
def itemsFrom : Option Char → Language Char
  | none => item∗
  | some q => (stringPiece q)∗ * charOf (· == q) * item∗

theorem stringPiece_append_mem {q : Char} {u w : Text} (hu : u ∈ stringPiece q)
    (hw : w ∈ itemsFrom (some q)) : u ++ w ∈ itemsFrom (some q) := by
  obtain ⟨_, ⟨body, hbody, close, hclose, rfl⟩, rest, hrest, rfl⟩ := hw
  exact ⟨_, ⟨u ++ body, append_mem_kstar hu hbody, close, hclose, rfl⟩, rest, hrest, by simp⟩

theorem escape_append_mem {quote : Option Char} {u w : Text} (hu : u ∈ escape)
    (hw : w ∈ itemsFrom quote) : u ++ w ∈ itemsFrom quote := by
  cases quote with
  | none => exact append_mem_kstar (mem_itemOf.mpr (Or.inr (Or.inl hu))) hw
  | some q => exact stringPiece_append_mem (Or.inl hu) hw

theorem cons_mem_itemsFrom {s : Scan} (hs : s.escaped = false) {c : Char} (hc : c ≠ '\\')
    (hpass : mayPass s c = true) {u : Text} (hu : u ∈ itemsFrom (s.step c).quote) :
    c :: u ∈ itemsFrom s.quote := by
  rw [Scan.quote_step hs hc] at hu
  cases hquote : s.quote with
  | some q =>
    simp only [hquote] at hu
    split at hu
    · rename_i hclose
      exact ⟨_, ⟨[], Language.nil_mem_kstar _, [c], ⟨c, hclose, rfl⟩, rfl⟩, u, hu, rfl⟩
    · rename_i hinside
      exact stringPiece_append_mem (u := [c]) (Or.inr ⟨c, by simpa [hc] using hinside, rfl⟩) hu
  | none =>
    simp only [hquote] at hu
    split at hu
    · rename_i hopen
      obtain ⟨_, ⟨body, hbody, close, hclose, rfl⟩, rest, hrest, rfl⟩ := hu
      rw [mem_charOf_beq.mp hclose]
      have hstring : c :: (body ++ [c]) ∈ item :=
        mem_itemOf.mpr (Or.inr (Or.inr ⟨c, hopen, mem_quoted.mpr ⟨body, hbody, rfl⟩⟩))
      exact append_mem_kstar hstring hrest
    · rename_i hplain
      have hstop : isStop c = false := by simpa [mayPass, hs, hquote] using hpass
      have hitem : isItem c = true := by simp [isItem, hstop, hplain, hc]
      exact append_mem_kstar (u := [c]) (mem_itemOf.mpr (Or.inl ⟨c, hitem, rfl⟩)) hu

/-- A text that the scan may pass is made of items. -/
theorem Passes.mem_itemsFrom {s : Scan} (hs : s.escaped = false) {u : Text} (hu : Passes s u) :
    u ∈ itemsFrom s.quote := by
  refine Passes.induct (motive := fun s u => u ∈ itemsFrom s.quote) ?_ ?_ ?_ hs hu
  · intro s hs
    rw [hs.quote]
    exact Language.nil_mem_kstar _
  · intro s c u _ hc hu
    exact escape_append_mem (mem_escape.mpr ⟨c, hc, rfl⟩) hu
  · intro s c u hs hc hpass hu
    exact cons_mem_itemsFrom hs hc hpass hu

/-- **The runs are the texts that are made of items.** -/
theorem mem_kstar_item_iff {u : Text} : u ∈ item∗ ↔ Run u := by
  refine ⟨?_, fun hu => hu.mem_itemsFrom rfl⟩
  rintro ⟨pieces, rfl, hpieces⟩
  induction pieces with
  | nil => exact Run.nil
  | cons piece pieces ih =>
    have hrest : Run pieces.flatten := ih fun y hy => hpieces y (by simp [hy])
    exact (Run.of_item (hpieces piece (by simp))).append hrest

/-! ### The lexemes of the patterns -/

theorem exists_cons_of_mem_itemOf {p : Char → Bool} {u : Text} (hu : u ∈ itemOf p) :
    ∃ c w, u = c :: w ∧ (p c = true ∨ c = '\\' ∨ isQuote c = true) := by
  rcases mem_itemOf.mp hu with ⟨c, hc, rfl⟩ | hescape | ⟨q, hq, hquoted⟩
  · exact ⟨c, [], rfl, Or.inl hc⟩
  · obtain ⟨c, -, rfl⟩ := mem_escape.mp hescape
    exact ⟨'\\', [c], rfl, Or.inr (Or.inl rfl)⟩
  · obtain ⟨body, -, rfl⟩ := mem_quoted.mp hquoted
    exact ⟨q, _, rfl, Or.inr (Or.inr hq)⟩

/-- Only the items of one character depend on the class. -/
theorem mem_itemOf_of_head {p p' : Char → Bool} {u : Text} (hu : u ∈ itemOf p)
    (hhead : ∀ c, u.head? = some c → p c = true → p' c = true) : u ∈ itemOf p' := by
  rcases mem_itemOf.mp hu with ⟨c, hc, rfl⟩ | hlonger
  · exact mem_itemOf.mpr (Or.inl ⟨c, hhead c rfl hc, rfl⟩)
  · exact mem_itemOf.mpr (Or.inr hlonger)

theorem isSelectorStart_iff {c : Char} :
    isSelectorStart c = true ↔ isItem c = true ∧ c ≠ '@' ∧ Text.isBlank c = false := by
  simp [isSelectorStart, and_assoc]

/-- **The lexemes of the selector pattern are the selector texts.** -/
theorem mem_selectorPattern_iff {u : Text} : u ∈ selectorPattern.body ↔ SelectorText u := by
  constructor
  · rintro ⟨first, hfirst, rest, hrest, rfl⟩
    have hitem : first ∈ item :=
      mem_itemOf_of_head hfirst fun c _ hc => (isSelectorStart_iff.mp hc).1
    obtain ⟨c, w, rfl, hc⟩ := exists_cons_of_mem_itemOf hfirst
    refine ⟨(Run.of_item hitem).append (mem_kstar_item_iff.mp hrest), by simp, fun d hd => ?_⟩
    cases hd
    rcases hc with hc | rfl | hc
    · exact (isSelectorStart_iff.mp hc).2
    · decide
    · rcases isQuote_iff.mp hc with rfl | rfl <;> decide
  · intro hu
    have hitems : u ∈ item∗ := mem_kstar_item_iff.mpr hu.run
    rw [← Language.one_add_self_mul_kstar_eq_kstar] at hitems
    rcases hitems with hnil | ⟨first, hfirst, rest, hrest, rfl⟩
    · exact absurd hnil hu.nonempty
    · refine ⟨first, mem_itemOf_of_head hfirst fun c hc hitem => ?_, rest, hrest, rfl⟩
      obtain ⟨w, rfl⟩ := List.head?_eq_some_iff.mp hc
      exact isSelectorStart_iff.mpr ⟨hitem, hu.head c rfl⟩

/-- **The lexemes of the declaration pattern are the declaration texts.** -/
theorem mem_declarationPattern_iff {u : Text} :
    u ∈ declarationPattern.body ↔ DeclarationText u := by
  have htext : ∀ (c : Char) (name blanks value : Text),
      [c] ++ name ++ blanks ++ [':'] ++ value = c :: name ++ (blanks ++ ':' :: value) := by simp
  rw [declarationPattern]
  constructor
  · intro hu
    obtain ⟨_, hbefore, value, hvalue, rfl⟩ := Language.mem_mul.mp hu
    obtain ⟨_, hspaced, colon, hcolon, rfl⟩ := Language.mem_mul.mp hbefore
    obtain ⟨_, hnamed, blanks, hblanks, rfl⟩ := Language.mem_mul.mp hspaced
    obtain ⟨_, ⟨c, hc, rfl⟩, name, hname, rfl⟩ := Language.mem_mul.mp hnamed
    rw [mem_charOf_beq.mp hcolon, htext]
    rw [mem_kstar_charOf] at hname hblanks
    exact .intro (by simp) (List.forall_mem_cons.mpr ⟨hc, hname⟩) hblanks
      (mem_kstar_item_iff.mp hvalue)
  · rintro ⟨hne, hname, hblanks, hvalue⟩
    rename_i name blanks value
    obtain ⟨c, name, rfl⟩ := List.exists_cons_of_ne_nil hne
    obtain ⟨hc, hname⟩ := List.forall_mem_cons.mp hname
    rw [← mem_kstar_charOf] at hname hblanks
    have hfirst : [c] ∈ charOf isNameChar := ⟨c, hc, rfl⟩
    have hcolon : [':'] ∈ charOf (· == ':') := mem_charOf_beq.mpr rfl
    rw [← htext]
    apply Language.append_mem_mul _ (mem_kstar_item_iff.mpr hvalue)
    apply Language.append_mem_mul _ hcolon
    apply Language.append_mem_mul _ hblanks
    exact Language.append_mem_mul hfirst hname

/-- **The lexer finds every way in which a selector matches.** -/
theorem selectorPattern_matches_iff {t : Text} {n : Nat} :
    selectorPattern.Matches t n ↔ selectorLength? t = some n := by
  constructor
  · rintro ⟨u, c, v, rfl, rfl, hu, hc⟩
    have hbrace : c = '{' := beq_iff_eq.mp hc
    rw [hbrace, selectorLength?_append (mem_selectorPattern_iff.mp hu)]
  · intro h
    obtain ⟨u, v, ht, hlength, hu⟩ := exists_of_selectorLength? h
    exact ⟨u, '{', v, ht, hlength, mem_selectorPattern_iff.mpr hu, rfl⟩

theorem declarationPattern_ahead_iff {c : Char} :
    declarationPattern.ahead c = true ↔ c = '}' ∨ c = ';' := by
  simp [declarationPattern, or_comm]

/-- **The lexer finds every way in which a declaration matches.** -/
theorem declarationPattern_matches_iff {t : Text} {n : Nat} :
    declarationPattern.Matches t n ↔ declarationLength? t = some n := by
  constructor
  · rintro ⟨u, c, v, rfl, rfl, hu, hc⟩
    exact declarationLength?_append (mem_declarationPattern_iff.mp hu)
      (declarationPattern_ahead_iff.mp hc) v
  · intro h
    obtain ⟨u, c, v, ht, hc, hlength, hu⟩ := exists_of_declarationLength? h
    exact ⟨u, c, v, ht, hlength, mem_declarationPattern_iff.mpr hu,
      declarationPattern_ahead_iff.mpr hc⟩

/-! ### The first stop -/

/-- At offset `n` of a text stands `c`, a brace or a semicolon outside of strings and escapes. -/
structure OpenStop (t : Text) (n : Nat) (c : Char) : Prop where
  there : t[n]? = some c
  stop : isStop c = true
  outside : (Scan.start.run (t.take n)).Outside

/-- The same, and none stands further in front. -/
structure FirstStop (t : Text) (n : Nat) (c : Char) : Prop extends OpenStop t n c where
  first : ∀ m d, OpenStop t m d → n ≤ m

/-- **A run ends in front of the first stop.** -/
theorem Run.firstStop {u : Text} (hu : Run u) {c : Char} (hc : isStop c = true) (v : Text) :
    FirstStop (u ++ c :: v) u.length c := by
  refine ⟨⟨by simp, hc, by rw [List.take_left]; exact hu.ends⟩, fun m d hd => ?_⟩
  by_contra hlt
  rw [Nat.not_le] at hlt
  have hthere : u[m]? = some d := by
    rw [← List.getElem?_append_left hlt]
    exact hd.there
  have houtside : (Scan.start.run (u.take m)).Outside := by
    rw [← List.take_append_of_le_length hlt.le]
    exact hd.outside
  -- the scan of the run passes `d`, which is a stop, outside of strings and escapes
  have hsplit : u = u.take m ++ d :: u.drop (m + 1) := by
    obtain ⟨hm, rfl⟩ := List.getElem?_eq_some_iff.mp hthere
    rw [← List.drop_eq_getElem_cons hm, List.take_append_drop]
  have halong := hu.along
  rw [hsplit, Scan.along_append, Bool.and_eq_true, Scan.along, Bool.and_eq_true] at halong
  have hstop := not_stop_of_mayPass halong.2.1
  rw [Scan.isOutside_iff.mpr houtside, hd.stop] at hstop
  cases hstop

/-! ### The order in which terminals are tried -/

/-- A terminal that is a single character. -/
def signLength? (sign : Char) (t : Text) : Option Nat :=
  if t.head? = some sign then some 1 else none

theorem signLength?_eq_some_iff {sign : Char} {t : Text} {n : Nat} :
    signLength? sign t = some n ↔ (∃ v, t = sign :: v) ∧ n = 1 := by
  rw [signLength?, Option.ite_none_right_eq_some, List.head?_eq_some_iff, Option.some.injEq,
    eq_comm (a := n)]

/-- The length of the lexeme of a terminal at the start of a text. -/
def Terminal.length? (k : Terminal) (t : Text) : Option Nat :=
  match k with
  | .selector => selectorLength? t
  | .declaration => declarationLength? t
  | .atKeyword => atKeywordLength? t
  | .atPrelude => atPreludeLength? t
  | .leftBrace => signLength? '{' t
  | .rightBrace => signLength? '}' t
  | .semicolon => signLength? ';' t
  | .textEnd => none

/-- The first terminal of a list that matches, and the length of its lexeme. -/
def firstLexeme? (order : List Terminal) (t : Text) : Option (Terminal × Nat) :=
  order.findSome? fun k => (k.length? t).map (k, ·)

/-- The terminals that are looked for between statements. -/
abbrev between : List Terminal := Place.block.triedLexemes

theorem selectorLength?_eq_none_of_declaration {t : Text} {n : Nat}
    (h : declarationLength? t = some n) : selectorLength? t = none := by
  obtain ⟨u, c, v, rfl, hc, -, hu⟩ := exists_of_declarationLength? h
  exact selectorLength?_eq_none hu.run hc v

/-- The terminal that is known by its first character, if `c` is that of one. -/
def signOf? (c : Char) : Option Terminal :=
  if c = '@' then some .atKeyword
  else if c = '}' then some .rightBrace
  else if c = ';' then some .semicolon
  else none

theorem signOf?_eq_none {c : Char} (hat : c ≠ '@') (hstop : isStop c = false) :
    signOf? c = none := by
  have hclose : c ≠ '}' := by
    rintro rfl
    cases hstop
  have hsemicolon : c ≠ ';' := by
    rintro rfl
    cases hstop
  simp [signOf?, hat, hclose, hsemicolon]

theorem Terminal.length?_nil (k : Terminal) : k.length? [] = none := by
  cases k <;> rfl

theorem Terminal.ne_textEnd_of_length? {k : Terminal} {t : Text} {n : Nat}
    (h : k.length? t = some n) : k ≠ .textEnd := by
  rintro rfl
  cases h

/-- A lexeme between statements has the sign of its terminal in front, or no sign if it is a
    selector or a declaration. -/
theorem Terminal.sign_of_length? {k : Terminal} (hk : k ∈ between) {c : Char} {t : Text} {n : Nat}
    (h : k.length? (c :: t) = some n) :
    signOf? c = some k ∨ signOf? c = none ∧ (k = .selector ∨ k = .declaration) := by
  cases k with
  | selector =>
    have h : selectorLength? (c :: t) = some n := h
    obtain ⟨u, v, htext, -, hu⟩ := exists_of_selectorLength? h
    obtain ⟨d, w, rfl⟩ := List.exists_cons_of_ne_nil hu.nonempty
    obtain rfl : c = d := List.head_eq_of_cons_eq htext
    have hstop : isStop c = false := by
      simpa [mayPass, Scan.start] using (passes_cons.mp hu.run).1
    exact Or.inr ⟨signOf?_eq_none (hu.head c rfl).1 hstop, Or.inl rfl⟩
  | declaration =>
    obtain ⟨u, d, v, htext, -, -, hne, hname, -, -⟩ := exists_of_declarationLength? h
    rename_i name blanks value
    obtain ⟨e, w, rfl⟩ := List.exists_cons_of_ne_nil hne
    obtain rfl : c = e := List.head_eq_of_cons_eq htext
    have hc := hname c (by simp)
    simp only [isNameChar, Bool.not_eq_true', Bool.or_eq_false_iff, beq_eq_false_iff_ne] at hc
    exact Or.inr ⟨signOf?_eq_none hc.1.1.1.2 hc.1.1.1.1.1, Or.inr rfl⟩
  | atKeyword =>
    obtain ⟨name, r, htext, -⟩ := exists_of_atKeywordLength? h
    obtain rfl : c = '@' := List.head_eq_of_cons_eq htext
    exact Or.inl rfl
  | rightBrace | semicolon =>
    obtain ⟨⟨v, hv⟩, -⟩ := signLength?_eq_some_iff.mp h
    cases hv
    exact Or.inl rfl
  | leftBrace | atPrelude | textEnd => exact absurd hk (by decide)

/-- **Between statements no two terminals match at one place.** -/
theorem Terminal.eq_of_length? {k k' : Terminal} (hk : k ∈ between) (hk' : k' ∈ between)
    {t : Text} {n n' : Nat} (h : k.length? t = some n) (h' : k'.length? t = some n') : k = k' := by
  cases t with
  | nil =>
    rw [Terminal.length?_nil] at h
    cases h
  | cons c t =>
    rcases Terminal.sign_of_length? hk h with hsign | ⟨hnone, hkind⟩ <;>
      rcases Terminal.sign_of_length? hk' h' with hsign' | ⟨hnone', hkind'⟩
    · exact Option.some.inj (hsign.symm.trans hsign')
    · cases hsign.symm.trans hnone'
    · cases hnone.symm.trans hsign'
    · rcases hkind with rfl | rfl <;> rcases hkind' with rfl | rfl
      · rfl
      · exact nomatch (selectorLength?_eq_none_of_declaration h').symm.trans h
      · exact nomatch (selectorLength?_eq_none_of_declaration h).symm.trans h'
      · rfl

/-- Where no two terminals of a list match, the first one is any one. -/
theorem firstLexeme?_eq_some_iff {order : List Terminal} (horder : ∀ k ∈ order, k ∈ between)
    {t : Text} {k : Terminal} {n : Nat} :
    firstLexeme? order t = some (k, n) ↔ k ∈ order ∧ k.length? t = some n := by
  constructor
  · intro h
    obtain ⟨k', hk', hlength⟩ := List.exists_of_findSome?_eq_some h
    obtain ⟨n', hn', heq⟩ := Option.map_eq_some_iff.mp hlength
    cases heq
    exact ⟨hk', hn'⟩
  · rintro ⟨hk, hn⟩
    cases hfirst : firstLexeme? order t with
    | none =>
      have hnone := List.findSome?_eq_none_iff.mp hfirst k hk
      rw [hn] at hnone
      cases hnone
    | some found =>
      obtain ⟨k', hk', hlength⟩ := List.exists_of_findSome?_eq_some hfirst
      obtain ⟨n', hn', rfl⟩ := Option.map_eq_some_iff.mp hlength
      obtain rfl := Terminal.eq_of_length? (horder k' hk') (horder k hk) hn' hn
      rw [hn', Option.some.injEq] at hn
      rw [hn]

/-- Of two terminals that never match together either may be tried first. -/
theorem firstLexeme?_swap (before after : List Terminal) (t : Text) :
    firstLexeme? (before ++ .selector :: .declaration :: after) t =
      firstLexeme? (before ++ .declaration :: .selector :: after) t := by
  simp only [firstLexeme?, List.findSome?_append, List.findSome?_cons, Terminal.length?]
  cases h : declarationLength? t with
  | none => cases selectorLength? t <;> rfl
  | some n =>
    rw [selectorLength?_eq_none_of_declaration h]
    rfl

/-! ### Readers that try the terminals in other orders -/

/-- What the reader does about a lexeme of length `n` in front of it. -/
def Reader.meet (r : Reader) (k : Terminal) (n : Nat) : Except ParseError Reader :=
  if k ∈ r.place.accepts then
    match k with
    | .selector => .ok (r.readSelector n)
    | .declaration => .ok (r.readDeclaration n)
    | .atKeyword => r.readAtRule n
    | .rightBrace => .ok (r.closeBlock.take r.here n true)
    -- between statements only the semicolon is left
    | _ => .ok (r.take r.here n false)
  else .error ⟨.lexeme k (r.rest.take n), r.here, r.place.accepts⟩

/-- The step of a reader that looks for terminals in the order `tried`, which may be another one
    at every place. -/
def Reader.stepTrying (tried : Place → List Terminal) (r : Reader) :
    Except ParseError (Option Reader) :=
  match r.rest with
  | [] => if r.opened.isEmpty then .ok none else .error (unexpectedEnd .block r.last)
  | c :: t =>
    match firstLexeme? (tried r.place) (c :: t) with
    | some (k, n) => (r.meet k n).map some
    | none => .error (unexpected r.place r.here c t)

def Reader.runTrying (tried : Place → List Terminal) : Nat → Reader → Except ParseError (List Node)
  | 0, r => .ok r.nodes
  | fuel + 1, r =>
    match r.skipLayout.stepTrying tried with
    | .error e => .error e
    | .ok none => .ok r.nodes
    | .ok (some r') => Reader.runTrying tried fuel r'

/-- Read a text without comments, looking for terminals in the order `tried`. -/
def readTrying (tried : Place → List Terminal) (t : Text) : Except ParseError Node :=
  ((Reader.start t).runTrying tried (t.length + 1)).map (Node.block {} .sheet)

section Trying

variable {r : Reader}

theorem Reader.place_cases (r : Reader) :
    (r.opened ≠ [] ∧ r.place = .block) ∨
      r.opened = [] ∧ (r.place = .sheet ∨ r.place = .afterStatement) := by
  obtain ⟨nodes, opened, afterStatement, last, here, rest⟩ := r
  cases opened with
  | cons f fs => exact Or.inl ⟨by simp, rfl⟩
  | nil => cases afterStatement <;> simp [Reader.place]

theorem Reader.mem_between {k : Terminal} (hk : k ∈ r.place.triedLexemes) : k ∈ between := by
  rcases r.place_cases with ⟨-, hplace⟩ | ⟨-, hplace | hplace⟩
  all_goals
    rw [hplace] at hk
    revert k
    decide

theorem Reader.mem_accepts_iff {k : Terminal} (hk : k ≠ .textEnd) :
    k ∈ r.place.accepts ↔
      k ∈ between ∧ (k = .declaration ∨ k = .rightBrace → r.opened ≠ []) := by
  rcases r.place_cases with ⟨hopen, hplace⟩ | ⟨hopen, hplace | hplace⟩
  all_goals
    rw [hplace]
    cases k <;> simp_all [Place.accepts, Place.triedLexemes]

theorem Reader.mem_triedLexemes {k : Terminal} (hk : k ∈ r.place.accepts) (hend : k ≠ .textEnd) :
    k ∈ r.place.triedLexemes := by
  rcases r.place_cases with ⟨-, hplace⟩ | ⟨-, hplace | hplace⟩
  all_goals
    rw [hplace] at hk ⊢
    revert k
    decide

theorem Reader.step_unexpected {c : Char} {t : Text} (hrest : r.rest = c :: t)
    (h : ∀ k ∈ r.place.accepts, k.length? r.rest = none) :
    r.step = .error (unexpected r.place r.here c t) := by
  have hnone : ∀ k ∈ between, (k = .declaration ∨ k = .rightBrace → r.opened ≠ []) →
      k.length? (c :: t) = none := by
    intro k hk hopen
    have hend : k ≠ .textEnd := by
      rintro rfl
      exact absurd hk (by decide)
    rw [← hrest]
    exact h k ((Reader.mem_accepts_iff hend).mpr ⟨hk, hopen⟩)
  have hselector : selectorLength? (c :: t) = none := hnone .selector (by decide) (by simp)
  have hat : atKeywordLength? (c :: t) = none := hnone .atKeyword (by decide) (by simp)
  have hsemicolon : c ≠ ';' := by
    simpa [Terminal.length?, signLength?] using hnone .semicolon (by decide) (by simp)
  by_cases hopen : r.opened = []
  · simp [Reader.step, hrest, hselector, hat, hsemicolon, hopen]
  · have hdeclaration : declarationLength? (c :: t) = none :=
      hnone .declaration (by decide) fun _ => hopen
    have hclose : c ≠ '}' := by
      simpa [Terminal.length?, signLength?] using hnone .rightBrace (by decide) fun _ => hopen
    simp [Reader.step, hrest, hselector, hdeclaration, hat, hsemicolon, hclose, hopen]

/-- In front of a lexeme that fits the reader takes it. -/
theorem Reader.step_met {k : Terminal} (hk : k ∈ r.place.accepts) {n : Nat}
    (h : k.length? r.rest = some n) : r.step = (r.meet k n).map some := by
  have hend := Terminal.ne_textEnd_of_length? h
  obtain ⟨hbetween, hopen⟩ := (Reader.mem_accepts_iff hend).mp hk
  unfold Reader.meet
  rw [if_pos hk]
  cases k with
  | selector =>
    have h : selectorLength? r.rest = some n := h
    obtain ⟨u, v, hrest, rfl, hu⟩ := exists_of_selectorLength? h
    exact Reader.step_selector_eq hrest hu
  | declaration =>
    have h : declarationLength? r.rest = some n := h
    obtain ⟨u, c, v, hrest, hc, rfl, hu⟩ := exists_of_declarationLength? h
    exact Reader.step_declaration_eq hrest hc hu (hopen (Or.inl rfl))
  | atKeyword =>
    have h : atKeywordLength? r.rest = some n := h
    obtain ⟨name, t, hrest, -⟩ := exists_of_atKeywordLength? h
    rw [hrest] at h
    simp only [Reader.step, hrest, selectorLength?_of_at, declarationLength?_of_at, ite_self, h]
  | rightBrace =>
    obtain ⟨⟨v, hv⟩, rfl⟩ := signLength?_eq_some_iff.mp h
    exact Reader.step_close_eq hv (hopen (Or.inr rfl))
  | semicolon =>
    obtain ⟨⟨v, hv⟩, rfl⟩ := signLength?_eq_some_iff.mp h
    exact Reader.step_semicolon_eq hv
  | leftBrace | atPrelude | textEnd => exact absurd hbetween (by decide)

theorem anyLexeme?_of_declaration {t : Text} {n : Nat} (h : declarationLength? t = some n) :
    anyLexeme? t = some (.declaration, n) := by
  simp only [anyLexeme?, selectorLength?_eq_none_of_declaration h, h]

theorem anyLexeme?_rightBrace (t : Text) : anyLexeme? ('}' :: t) = some (.rightBrace, 1) := by
  have hselector : selectorLength? ('}' :: t) = none :=
    selectorLength?_eq_none Run.nil (Or.inl rfl) t
  have hdeclaration := declarationLength?_of_stop (by decide : isStop '}' = true) t
  have hrun : runLength ('}' :: t) = 0 := runLength_append_stop Run.nil (by decide) t
  simp only [anyLexeme?, hselector, hdeclaration, atPreludeLength?, hrun, if_true]

/-- A lexeme that does not fit is refused. -/
theorem Reader.step_refused {k : Terminal} (hk : k ∈ between) (hrefused : k ∉ r.place.accepts)
    {n : Nat} (h : k.length? r.rest = some n) : r.step = (r.meet k n).map some := by
  have hend := Terminal.ne_textEnd_of_length? h
  have hkind : k = .declaration ∨ k = .rightBrace := by
    by_contra hkind
    exact hrefused ((Reader.mem_accepts_iff hend).mpr ⟨hk, fun h => absurd h hkind⟩)
  have hothers : ∀ k' ∈ r.place.accepts, k'.length? r.rest = none := by
    intro k' hk'
    cases hlength : k'.length? r.rest with
    | none => rfl
    | some n' =>
      have hend' := Terminal.ne_textEnd_of_length? hlength
      have hbetween := ((Reader.mem_accepts_iff hend').mp hk').1
      exact absurd (Terminal.eq_of_length? hbetween hk hlength h ▸ hk') hrefused
  cases hrest : r.rest with
  | nil =>
    rw [hrest, Terminal.length?_nil] at h
    cases h
  | cons c t =>
    have hany : anyLexeme? (c :: t) = some (k, n) := by
      rw [hrest] at h
      rcases hkind with rfl | rfl
      · exact anyLexeme?_of_declaration h
      · obtain ⟨⟨v, hv⟩, rfl⟩ := signLength?_eq_some_iff.mp h
        rw [hv]
        exact anyLexeme?_rightBrace v
    unfold Reader.meet
    rw [Reader.step_unexpected hrest hothers, if_neg hrefused]
    simp only [unexpected, hany, hrest]
    rfl

/-- **A reader may look for terminals in any order.** -/
theorem Reader.stepTrying_eq {tried : Place → List Terminal}
    (htried : ∀ p, (tried p).Perm p.triedLexemes) (r : Reader) : r.stepTrying tried = r.step := by
  have hbetween : ∀ k ∈ tried r.place, k ∈ between := fun k hk =>
    Reader.mem_between ((htried r.place).mem_iff.mp hk)
  cases hrest : r.rest with
  | nil => simp only [Reader.stepTrying, Reader.step, hrest]
  | cons c t =>
    simp only [Reader.stepTrying, hrest]
    cases hfirst : firstLexeme? (tried r.place) (c :: t) with
    | some found =>
      obtain ⟨k, n⟩ := found
      obtain ⟨hk, hn⟩ := (firstLexeme?_eq_some_iff hbetween).mp hfirst
      rw [← hrest] at hn
      by_cases haccepted : k ∈ r.place.accepts
      · exact (Reader.step_met haccepted hn).symm
      · exact (Reader.step_refused (hbetween k hk) haccepted hn).symm
    | none =>
      refine (Reader.step_unexpected hrest fun k hk => ?_).symm
      by_cases hend : k = .textEnd
      · rw [hend]
        rfl
      · have hmem := (htried r.place).mem_iff.mpr (Reader.mem_triedLexemes hk hend)
        rw [hrest]
        exact Option.map_eq_none_iff.mp (List.findSome?_eq_none_iff.mp hfirst k hmem)

theorem Reader.runTrying_eq {tried : Place → List Terminal}
    (htried : ∀ p, (tried p).Perm p.triedLexemes) (fuel : Nat) (r : Reader) :
    r.runTrying tried fuel = r.run fuel := by
  induction fuel generalizing r with
  | zero => rfl
  | succ fuel ih =>
    rw [Reader.runTrying, Reader.run, Reader.stepTrying_eq htried]
    cases r.skipLayout.step with
    | error e => rfl
    | ok next =>
      cases next with
      | none => rfl
      | some r' => exact ih r'

theorem readTrying_eq {tried : Place → List Terminal}
    (htried : ∀ p, (tried p).Perm p.triedLexemes) (t : Text) : readTrying tried t = read t := by
  rw [readTrying, read, Reader.runTrying_eq htried]

end Trying

/-! ### Selectors and declarations -/

theorem firstStop_of_selector {t : Text} {n : Nat} (h : selectorPattern.Matches t n) :
    FirstStop t n '{' := by
  obtain ⟨u, v, rfl, rfl, hu⟩ := exists_of_selectorLength? (selectorPattern_matches_iff.mp h)
  exact hu.run.firstStop (by decide) v

theorem firstStop_of_declaration {t : Text} {n : Nat} (h : declarationPattern.Matches t n) :
    FirstStop t n ';' ∨ FirstStop t n '}' := by
  obtain ⟨u, c, v, rfl, hc, rfl, hu⟩ :=
    exists_of_declarationLength? (declarationPattern_matches_iff.mp h)
  have hfirst := hu.run.firstStop (isStop_iff.mpr (Or.inr hc)) v
  rcases hc with rfl | rfl
  · exact Or.inr hfirst
  · exact Or.inl hfirst

/-- **At every offset of every text, selectors and declarations are told apart.**  The lexer finds
    all the matches of their patterns.  The two do not match both; a match is the only one of its
    pattern, and ends in front of the first brace or semicolon outside of strings and escapes: an
    opening brace behind a selector, a semicolon or a closing brace behind a declaration.  So it
    does not matter which of the two is tried first, nor in which order a reader looks for
    terminals. -/
theorem selectors_and_declarations_apart (t : Text) (i : Nat) :
    (∀ n, selectorPattern.Matches (t.drop i) n ↔ selectorLength? (t.drop i) = some n) ∧
    (∀ n, declarationPattern.Matches (t.drop i) n ↔ declarationLength? (t.drop i) = some n) ∧
    (∀ n m, ¬ (selectorPattern.Matches (t.drop i) n ∧ declarationPattern.Matches (t.drop i) m)) ∧
    (∀ n, selectorPattern.Matches (t.drop i) n →
      (∀ m, selectorPattern.Matches (t.drop i) m → m = n) ∧ FirstStop (t.drop i) n '{') ∧
    (∀ n, declarationPattern.Matches (t.drop i) n →
      (∀ m, declarationPattern.Matches (t.drop i) m → m = n) ∧
        (FirstStop (t.drop i) n ';' ∨ FirstStop (t.drop i) n '}')) ∧
    (∀ before after,
      firstLexeme? (before ++ .selector :: .declaration :: after) (t.drop i) =
        firstLexeme? (before ++ .declaration :: .selector :: after) (t.drop i)) ∧
    ∀ tried : Place → List Terminal, (∀ p, (tried p).Perm p.triedLexemes) →
      readTrying tried t = read t := by
  refine ⟨fun n => selectorPattern_matches_iff, fun n => declarationPattern_matches_iff, ?_, ?_, ?_,
    fun before after => firstLexeme?_swap before after _, fun _ htried => readTrying_eq htried t⟩
  · rintro n m ⟨hselector, hdeclaration⟩
    rw [selectorPattern_matches_iff] at hselector
    rw [declarationPattern_matches_iff] at hdeclaration
    rw [selectorLength?_eq_none_of_declaration hdeclaration] at hselector
    cases hselector
  · refine fun n h => ⟨fun m h' => ?_, firstStop_of_selector h⟩
    rw [selectorPattern_matches_iff] at h h'
    exact Option.some.inj (h'.symm.trans h)
  · refine fun n h => ⟨fun m h' => ?_, firstStop_of_declaration h⟩
    rw [declarationPattern_matches_iff] at h h'
    exact Option.some.inj (h'.symm.trans h)

/-- The text `a:b"{;}"\{c{d : "};\"{" ;}`: it starts like a declaration, and has stops in strings
    and escapes. -/
def knottyText : Text :=
  ['a', ':', 'b', '"', '{', ';', '}', '"', '\\', '{', 'c', '{', 'd', ' ', ':', ' ', '"', '}', ';',
   '\\', '"', '{', '"', ' ', ';', '}']

theorem selectors_and_declarations_apart_knottyText :
    (selectorPattern.Matches (knottyText.drop 0) 11 ∧
      ¬ declarationPattern.Matches (knottyText.drop 0) 4 ∧ FirstStop (knottyText.drop 0) 11 '{') ∧
    (declarationPattern.Matches (knottyText.drop 12) 12 ∧
      (FirstStop (knottyText.drop 12) 12 ';' ∨ FirstStop (knottyText.drop 12) 12 '}')) ∧
    readTrying (fun p => p.triedLexemes.reverse) knottyText = read knottyText := by
  obtain ⟨hselector, -, hapart, hunique, -, -, hread⟩ :=
    selectors_and_declarations_apart knottyText 0
  obtain ⟨-, hdeclaration, -, -, hunique', -, -⟩ := selectors_and_declarations_apart knottyText 12
  have hfirst := (hselector 11).mpr (by decide)
  have hsecond := (hdeclaration 12).mpr (by decide)
  exact ⟨⟨hfirst, fun h => hapart 11 4 ⟨hfirst, h⟩, (hunique 11 hfirst).2⟩,
    ⟨hsecond, (hunique' 12 hsecond).2⟩, hread _ fun p => List.reverse_perm _⟩

end StyleNesting.Source
