/-
  StyleNesting/Proofs/Commands.lean
  =================================
  **What a command does to the files.**  A command either stops before it turns to its
  output, and then all files are as before (`Environment.Spared`), or it gets as far
  as the output with a stylesheet to print (`Command.Reaches`).  Then the file that the
  output names, and no other, holds the printed stylesheet in the end, unless the
  platform has no room for the text (`Command.Reaches.run`).

  A command that fails changes no file if outputs are opened at the first write
  (`Command.run_touches_output_only`).  If they are opened ahead, a text that is refused
  for its length leaves the output empty, and nothing else can go wrong
  (`Command.run_failed`).

  What the stylesheet to print is, and which passes have run on it, is said by
  `Command.Makes` in terms of the decoded input and of the flags and the
  configuration, one option at a time.
-/
import Mathlib.Data.List.Forall2
import Mathlib.Data.List.Induction
import StyleNesting.Command.Run
import StyleNesting.Proofs.Edits

namespace StyleNesting

/-! ### Options, one by one -/

def Options.get (o : Options) : OptionName → Bool
  | .nestDescendants => o.nestDescendants
  | .collapseSiblings => o.collapseSiblings
  | .factorDeclarations => o.factorDeclarations
  | .nestPseudos => o.nestPseudos

theorem Options.ext_get {o o' : Options} (h : ∀ name, o.get name = o'.get name) : o = o' := by
  obtain ⟨a, b, c, d⟩ := o
  obtain ⟨a', b', c', d'⟩ := o'
  rw [Options.mk.injEq]
  exact ⟨h .nestDescendants, h .collapseSiblings, h .factorDeclarations, h .nestPseudos⟩

theorem Options.get_set (o : Options) (name name' : OptionName) (b : Bool) :
    (o.set name b).get name' = if name = name' then b else o.get name' := by
  cases name <;> cases name' <;> rfl

theorem Options.get_default (name : OptionName) : ({} : Options).get name = true := by
  cases name <;> rfl

/-- The last value that settings give to an option. -/
def lastFor? (settings : Overrides) (name : OptionName) : Option Bool :=
  ((settings.filter fun s => s.1 == name).getLast?).map (·.2)

theorem Options.get_merge (o : Options) (settings : Overrides) (name : OptionName) :
    (o.merge settings).get name = (lastFor? settings name).getD (o.get name) := by
  induction settings using List.reverseRecOn with
  | nil => rfl
  | append_singleton settings s ih =>
    have hmerge : o.merge (settings ++ [s]) = (o.merge settings).set s.1 s.2 := by
      simp [Options.merge]
    rw [hmerge, Options.get_set]
    by_cases hname : s.1 = name
    · simp [lastFor?, hname]
    · rw [if_neg hname, ih]
      simp [lastFor?, hname]

/-- The entries of a table are options with truth values: those of the settings, in order. -/
def Table.Sets (entries : Table) (settings : Overrides) : Prop :=
  List.Forall₂ (fun entry s => OptionName.ofKey? entry.1 = some s.1 ∧ entry.2 = .bool s.2)
    entries settings

theorem Options.addEntry_eq_ok_iff {o o' : Options} {key : Text} {v : Value} :
    o.addEntry key v = .ok o' ↔
      ∃ name b, OptionName.ofKey? key = some name ∧ v = .bool b ∧ o' = o.set name b := by
  unfold Options.addEntry
  cases hkey : OptionName.ofKey? key with
  | none => simp
  | some name =>
    cases v with
    | bool b =>
      constructor
      · intro h
        cases h
        exact ⟨name, b, rfl, rfl, rfl⟩
      · rintro ⟨name', b', hname, hb, rfl⟩
        cases hname
        cases hb
        rfl
    | _ => simp

theorem Options.addEntries_eq_ok_iff {o o' : Options} {entries : Table} :
    o.addEntries entries = .ok o' ↔
      ∃ settings, Table.Sets entries settings ∧ o' = o.merge settings := by
  induction entries generalizing o with
  | nil => simp [Options.addEntries, Table.Sets, Options.merge, eq_comm]
  | cons entry rest ih =>
    obtain ⟨key, v⟩ := entry
    constructor
    · intro h
      rw [Options.addEntries] at h
      split at h
      · rename_i o₁ hentry
        obtain ⟨name, b, hkey, rfl, rfl⟩ := Options.addEntry_eq_ok_iff.mp hentry
        obtain ⟨settings, hsets, rfl⟩ := ih.mp h
        exact ⟨(name, b) :: settings, .cons ⟨hkey, rfl⟩ hsets, rfl⟩
      · cases h
    · rintro ⟨settings, hsets, rfl⟩
      obtain ⟨⟨name, b⟩, settings, ⟨hkey, hv⟩, hrest, rfl⟩ := List.forall₂_cons_left_iff.mp hsets
      have hentry : o.addEntry key v = .ok (o.set name b) :=
        Options.addEntry_eq_ok_iff.mpr ⟨name, b, hkey, hv, rfl⟩
      rw [Options.addEntries, hentry]
      exact ih.mpr ⟨settings, hrest, rfl⟩

/-! ### The options of a command line -/

/-- The table of a document that holds the options: the one that is named for them, or else
    the whole document. -/
def Table.HoldsOptions (entries table : Table) : Prop :=
  Table.find? entries optionsTable = some (.table table) ∨
    Table.find? entries optionsTable = none ∧ table = entries

/-- What the configuration says that a command line names, if it names one. -/
inductive ConfigSays (e : Environment) (a : Arguments) : Overrides → Prop
  | nothing (hnone : a.value? .config = none) : ConfigSays e a []
  | file {path t : Text} {entries table : Table} {settings : Overrides}
      (hpath : a.value? .config = some path)
      (hfile : e.directory.read (Path.tidy path) = .ok (.text t))
      (htoml : Toml.read (Text.unifyLineEnds t) = .ok entries)
      (htable : Table.HoldsOptions entries table) (hsets : Table.Sets table settings) :
      ConfigSays e a settings

theorem Options.ofDocument_eq_ok_iff {path : Text} {entries : Table} {o : Options} :
    Options.ofDocument path entries = .ok o ↔
      ∃ table, Table.HoldsOptions entries table ∧ Options.ofTable table = .ok o := by
  unfold Options.ofDocument Table.HoldsOptions
  cases hfind : Table.find? entries optionsTable with
  | none => simp
  | some v =>
    cases v with
    | table inner =>
      constructor
      · intro h
        exact ⟨inner, Or.inl rfl, h⟩
      · rintro ⟨table, htable | ⟨hnone, -⟩, h⟩
        · cases htable
          exact h
        · cases hnone
    | _ => simp

theorem Options.ofText_eq_ok_iff {path t : Text} {o : Options} :
    Options.ofText path t = .ok o ↔
      ∃ entries table settings, Toml.read (Text.unifyLineEnds t) = .ok entries ∧
        Table.HoldsOptions entries table ∧ Table.Sets table settings ∧
          o = ({} : Options).merge settings := by
  unfold Options.ofText
  cases hread : Toml.read (Text.unifyLineEnds t) with
  | error err => cases err <;> simp
  | ok entries =>
    simp only [Options.ofDocument_eq_ok_iff, Options.ofTable, Options.addEntries_eq_ok_iff]
    constructor
    · rintro ⟨table, htable, settings, hsets, rfl⟩
      exact ⟨entries, table, settings, rfl, htable, hsets, rfl⟩
    · rintro ⟨entries', table, settings, hentries, htable, hsets, rfl⟩
      cases hentries
      exact ⟨table, htable, settings, hsets, rfl⟩

/-- The options that a configuration gives, told by what it says. -/
theorem ofFile_eq_ok_iff {e : Environment} {a : Arguments} {path : Text}
    (hpath : a.value? .config = some path) {o : Options} :
    Options.ofFile e.directory path = .ok o ↔
      ∃ settings, ConfigSays e a settings ∧ o = ({} : Options).merge settings := by
  constructor
  · intro h
    unfold Options.ofFile at h
    split at h
    · cases h
    · cases h
    · cases h
    · rename_i t hfile
      cases htext : Options.ofText path t with
      | error err =>
        rw [htext] at h
        cases h
      | ok o' =>
        rw [htext] at h
        cases h
        obtain ⟨entries, table, settings, htoml, htable, hsets, rfl⟩ :=
          Options.ofText_eq_ok_iff.mp htext
        exact ⟨settings, .file hpath hfile htoml htable hsets, rfl⟩
  · rintro ⟨settings, htold, rfl⟩
    cases htold with
    | nothing hnone =>
      rw [hpath] at hnone
      cases hnone
    | file hpath' hfile htoml htable hsets =>
      rw [hpath, Option.some.injEq] at hpath'
      subst hpath'
      have htext : Options.ofText path _ = .ok (({} : Options).merge settings) :=
        Options.ofText_eq_ok_iff.mpr ⟨_, _, _, htoml, htable, hsets, rfl⟩
      simp only [Options.ofFile, hfile, htext]
      rfl

/-- The value of an option: that of its last flag, or else what the configuration says, or
    else that it is on. -/
def optionValue (flags settings : Overrides) (name : OptionName) : Bool :=
  (lastFor? flags name).getD ((lastFor? settings name).getD true)

theorem get_merge_flags (settings flags : Overrides) (name : OptionName) :
    ((({} : Options).merge settings).merge flags).get name = optionValue flags settings name := by
  rw [Options.get_merge, Options.get_merge, Options.get_default]
  rfl

/-- **The options of a command line**, one by one. -/
theorem commandOptions_eq_ok_iff {e : Environment} {a : Arguments} {o : Options} :
    commandOptions e a = .ok o ↔
      ∃ settings, ConfigSays e a settings ∧
        ∀ name, o.get name = optionValue a.overrides settings name := by
  unfold commandOptions
  constructor
  · intro h
    cases hpath : a.value? .config with
    | none =>
      rw [hpath] at h
      cases h
      exact ⟨[], .nothing hpath, get_merge_flags [] a.overrides⟩
    | some path =>
      rw [hpath] at h
      cases hfile : Options.ofFile e.directory path with
      | error err =>
        simp only [hfile] at h
        cases h
      | ok base =>
        simp only [hfile] at h
        cases h
        obtain ⟨settings, htold, rfl⟩ := (ofFile_eq_ok_iff hpath).mp hfile
        exact ⟨settings, htold, get_merge_flags settings a.overrides⟩
  · rintro ⟨settings, htold, hget⟩
    have ho : (({} : Options).merge settings).merge a.overrides = o :=
      Options.ext_get fun name => (get_merge_flags _ _ name).trans (hget name).symm
    cases hpath : a.value? .config with
    | none =>
      cases htold with
      | nothing => exact congrArg Except.ok ho
      | file hpath' =>
        rw [hpath] at hpath'
        cases hpath'
    | some path =>
      have hfile := (ofFile_eq_ok_iff hpath).mpr ⟨settings, htold, rfl⟩
      simp only [hfile]
      exact congrArg Except.ok ho

/-! ### What a command line has to be -/

theorem checkSwitches_eq_ok_iff {e : Environment} {a : Arguments} {ss : List Switch} :
    checkSwitches e a ss = .ok () ↔ ∀ s ∈ ss, checkSwitch e a s = .ok () := by
  induction ss with
  | nil => simp [checkSwitches]
  | cons s ss ih =>
    rw [checkSwitches, List.forall_mem_cons, ← ih]
    cases checkSwitch e a s <;> simp

theorem Arguments.mem_switches_of_value? {a : Arguments} {s : Switch} {t : Text}
    (h : a.value? s = some t) : s ∈ a.switches.map (·.1) := by
  obtain ⟨entry, hlast, rfl⟩ := Option.map_eq_some_iff.mp h
  obtain ⟨hmem, hs⟩ := List.mem_filter.mp (List.mem_of_getLast? hlast)
  exact List.mem_map.mpr ⟨entry, hmem, beq_iff_eq.mp hs⟩

/-- The values of the options are fine if the indent is a number and the configuration can be
    opened. -/
theorem checkSwitches_iff {e : Environment} {a : Arguments} :
    checkSwitches e a (a.switches.map (·.1)) = .ok () ↔
      (∃ width, a.indent? = some width) ∧
        ∀ path, a.value? .config = some path → ∃ content, e.directory.read path = .ok content := by
  rw [checkSwitches_eq_ok_iff]
  constructor
  · intro h
    refine ⟨?_, fun path hpath => ?_⟩
    · cases hvalue : a.value? .indent with
      | none => exact ⟨2, by rw [Arguments.indent?, hvalue]⟩
      | some t =>
        have hcheck := h .indent (Arguments.mem_switches_of_value? hvalue)
        apply Option.isSome_iff_exists.mp
        by_contra hnone
        rw [checkSwitch, if_neg hnone] at hcheck
        cases hcheck
    · have hcheck := h .config (Arguments.mem_switches_of_value? hpath)
      rw [checkSwitch, hpath] at hcheck
      cases hread : e.directory.read path with
      | ok content => exact ⟨content, rfl⟩
      | error err =>
        rw [Option.map_some, hread] at hcheck
        cases hcheck
  · rintro ⟨⟨width, hwidth⟩, hconfig⟩ s -
    unfold checkSwitch
    split
    · rw [hwidth]
      rfl
    · split
      · rename_i err hread
        obtain ⟨path, hpath, herr⟩ := Option.map_eq_some_iff.mp hread
        obtain ⟨content, hcontent⟩ := hconfig path hpath
        rw [hcontent] at herr
        cases herr
      · rfl
    · rfl

/-- The path of the input. -/
def Arguments.source (a : Arguments) : Text := a.positional.head?.getD ['-']

/-- The path of the output. -/
def Arguments.target (a : Arguments) : Text := (a.value? .output).getD ['-']

/-- A command line whose options have values that are fine, and that names one input at most. -/
structure Arguments.Sound (a : Arguments) (e : Environment) (width : Nat) : Prop where
  positional : a.positional.length ≤ 1
  indent : a.indent? = some width
  config : ∀ path, a.value? .config = some path → ∃ content, e.directory.read path = .ok content

theorem Job.of_eq_ok_iff {e : Environment} {a : Arguments} {j : Job} :
    Job.of e a = .ok j ↔
      a.Sound e j.indent ∧ e.input a.source = .ok j.input ∧ j.output = a.target := by
  unfold Job.of
  constructor
  · intro h
    split at h
    · cases h
    · rename_i hcheck
      obtain ⟨⟨width, hwidth⟩, hconfig⟩ := checkSwitches_iff.mp hcheck
      split at h
      · cases h
      · rename_i input hinput
        split at h
        · cases h
        · rename_i hlength
          cases h
          rw [hwidth]
          exact ⟨⟨Nat.not_lt.mp hlength, hwidth, hconfig⟩, hinput, rfl⟩
  · rintro ⟨⟨hlength, hwidth, hconfig⟩, hinput, houtput⟩
    have hcheck := checkSwitches_iff.mpr ⟨⟨j.indent, hwidth⟩, hconfig⟩
    rw [Arguments.source] at hinput
    simp only [hcheck, hinput, if_neg (Nat.not_lt.mpr hlength), hwidth, Option.getD_some]
    rw [Arguments.target] at houtput
    rw [← houtput]

/-! ### The stylesheet that is printed -/

/-- The decoded input is a stylesheet. -/
def Arguments.Reads (a : Arguments) (e : Environment) (root : Node) : Prop :=
  ∃ t, e.input a.source = .ok (.text t) ∧ Source.parse (Text.unifyLineEnds t) = .ok root

/-- What a command makes of its input. -/
inductive Command.Makes (e : Environment) (a : Arguments) : Command → Node → Prop
  | format {root : Node} (hread : a.Reads e root) : Makes e a .format root
  | nest {root : Node} {options : Options} {settings : Overrides} (hread : a.Reads e root)
      (htold : ConfigSays e a settings)
      (hoptions : ∀ name, options.get name = optionValue a.overrides settings name) :
      Makes e a .nest (applyTransforms options Factory.clone [] root).1

theorem Arguments.Reads.exists_sheet {a : Arguments} {e : Environment} {root : Node}
    (h : a.Reads e root) : ∃ ns, root = .block {} .sheet ns := by
  obtain ⟨t, -, hparse⟩ := h
  obtain ⟨ns, hroot, -⟩ := Source.exists_run_of_read hparse
  exact ⟨ns, hroot⟩

theorem Command.Makes.exists_input {c : Command} {e : Environment} {a : Arguments} {root : Node}
    (h : Makes e a c root) : ∃ t, e.input a.source = .ok (.text t) := by
  cases h with
  | format hread | nest hread =>
    obtain ⟨t, hinput, -⟩ := hread
    exact ⟨t, hinput⟩

theorem Command.Makes.exists_sheet {c : Command} {e : Environment} {a : Arguments} {root : Node}
    (h : Makes e a c root) : ∃ ns, root = .block {} .sheet ns := by
  cases h with
  | format hread => exact hread.exists_sheet
  | @nest root options _ hread =>
    obtain ⟨ns, rfl⟩ := hread.exists_sheet
    exact ⟨_, (stable_traces.nest (f := Factory.clone) rfl options _).1⟩

/-- Where no block has children, no line is indented. -/
theorem Node.linesAll_of_childless {ns : List Node} (h : ∀ n ∈ ns, n.nodes = []) (s t : Text) :
    linesAll s 0 ns = linesAll t 0 ns := by
  rw [linesAll_eq_flatMap, linesAll_eq_flatMap]
  refine List.flatMap_congr fun n hn => ?_
  cases n with
  | block o header ms =>
    have hms : ms = [] := h _ hn
    subst hms
    simp [lines, Text.times]
  | declaration o d => rfl
  | leaf o => rfl

theorem Job.print_indentStep (j : Job) (o : Origin) (ns : List Node) :
    (Node.block o .sheet ns).print (j.indentStep (.block o .sheet ns)) =
      (Node.block o .sheet ns).print (List.replicate j.indent ' ') := by
  unfold Job.indentStep
  split
  · rename_i hflat
    have hchildless : ∀ n ∈ ns, n.nodes = [] := by
      simpa [Node.nodes] using hflat
    exact congrArg Node.unlines (Node.linesAll_of_childless hchildless _ _)
  · rfl

/-- A stylesheet can be printed with an indent of some width. -/
def Platform.Prints (p : Platform) (width : Nat) (root : Node) : Prop :=
  width < Nat.pow 2 63 ∧ p.hasRoom width root = true

theorem Platform.breakdown?_eq_none_iff {p : Platform} {width : Nat} {root : Node} :
    p.breakdown? width root = none ↔ p.Prints width root := by
  unfold Platform.breakdown? Platform.Prints
  split
  · rename_i hwide
    simp [Nat.not_lt.mpr hwide]
  · rename_i hnarrow
    simp [Nat.not_le.mp hnarrow]

/-- A stylesheet is printed with the indent that was asked for, if it can be printed. -/
theorem Job.text_of_makes {c : Command} {e : Environment} {a : Arguments} {root : Node}
    (h : Command.Makes e a c root) (j : Job) (p : Platform) :
    p.Prints j.indent root ∧ j.text p root = .ok (root.print (List.replicate j.indent ' ')) ∨
      ¬ p.Prints j.indent root ∧ ∃ b, j.text p root = .error b := by
  rw [← Platform.breakdown?_eq_none_iff]
  unfold Job.text
  cases p.breakdown? j.indent root with
  | none =>
    obtain ⟨ns, rfl⟩ := h.exists_sheet
    refine Or.inl ⟨rfl, ?_⟩
    rw [Job.print_indentStep]
  | some b => exact Or.inr ⟨by simp, b, rfl⟩

/-! ### Commands that stop before they turn to their output -/

/-- The command has failed, and all files are as before. -/
def Environment.Spared (e : Environment) (o : Outcome) : Prop :=
  o.exitCode ≠ 0 ∧ o.directory = e.directory

namespace Environment

variable (e : Environment)

theorem spared_usageError : e.Spared e.usageError := ⟨by simp [usageError], rfl⟩

theorem spared_failed (message : String) : e.Spared (e.failed message) := ⟨by simp [failed], rfl⟩

theorem spared_brokeOff (log : String) (b : Breakdown) : e.Spared (e.brokeOff log b) :=
  ⟨by simp [brokeOff], rfl⟩

theorem spared_notStarted (err : StartError) : e.Spared (e.notStarted err) := by
  cases err with
  | usage => exact e.spared_usageError
  | breakdown b => exact e.spared_brokeOff "" b

theorem spared_withoutOptions (err : ConfigFileError) : e.Spared (e.withoutOptions err) := by
  cases err with
  | undecodable => exact e.spared_brokeOff "" _
  | nullInPath => exact e.spared_brokeOff "" _
  | config err =>
    cases err with
    | longInteger err => exact e.spared_brokeOff "" _
    | _ => exact e.spared_failed _

end Environment

/-- A job fails at once, or goes on with the stylesheet of its input. -/
theorem Job.withSheet_cases {e : Environment} {a : Arguments} {j : Job}
    (hinput : e.input a.source = .ok j.input) (continueWith : Node → Outcome) :
    e.Spared (j.withSheet e continueWith) ∨
      ∃ root, a.Reads e root ∧ j.withSheet e continueWith = continueWith root := by
  unfold Job.withSheet
  split
  · exact Or.inl (e.spared_brokeOff "" _)
  · rename_i t ht
    split
    · exact Or.inl (e.spared_failed _)
    · rename_i root hparse
      exact Or.inr ⟨root, ⟨t, by rw [hinput, ht], hparse⟩, rfl⟩

theorem Arguments.Reads.withSheet {a : Arguments} {e : Environment} {j : Job} {root : Node}
    (h : a.Reads e root) (hinput : e.input a.source = .ok j.input)
    (continueWith : Node → Outcome) : j.withSheet e continueWith = continueWith root := by
  obtain ⟨t, ht, hparse⟩ := h
  rw [hinput, Except.ok.injEq] at ht
  simp only [Job.withSheet, ht, hparse]

/-- What compacting a stylesheet ends with; nothing stops it. -/
theorem Job.nest_eq {e : Environment} {a : Arguments} {j : Job} {options : Options}
    (h : commandOptions e a = .ok options) (p : Platform) (verbose : Bool) :
    j.nest p e a verbose =
      j.withSheet e fun root =>
        j.finish p e (logText verbose (applyTransforms options Factory.clone [] root).2)
          (applyTransforms options Factory.clone [] root).1 := by
  have hfailure : ∀ root, (applyTransforms options Factory.clone [] root).2.failure = none :=
    failure_nest Factory.clone_obliging options
  simp only [Job.nest, h, hfailure]

/-- **The work of a command**: it fails at once, or it delivers the text of what it makes. -/
theorem Command.work_cases {e : Environment} {a : Arguments} {j : Job}
    (hinput : e.input a.source = .ok j.input) (c : Command) (p : Platform) (verbose : Bool) :
    e.Spared (c.work j p e a verbose) ∨
      ∃ root log, Makes e a c root ∧
        c.work j p e a verbose = e.deliver p.opening j.output log (j.text p root) := by
  cases c with
  | format =>
    rcases Job.withSheet_cases hinput (j.finish p e "") with hspared | ⟨root, hread, hwork⟩
    · exact Or.inl hspared
    · exact Or.inr ⟨root, "", .format hread, hwork⟩
  | nest =>
    cases hoptions : commandOptions e a with
    | error err =>
      refine Or.inl ?_
      simp only [Command.work, Job.nest, hoptions]
      exact e.spared_withoutOptions err
    | ok options =>
      obtain ⟨settings, htold, hvalues⟩ := commandOptions_eq_ok_iff.mp hoptions
      rw [Command.work, Job.nest_eq hoptions]
      rcases Job.withSheet_cases hinput _ with hspared | ⟨root, hread, hwork⟩
      · exact Or.inl hspared
      · exact Or.inr ⟨_, _, .nest hread htold hvalues, hwork⟩

theorem Command.Makes.work {c : Command} {e : Environment} {a : Arguments} {j : Job} {root : Node}
    (h : Makes e a c root) (hinput : e.input a.source = .ok j.input) (p : Platform)
    (verbose : Bool) :
    ∃ log, c.work j p e a verbose = e.deliver p.opening j.output log (j.text p root) := by
  cases h with
  | format hread => exact ⟨"", hread.withSheet hinput _⟩
  | nest hread htold hvalues =>
    have hoptions := commandOptions_eq_ok_iff.mpr ⟨_, htold, hvalues⟩
    exact ⟨_, (Job.nest_eq hoptions p verbose).trans (hread.withSheet hinput _)⟩

/-! ### Commands that turn to their output -/

/-- The text is in the output of a command, and no other file has changed. -/
def Sink.Receives (s : Sink) (e : Environment) (o : Outcome) (t : Text) : Prop :=
  match s with
  | .stdout => o.stdout = t ∧ o.directory = e.directory
  | .file place => o.stdout = [] ∧
    ∀ q, o.directory.fileAt? q = if q = place then some (.text t) else e.directory.fileAt? q

theorem Sink.receives_of_written {s : Sink} {e : Environment} {o : Outcome} {t : Text}
    (hstdout : o.stdout = s.printed t) (hfiles : o.directory = s.files e.directory t) :
    s.Receives e o t := by
  cases s with
  | stdout => exact ⟨hstdout, hfiles⟩
  | file place =>
    refine ⟨hstdout, fun q => ?_⟩
    rw [hfiles]
    exact Directory.fileAt?_put e.directory place q t

/-- What is left of an output for which there was no text. -/
def Opening.Leaves (opening : Opening) (s : Sink) (e : Environment) (o : Outcome) : Prop :=
  match opening with
  | .atFirstWrite => o.directory = e.directory
  | .ahead => s.Receives e o []

theorem Environment.deliver_ahead (e : Environment) (path : Text) (log : String)
    (result : Except Breakdown Text) :
    e.deliver .ahead path log result = e.writeOut path log result := rfl

theorem Environment.spared_writeOut {e : Environment} {path : Text} {err : PathError}
    (h : e.openOutput path = .error err) (log : String) (result : Except Breakdown Text) :
    e.Spared (e.writeOut path log result) := by
  cases err with
  | hasNull =>
    simp only [Environment.writeOut, h]
    exact e.spared_brokeOff log _
  | _ =>
    simp only [Environment.writeOut, h]
    exact e.spared_failed _

theorem Environment.spared_deliver {e : Environment} {path : Text} {err : PathError}
    (h : e.openOutput path = .error err) (opening : Opening) (log : String)
    (result : Except Breakdown Text) : e.Spared (e.deliver opening path log result) := by
  unfold Environment.deliver
  split
  · exact e.spared_brokeOff log _
  · exact Environment.spared_writeOut h log result

section Opened

variable {e : Environment} {path : Text} {sink : Sink} (h : e.openOutput path = .ok sink)
include h

theorem Environment.deliver_text (opening : Opening) (log : String) (t : Text) :
    (e.deliver opening path log (.ok t)).exitCode = 0 ∧
      sink.Receives e (e.deliver opening path log (.ok t)) t := by
  -- a text is the first write, so that it does not matter when the output is opened
  have hwrite : e.deliver opening path log (.ok t) = e.writeOut path log (.ok t) := by
    cases opening <;> rfl
  rw [hwrite, Environment.writeOut, h]
  exact ⟨rfl, Sink.receives_of_written rfl rfl⟩

theorem Environment.deliver_breakdown (opening : Opening) (log : String) (b : Breakdown) :
    (e.deliver opening path log (.error b)).exitCode ≠ 0 ∧
      opening.Leaves sink e (e.deliver opening path log (.error b)) := by
  cases opening with
  | atFirstWrite => exact e.spared_brokeOff log b
  | ahead =>
    rw [Environment.deliver_ahead, Environment.writeOut, h]
    refine ⟨Nat.one_ne_zero, Sink.receives_of_written ?_ rfl⟩
    cases sink <;> rfl

end Opened

/-- A command gets as far as its output: its command line is fine, it has made a stylesheet,
    and there is a place to write it to. -/
structure Command.Reaches (c : Command) (e : Environment) (args : List Text) (a : Arguments)
    (root : Node) (width : Nat) (sink : Sink) : Prop where
  arguments : takeApart c.spec args = some a
  noHelp : a.has .help = false
  sound : a.Sound e width
  makes : Makes e a c root
  output : e.openOutput a.target = .ok sink

section Run

variable {c : Command} {e : Environment} {args : List Text} (p : Platform) (verbose : Bool)

/-- A command that gets as far as its output writes the stylesheet, if it can be printed. -/
theorem Command.Reaches.run {a : Arguments} {root : Node} {width : Nat} {sink : Sink}
    (h : c.Reaches e args a root width sink) :
    p.Prints width root ∧ (c.run p e verbose args).exitCode = 0 ∧
        sink.Receives e (c.run p e verbose args) (root.print (List.replicate width ' ')) ∨
      ¬ p.Prints width root ∧ (c.run p e verbose args).exitCode ≠ 0 ∧
        p.opening.Leaves sink e (c.run p e verbose args) := by
  obtain ⟨t, hinput⟩ := h.makes.exists_input
  have hjob : Job.of e a = .ok ⟨.text t, a.target, width⟩ :=
    Job.of_eq_ok_iff.mpr ⟨h.sound, hinput, rfl⟩
  obtain ⟨log, hwork⟩ := h.makes.work (j := ⟨.text t, a.target, width⟩) hinput p verbose
  have hrun : c.run p e verbose args =
      e.deliver p.opening a.target log (Job.text ⟨.text t, a.target, width⟩ p root) := by
    simp only [Command.run, h.arguments, h.noHelp, hjob, Bool.false_eq_true, if_false]
    exact hwork
  rw [hrun]
  rcases Job.text_of_makes h.makes ⟨.text t, a.target, width⟩ p with
    ⟨hprints, htext⟩ | ⟨hrefused, b, htext⟩
  · rw [htext]
    exact Or.inl ⟨hprints, Environment.deliver_text h.output p.opening log _⟩
  · rw [htext]
    exact Or.inr ⟨hrefused, Environment.deliver_breakdown h.output p.opening log b⟩

/-- A command that was not asked for help gets as far as its output, or fails before. -/
theorem Command.run_cases :
    ((∃ a, takeApart c.spec args = some a ∧ a.has .help = true) ∧
        (c.run p e verbose args).exitCode = 0 ∧
          (c.run p e verbose args).directory = e.directory) ∨
      e.Spared (c.run p e verbose args) ∨
        ∃ a root width sink, c.Reaches e args a root width sink := by
  unfold Command.run
  split
  · exact Or.inr (Or.inl e.spared_usageError)
  · rename_i a harguments
    split
    · rename_i hhelp
      exact Or.inl ⟨⟨a, harguments, hhelp⟩, rfl, rfl⟩
    · rename_i hhelp
      apply Or.inr
      split
      · rename_i j hjob
        obtain ⟨hsound, hinput, houtput⟩ := Job.of_eq_ok_iff.mp hjob
        rcases Command.work_cases hinput c p verbose with hspared | ⟨root, log, hmakes, hwork⟩
        · exact Or.inl hspared
        · rw [hwork, houtput]
          cases houtput : e.openOutput a.target with
          | error err => exact Or.inl (Environment.spared_deliver houtput p.opening log _)
          | ok sink =>
            have hnoHelp : a.has .help = false := eq_false_of_ne_true hhelp
            exact Or.inr ⟨a, root, j.indent, sink, harguments, hnoHelp, hsound, hmakes, houtput⟩
      · exact Or.inl (e.spared_notStarted _)

/-- A command that succeeds was asked for help, or has written the stylesheet. -/
theorem Command.run_succeeded (hsucceeds : (c.run p e verbose args).exitCode = 0) :
    (∃ a, takeApart c.spec args = some a ∧ a.has .help = true) ∧
        (c.run p e verbose args).directory = e.directory ∨
      ∃ a root width sink, c.Reaches e args a root width sink ∧
        sink.Receives e (c.run p e verbose args) (root.print (List.replicate width ' ')) := by
  rcases Command.run_cases p verbose with
    ⟨hhelp, -, hfiles⟩ | hspared | ⟨a, root, width, sink, hreaches⟩
  · exact Or.inl ⟨hhelp, hfiles⟩
  · exact absurd hsucceeds hspared.1
  · rcases hreaches.run p verbose with ⟨-, -, hwritten⟩ | ⟨-, hfails, -⟩
    · exact Or.inr ⟨a, root, width, sink, hreaches, hwritten⟩
    · exact absurd hsucceeds hfails

theorem Command.Reaches.exitCode_eq_zero_iff {a : Arguments} {root : Node} {width : Nat}
    {sink : Sink} (h : c.Reaches e args a root width sink) :
    (c.run p e verbose args).exitCode = 0 ↔ p.Prints width root := by
  rcases h.run p verbose with ⟨hprints, hsucceeds, -⟩ | ⟨hrefused, hfails, -⟩
  · exact ⟨fun _ => hprints, fun _ => hsucceeds⟩
  · exact ⟨fun hsucceeds => absurd hsucceeds hfails, fun hprints => absurd hprints hrefused⟩

/-- **What a failing command does to the files, whenever outputs are opened.**  All files are as
    before, unless outputs are opened ahead and the stylesheet could not be printed: then the
    file that the output names is empty, and no other has changed. -/
theorem Command.run_failed (hfails : (c.run p e verbose args).exitCode ≠ 0) :
    (c.run p e verbose args).directory = e.directory ∨
      p.opening = .ahead ∧ ∃ a root width place, c.Reaches e args a root width (.file place) ∧
        ¬ p.Prints width root ∧ Sink.Receives (.file place) e (c.run p e verbose args) [] := by
  rcases Command.run_cases p verbose with
    ⟨-, hsucceeds, -⟩ | hspared | ⟨a, root, width, sink, hreaches⟩
  · exact absurd hsucceeds hfails
  · exact Or.inl hspared.2
  · rcases hreaches.run p verbose with ⟨-, hsucceeds, -⟩ | ⟨hrefused, -, hleaves⟩
    · exact absurd hsucceeds hfails
    · cases hopening : p.opening with
      | atFirstWrite =>
        rw [hopening] at hleaves
        exact Or.inl hleaves
      | ahead =>
        rw [hopening] at hleaves
        cases sink with
        | stdout => exact Or.inl hleaves.2
        | file place => exact Or.inr ⟨rfl, a, root, width, place, hreaches, hrefused, hleaves⟩

end Run

/-- The path `a.css`. -/
def sheetPath : Text := ['a', '.', 'c', 's', 's']

/-- The text `a{b:c}`. -/
def sheetText : Text := ['a', '{', 'b', ':', 'c', '}']

/-- A working directory with one stylesheet. -/
def oneSheet (t : Text) : Environment := ⟨.text [], ⟨[(Place.ofPath sheetPath, .text t)], []⟩⟩

/-- The arguments by which a stylesheet is replaced by what is made of it. -/
def inPlace : List Text := [sheetPath, ['-', 'o'], sheetPath]

/-- The same arguments with an indent of 9223372036854775808 columns. -/
def inPlaceWide : List Text :=
  inPlace ++ [['-', '-', 'i', 'n', 'd', 'e', 'n', 't'],
    ['9', '2', '2', '3', '3', '7', '2', '0', '3', '6', '8', '5', '4', '7', '7', '5', '8', '0', '8']]

-- outputs that are opened ahead: the command fails and has emptied its input
example :
    (Command.format.run Platform.usual (oneSheet sheetText) false inPlaceWide).exitCode = 1 ∧
      (Command.format.run Platform.usual (oneSheet sheetText) false inPlaceWide).directory.fileAt?
        (Place.ofPath sheetPath) = some (.text []) := by
  decide +kernel

/-- **A command touches its output only, and only if it succeeds**, as long as outputs are opened
    at the first write.  If it fails, all files are as before.  If it succeeds and was not asked
    for help, the output holds the stylesheet with the indent that was asked for, and no other
    file has changed.  Once it has got as far as its output, it fails only if the stylesheet
    cannot be printed with that indent. -/
theorem Command.run_touches_output_only {p : Platform} (hopening : p.opening = .atFirstWrite)
    (c : Command) (e : Environment) (verbose : Bool) (args : List Text) :
    ((c.run p e verbose args).exitCode ≠ 0 →
      (c.run p e verbose args).directory = e.directory) ∧
    ((c.run p e verbose args).exitCode = 0 →
      (∃ a, takeApart c.spec args = some a ∧ a.has .help = true) ∧
          (c.run p e verbose args).directory = e.directory ∨
        ∃ a root width sink, c.Reaches e args a root width sink ∧
          sink.Receives e (c.run p e verbose args) (root.print (List.replicate width ' '))) ∧
    ∀ a root width sink, c.Reaches e args a root width sink →
      ((c.run p e verbose args).exitCode = 0 ↔ p.Prints width root) := by
  refine ⟨fun hfails => ?_, Command.run_succeeded p verbose, fun a root width sink hreaches =>
    hreaches.exitCode_eq_zero_iff p verbose⟩
  rcases Command.run_failed p verbose hfails with hspared | ⟨hahead, -⟩
  · exact hspared
  · rw [hopening] at hahead
    cases hahead

/-- A platform that opens outputs at the first write and has room for every text. -/
def Platform.patient : Platform := ⟨.atFirstWrite, fun _ _ => true⟩

/-- The text `a{b:c`, which is no stylesheet. -/
def openText : Text := ['a', '{', 'b', ':', 'c']

theorem Command.run_touches_output_only_inPlace :
    Platform.patient.opening = .atFirstWrite ∧
    ((Command.nest.run .patient (oneSheet sheetText) false inPlace).exitCode = 0 ∧
      ∃ a root width sink, Command.nest.Reaches (oneSheet sheetText) inPlace a root width sink ∧
        sink.Receives (oneSheet sheetText)
          (Command.nest.run .patient (oneSheet sheetText) false inPlace)
          (root.print (List.replicate width ' '))) ∧
    (Command.nest.run .patient (oneSheet openText) false inPlace).exitCode ≠ 0 ∧
      (Command.nest.run .patient (oneSheet openText) false inPlace).directory =
        (oneSheet openText).directory := by
  have hsucceeds : (Command.nest.run .patient (oneSheet sheetText) false inPlace).exitCode = 0 :=
    rfl
  have hfails : (Command.nest.run .patient (oneSheet openText) false inPlace).exitCode ≠ 0 := by
    decide +kernel
  obtain ⟨-, hwrites, -⟩ :=
    Command.run_touches_output_only (p := .patient) rfl .nest (oneSheet sheetText) false inPlace
  obtain ⟨hspares, -, -⟩ :=
    Command.run_touches_output_only (p := .patient) rfl .nest (oneSheet openText) false inPlace
  refine ⟨rfl, ⟨hsucceeds, (hwrites hsucceeds).resolve_left ?_⟩, hfails, hspares hfails⟩
  rintro ⟨⟨a, ha, hhelp⟩, -⟩
  cases ha
  cases hhelp

end StyleNesting
