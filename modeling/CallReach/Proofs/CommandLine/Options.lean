import CallReach.CommandLine.Run
import CallReach.Files.Tree
import CallReach.Proofs.Options.Loading
import CallReach.Proofs.Table

/-!
# The options of a run

`Arguments.Effective` says which options are in effect: for each option the value
of the command line, else that of the options file, else the standard one.
`Arguments.ReadsOptions` says which file that is.

* `lookup_overrides`: what the command line gives, by name.
* `settled_eq_ok_iff`: a run goes on exactly with the options that are in effect.
* `exists_settled_not_complaint_iff`: it stops without a complaint exactly when the
  options file overruns.
-/

namespace CallReach.CommandLine

open Files Text

variable {a : Arguments} {nesting : Nat} {tree : Tree} {options : Options} {name : String}

/-! ## Values on the command line -/

/-- The value that the command line gives for an option. -/
def Arguments.given? (a : Arguments) (name : String) : Option Json :=
  match name with
  | "entry" => a.entry.map Value.toJson
  | "report_format" => a.format.map Value.toJson
  | "use_callgraph" => if a.noCallgraph then some (.bool false) else none
  | "resolve_callbacks" => if a.noCallbacks then some (.bool false) else none
  | "color" => a.color.map Json.bool
  | _ => none

theorem Value.toJson_ne_null (value : Value) : value.toJson ≠ .null := by
  cases value <;> simp [Value.toJson]

/-- What is given is never null. -/
theorem given?_ne_null (a : Arguments) (name : String) : a.given? name ≠ some .null := by
  unfold Arguments.given?
  split <;> simp [Value.toJson_ne_null]

/-- The values of the command line are the given ones, with null for the rest. -/
theorem mem_overrides_iff (a : Arguments) (hname : name ∈ Settings.names) (value : Json) :
    (.whole name, value) ∈ a.overrides ↔ value = (a.given? name).getD .null := by
  simp only [Settings.names, List.mem_cons, List.not_mem_nil, or_false] at hname
  rcases hname with rfl | rfl | rfl | rfl | rfl <;>
    simp [Arguments.overrides, Arguments.given?, apply_ite (Option.getD · Json.null)]

theorem map_fst_overrides (a : Arguments) :
    a.overrides.map (·.1) =
      ["entry", "report_format", "use_callgraph", "resolve_callbacks", "color"].map .whole := rfl

/-- The values of the command line that are not null, by name. -/
theorem lookup_overrides (a : Arguments) (hname : name ∈ Settings.names) :
    (a.overrides.filter fun (_, value) => value ≠ .null).reverse.lookup (.whole name) =
      a.given? name := by
  have hkeys : ((a.overrides.filter fun (_, value) => value ≠ .null).reverse.map (·.1)).Nodup := by
    rw [List.map_reverse, List.nodup_reverse]
    refine (List.filter_sublist.map _).nodup ?_
    rw [map_fst_overrides]
    decide
  cases hgiven : a.given? name with
  | none =>
    refine Option.eq_none_iff_forall_ne_some.2 fun value hvalue => ?_
    have hmem := Table.mem_of_lookup hvalue
    rw [List.mem_reverse, List.mem_filter, mem_overrides_iff a hname, hgiven] at hmem
    simp_all
  | some value =>
    refine Table.lookup_of_mem hkeys ?_
    rw [List.mem_reverse, List.mem_filter, mem_overrides_iff a hname, hgiven]
    have hne := given?_ne_null a name
    rw [hgiven] at hne
    simpa using hne

/-! ## The options of a run -/

/-- The run has an options file at this path, which is named by a text that is not
empty. -/
def Arguments.ReadsOptions (a : Arguments) (path : Path) : Prop :=
  ∃ name, a.config = some (.text name) ∧ name ≠ "" ∧ path = .parse name

theorem optionsPath?_eq_some_iff {path : Path} :
    a.optionsPath? = some path ↔ a.ReadsOptions path := by
  unfold Arguments.optionsPath? Arguments.ReadsOptions
  split
  · next name hname =>
    simp only [hname, Option.some.injEq, Value.text.injEq, exists_eq_left', eq_comm (a := path)]
    by_cases hempty : name = "" <;> simp [hempty]
  · next hnone =>
    constructor
    · rintro ⟨⟩
    · rintro ⟨name, hname, -⟩
      exact absurd hname (hnone name)

/-- The options file of the run, if there is one, has a path that a file can have. -/
def Arguments.Namable (a : Arguments) : Prop :=
  ∀ path, a.ReadsOptions path → path.hasNull = false

theorem any_hasNull_optionsPath?_iff : a.optionsPath?.any (·.hasNull) = true ↔ ¬a.Namable := by
  simp only [Arguments.Namable, ← optionsPath?_eq_some_iff]
  cases a.optionsPath? <;> simp

/-- These are the members of the options file, which is valid by itself; a run
without a file has none. -/
inductive Arguments.Configured (a : Arguments) (nesting : Nat) (tree : Tree) :
    List (Wide × Json) → Prop where
  | absent (hnone : ∀ path, ¬a.ReadsOptions path) : a.Configured nesting tree []
  | file {path : Path} {members : List (Wide × Json)} {base : Options}
      (hpath : a.ReadsOptions path) (hholds : Options.Holds nesting (tree.read path) members)
      (htakes : base.Takes (Options.standard.valuesOver members)) :
      a.Configured nesting tree members

/-- The options of a run are valid, and each is the one of the command line if
one is given there, else the one of the options file, else the standard one. -/
def Arguments.Effective (a : Arguments) (nesting : Nat) (tree : Tree) (options : Options) :
    Prop :=
  ∃ members, a.Configured nesting tree members ∧
    options.Takes fun name => (a.given? name).getD (Options.standard.valuesOver members name)

theorem Arguments.ReadsOptions.unique {path other : Path} (h : a.ReadsOptions path)
    (hother : a.ReadsOptions other) : path = other :=
  Option.some.inj ((optionsPath?_eq_some_iff.2 h).symm.trans (optionsPath?_eq_some_iff.2 hother))

theorem Arguments.Configured.unique {members others : List (Wide × Json)}
    (h : a.Configured nesting tree members) (hothers : a.Configured nesting tree others) :
    members = others := by
  cases h with
  | absent hnone =>
    cases hothers with
    | absent => rfl
    | file hpath => exact absurd hpath (hnone _)
  | file hpath hholds =>
    cases hothers with
    | absent hnone => exact absurd hpath (hnone _)
    | file hother hholdsOther =>
      obtain rfl := hpath.unique hother
      exact hholds.unique hholdsOther

/-- At most one choice of options is in effect. -/
theorem Arguments.Effective.unique {other : Options} (h : a.Effective nesting tree options)
    (hother : a.Effective nesting tree other) : options = other := by
  obtain ⟨members, hmembers, htakes⟩ := h
  obtain ⟨others, hothers, htakesOther⟩ := hother
  obtain rfl := hmembers.unique hothers
  exact htakes.unique htakesOther

theorem override_overrides_eq_ok_iff {base : Options} :
    base.override a.overrides = .ok options ↔
      options.Takes fun name => (a.given? name).getD (base.value name) := by
  have hnames : ∀ member ∈ a.overrides, Settings.isName member.1 = true := by
    intro member hmember
    have hname : member.1 ∈ a.overrides.map (·.1) := List.mem_map_of_mem hmember
    rw [map_fst_overrides] at hname
    obtain ⟨name, hname, hsame⟩ := List.mem_map.1 hname
    refine Settings.isName_iff.2 ⟨name, ?_, hsame.symm⟩
    exact (by decide : ∀ name ∈ ["entry", "report_format", "use_callgraph", "resolve_callbacks",
      "color"], name ∈ Settings.names) name hname
  rw [Options.override_eq_ok_iff hnames]
  refine Options.takes_congr fun name hname => ?_
  rw [Options.valuesOver, lookup_overrides a hname]

/-- What a run starts from: the options of the file, or the standard ones. -/
def Arguments.base (a : Arguments) (nesting : Nat) (tree : Tree) :
    Except Options.LoadFault (Options × Log) :=
  match a.optionsPath? with
  | none => .ok (Options.standard, [])
  | some path => Options.ofContents nesting path.text (tree.read path)

/-- What a run goes on with, or why it does not. -/
def Arguments.settled (a : Arguments) (nesting : Nat) (tree : Tree) :
    Except Options.LoadFault Options :=
  match a.base nesting tree with
  | .error fault => .error fault
  | .ok (base, _) =>
      match base.override a.overrides with
      | .ok options => .ok options
      | .error fault => .error (.invalid fault)

/-- Loading options changes no file. -/
theorem run_loadOptions (a : Arguments) (nesting : Nat) (tree : Tree) :
    ∃ log, (loadOptions Tree.system nesting a).run tree =
      ((log, a.settled nesting tree), tree) := by
  have hbase : (loadOptions Tree.system nesting a).run tree = (match a.base nesting tree with
      | .error fault => pure ([], .error fault)
      | .ok (base, log) =>
          match base.override a.overrides with
          | .ok options => pure (log, .ok options)
          | .error fault => pure (log, .error (.invalid fault)) :
      StateM Tree (Log × Except Options.LoadFault Options)).run tree := by
    unfold loadOptions Arguments.base
    cases a.optionsPath? <;> rfl
  rw [hbase, Arguments.settled]
  cases a.base nesting tree with
  | error fault => exact ⟨_, rfl⟩
  | ok found =>
    dsimp only
    cases found.1.override a.overrides <;> exact ⟨_, rfl⟩

theorem Arguments.Configured.exists_takes {members : List (Wide × Json)}
    (h : a.Configured nesting tree members) :
    ∃ base : Options, base.Takes (Options.standard.valuesOver members) := by
  cases h with
  | absent => exact ⟨_, Options.takes_standard⟩
  | file _ _ htakes => exact ⟨_, htakes⟩

theorem exists_base_eq_ok_iff {base : Options} :
    (∃ log, a.base nesting tree = .ok (base, log)) ↔
      ∃ members, a.Configured nesting tree members ∧
        base.Takes (Options.standard.valuesOver members) := by
  unfold Arguments.base
  cases hpath : a.optionsPath? with
  | none =>
    have hnone : ∀ path, ¬a.ReadsOptions path := by simp [← optionsPath?_eq_some_iff, hpath]
    constructor
    · rintro ⟨log, ⟨⟩⟩
      exact ⟨[], .absent hnone, Options.takes_standard⟩
    · rintro ⟨members, hconfigured, htakes⟩
      obtain rfl := hconfigured.unique (.absent hnone)
      exact ⟨[], by rw [htakes.unique Options.takes_standard]⟩
  | some path =>
    have hreads := optionsPath?_eq_some_iff.1 hpath
    simp only [Options.ofContents_eq_ok_iff]
    constructor
    · rintro ⟨log, members, hholds, htakes, -⟩
      exact ⟨members, .file hreads hholds htakes, htakes⟩
    · rintro ⟨members, hconfigured, htakes⟩
      cases hconfigured with
      | absent hnone => exact absurd hreads (hnone path)
      | file hother hholds =>
        obtain rfl := hreads.unique hother
        exact ⟨_, members, hholds, htakes, rfl⟩

/-- A run goes on with the options that are in effect. -/
theorem settled_eq_ok_iff :
    a.settled nesting tree = .ok options ↔ a.Effective nesting tree options := by
  have hover : ∀ {base : Options} {members : List (Wide × Json)},
      base.Takes (Options.standard.valuesOver members) →
      (base.override a.overrides = .ok options ↔ options.Takes fun name =>
        (a.given? name).getD (Options.standard.valuesOver members name)) := by
    intro base members htakes
    rw [override_overrides_eq_ok_iff]
    exact Options.takes_congr fun name hname => by rw [htakes.value_eq name hname]
  unfold Arguments.settled
  constructor
  · intro h
    split at h
    · cases h
    · next base log hbase =>
      obtain ⟨members, hconfigured, htakes⟩ := exists_base_eq_ok_iff.1 ⟨log, hbase⟩
      split at h
      · next found hfound =>
        cases h
        exact ⟨members, hconfigured, (hover htakes).1 hfound⟩
      · cases h
  · rintro ⟨members, hconfigured, htakes⟩
    obtain ⟨base, hbase⟩ := hconfigured.exists_takes
    obtain ⟨log, hlog⟩ := exists_base_eq_ok_iff.2 ⟨members, hconfigured, hbase⟩
    simp only [hlog, (hover hbase).2 htakes]

/-- A run stops without a complaint about its options when the options file
overruns. -/
theorem exists_settled_not_complaint_iff :
    (∃ fault, a.settled nesting tree = .error fault ∧ fault.IsComplaint = false) ↔
      ∃ path, a.ReadsOptions path ∧ Options.Overruns nesting (tree.read path) := by
  have hbase : (∃ fault, a.settled nesting tree = .error fault ∧ fault.IsComplaint = false) ↔
      ∃ fault, a.base nesting tree = .error fault ∧ fault.IsComplaint = false := by
    unfold Arguments.settled
    cases a.base nesting tree with
    | error fault => simp
    | ok found =>
      dsimp only
      cases found.1.override a.overrides <;> simp [Options.LoadFault.IsComplaint]
  simp only [hbase, Arguments.base, ← optionsPath?_eq_some_iff]
  cases a.optionsPath? with
  | none => simp
  | some path =>
    rw [Options.exists_ofContents_not_complaint_iff]
    simp

/-- A run that does not go on has no options in effect, and it complains of them
unless the options file overruns. -/
theorem settled_eq_error {fault : Options.LoadFault} (h : a.settled nesting tree = .error fault) :
    (∀ options, ¬a.Effective nesting tree options) ∧
      (fault.IsComplaint = false ↔
        ∃ path, a.ReadsOptions path ∧ Options.Overruns nesting (tree.read path)) := by
  constructor
  · intro options heffective
    rw [settled_eq_ok_iff.2 heffective] at h
    cases h
  · rw [← exists_settled_not_complaint_iff, h]
    simp

/-- Options in effect are loaded from the file that is named. -/
theorem Arguments.Effective.exists_loaded {path : Path} (h : a.Effective nesting tree options)
    (hpath : a.ReadsOptions path) :
    ∃ base log, Options.ofContents nesting path.text (tree.read path) = .ok (base, log) := by
  obtain ⟨members, hconfigured, -⟩ := h
  obtain ⟨base, htakes⟩ := hconfigured.exists_takes
  obtain ⟨log, hbase⟩ := exists_base_eq_ok_iff.2 ⟨members, hconfigured, htakes⟩
  rw [Arguments.base, optionsPath?_eq_some_iff.2 hpath] at hbase
  exact ⟨base, log, hbase⟩

theorem Arguments.Effective.not_overruns {path : Path} (h : a.Effective nesting tree options)
    (hpath : a.ReadsOptions path) : ¬Options.Overruns nesting (tree.read path) := by
  intro hoverruns
  obtain ⟨base, log, hload⟩ := h.exists_loaded hpath
  obtain ⟨fault, hfault, -⟩ :=
    (Options.loadsAs nesting path.text (tree.read path)).overruns_iff.2 hoverruns
  cases hload.symm.trans hfault

end CallReach.CommandLine
