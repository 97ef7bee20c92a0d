import CallReach.Options.Basic
import CallReach.Proofs.Outcome

/-!
# Which value an option takes

Options are settled by name: a value that is given wins over what was there, and
of several values under one name the last one wins.  `Options.Takes` says of
options that they are valid and have given values, name by name.

* `Settings.get` reads a setting by its name, and `Settings.get_setAll` is what
  setting several of them does.
* `Settings.check_eq_ok_iff`: valid settings are the values of options.

The results are `ofMembers_eq_ok_iff`, for the members of a file in front of the
standard options, and `override_eq_ok_iff`, for values in front of any options.
-/

namespace CallReach

theorem ReportFormat.ofJson?_eq_some_iff {value : Json} {format : ReportFormat} :
    ofJson? value = some format ↔ value = .str format.name := by
  constructor
  · intro h
    unfold ofJson? at h
    split at h
    · rw [ofName?, List.find?_eq_some_iff_append] at h
      simpa [eq_comm] using h.1
    · cases h
  · rintro rfl
    cases format <;> rfl

namespace Settings

variable {settings : Settings} {name : String} {value : Json}

/-! ## Settings by name -/

/-- The setting of a name. -/
def get (settings : Settings) (name : String) : Json :=
  match name with
  | "entry" => settings.entry
  | "use_callgraph" => settings.useCallgraph
  | "resolve_callbacks" => settings.resolveCallbacks
  | "report_format" => settings.reportFormat
  | "color" => settings.color
  | _ => .null

/-- Settings are what they are by name. -/
theorem eq_of_get_eq {other : Settings} (h : ∀ name ∈ names, settings.get name = other.get name) :
    settings = other := by
  simp only [names, List.forall_mem_cons] at h
  obtain ⟨hentry, hgraph, hcallbacks, hformat, hcolor, -⟩ := h
  obtain ⟨entry, graph, callbacks, format, color⟩ := settings
  simp only [get] at hentry hgraph hcallbacks hformat hcolor
  simp only [hentry, hgraph, hcallbacks, hformat, hcolor]

theorem isName_iff {other : Text.Wide} : isName other = true ↔ ∃ name ∈ names, other = name := by
  simp [isName]

theorem get_set (settings : Settings) (hname : name ∈ names) (other : Text.Wide) (value : Json) :
    (settings.set other value).get name = if other = name then value else settings.get name := by
  by_cases hother : isName other = true
  · obtain ⟨known, hknown, rfl⟩ := isName_iff.1 hother
    simp only [names, List.mem_cons, List.not_mem_nil, or_false] at hname hknown
    rcases hname with rfl | rfl | rfl | rfl | rfl <;>
      rcases hknown with rfl | rfl | rfl | rfl | rfl <;> rfl
  · rw [if_neg (by rintro rfl; exact hother (isName_iff.2 ⟨name, hname, rfl⟩))]
    have hsame : settings.set other value = settings := by
      unfold set
      split
      case h_6 => rfl
      all_goals exact absurd rfl hother
    rw [hsame]

/-- Of several values under one name the last one wins. -/
theorem get_setAll (settings : Settings) (hname : name ∈ names)
    (members : List (Text.Wide × Json)) :
    (settings.setAll members).get name =
      (members.reverse.lookup (.whole name)).getD (settings.get name) := by
  induction members generalizing settings with
  | nil => rfl
  | cons member members ih =>
    have hset : settings.setAll (member :: members) =
        (settings.set member.1 member.2).setAll members := rfl
    rw [hset, ih, get_set settings hname, List.reverse_cons, List.lookup_append]
    cases members.reverse.lookup (.whole name) with
    | some value => rfl
    | none =>
      obtain ⟨other, value⟩ := member
      by_cases h : other = .whole name
      · subst h
        simp
      · simp [h, List.lookup_cons, beq_eq_false_iff_ne.2 (Ne.symm h)]

/-! ## Checks -/

theorem boolean_eq_ok_iff {truth : Bool} :
    boolean name value = .ok truth ↔ value = .bool truth := by
  cases value <;> simp [boolean]

theorem optionalBoolean_eq_ok_iff {truth : Option Bool} :
    optionalBoolean value = .ok truth ↔ value = (truth.map Json.bool).getD .null := by
  cases value <;> cases truth <;> simp [optionalBoolean]

theorem nonEmpty_eq_ok_iff {text : Text.Wide} :
    nonEmpty value = .ok text ↔ text ≠ "" ∧ value = .str text := by
  cases value with
  | str found =>
    by_cases hempty : found = .whole ""
    · subst hempty
      constructor
      · rintro ⟨⟩
      · rintro ⟨hfull, ⟨⟩⟩
        exact absurd rfl hfull
    · have hfull : nonEmpty (.str found) = .ok found := by simp [nonEmpty, hempty]
      rw [hfull]
      constructor
      · rintro ⟨rfl⟩
        exact ⟨hempty, rfl⟩
      · rintro ⟨-, ⟨rfl⟩⟩
        rfl
  | _ => simp [nonEmpty]

/-- Settings are valid when they are the values of options that name an
entry. -/
theorem check_eq_ok_iff {options : Options} :
    settings.check = .ok options ↔ options.entry ≠ "" ∧ settings = ofOptions options := by
  obtain ⟨entry, graph, callbacks, format, color⟩ := settings
  obtain ⟨entryName, usesGraph, resolves, reportFormat, wantsColor⟩ := options
  simp only [check, bind_eq_ok_iff, nonEmpty_eq_ok_iff, boolean_eq_ok_iff,
    optionalBoolean_eq_ok_iff]
  constructor
  · rintro ⟨_, ⟨hentry, rfl⟩, _, rfl, _, rfl, _, rfl, h⟩
    split at h
    · next found hfound =>
      cases h
      obtain rfl := ReportFormat.ofJson?_eq_some_iff.1 hfound
      refine ⟨hentry, ?_⟩
      cases wantsColor <;> rfl
    · cases h
  · rintro ⟨hentry, ⟨⟩⟩
    refine ⟨_, ⟨hentry, rfl⟩, _, rfl, _, rfl, wantsColor, ?_, ?_⟩
    · cases wantsColor <;> rfl
    · rw [ReportFormat.ofJson?_eq_some_iff.2 rfl]
      rfl

end Settings

/-! ## Options -/

namespace Options

variable {options : Options} {members : List (Text.Wide × Json)}

/-- The value of an option of a name. -/
def value (options : Options) (name : String) : Json :=
  (Settings.ofOptions options).get name

/-- The options are valid and have these values. -/
structure Takes (options : Options) (values : String → Json) : Prop where
  entry_ne : options.entry ≠ ""
  value_eq : ∀ name ∈ Settings.names, options.value name = values name

/-- At most one choice of options has given values. -/
theorem Takes.unique {values : String → Json} {other : Options} (h : options.Takes values)
    (hother : other.Takes values) : options = other := by
  have hsettings : Settings.ofOptions options = Settings.ofOptions other :=
    Settings.eq_of_get_eq fun name hname =>
      (h.value_eq name hname).trans (hother.value_eq name hname).symm
  have hcheck := Settings.check_eq_ok_iff.2 ⟨h.entry_ne, rfl⟩
  rw [hsettings, Settings.check_eq_ok_iff.2 ⟨hother.entry_ne, rfl⟩] at hcheck
  exact (Except.ok.inj hcheck).symm

/-- Settings stand for the options that take their values. -/
theorem check_eq_ok_iff_takes {settings : Settings} :
    settings.check = .ok options ↔ options.Takes settings.get := by
  rw [Settings.check_eq_ok_iff]
  constructor
  · rintro ⟨hentry, rfl⟩
    exact ⟨hentry, fun _ _ => rfl⟩
  · rintro ⟨hentry, hvalues⟩
    exact ⟨hentry, Settings.eq_of_get_eq fun name hname => (hvalues name hname).symm⟩

theorem takes_congr {values other : String → Json}
    (h : ∀ name ∈ Settings.names, values name = other name) :
    options.Takes values ↔ options.Takes other := by
  constructor
  · rintro ⟨hentry, hvalues⟩
    exact ⟨hentry, fun name hname => (hvalues name hname).trans (h name hname)⟩
  · rintro ⟨hentry, hvalues⟩
    exact ⟨hentry, fun name hname => (hvalues name hname).trans (h name hname).symm⟩

/-- The values of named members in front of those of other options. -/
def valuesOver (base : Options) (members : List (Text.Wide × Json)) (name : String) : Json :=
  (members.reverse.lookup (.whole name)).getD (base.value name)

/-- No members leave the standard options. -/
theorem takes_standard : standard.Takes (standard.valuesOver []) :=
  ⟨by decide, fun _ _ => rfl⟩

theorem check_setAll_eq_ok_iff {base : Options} :
    ((Settings.ofOptions base).setAll members).check = .ok options ↔
      options.Takes (base.valuesOver members) := by
  rw [check_eq_ok_iff_takes]
  exact takes_congr fun name hname => Settings.get_setAll _ hname members

/-- The options of named members: each option is that of its last member, and
the standard one if it has none.  Members under other names are ignored with a
warning. -/
theorem ofMembers_eq_ok_iff {warnings : List String} :
    ofMembers members = .ok (options, warnings) ↔
      options.Takes (standard.valuesOver members) ∧ warnings = unknownWarnings members := by
  simp only [ofMembers, bind_eq_ok_iff, check_setAll_eq_ok_iff, pure, Except.pure,
    Except.ok.injEq, Prod.mk.injEq]
  constructor
  · rintro ⟨_, htakes, rfl, rfl⟩
    exact ⟨htakes, rfl⟩
  · rintro ⟨htakes, rfl⟩
    exact ⟨options, htakes, rfl, rfl⟩

/-- Named values in front of other options, where null is no value. -/
theorem override_eq_ok_iff {base : Options}
    (hnames : ∀ member ∈ members, Settings.isName member.1 = true) :
    base.override members = .ok options ↔
      options.Takes (base.valuesOver (members.filter fun (_, value) => value ≠ .null)) := by
  have hreceiver : (members.any fun (name, _) => name = receiverName) = false := by
    rw [List.any_eq_false]
    intro member hmember hname
    have hmem := hnames member hmember
    rw [decide_eq_true_iff.1 hname] at hmem
    exact absurd hmem (by decide)
  have hfault : nameFault? (members.filter fun (_, value) => value ≠ .null) = none := by
    rw [nameFault?, Option.map_eq_none_iff, List.find?_eq_none]
    intro name hname
    obtain ⟨member, hmember, rfl⟩ := List.mem_map.1 hname
    simpa using hnames member (List.mem_filter.1 hmember).1
  rw [override, hreceiver, if_neg Bool.false_ne_true, ofArguments, hfault]
  exact check_setAll_eq_ok_iff

end Options

end CallReach
