import Mathlib
import CallReach.Proofs.CommandLine.Run

/-!
# What an options file can do to a run

Loading an options file gives options or a complaint about the file, and a run with
a file that is complained of ends with exit code 2.  There is one exception: a file
that overruns gives neither, and a run with it ends without an exit code.

* `Ending.options_cases` sorts the endings of a run by what they have to do with the
  options file.

`options_load_or_overrun` is the result.
-/

namespace CallReach.CommandLine

open Files Text

variable {a : Arguments} {nesting : Nat} {tree after : Tree} {options : Options} {path : Path}

namespace Ending

variable {surroundings : Surroundings} {ending : Except Crash (Nat × String)}

/-- What the options file has to do with the ending of a run: it overruns, or it
is complained of, or the run goes on. -/
theorem options_cases (h : Ending tree surroundings a ending after)
    (hpath : a.ReadsOptions path) (hnull : path.hasNull = false) :
    (Options.Overruns surroundings.nesting (tree.read path) ∧
        ∃ crash, ending = .error crash ∧ crash.OfOptions) ∨
      (¬Options.Overruns surroundings.nesting (tree.read path) ∧ ending = .ok (2, "") ∧
        after = tree) ∨
      ∃ options, a.Effective surroundings.nesting tree options ∧
        ∀ crash, ending = .error crash → ¬crash.OfOptions := by
  cases h with
  | unnamable hunnamable =>
    refine absurd (fun other hother => ?_) hunnamable
    rw [← hpath.unique hother, hnull]
  | overrun _ hother hoverruns hcrash =>
    obtain rfl := hpath.unique hother
    exact .inl ⟨hoverruns, _, rfl, hcrash⟩
  | badOptions _ hreads => exact .inr (.inl ⟨hreads path hpath, rfl, rfl⟩)
  | settled _ heffective hmodel =>
    refine .inr (.inr ⟨_, heffective, ?_⟩)
    rintro crash rfl
    exact hmodel.not_ofOptions

/-- A run ends without an exit code because of its options file exactly when the
file overruns. -/
theorem exists_ofOptions_iff (h : Ending tree surroundings a ending after)
    (hpath : a.ReadsOptions path) (hnull : path.hasNull = false) :
    (∃ crash, ending = .error crash ∧ crash.OfOptions) ↔
      Options.Overruns surroundings.nesting (tree.read path) := by
  rcases h.options_cases hpath hnull with
    ⟨hoverruns, hcrash⟩ | ⟨hreads, rfl, -⟩ | ⟨_, heffective, hnot⟩
  · exact ⟨fun _ => hoverruns, fun _ => hcrash⟩
  · refine ⟨?_, fun hoverruns => absurd hoverruns hreads⟩
    rintro ⟨_, ⟨⟩, -⟩
  · refine ⟨?_, fun hoverruns => absurd hoverruns (heffective.not_overruns hpath)⟩
    rintro ⟨crash, hending, hcrash⟩
    exact absurd hcrash (hnot crash hending)

/-- A run whose options file is complained of ends with exit code 2. -/
theorem of_complaint (h : Ending tree surroundings a ending after)
    (hpath : a.ReadsOptions path) (hnull : path.hasNull = false)
    {fault : Options.LoadFault}
    (hfault : Options.ofContents surroundings.nesting path.text (tree.read path) = .error fault)
    (hcomplaint : fault.IsComplaint = true) : ending = .ok (2, "") ∧ after = tree := by
  rcases h.options_cases hpath hnull with ⟨hoverruns, -⟩ | ⟨-, hending⟩ | ⟨_, heffective, -⟩
  · obtain ⟨other, hother, hnot⟩ :=
      (Options.loadsAs surroundings.nesting path.text (tree.read path)).overruns_iff.2 hoverruns
    cases hfault.symm.trans hother
    simp [hcomplaint] at hnot
  · exact hending
  · obtain ⟨base, log, hload⟩ := heffective.exists_loaded hpath
    cases hload.symm.trans hfault

end Ending

/-- Loading gives options that pass all checks or complains of the file, except
when the contents overrun: they are not UTF-8, or an integer is too long, or values
are nested too deeply.  A run with such a file crashes, and a run whose file is
complained of ends with exit code 2. -/
theorem options_load_or_overrun (contents : Except Files.Fault (List UInt8)) :
    (∀ nesting path, Options.LoadsAs nesting contents (Options.ofContents nesting path contents)) ∧
      ∀ {tree : Tree} {arguments : List String} {a : Arguments} {path : Path}
        (surroundings : Surroundings), tree.Sound → Commands arguments a →
        a.ReadsOptions path → path.hasNull = false → tree.read path = contents →
        ((∃ crash, ((run Tree.system surroundings arguments).run tree).1 = .error crash ∧
            crash.OfOptions) ↔ Options.Overruns surroundings.nesting contents) ∧
          ∀ fault, Options.ofContents surroundings.nesting path.text contents = .error fault →
            fault.IsComplaint = true → ∃ outcome,
              (run Tree.system surroundings arguments).run tree = (.ok outcome, tree) ∧
              outcome.exitCode = 2 ∧ outcome.output = "" := by
  refine ⟨fun nesting path => Options.loadsAs nesting path contents, ?_⟩
  rintro tree arguments a path surroundings hsound hcommands hpath hnull rfl
  obtain ⟨result, after, hrun, hending⟩ := exists_ending hsound hcommands surroundings
  rw [hrun]
  refine ⟨?_, fun fault hfault hcomplaint => ?_⟩
  · rw [← hending.exists_ofOptions_iff hpath hnull]
    cases result <;> simp [Except.map]
  · obtain ⟨hview, rfl⟩ := hending.of_complaint hpath hnull hfault hcomplaint
    cases result with
    | error crash => cases hview
    | ok outcome =>
      obtain ⟨hcode, houtput⟩ := Prod.mk.inj (Except.ok.inj hview)
      exact ⟨outcome, rfl, hcode, houtput⟩

/-- A run crashes with an options file of one byte that begins no character, with
4301 digits and with three opening brackets.  With a list in the file it ends with
exit code 2. -/
theorem options_load_or_overrun_desk :
    (∀ bytes ∈ [[0xFF], Utf8.encode (List.replicate 4301 '1'),
        Utf8.encode (List.replicate 3 '[')],
      ∃ crash, ((run Tree.system Desk.surroundings Desk.line).run (Desk.treeOf bytes)).1 =
        .error crash ∧ crash.OfOptions) ∧
      ∃ outcome, (run Tree.system Desk.surroundings Desk.line).run
            (Desk.treeOf (Utf8.encode "[]".toList)) =
          (.ok outcome, Desk.treeOf (Utf8.encode "[]".toList)) ∧
        outcome.exitCode = 2 ∧ outcome.output = "" := by
  have hdecode : Utf8.decode [0xFF] = .error ⟨0xFF, 0, 1, .invalidStart⟩ := by cbv
  have hlist : Utf8.decode (Utf8.encode "[]".toList) = .ok "[]".toList :=
    Utf8.decode_eq_ok_iff.2 rfl
  have hparse : Json.parse 2 (unifyLineEnds "[]".toList) = .ok (.arr []) := by cbv
  have hcrash : ∀ bytes, Options.Overruns Desk.surroundings.nesting (.ok bytes) →
      ∃ crash, ((run Tree.system Desk.surroundings Desk.line).run (Desk.treeOf bytes)).1 =
        .error crash ∧ crash.OfOptions := by
    intro bytes hoverruns
    obtain ⟨-, hruns⟩ := options_load_or_overrun (.ok bytes)
    obtain ⟨hcrash, -⟩ := hruns Desk.surroundings (Desk.sound_treeOf bytes) Desk.commands
      Desk.readsOptions (by decide) rfl
    exact hcrash.2 hoverruns
  constructor
  · simp only [List.forall_mem_cons, List.not_mem_nil, false_implies, implies_true, and_true]
    refine ⟨hcrash _ (.notText fun chars hchars => ?_),
      hcrash _ (Options.overruns_ones (by decide)),
      hcrash _ (Options.overruns_brackets (by decide))⟩
    rw [Utf8.decode_eq_ok_iff.2 hchars] at hdecode
    cases hdecode
  · obtain ⟨-, hruns⟩ := options_load_or_overrun (.ok (Utf8.encode "[]".toList))
    refine (hruns _ (Desk.sound_treeOf _) Desk.commands Desk.readsOptions (by decide) rfl).2
      (.notObject "f.json") ?_ rfl
    simp only [Options.ofContents, Desk.surroundings, bind, Except.bind, hlist, hparse]
    rfl

/-- Not all contents are loaded or complained of, however deeply values may be
nested. -/
theorem not_forall_load_or_complain :
    ¬∃ nesting, ∀ path contents,
      (∃ options log, Options.ofContents nesting path contents = .ok (options, log) ∧
          options.entry ≠ "") ∨
        ∃ fault, Options.ofContents nesting path contents = .error fault ∧
          fault.IsComplaint = true := by
  rintro ⟨nesting, h⟩
  have hload : Options.ofContents nesting "cfg.json" (.ok [0xFF]) =
      .error (.notUtf8 ⟨0xFF, 0, 1, .invalidStart⟩) := by cbv
  rcases h "cfg.json" (.ok [0xFF]) with ⟨options, log, hok, -⟩ | ⟨fault, hfault, hcomplaint⟩
  · cases hload.symm.trans hok
  · cases hload.symm.trans hfault
    cases hcomplaint

end CallReach.CommandLine
