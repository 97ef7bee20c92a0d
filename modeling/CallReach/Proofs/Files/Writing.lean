import Mathlib.Data.List.Infix
import Mathlib.Tactic.SplitIfs
import CallReach.Files.Tree
import CallReach.Proofs.Outcome

/-!
# Writing to a tree

A file is written together with the directories above it, one after the other,
and what was done before a failure stays done.

* `outcome_makeDirectories_cons` and `outcome_write` are the changes as case
  distinctions.
* `itemAt?_cases` and `makeDirectory_cases` say what can be in the way of a place:
  something missing, a file, or a name that does not fit.
* `grown_makeDirectories`: at most the missing directories are made.
* `makeDirectories_of_clear`: in a sound tree they all are, when nothing is in the
  way.

`write_cases` is the result: a file is written where it can be, and otherwise all
files stay as they are.
-/

namespace CallReach.Files.Tree

variable {tree after : Tree} {place above : List String} {name : String}

theorem outcome_makeDirectories_cons (name : String) (back : List String) (tree : Tree) :
    outcome (makeDirectories (name :: back)) tree =
      match tree.makeDirectory (name :: back).reverse with
      | .ok made => (.ok (), made)
      | .error .missing =>
          match outcome (makeDirectories back) tree with
          | (.error fault, mid) => (.error fault, mid)
          | (.ok (), mid) =>
              match mid.makeDirectory (name :: back).reverse with
              | .ok made => (.ok (), made)
              | .error kind => (.error ⟨kind, placeText (name :: back).reverse⟩, mid)
      | .error kind =>
          if tree.item? (name :: back).reverse = some .directory then (.ok (), tree)
          else (.error ⟨kind, placeText (name :: back).reverse⟩, tree) := by
  rw [makeDirectories, outcome_bind, outcome_get]
  dsimp only
  cases tree.makeDirectory (name :: back).reverse with
  | ok made => rfl
  | error kind =>
    cases kind
    case missing =>
      simp only [outcome_bind, outcome_get]
      obtain ⟨_ | _, mid⟩ := outcome (makeDirectories back) tree
      · rfl
      · dsimp only
        cases mid.makeDirectory (name :: back).reverse <;> rfl
    all_goals
      simp only [outcome_bind, outcome_get, ne_eq, ite_not]
      split_ifs <;> rfl

/-! ## Looking up places -/

/-- Everything above a place is a directory. -/
def Rooted (tree : Tree) (place : List String) : Prop :=
  ∀ above, above <+: place → above ≠ place → tree.item? above = some .directory

/-- Nothing above a place is a file. -/
def Clear (tree : Tree) (place : List String) : Prop :=
  ∀ above, above <+: place → above ≠ place → ∀ bytes, tree.item? above ≠ some (.file bytes)

theorem Rooted.clear (h : tree.Rooted place) : tree.Clear place := by
  intro above habove hne bytes hfile
  rw [h above habove hne] at hfile
  cases hfile

/-- The names of a place are not too long, each for itself and all together. -/
structure Fits (place : List String) : Prop where
  names : ∀ name ∈ place, name.utf8ByteSize ≤ nameLimit
  text : (placeText place).utf8ByteSize ≤ pathLimit

theorem Fits.of_prefix (h : Fits place) (habove : above <+: place) : Fits above := by
  obtain ⟨below, rfl⟩ := habove
  refine ⟨fun name hname => h.names name (List.mem_append_left _ hname), ?_⟩
  by_cases habove : above = []
  · subst habove
    decide
  by_cases hbelow : below = []
  · simpa [hbelow] using h.text
  have htext := h.text
  simp only [placeText, String.intercalate_append_of_ne_nil habove hbelow,
    String.utf8ByteSize_append] at htext ⊢
  omega

/-- Why names lead nowhere from a place: something on the way is missing or is a
file, or a name is too long. -/
inductive Stuck (tree : Tree) (start names : List String) : FaultKind → Prop where
  | missing (above : List String) (habove : above <+: names) (hne : above ≠ names)
      (hnone : tree.item? (start ++ above) = none) : Stuck tree start names .missing
  | notDirectory (above : List String) (habove : above <+: names) (hne : above ≠ names)
      {bytes : List UInt8} (hfile : tree.item? (start ++ above) = some (.file bytes)) :
      Stuck tree start names .notDirectory
  | nameTooLong {name : String} (hname : name ∈ names) (hlong : nameLimit < name.utf8ByteSize) :
      Stuck tree start names .nameTooLong

theorem Stuck.cons {start rest : List String} {kind : FaultKind}
    (h : Stuck tree (start ++ [name]) rest kind) : Stuck tree start (name :: rest) kind := by
  cases h with
  | missing above habove hne hnone =>
    exact .missing (name :: above) (by simpa using habove) (by simpa using hne)
      (by simpa using hnone)
  | notDirectory above habove hne hfile =>
    exact .notDirectory (name :: above) (by simpa using habove) (by simpa using hne)
      (by simpa using hfile)
  | nameTooLong hname hlong => exact .nameTooLong (List.mem_cons_of_mem _ hname) hlong

/-- Names lead from a place to where they say, through directories, or they are
stuck. -/
theorem locate_cases (tree : Tree) (start : List String) {names : List String}
    (hdots : ".." ∉ names) :
    (tree.locate start names = .ok (start ++ names) ∧
        (∀ name ∈ names, name.utf8ByteSize ≤ nameLimit) ∧
        ∀ above, above <+: names → above ≠ names →
          tree.item? (start ++ above) = some .directory) ∨
      ∃ kind, tree.locate start names = .error kind ∧ Stuck tree start names kind := by
  induction names generalizing start with
  | nil =>
    refine .inl ⟨by simp [locate], by simp, ?_⟩
    intro above habove hne
    exact absurd (List.prefix_nil.1 habove) hne
  | cons name rest ih =>
    obtain ⟨hname, hrest⟩ : name ≠ ".." ∧ ".." ∉ rest := by simpa [eq_comm] using hdots
    rw [locate]
    cases hitem : tree.item? start with
    | none => exact .inr ⟨_, rfl, .missing [] List.nil_prefix (by simp) (by simpa using hitem)⟩
    | some item =>
      cases item with
      | file bytes =>
        exact .inr ⟨_, rfl, .notDirectory [] List.nil_prefix (by simp) (by simpa using hitem)⟩
      | directory =>
        dsimp only
        by_cases hlong : nameLimit < name.utf8ByteSize
        · rw [if_pos hlong]
          exact .inr ⟨_, rfl, .nameTooLong List.mem_cons_self hlong⟩
        rw [if_neg hlong, if_neg hname]
        rcases ih (start ++ [name]) hrest with ⟨hok, hshort, hdirs⟩ | ⟨kind, herr, hstuck⟩
        · refine .inl ⟨by simpa using hok, ?_, ?_⟩
          · rw [List.forall_mem_cons]
            exact ⟨by omega, hshort⟩
          · intro above habove hne
            rcases List.prefix_cons_iff.1 habove with rfl | ⟨others, rfl, hothers⟩
            · simpa using hitem
            · rw [List.append_cons]
              exact hdirs others hothers (by simpa using hne)
        · exact .inr ⟨kind, herr, hstuck.cons⟩

/-- What is found at an absolute place, or why nothing can be there. -/
theorem itemAt?_cases (tree : Tree) (hdots : ".." ∉ place) :
    (tree.itemAt? place = .ok (tree.item? place) ∧ Fits place ∧ tree.Rooted place) ∨
      (tree.itemAt? place = .error .missing ∧ ¬tree.Rooted place) ∨
      ∃ kind, kind ≠ .missing ∧ tree.itemAt? place = .error kind ∧
        ¬(Fits place ∧ tree.Clear place) := by
  rw [itemAt?]
  by_cases hlong : pathLimit < (placeText place).utf8ByteSize
  · rw [if_pos hlong]
    refine .inr (.inr ⟨_, by simp, rfl, ?_⟩)
    rintro ⟨hfits, -⟩
    exact absurd hfits.text (by omega)
  rw [if_neg hlong]
  rcases locate_cases tree [] hdots with ⟨hok, hshort, hdirs⟩ | ⟨kind, herr, hstuck⟩
  · rw [hok]
    exact .inl ⟨rfl, ⟨hshort, by omega⟩, hdirs⟩
  · rw [herr]
    cases hstuck with
    | missing above habove hne hnone =>
      refine .inr (.inl ⟨rfl, fun hrooted => ?_⟩)
      rw [List.nil_append, hrooted above habove hne] at hnone
      cases hnone
    | notDirectory above habove hne hfile =>
      refine .inr (.inr ⟨_, by simp, rfl, ?_⟩)
      rintro ⟨-, hclear⟩
      exact hclear above habove hne _ hfile
    | nameTooLong hname hlong =>
      refine .inr (.inr ⟨_, by simp, rfl, ?_⟩)
      rintro ⟨hfits, -⟩
      exact absurd (hfits.names _ hname) (by omega)

/-! ## Putting something at a place -/

@[simp]
theorem item?_nil (tree : Tree) : tree.item? [] = some .directory := rfl

theorem lookup_set (place : List String) (item : Item) (items : List (List String × Item))
    (other : List String) :
    (put.set place item items).lookup other =
      if other = place then some item else items.lookup other := by
  induction items with
  | nil => grind [put.set]
  | cons entry items ih => grind [put.set]

/-- Only the place itself is changed. -/
theorem item?_put (tree : Tree) (item : Item) (hplace : place ≠ []) (other : List String) :
    (tree.put place item).item? other = if other = place then some item else tree.item? other := by
  by_cases hother : other = []
  · subst hother
    rw [if_neg hplace.symm]
    rfl
  · simp only [item?, List.isEmpty_iff, hother, if_false]
    exact lookup_set place item tree.items other

/-- A directory that is put below directories ends a way of directories. -/
theorem Rooted.item?_put (h : tree.Rooted place) (hplace : place ≠ []) (above : List String)
    (habove : above <+: place) : (tree.put place .directory).item? above = some .directory := by
  rw [Tree.item?_put tree .directory hplace]
  by_cases hsame : above = place
  · rw [if_pos hsame]
  · rw [if_neg hsame, h above habove hsame]

/-! ## Making directories -/

/-- A tree as it is after directories that were missing on the way to a place,
and nothing else, have been made. -/
structure Grown (place : List String) (tree after : Tree) : Prop where
  workingDirectory : after.workingDirectory = tree.workingDirectory
  item : ∀ other, after.item? other = tree.item? other ∨
    other <+: place ∧ tree.item? other = none ∧ after.item? other = some .directory

theorem Grown.refl (place : List String) (tree : Tree) : Grown place tree tree :=
  ⟨rfl, fun _ => .inl rfl⟩

theorem Grown.trans {mid : Tree} (h : Grown place tree mid) (hafter : Grown place mid after) :
    Grown place tree after := by
  refine ⟨hafter.workingDirectory.trans h.workingDirectory, fun other => ?_⟩
  rcases h.item other with hmid | ⟨hbefore, hnone, hmid⟩
  · rw [← hmid]
    exact hafter.item other
  · rcases hafter.item other with hsame | ⟨-, hmissing, -⟩
    · exact .inr ⟨hbefore, hnone, hsame.trans hmid⟩
    · rw [hmid] at hmissing
      cases hmissing

theorem Grown.mono (h : Grown above tree after) (habove : above <+: place) :
    Grown place tree after := by
  refine ⟨h.workingDirectory, fun other => ?_⟩
  rcases h.item other with hsame | ⟨hbefore, hnone, hmade⟩
  · exact .inl hsame
  · exact .inr ⟨hbefore.trans habove, hnone, hmade⟩

theorem Grown.item?_of_not_prefix (h : Grown place tree after) {other : List String}
    (hother : ¬other <+: place) : after.item? other = tree.item? other :=
  (h.item other).resolve_right fun hmade => hother hmade.1

theorem grown_put (hnone : tree.item? place = none) :
    Grown place tree (tree.put place .directory) := by
  refine ⟨rfl, fun other => ?_⟩
  have hplace : place ≠ [] := by
    rintro rfl
    cases hnone
  rw [item?_put tree .directory hplace]
  by_cases hother : other = place
  · subst hother
    exact .inr ⟨List.prefix_rfl, hnone, if_pos rfl⟩
  · exact .inl (if_neg hother)

/-- A directory is made where nothing is, below directories. -/
theorem makeDirectory_cases (tree : Tree) (hdots : ".." ∉ place) :
    (tree.item? place = none ∧ tree.Rooted place ∧
        tree.makeDirectory place = .ok (tree.put place .directory)) ∨
      (tree.item? place ≠ none ∧ tree.Rooted place ∧
        tree.makeDirectory place = .error .alreadyExists) ∨
      (¬tree.Rooted place ∧ tree.makeDirectory place = .error .missing) ∨
      ∃ kind, kind ≠ .missing ∧ tree.makeDirectory place = .error kind ∧
        ¬(Fits place ∧ tree.Clear place) := by
  rw [makeDirectory]
  rcases tree.itemAt?_cases hdots with
    ⟨hitem, -, hrooted⟩ | ⟨hitem, hrooted⟩ | ⟨kind, hkind, hitem, hbad⟩
  · rw [hitem]
    cases hfound : tree.item? place with
    | none => exact .inl ⟨rfl, hrooted, rfl⟩
    | some found => exact .inr (.inl ⟨by simp, hrooted, rfl⟩)
  · rw [hitem]
    exact .inr (.inr (.inl ⟨hrooted, rfl⟩))
  · rw [hitem]
    exact .inr (.inr (.inr ⟨kind, hkind, rfl, hbad⟩))

theorem makeDirectory_of_rooted (hdots : ".." ∉ place) (hfits : Fits place)
    (hrooted : tree.Rooted place) (hnone : tree.item? place = none) :
    tree.makeDirectory place = .ok (tree.put place .directory) := by
  rcases tree.makeDirectory_cases hdots with
    ⟨-, -, hmade⟩ | ⟨hsome, -, -⟩ | ⟨hlost, -⟩ | ⟨kind, -, -, hbad⟩
  · exact hmade
  · exact absurd hnone hsome
  · exact absurd hrooted hlost
  · exact absurd ⟨hfits, hrooted.clear⟩ hbad

/-- A directory that is made leaves the rest of the tree as it was. -/
theorem grown_makeDirectory (hdots : ".." ∉ place)
    (h : tree.makeDirectory place = .ok after) : Grown place tree after := by
  rcases tree.makeDirectory_cases hdots with
    ⟨hnone, -, hmade⟩ | ⟨-, -, hmade⟩ | ⟨-, hmade⟩ | ⟨kind, -, hmade, -⟩ <;> rw [hmade] at h
  · cases h
    exact grown_put hnone
  · cases h
  · cases h
  · cases h

theorem reverse_prefix_cons (name : String) (back : List String) :
    back.reverse <+: (name :: back).reverse := by
  simp

/-- Whether or not all directories can be made, nothing else is changed. -/
theorem grown_makeDirectories (back : List String) (hdots : ".." ∉ back) (tree : Tree) :
    Grown back.reverse tree (outcome (makeDirectories back) tree).2 := by
  induction back generalizing tree with
  | nil => exact .refl _ _
  | cons name back ih =>
    have hplace : ".." ∉ (name :: back).reverse := mt List.mem_reverse.1 hdots
    have hback := (ih (by simp_all) tree).mono (reverse_prefix_cons name back)
    rw [outcome_makeDirectories_cons]
    split
    · next made hmade => exact grown_makeDirectory hplace hmade
    · generalize outcome (makeDirectories back) tree = ended at hback
      obtain ⟨_ | _, mid⟩ := ended
      · exact hback
      · dsimp only
        split
        · next made hmade => exact hback.trans (grown_makeDirectory hplace hmade)
        · exact hback
    · split
      · exact .refl _ _
      · exact .refl _ _

/-! ## Sound trees -/

/-- A tree in which everything lies in a directory.  The working directory has
no way back in it. -/
structure Sound (tree : Tree) : Prop where
  parent : ∀ place, place ≠ [] → tree.item? place ≠ none →
    tree.item? place.dropLast = some .directory
  plain : ".." ∉ tree.workingDirectory

theorem Sound.rooted (h : tree.Sound) (hitem : tree.item? place ≠ none) : tree.Rooted place := by
  induction place using List.reverseRecOn with
  | nil =>
    intro above habove hne
    exact absurd (List.prefix_nil.1 habove) hne
  | append_singleton place name ih =>
    intro above habove hne
    have hparent : tree.item? place = some .directory := by
      simpa using h.parent (place ++ [name]) (by simp) hitem
    rcases List.prefix_concat_iff.1 habove with rfl | hbefore
    · exact absurd rfl hne
    · by_cases hsame : above = place
      · rw [hsame, hparent]
      · exact ih (by simp [hparent]) above hbefore hsame

/-- The directories on the way to a place are made when no file is in the way
and all names fit. -/
theorem makeDirectories_of_clear (hsound : tree.Sound) {back : List String}
    (hdots : ".." ∉ back) (hfits : Fits back.reverse)
    (hclear : ∀ above, above <+: back.reverse → ∀ bytes, tree.item? above ≠ some (.file bytes)) :
    ∃ after, outcome (makeDirectories back) tree = (.ok (), after) ∧
      ∀ above, above <+: back.reverse → after.item? above = some .directory := by
  induction back with
  | nil =>
    refine ⟨tree, rfl, fun above habove => ?_⟩
    rw [List.prefix_nil.1 habove, item?_nil]
  | cons name back ih =>
    have hplace : ".." ∉ (name :: back).reverse := mt List.mem_reverse.1 hdots
    have hbefore := reverse_prefix_cons name back
    rw [outcome_makeDirectories_cons]
    rcases tree.makeDirectory_cases hplace with
      ⟨hnone, hrooted, hmade⟩ | ⟨hsome, hrooted, hmade⟩ | ⟨hlost, hmade⟩ | ⟨kind, -, -, hbad⟩
    · rw [hmade]
      exact ⟨_, rfl, hrooted.item?_put (by simp)⟩
    · rw [hmade]
      have hdirectory : tree.item? (name :: back).reverse = some .directory := by
        cases hitem : tree.item? (name :: back).reverse with
        | none => exact absurd hitem hsome
        | some item =>
          cases item with
          | file bytes => exact absurd hitem (hclear _ List.prefix_rfl bytes)
          | directory => rfl
      refine ⟨tree, if_pos hdirectory, fun above habove => ?_⟩
      by_cases hsame : above = (name :: back).reverse
      · rw [hsame, hdirectory]
      · exact hrooted above habove hsame
    · obtain ⟨mid, hmid, hdirectories⟩ := ih (by simp_all) (hfits.of_prefix hbefore)
        fun above habove => hclear above (habove.trans hbefore)
      rw [hmade, hmid]
      have hrooted : mid.Rooted (name :: back).reverse := by
        intro above habove hne
        rw [List.reverse_cons] at habove hne
        exact hdirectories above ((List.prefix_concat_iff.1 habove).resolve_left hne)
      have hnone : mid.item? (name :: back).reverse = none := by
        have hgrown := grown_makeDirectories back (by simp_all) tree
        rw [hmid] at hgrown
        have hlonger : ¬(name :: back).reverse <+: back.reverse := by
          intro h
          have hlength := h.length_le
          simp only [List.length_reverse, List.length_cons] at hlength
          omega
        rw [hgrown.item?_of_not_prefix hlonger]
        by_contra hsome
        exact hlost (hsound.rooted hsome)
      dsimp only
      rw [makeDirectory_of_rooted hplace hfits hrooted hnone]
      exact ⟨_, rfl, hrooted.item?_put (by simp)⟩
    · exact absurd ⟨hfits, fun above habove _ => hclear above habove⟩ hbad

/-! ## Writing -/

/-- A file can be written at a place: no directory is there, no file is above it,
and the names fit. -/
structure Writable (tree : Tree) (place : List String) : Prop where
  free : tree.item? place ≠ some .directory
  clear : tree.Clear place
  fits : Fits place

/-- A tree as it is after a file has been written.  Directories that were
missing above the place have been made, and all else is as it was. -/
structure Written (place : List String) (bytes : List UInt8) (tree after : Tree) : Prop where
  workingDirectory : after.workingDirectory = tree.workingDirectory
  file : after.item? place = some (.file bytes)
  above : ∀ other, other <+: place → other ≠ place → after.item? other = some .directory
  others : ∀ other, ¬other <+: place → after.item? other = tree.item? other

theorem outcome_write (path : Path) (bytes : List UInt8) (tree : Tree) :
    outcome (write path bytes) tree =
      match outcome (makeDirectories (path.place tree.workingDirectory).reverse.tail) tree with
      | (.error fault, mid) => (.error fault, mid)
      | (.ok (), mid) =>
          match mid.itemAt? (path.place tree.workingDirectory) with
          | .error kind =>
              (.error ⟨kind, placeText (path.place tree.workingDirectory)⟩, mid)
          | .ok (some .directory) =>
              (.error ⟨.isDirectory, placeText (path.place tree.workingDirectory)⟩, mid)
          | .ok _ => (.ok (), mid.put (path.place tree.workingDirectory) (.file bytes)) := by
  rw [write, outcome_bind, outcome_get]
  simp only [outcome_bind, outcome_get]
  obtain ⟨_ | _, mid⟩ :=
    outcome (makeDirectories (path.place tree.workingDirectory).reverse.tail) tree
  · rfl
  · dsimp only
    rcases mid.itemAt? (path.place tree.workingDirectory) with _ | _ | _ | _ <;> rfl

/-- Two dots in a path are followed, so its place has none. -/
theorem dots_not_mem_place (path : Path) {directory : List String} (h : ".." ∉ directory) :
    ".." ∉ path.place directory := by
  have hfollow : ∀ (names place : List String), ".." ∉ place → ".." ∉ Path.follow place names := by
    intro names
    induction names with
    | nil => exact fun _ hplace => hplace
    | cons name names ih =>
      intro place hplace
      refine ih _ ?_
      dsimp only
      split
      · exact fun hdots => hplace (List.dropLast_subset _ hdots)
      · next hname => simpa [eq_comm] using ⟨hplace, hname⟩
  refine hfollow _ _ ?_
  split
  · exact h
  · simp

theorem reverse_tail_reverse (place : List String) :
    place.reverse.tail.reverse = place.dropLast := by
  rw [List.tail_reverse, List.reverse_reverse]

theorem dots_not_mem_reverse_tail (h : ".." ∉ place) : ".." ∉ place.reverse.tail := by
  rw [← List.mem_reverse, reverse_tail_reverse]
  exact fun hmem => h (List.dropLast_subset _ hmem)

theorem prefix_dropLast_iff (hplace : place ≠ []) :
    above <+: place.dropLast ↔ above <+: place ∧ above ≠ place := by
  have hpositive := List.length_pos_of_ne_nil hplace
  constructor
  · intro h
    refine ⟨h.trans (List.dropLast_prefix _), ?_⟩
    rintro rfl
    have hlength := h.length_le
    rw [List.length_dropLast] at hlength
    omega
  · rintro ⟨habove, hne⟩
    refine List.prefix_of_prefix_length_le habove (List.dropLast_prefix _) ?_
    have hshorter : above.length ≠ place.length := fun heq => hne (habove.eq_of_length heq)
    have hlength := habove.length_le
    rw [List.length_dropLast]
    omega

theorem Writable.ne_nil (h : tree.Writable place) : place ≠ [] := by
  rintro rfl
  exact h.free rfl

/-- The way to a place where a file can be written is made. -/
theorem Writable.makeDirectories (h : tree.Writable place) (hsound : tree.Sound)
    (hdots : ".." ∉ place) :
    ∃ mid, outcome (makeDirectories place.reverse.tail) tree = (.ok (), mid) ∧
      mid.Rooted place := by
  have hplace := h.ne_nil
  obtain ⟨mid, hmid, hdirectories⟩ := makeDirectories_of_clear hsound
    (dots_not_mem_reverse_tail hdots)
    (by rw [reverse_tail_reverse]; exact h.fits.of_prefix (List.dropLast_prefix _))
    (by
      intro above habove
      rw [reverse_tail_reverse, prefix_dropLast_iff hplace] at habove
      exact h.clear above habove.1 habove.2)
  refine ⟨mid, hmid, fun above habove hne => ?_⟩
  rw [reverse_tail_reverse] at hdirectories
  exact hdirectories above ((prefix_dropLast_iff hplace).2 ⟨habove, hne⟩)

/-- A place where a file can be written after directories have been made is one
before. -/
theorem Grown.writable (h : Grown place tree after) (hrooted : after.Rooted place)
    (hfits : Fits place) (hfree : after.item? place ≠ some .directory) : tree.Writable place := by
  refine ⟨fun hdirectory => ?_, fun above habove hne bytes hfile => ?_, hfits⟩
  · rcases h.item place with hsame | ⟨-, hnone, -⟩
    · exact hfree (hsame.trans hdirectory)
    · rw [hdirectory] at hnone
      cases hnone
  · rcases h.item above with hsame | ⟨-, hnone, -⟩
    · rw [← hsame, hrooted above habove hne] at hfile
      cases hfile
    · rw [hfile] at hnone
      cases hnone

theorem Grown.written (h : Grown place tree after) (hrooted : after.Rooted place)
    (hplace : place ≠ []) (bytes : List UInt8) :
    Written place bytes tree (after.put place (.file bytes)) := by
  refine ⟨h.workingDirectory, ?_, fun other hother hne => ?_, fun other hother => ?_⟩
  · rw [item?_put after _ hplace, if_pos rfl]
  · rw [item?_put after _ hplace, if_neg hne, hrooted other hother hne]
  · have hne : other ≠ place := by
      rintro rfl
      exact hother List.prefix_rfl
    rw [item?_put after _ hplace, if_neg hne]
    exact h.item?_of_not_prefix hother

/-- A file is written exactly where it can be.  Otherwise no file is changed, but
some directories on the way may have been made. -/
theorem write_cases (hsound : tree.Sound) (path : Path) (bytes : List UInt8) :
    (tree.Writable (path.place tree.workingDirectory) ∧
        ∃ after, outcome (write path bytes) tree = (.ok (), after) ∧
          Written (path.place tree.workingDirectory) bytes tree after) ∨
      (¬tree.Writable (path.place tree.workingDirectory) ∧
        ∃ fault after, outcome (write path bytes) tree = (.error fault, after) ∧
          Grown (path.place tree.workingDirectory) tree after) := by
  have hdots := dots_not_mem_place path hsound.plain
  rw [outcome_write]
  generalize path.place tree.workingDirectory = place at hdots ⊢
  have hmade := grown_makeDirectories _ (dots_not_mem_reverse_tail hdots) tree
  rw [reverse_tail_reverse] at hmade
  have hgrown := hmade.mono (List.dropLast_prefix place)
  cases hmid : outcome (makeDirectories place.reverse.tail) tree with
  | mk ended mid =>
  rw [hmid] at hgrown hmade
  cases ended with
  | error fault =>
    refine .inr ⟨fun hwritable => ?_, fault, mid, rfl, hgrown⟩
    obtain ⟨_, hok, -⟩ := hwritable.makeDirectories hsound hdots
    rw [hmid] at hok
    cases hok
  | ok _ =>
    have hrooted_of : tree.Writable place → mid.Rooted place := by
      intro hwritable
      obtain ⟨_, hok, hrooted⟩ := hwritable.makeDirectories hsound hdots
      rw [hmid] at hok
      cases hok
      exact hrooted
    dsimp only
    rcases mid.itemAt?_cases hdots with
      ⟨hitem, hfits, hrooted⟩ | ⟨hitem, hlost⟩ | ⟨kind, -, hitem, hbad⟩
    · rw [hitem]
      by_cases hdirectory : mid.item? place = some .directory
      · rw [hdirectory]
        refine .inr ⟨fun hwritable => ?_, _, mid, rfl, hgrown⟩
        have hsame := hmade.item?_of_not_prefix fun habove =>
          ((prefix_dropLast_iff hwritable.ne_nil).1 habove).2 rfl
        exact hwritable.free (hsame.symm.trans hdirectory)
      · have hwritable := hgrown.writable hrooted hfits hdirectory
        refine .inl ⟨hwritable, _, ?_, hgrown.written hrooted hwritable.ne_nil bytes⟩
        rcases hfound : mid.item? place with _ | _ | _
        · rfl
        · rfl
        · exact absurd hfound hdirectory
    · rw [hitem]
      exact .inr ⟨fun hwritable => hlost (hrooted_of hwritable), _, mid, rfl, hgrown⟩
    · rw [hitem]
      refine .inr ⟨fun hwritable => ?_, _, mid, rfl, hgrown⟩
      exact hbad ⟨hwritable.fits, (hrooted_of hwritable).clear⟩

end CallReach.Files.Tree
