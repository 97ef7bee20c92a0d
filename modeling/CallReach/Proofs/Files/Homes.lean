import CallReach.Files.Path

/-!
# Paths that start at a home directory

`Path.Leads` says where a path leads when the home directories of users are known: a
path that does not start with a tilde leads where it is, and another one to the home
directory of the user whose name follows the tilde.

`Path.expandUser_eq_ok_iff` is the result.  A path that leads nowhere is one of a
user whose home directory is not known.
-/

namespace CallReach.Files

/-- The text without the slashes at its end. -/
def Trimmed (text trimmed : List Char) : Prop :=
  trimmed.getLast? ≠ some '/' ∧ ∃ count, text = trimmed ++ List.replicate count '/'

theorem trimmed_iff {text trimmed : List Char} :
    Trimmed text trimmed ↔ (text.reverse.dropWhile (· = '/')).reverse = trimmed := by
  constructor
  · rintro ⟨hlast, count, rfl⟩
    rw [List.reverse_append, List.reverse_replicate, List.dropWhile_append_of_pos (by simp),
      List.reverse_eq_iff]
    cases hback : trimmed.reverse with
    | nil => rfl
    | cons c back =>
      refine List.dropWhile_cons_of_neg ?_
      rw [← List.head?_reverse, hback] at hlast
      simpa using hlast
  · rintro rfl
    refine ⟨?_, (text.reverse.takeWhile (· = '/')).length, ?_⟩
    · rw [List.getLast?_reverse]
      intro hhead
      have hnot := List.head?_dropWhile_not (· = '/') text.reverse
      simp [hhead] at hnot
    · have hslashes : text.reverse.takeWhile (· = '/') =
          List.replicate (text.reverse.takeWhile (· = '/')).length '/' :=
        List.eq_replicate_iff.2 ⟨rfl, fun c hc => by
          simpa using List.all_eq_true.1 List.all_takeWhile c hc⟩
      rw [← List.reverse_replicate, ← hslashes, ← List.reverse_append,
        List.takeWhile_append_dropWhile, List.reverse_reverse]

namespace Path

variable {homes : Homes} {path other : Path}

/-- The other path is where the path leads.  A home directory is known by an
absolute or a relative path that starts at no other home directory. -/
inductive Leads (homes : Homes) : Path → Path → Prop where
  | itself {path : Path} (hplain : ∀ user names, path ≠ ⟨"", ("~" ++ user) :: names⟩) :
      Leads homes path path
  | home {user home : String} {names : List String} {directory : List Char}
      (hnull : '\x00' ∉ user.toList) (hhome : homes user = some home)
      (hdirectory : Trimmed home.toList directory) (hstart : directory.head? ≠ some '~') :
      Leads homes ⟨"", ("~" ++ user) :: names⟩
        ⟨(parse (if directory = [] then "/" else String.ofList directory)).root,
          (parse (if directory = [] then "/" else String.ofList directory)).names ++ names⟩

theorem user?_eq_some_iff {user : List Char} :
    path.user? = some user ↔
      ∃ names, path = ⟨"", ("~" ++ String.ofList user) :: names⟩ := by
  constructor
  · intro h
    unfold user? at h
    split at h
    · next name names hroot hnames =>
      split at h
      · next rest hname =>
        cases h
        refine ⟨names, ?_⟩
        obtain ⟨root, _⟩ := path
        cases hroot
        cases hnames
        rw [← String.ofList_toList (s := name), hname]
        simp
      · cases h
    · cases h
  · rintro ⟨names, rfl⟩
    simp [user?]

section

variable {home : String} {directory : List Char}

theorem ofList_homeText (h : Trimmed home.toList directory) :
    String.ofList (homeText home) = if directory = [] then "/" else String.ofList directory := by
  rw [homeText, trimmed_iff.1 h]
  cases directory <;> rfl

theorem head?_homeText (h : Trimmed home.toList directory) :
    (homeText home).head? = some '~' ↔ directory.head? = some '~' := by
  rw [homeText, trimmed_iff.1 h]
  cases directory <;> simp

end

/-- A path is replaced by the one that it leads to. -/
theorem expandUser_eq_ok_iff : path.expandUser homes = .ok other ↔ Leads homes path other := by
  constructor
  · intro h
    unfold expandUser at h
    split at h
    · next hnone =>
      cases h
      refine .itself fun user names hpath => ?_
      have huser : path.user? = some user.toList :=
        user?_eq_some_iff.2 ⟨names, by simpa using hpath⟩
      rw [huser] at hnone
      cases hnone
    · next user huser =>
      obtain ⟨names, rfl⟩ := user?_eq_some_iff.1 huser
      split at h
      · cases h
      · next hnull =>
        split at h
        · cases h
        · cases h
        · next text hstart htext =>
          cases h
          obtain ⟨home, hhome, rfl⟩ := Option.map_eq_some_iff.1 htext
          have htrimmed := trimmed_iff.2 (Eq.refl (home.toList.reverse.dropWhile (· = '/')).reverse)
          rw [ofList_homeText htrimmed]
          refine .home (by simpa using hnull) hhome htrimmed fun hhead => ?_
          obtain ⟨rest, hrest⟩ := List.head?_eq_some_iff.1 ((head?_homeText htrimmed).2 hhead)
          exact hstart rest hrest
  · intro h
    cases h with
    | itself hplain =>
      have hnone : path.user? = none := by
        rw [Option.eq_none_iff_forall_ne_some]
        intro user huser
        obtain ⟨names, hpath⟩ := user?_eq_some_iff.1 huser
        exact hplain _ _ hpath
      rw [expandUser, hnone]
    | @home user home names directory hnull hhome hdirectory hstart =>
      have huser : user? ⟨"", ("~" ++ user) :: names⟩ = some user.toList :=
        user?_eq_some_iff.2 ⟨names, by simp⟩
      rw [expandUser, huser]
      dsimp only
      rw [if_neg (by simpa using hnull), String.ofList_toList, hhome, Option.map_some]
      split
      · next h => cases h
      · next h =>
        have hhome := Option.some.inj h
        exact absurd ((head?_homeText hdirectory).1 (by rw [hhome]; rfl)) hstart
      · next h =>
        cases h
        rw [ofList_homeText hdirectory]
        rfl

/-- A path leads to one place at most. -/
theorem Leads.unique {another : Path} (h : Leads homes path other)
    (hanother : Leads homes path another) : other = another := by
  have hother := expandUser_eq_ok_iff.2 h
  rw [expandUser_eq_ok_iff.2 hanother] at hother
  exact (Except.ok.inj hother).symm

end Path

end CallReach.Files
