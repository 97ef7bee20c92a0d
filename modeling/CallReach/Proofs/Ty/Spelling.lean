import CallReach.Ty.Spelling

/-!
# What a spelling denotes

`Ty.ofSpelling` takes the stars off the end of a text that is held backwards.
`Starred` says the same from the front: a text that does not end in a star names
a scalar, and a star at the end, with blanks before it or none, makes a pointer
of what the rest denotes.  `ofSpelling_eq_ok_iff` is the agreement of the two.
-/

namespace CallReach.Ty

open Text

/-- What a text without qualifiers and extra blanks denotes. -/
inductive Starred : List Char → Ty → Prop where
  | scalar {text : List Char} (hne : text ≠ []) (hlast : text.getLast? ≠ some '*') :
      Starred text (.scalar (String.ofList text))
  | pointer {text : List Char} {type : Ty} (blanks : List Char)
      (hblanks : ∀ c ∈ blanks, isBlank c = true) (hlast : ∀ c ∈ text.getLast?, isBlank c = false)
      (h : Starred text type) : Starred (text ++ blanks ++ ['*']) (.pointer type)

/-- What a spelling denotes; qualifiers and extra blanks do not count.  A spelling
of which only stars are left denotes nothing, like an empty one. -/
def Spelled (spelling : String) (type : Ty) : Prop :=
  Starred (normalize spelling.toList) type

theorem pointers_succ (depth : Nat) (base : Ty) :
    pointers (depth + 1) base = .pointer (pointers depth base) := rfl

/-- Without a star at the end nothing is taken off. -/
theorem peelStars_of_last {text : List Char} (h : text.getLast? ≠ some '*') :
    peelStars text.reverse = (0, text.reverse) := by
  rw [← List.head?_reverse] at h
  cases hreverse : text.reverse with
  | nil => simp [peelStars]
  | cons c rest =>
    rw [peelStars]
    rintro rest' ⟨⟩
    simp [hreverse] at h

/-- Blanks at the end of a text are dropped from it. -/
theorem dropWhile_reverse_append {text blanks : List Char}
    (hblanks : ∀ c ∈ blanks, isBlank c = true)
    (hlast : ∀ c ∈ text.getLast?, isBlank c = false) :
    (text ++ blanks).reverse.dropWhile isBlank = text.reverse := by
  rw [List.reverse_append, List.dropWhile_append_of_pos (by simpa using hblanks)]
  rw [← List.head?_reverse] at hlast
  cases hreverse : text.reverse with
  | nil => rfl
  | cons c rest => simp [hlast c (by simp [hreverse])]

/-- Stars are taken off from the end, each with the blanks before it. -/
theorem Starred.peelStars_eq {text : List Char} {type : Ty} (h : Starred text type) :
    ∃ depth base, peelStars text.reverse = (depth, base) ∧ base ≠ [] ∧
      type = pointers depth (.scalar (String.ofList base.reverse)) := by
  induction h with
  | @scalar text hne hlast =>
    refine ⟨0, text.reverse, peelStars_of_last hlast, by simpa using hne, ?_⟩
    rw [List.reverse_reverse]
    rfl
  | @pointer text type blanks hblanks hlast _ ih =>
    obtain ⟨depth, base, hpeel, hbase, rfl⟩ := ih
    refine ⟨depth + 1, base, ?_, hbase, (pointers_succ _ _).symm⟩
    rw [List.reverse_append, List.reverse_singleton, List.singleton_append, peelStars,
      dropWhile_reverse_append hblanks hlast, hpeel]

theorem starred_peelStars (text : List Char) (h : (peelStars text).2 ≠ []) :
    Starred text.reverse
      (pointers (peelStars text).1 (.scalar (String.ofList (peelStars text).2.reverse))) := by
  fun_induction peelStars text with
  | case1 rest depth base hpeel ih =>
    rw [hpeel] at ih
    have hcut : ('*' :: rest).reverse = (rest.dropWhile isBlank).reverse ++
        (rest.takeWhile isBlank).reverse ++ ['*'] := by
      rw [List.reverse_cons, ← List.reverse_append, List.takeWhile_append_dropWhile]
    rw [hcut, pointers_succ]
    refine .pointer _ (fun c hc => ?_) (fun c hc => ?_) (ih h)
    · exact List.all_eq_true.1 List.all_takeWhile c (List.mem_reverse.1 hc)
    · have hhead := List.head?_dropWhile_not isBlank rest
      rw [List.getLast?_reverse] at hc
      rwa [hc] at hhead
  | case2 base hstar =>
    refine .scalar (by simpa using h) fun hlast => ?_
    rw [List.getLast?_reverse] at hlast
    obtain ⟨rest, hrest⟩ := List.head?_eq_some_iff.1 hlast
    exact hstar rest hrest

/-- The type of a spelling is the one that it denotes, if there is one. -/
theorem ofSpelling_eq_ok_iff {spelling : String} {type : Ty} :
    ofSpelling spelling = .ok type ↔ Spelled spelling type := by
  constructor
  · intro h
    unfold ofSpelling at h
    dsimp only at h
    split at h
    · cases h
    · rename_i hbase
      cases h
      have hstarred := starred_peelStars (normalize spelling.toList).reverse (by simpa using hbase)
      rwa [List.reverse_reverse] at hstarred
  · intro h
    obtain ⟨depth, base, hpeel, hbase, rfl⟩ := Starred.peelStars_eq h
    simp [ofSpelling, hpeel, hbase]

end CallReach.Ty
