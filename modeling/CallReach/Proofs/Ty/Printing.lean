import Mathlib
import CallReach.Proofs.Text.Words
import CallReach.Proofs.Ty.Spelling

/-!
# Spelled types and their text

The type of a spelling is a chain of pointers to a scalar, and its text is a
spelling of it again.  The second reading meets other words than the first one.
Taking the stars off may leave a qualifier at the end of the name, and in the text
the stars stand right behind it.

* `Named` says which words make a name below a number of stars.
* `Starred.exists_words` follows the stars from the end of a text of words.  Each
  of them is cut off the last word or is the last word, so all words of the name
  but its last one were words of the text.
* `Named.ofSpelling_text` reads the text of such a type.
-/

namespace CallReach.Ty

open Text

variable {depth : Nat} {text blanks other : List Char} {ws : List (List Char)} {type : Ty}

/-! ## Texts before stars -/

/-- Blanks at the end of a text are told from it. -/
theorem eq_of_append_blanks {more : List Char} (hblanks : ∀ c ∈ blanks, isBlank c = true)
    (hlast : ∀ c ∈ text.getLast?, isBlank c = false)
    (hmore : ∀ c ∈ more, isBlank c = true)
    (hother : ∀ c ∈ other.getLast?, isBlank c = false)
    (h : text ++ blanks = other ++ more) : text = other := by
  have htext := dropWhile_reverse_append hblanks hlast
  rw [h, dropWhile_reverse_append hmore hother] at htext
  exact (List.reverse_injective htext).symm

theorem Starred.ne_nil (h : Starred text type) : text ≠ [] := by
  cases h with
  | scalar hne _ => exact hne
  | pointer => simp

/-- Stars after a text make pointers. -/
theorem starred_append_replicate (hne : text ≠ []) (hstar : text.getLast? ≠ some '*')
    (hlast : ∀ c ∈ text.getLast?, isBlank c = false) (depth : Nat) :
    Starred (text ++ List.replicate depth '*') (pointers depth (.scalar (String.ofList text))) := by
  induction depth with
  | zero =>
    rw [List.replicate_zero, List.append_nil]
    exact .scalar hne hstar
  | succ depth ih =>
    have hbefore : ∀ c ∈ (text ++ List.replicate depth '*').getLast?, isBlank c = false := by
      cases depth with
      | zero => simpa using hlast
      | succ depth =>
        intro c hc
        rw [List.replicate_succ', ← List.append_assoc, List.getLast?_concat] at hc
        obtain rfl : '*' = c := by simpa using hc
        rfl
    have hpointer := Starred.pointer [] (by simp) hbefore ih
    rw [List.append_nil, List.append_assoc, ← List.replicate_succ'] at hpointer
    exact hpointer

/-! ## Names -/

/-- The words of a name below a number of stars.  Only the last one may be a
qualifier, where a star follows it. -/
structure Named (depth : Nat) (ws : List (List Char)) : Prop where
  ne_nil : ws ≠ []
  isWord : ∀ w ∈ ws, IsWord w
  last : (unwords ws).getLast? ≠ some '*'
  front : ∀ w ∈ ws.dropLast, w ∉ qualifiers
  alone : depth = 0 → ∀ w ∈ ws, w ∉ qualifiers

/-- The last star of a joined text is cut off its last word, or is its last word. -/
theorem unwords_eq_append_star (hws : ∀ w ∈ ws, IsWord w) (htext : text ≠ [])
    (hblanks : ∀ c ∈ blanks, isBlank c = true) (hlast : ∀ c ∈ text.getLast?, isBlank c = false)
    (h : text ++ blanks ++ ['*'] = unwords ws) :
    ∃ vs, text = unwords vs ∧ (∀ w ∈ vs, IsWord w) ∧ vs.dropLast ⊆ ws.dropLast := by
  have hne : ws ≠ [] := by
    rintro rfl
    simp at h
  obtain ⟨init, word, rfl⟩ := List.eq_nil_or_concat' ws |>.resolve_left hne
  obtain ⟨hinit, hword⟩ := List.forall_mem_append.1 hws
  have hlastWord : IsWord word := hword word (by simp)
  obtain ⟨body, c, rfl⟩ := List.eq_nil_or_concat' word |>.resolve_left hlastWord.ne_nil
  rw [unwords_concat_append] at h
  obtain ⟨hbody, -⟩ := List.append_inj' h rfl
  by_cases hempty : body = []
  · -- The star is a word of its own, and a space stands before it.
    subst hempty
    have hbefore : init ≠ [] := by
      rintro rfl
      rw [List.nil_append, unwords_singleton] at hbody
      exact htext (List.append_eq_nil_iff.1 hbody).1
    rw [unwords_concat hbefore] at hbody
    have hspace : ∀ c ∈ [' '], isBlank c = true := List.forall_mem_singleton.2 rfl
    refine ⟨init, eq_of_append_blanks hblanks hlast hspace (neat_unwords hinit).stop hbody,
      hinit, ?_⟩
    rw [List.dropLast_concat]
    exact List.dropLast_subset init
  · have hcut : ∀ w ∈ init ++ [body], IsWord w := by
      refine List.forall_mem_append.2 ⟨hinit, List.forall_mem_singleton.2 ⟨hempty, fun d hd => ?_⟩⟩
      exact hlastWord.solid d (List.mem_append_left _ hd)
    have hnone : text ++ blanks = unwords (init ++ [body]) ++ [] := by simpa using hbody
    refine ⟨init ++ [body],
      eq_of_append_blanks hblanks hlast (by simp) (neat_unwords hcut).stop hnone, hcut, ?_⟩
    rw [List.dropLast_concat, List.dropLast_concat]
    exact List.Subset.refl _

/-- A text of words that denotes a type names a scalar by words, of which all but
the last are words of the text. -/
theorem Starred.exists_words (h : Starred text type) (htext : text = unwords ws)
    (hws : ∀ w ∈ ws, IsWord w) :
    ∃ depth vs, type = pointers depth (.scalar (String.ofList (unwords vs))) ∧ vs ≠ [] ∧
      (∀ w ∈ vs, IsWord w) ∧ (unwords vs).getLast? ≠ some '*' ∧ vs.dropLast ⊆ ws.dropLast ∧
      (depth = 0 → vs = ws) := by
  induction h generalizing ws with
  | @scalar text hne hlast =>
    subst htext
    refine ⟨0, ws, rfl, ?_, hws, hlast, List.Subset.refl _, fun _ => rfl⟩
    rintro rfl
    exact hne rfl
  | @pointer text type blanks hblanks hlast h ih =>
    obtain ⟨before, hbefore, hwords, hsubset⟩ :=
      unwords_eq_append_star hws h.ne_nil hblanks hlast htext
    obtain ⟨depth, vs, rfl, hne, hvs, hstar, hfront, -⟩ := ih hbefore hwords
    exact ⟨depth + 1, vs, rfl, hne, hvs, hstar, List.Subset.trans hfront hsubset, by simp⟩

/-- Every spelled type is named by words. -/
theorem exists_named_of_ofSpelling {spelling : String} (h : ofSpelling spelling = .ok type) :
    ∃ depth ws, Named depth ws ∧ type = pointers depth (.scalar (String.ofList (unwords ws))) := by
  have hstarred : Starred (normalize spelling.toList) type := ofSpelling_eq_ok_iff.1 h
  rw [normalize] at hstarred
  generalize hkept : (words spelling.toList).filter (fun word => !qualifiers.contains word) = kept
    at hstarred
  have hwords : ∀ w ∈ kept, IsWord w ∧ w ∉ qualifiers := by
    intro w hw
    rw [← hkept, List.mem_filter] at hw
    exact ⟨isWord_of_mem_words hw.1, by simpa using hw.2⟩
  obtain ⟨depth, vs, htype, hne, hvs, hstar, hfront, halone⟩ :=
    hstarred.exists_words rfl fun w hw => (hwords w hw).1
  refine ⟨depth, vs, ⟨hne, hvs, hstar, fun w hw => ?_, fun hdepth w hw => ?_⟩, htype⟩
  · exact (hwords w (List.dropLast_subset _ (hfront hw))).2
  · rw [halone hdepth] at hw
    exact (hwords w hw).2

/-! ## Reading the text again -/

theorem toList_text_pointers (depth : Nat) (name : List Char) :
    (pointers depth (.scalar (String.ofList name))).text.toList =
      name ++ List.replicate depth '*' := by
  induction depth with
  | zero => simp [pointers, Nat.repeat, text]
  | succ depth ih =>
    rw [pointers_succ, text, String.toList_append, ih, List.replicate_succ', List.append_assoc]
    rfl

theorem star_not_mem_of_mem_qualifiers {word : List Char} (h : word ∈ qualifiers) :
    '*' ∉ word := by
  revert word
  decide

/-- In the text of a type with such a name every word counts: a qualifier at the
end of the name is one word with the stars. -/
theorem Named.normalize_text (h : Named depth ws) :
    normalize (unwords ws ++ List.replicate depth '*') =
      unwords ws ++ List.replicate depth '*' := by
  obtain ⟨init, word, rfl⟩ := List.eq_nil_or_concat' ws |>.resolve_left h.ne_nil
  obtain ⟨hinit, hword⟩ := List.forall_mem_append.1 h.isWord
  have hlast : IsWord word := hword word (by simp)
  have hstars : IsWord (word ++ List.replicate depth '*') := by
    refine ⟨by simp [hlast.ne_nil], List.forall_mem_append.2 ⟨hlast.solid, fun c hc => ?_⟩⟩
    rw [List.eq_of_mem_replicate hc]
    rfl
  have hcounts : word ++ List.replicate depth '*' ∉ qualifiers := by
    cases depth with
    | zero => simpa using h.alone rfl word (by simp)
    | succ depth =>
      exact fun hmem => star_not_mem_of_mem_qualifiers hmem (by simp [List.replicate_succ])
  have hfront : ∀ w ∈ init, w ∉ qualifiers := by simpa using h.front
  have hall : ∀ w ∈ init ++ [word ++ List.replicate depth '*'], w ∉ qualifiers :=
    List.forall_mem_append.2 ⟨hfront, List.forall_mem_singleton.2 hcounts⟩
  rw [← unwords_concat_append, normalize, words_unwords, List.filter_eq_self.2]
  · exact fun w hw => by simpa using hall w hw
  · exact List.forall_mem_append.2 ⟨hinit, List.forall_mem_singleton.2 hstars⟩

/-- The text of a type with such a name is a spelling of it. -/
theorem Named.ofSpelling_text (h : Named depth ws) :
    ofSpelling (pointers depth (.scalar (String.ofList (unwords ws)))).text =
      .ok (pointers depth (.scalar (String.ofList (unwords ws)))) := by
  refine ofSpelling_eq_ok_iff.2 ?_
  rw [Spelled, toList_text_pointers, h.normalize_text]
  exact starred_append_replicate (unwords_ne_nil h.ne_nil h.isWord) h.last
    (neat_unwords h.isWord).stop depth

/-- The type of a spelling is a chain of pointers to a scalar.  The name of the
scalar is not empty, is neat and does not end in a star, and the text of the type
is read as the type again. -/
theorem ofSpelling_stable {spelling : String} (h : ofSpelling spelling = .ok type) :
    (∃ depth name, type = pointers depth (.scalar (String.ofList name)) ∧ name ≠ [] ∧
        Neat name ∧ name.getLast? ≠ some '*') ∧
      ofSpelling type.text = .ok type := by
  obtain ⟨depth, ws, hnamed, rfl⟩ := exists_named_of_ofSpelling h
  refine ⟨⟨depth, unwords ws, rfl, ?_, ?_, hnamed.last⟩, hnamed.ofSpelling_text⟩
  · exact unwords_ne_nil hnamed.ne_nil hnamed.isWord
  · exact neat_unwords hnamed.isWord

/-- Of two qualifiers the first one does not count, and the second one touches a
star and is left at the end of the name. -/
theorem ofSpelling_stable_const :
    ofSpelling "const  char const* *" = .ok (pointers 2 (.scalar "char const")) ∧
      (pointers 2 (.scalar "char const")).text = "char const**" ∧
      ofSpelling "char const**" = .ok (pointers 2 (.scalar "char const")) := by
  have hread : ofSpelling "const  char const* *" = .ok (pointers 2 (.scalar "char const")) := by
    cbv
  exact ⟨hread, by decide, (ofSpelling_stable hread).2⟩

end CallReach.Ty
