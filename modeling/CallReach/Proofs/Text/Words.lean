import Mathlib.Data.List.Chain
import Mathlib.Data.List.TakeWhile
import CallReach.Text.Blank

/-!
# Words

Cutting a text into words and joining words by single spaces.  A text falls
apart at each of its blanks (`words_append_cons`), and joined words are read
back as they are (`words_unwords`).

`Neat` is the form of a joined text: no blank at either end, and single spaces
inside.
-/

namespace CallReach.Text

variable {c : Char} {text run rest word gap : List Char} {ws : List (List Char)}

/-- A word: characters, at least one, and no blank. -/
structure IsWord (word : List Char) : Prop where
  ne_nil : word ≠ []
  solid : ∀ c ∈ word, isBlank c = false

/-! ## Cutting -/

@[simp] theorem words_nil : words [] = [] := by
  rw [words]

theorem words_cons_blank (hc : isBlank c = true) (text : List Char) :
    words (c :: text) = words text := by
  rw [words, if_pos hc]

/-- A word ends at the first blank after it. -/
theorem IsWord.words_append (h : IsWord word) (hrest : ∀ c ∈ rest.head?, isBlank c = true) :
    words (word ++ rest) = word :: words rest := by
  obtain ⟨c, run, rfl⟩ := List.exists_cons_of_ne_nil h.ne_nil
  obtain ⟨hc, hrun⟩ := List.forall_mem_cons.1 h.solid
  have hsolid : ∀ d ∈ run, (!isBlank d) = true := fun d hd => by simp [hrun d hd]
  have htake : rest.takeWhile (!isBlank ·) = [] := by
    cases rest with
    | nil => rfl
    | cons d rest => exact List.takeWhile_cons_of_neg (by simp [hrest d rfl])
  have hdrop : rest.dropWhile (!isBlank ·) = rest := by
    cases rest with
    | nil => rfl
    | cons d rest => exact List.dropWhile_cons_of_neg (by simp [hrest d rfl])
  rw [List.cons_append, words, if_neg (by simp [hc]), List.takeWhile_append_of_pos hsolid,
    List.dropWhile_append_of_pos hsolid, htake, hdrop, List.append_nil]

theorem IsWord.words_eq (h : IsWord word) : words word = [word] := by
  have hnone : ∀ c ∈ ([] : List Char).head?, isBlank c = true := by simp
  simpa using h.words_append hnone

theorem isWord_cons_takeWhile (hc : isBlank c = false) (text : List Char) :
    IsWord (c :: text.takeWhile (!isBlank ·)) := by
  refine ⟨by simp, List.forall_mem_cons.2 ⟨hc, fun d hd => ?_⟩⟩
  simpa using List.mem_takeWhile_imp hd

/-- What a text is cut into are words. -/
theorem isWord_of_mem_words (h : word ∈ words text) : IsWord word := by
  fun_induction words text with
  | case1 => cases h
  | case2 c rest hc ih => exact ih h
  | case3 c rest hc ih =>
    rcases List.mem_cons.1 h with rfl | hlater
    · exact isWord_cons_takeWhile (by simpa using hc) rest
    · exact ih hlater

/-- A text falls apart at a blank. -/
theorem words_append_cons (hc : isBlank c = true) (text more : List Char) :
    words (text ++ c :: more) = words text ++ words more := by
  fun_induction words text with
  | case1 => rw [List.nil_append, words_cons_blank hc, List.nil_append]
  | case2 d rest hd ih => rw [List.cons_append, words_cons_blank hd, ih]
  | case3 d rest hd ih =>
    have hcut : d :: rest ++ c :: more =
        (d :: rest.takeWhile (!isBlank ·)) ++ (rest.dropWhile (!isBlank ·) ++ c :: more) := by
      rw [List.cons_append, List.cons_append, ← List.append_assoc,
        List.takeWhile_append_dropWhile]
    rw [hcut, (isWord_cons_takeWhile (by simpa using hd) rest).words_append ?_, ih,
      List.cons_append]
    intro b hb
    have hhead := List.head?_dropWhile_not (!isBlank ·) rest
    cases hdrop : rest.dropWhile (!isBlank ·) with
    | nil =>
      rw [hdrop] at hb
      obtain rfl : c = b := by simpa using hb
      exact hc
    | cons a as =>
      rw [hdrop] at hb hhead
      obtain rfl : a = b := by simpa using hb
      simpa using hhead

theorem words_append_of_blanks (hgap : ∀ c ∈ gap, isBlank c = true) (text : List Char) :
    words (gap ++ text) = words text := by
  induction gap with
  | nil => rfl
  | cons c gap ih =>
    obtain ⟨hc, hrest⟩ := List.forall_mem_cons.1 hgap
    rw [List.cons_append, words_cons_blank hc, ih hrest]

/-! ## Joining -/

@[simp] theorem unwords_nil : unwords [] = [] := rfl

@[simp] theorem unwords_singleton (word : List Char) : unwords [word] = word :=
  List.intercalate_singleton

theorem unwords_cons_cons (word next : List Char) (ws : List (List Char)) :
    unwords (word :: next :: ws) = word ++ ' ' :: unwords (next :: ws) := by
  simp [unwords, List.intercalate_cons_cons]

/-- What is added to the last word is added to the text. -/
theorem unwords_concat_append (ws : List (List Char)) (word tail : List Char) :
    unwords (ws ++ [word ++ tail]) = unwords (ws ++ [word]) ++ tail := by
  induction ws with
  | nil => simp
  | cons first ws ih =>
    cases ws with
    | nil => simp [unwords_cons_cons]
    | cons next ws =>
      simp only [List.cons_append] at ih
      simp only [List.cons_append, unwords_cons_cons, ih, List.append_assoc]

/-- One more word comes after a space. -/
theorem unwords_concat (hne : ws ≠ []) (word : List Char) :
    unwords (ws ++ [word]) = unwords ws ++ ' ' :: word := by
  obtain ⟨first, ws, rfl⟩ := List.exists_cons_of_ne_nil hne
  induction ws generalizing first with
  | nil => simp [unwords_cons_cons]
  | cons next ws ih =>
    have hlater := ih next (by simp)
    simp only [List.cons_append] at hlater
    simp only [List.cons_append, unwords_cons_cons, hlater, List.append_assoc]

/-- Joined words are read back. -/
theorem words_unwords (h : ∀ w ∈ ws, IsWord w) : words (unwords ws) = ws := by
  induction ws with
  | nil => simp
  | cons word ws ih =>
    obtain ⟨hword, hws⟩ := List.forall_mem_cons.1 h
    cases ws with
    | nil => simpa using hword.words_eq
    | cons next ws =>
      rw [unwords_cons_cons, words_append_cons (by decide), ih hws, hword.words_eq,
        List.singleton_append]

theorem mem_unwords (h : c ∈ unwords ws) :
    c = ' ' ∨ ∃ w ∈ ws, c ∈ w := by
  induction ws with
  | nil => cases h
  | cons word ws ih =>
    cases ws with
    | nil => exact .inr ⟨word, by simp, by simpa using h⟩
    | cons next ws =>
      rw [unwords_cons_cons, List.mem_append, List.mem_cons] at h
      rcases h with hword | rfl | hlater
      · exact .inr ⟨word, by simp, hword⟩
      · exact .inl rfl
      · rcases ih hlater with hspace | ⟨w, hw, hc⟩
        · exact .inl hspace
        · exact .inr ⟨w, List.mem_cons_of_mem _ hw, hc⟩

/-! ## Neat texts -/

/-- A text without blanks at its ends and with single spaces inside. -/
structure Neat (text : List Char) : Prop where
  start : ∀ c ∈ text.head?, isBlank c = false
  stop : ∀ c ∈ text.getLast?, isBlank c = false
  spaces : ∀ c ∈ text, isBlank c = true → c = ' '
  single : text.IsChain fun c d => isBlank c = false ∨ isBlank d = false

theorem IsWord.neat (h : IsWord word) : Neat word where
  start c hc := h.solid c (List.mem_of_mem_head? hc)
  stop c hc := h.solid c (List.mem_of_mem_getLast? hc)
  spaces c hc hblank := by simp [h.solid c hc] at hblank
  single := (List.pairwise_of_forall_mem_list fun c hc _ _ => .inl (h.solid c hc)).isChain

/-- A word, a space and a neat text that is not empty. -/
theorem IsWord.neat_append (h : IsWord word) (hne : rest ≠ []) (hrest : Neat rest) :
    Neat (word ++ ' ' :: rest) where
  start c hc := by
    rw [List.head?_append_of_ne_nil _ h.ne_nil] at hc
    exact h.neat.start c hc
  stop c hc := by
    obtain ⟨first, more, rfl⟩ := List.exists_cons_of_ne_nil hne
    rw [List.getLast?_append_of_ne_nil _ (by simp), List.getLast?_cons_cons] at hc
    exact hrest.stop c hc
  spaces c hc hblank := by
    rcases List.mem_append.1 hc with hword | hlater
    · exact h.neat.spaces c hword hblank
    · rcases List.mem_cons.1 hlater with rfl | hlast
      · rfl
      · exact hrest.spaces c hlast hblank
  single := by
    refine List.isChain_append.2 ⟨h.neat.single, List.isChain_cons.2 ⟨?_, hrest.single⟩, ?_⟩
    · exact fun c hc => .inr (hrest.start c hc)
    · exact fun c hc _ _ => .inl (h.neat.stop c hc)

theorem unwords_ne_nil (hne : ws ≠ []) (h : ∀ w ∈ ws, IsWord w) : unwords ws ≠ [] := by
  intro hnil
  have hread := words_unwords h
  rw [hnil, words_nil] at hread
  exact hne hread.symm

/-- Joined words are neat. -/
theorem neat_unwords (h : ∀ w ∈ ws, IsWord w) : Neat (unwords ws) := by
  induction ws with
  | nil => exact ⟨by simp, by simp, by simp, .nil⟩
  | cons word ws ih =>
    obtain ⟨hword, hws⟩ := List.forall_mem_cons.1 h
    cases ws with
    | nil => simpa using hword.neat
    | cons next ws =>
      rw [unwords_cons_cons]
      exact hword.neat_append (unwords_ne_nil (by simp) hws) (ih hws)

end CallReach.Text
