import Mathlib.Data.List.TakeWhile
import CallReach.CommandLine.Arguments
import CallReach.Proofs.Outcome
import CallReach.Proofs.Table

/-!
# Words of a command line

What an argument is on its own.  An argument names an option by a spelling that it
gives in full, or else by the only spelling that it can stand for, and it may bring a
text with it.  A text that is attached to a short option is the value of the option,
or the letters of more short options.  An argument that can stand for no option is
plain if it does not look like one.

* `Names` and `Plain` say this of an argument, and `Carries` of an attached text.
* `mem_candidates_iff` and `spelledOut?_eq_some_iff` are about the two ways of naming
  an option.

The results are `classify_eq_plain_iff` and `optionWord_iff`.
-/

namespace CallReach.CommandLine

variable {chars start : List Char} {attached : Option String} {spelling : String} {flag : Flag}

/-! ## Spellings -/

namespace Flag

theorem mem_table_iff : (spelling, flag) ∈ table ↔ spelling ∈ flag.spellings := by
  have hall : flag ∈ all := by cases flag <;> decide
  simp only [table, List.mem_flatMap, List.mem_map, Prod.mk.injEq]
  constructor
  · rintro ⟨flag, -, spelling, hspelling, rfl, rfl⟩
    exact hspelling
  · intro hspelling
    exact ⟨flag, hall, spelling, hspelling, rfl, rfl⟩

/-- No two options share a spelling. -/
theorem nodup_table : (table.map (·.1)).Nodup := by decide

theorem ofSpelling?_eq_some_iff : ofSpelling? spelling = some flag ↔ spelling ∈ flag.spellings := by
  rw [← mem_table_iff]
  exact ⟨Table.mem_of_lookup, Table.lookup_of_mem nodup_table⟩

/-- A spelling has a dash, something else and no equals sign. -/
theorem spelling_shape (h : spelling ∈ flag.spellings) :
    '=' ∉ spelling.toList ∧ ∃ c rest, spelling.toList = '-' :: c :: rest := by
  have hall : ∀ entry ∈ table, '=' ∉ entry.1.toList ∧ entry.1.toList.head? = some '-' ∧
      1 < entry.1.toList.length := by
    decide
  obtain ⟨hequals, hhead, hlength⟩ := hall _ (mem_table_iff.2 h)
  refine ⟨hequals, ?_⟩
  dsimp only at hhead hlength
  generalize spelling.toList = chars at hhead hlength
  rcases chars with _ | ⟨a, _ | ⟨c, rest⟩⟩
  · cases hhead
  · simp at hlength
  · exact ⟨c, rest, by simpa using hhead⟩

theorem eq_of_mem_spellings {other : Flag} (h : spelling ∈ flag.spellings)
    (hother : spelling ∈ other.spellings) : flag = other := by
  have hflag := ofSpelling?_eq_some_iff.2 h
  rw [ofSpelling?_eq_some_iff.2 hother] at hflag
  exact (Option.some.inj hflag).symm

end Flag

/-! ## Equals signs -/

/-- An argument is a start without an equals sign, alone or with an equals sign
and a text after it. -/
def Cut (chars start : List Char) (attached : Option String) : Prop :=
  '=' ∉ start ∧ chars = start ++ attached.elim [] fun text => '=' :: text.toList

theorem Cut.start_eq (h : Cut chars start attached) : start = chars.takeWhile (· ≠ '=') := by
  obtain ⟨hstart, rfl⟩ := h
  rw [List.takeWhile_append_of_pos (by
    intro c hc
    simp only [ne_eq, decide_not, Bool.not_eq_true', decide_eq_false_iff_not]
    rintro rfl
    exact hstart hc)]
  cases attached <;> simp

theorem Cut.unique {other : List Char} {text : Option String} (h : Cut chars start attached)
    (hother : Cut chars other text) : start = other ∧ attached = text := by
  obtain rfl : start = other := h.start_eq.trans hother.start_eq.symm
  refine ⟨rfl, ?_⟩
  have hends := List.append_cancel_left (h.2.symm.trans hother.2)
  cases attached <;> cases text <;> simp_all [String.toList_inj]

theorem splitEquals?_eq_some_iff {value : String} :
    splitEquals? chars = some (spelling, value) ↔ Cut chars spelling.toList (some value) := by
  unfold splitEquals?
  constructor
  · intro h
    split at h
    · cases h
    · next c value hdrop =>
      cases h
      have hc : c = '=' := by
        have hhead := List.head?_dropWhile_not (· ≠ '=') chars
        rw [hdrop] at hhead
        simpa using hhead
      subst hc
      rw [Cut, String.toList_ofList, Option.elim_some, String.toList_ofList, ← hdrop]
      refine ⟨fun hmem => ?_, List.takeWhile_append_dropWhile.symm⟩
      simpa using List.mem_takeWhile_imp hmem
  · intro h
    have hdrop : chars.dropWhile (· ≠ '=') = '=' :: value.toList := by
      have hchars := List.takeWhile_append_dropWhile (p := (· ≠ '=')) (l := chars)
      rw [← h.start_eq] at hchars
      exact List.append_cancel_left (hchars.trans h.2)
    rw [hdrop, ← h.start_eq]
    simp

theorem cut_of_splitEquals?_eq_none (h : splitEquals? chars = none) : Cut chars chars none := by
  refine ⟨fun hmem => ?_, (List.append_nil chars).symm⟩
  unfold splitEquals? at h
  split at h
  · next hdrop =>
    rw [← List.takeWhile_append_dropWhile (p := (· ≠ '=')) (l := chars), hdrop,
      List.append_nil] at hmem
    simpa using List.mem_takeWhile_imp hmem
  · cases h

/-! ## Spellings in full -/

theorem optionWord?_eq_some_iff {word : Word} :
    optionWord? spelling attached = some word ↔ ∃ flag : Flag, spelling ∈ flag.spellings ∧
      word = .option flag (isLongSpelling spelling) attached := by
  simp only [optionWord?, Option.map_eq_some_iff, Flag.ofSpelling?_eq_some_iff,
    eq_comm (b := word)]

theorem cut_of_spelling (h : String.ofList chars ∈ flag.spellings) : Cut chars chars none := by
  refine ⟨?_, (List.append_nil chars).symm⟩
  simpa using (Flag.spelling_shape h).1

/-- An argument spells an option in full, alone or with a text after an equals
sign. -/
theorem spelledOut?_eq_some_iff {word : Word} :
    spelledOut? chars = some word ↔ ∃ flag spelling attached, spelling ∈ flag.spellings ∧
      Cut chars spelling.toList attached ∧
      word = .option flag (isLongSpelling spelling) attached := by
  unfold spelledOut?
  cases hfull : optionWord? (String.ofList chars) none with
  | some found =>
    obtain ⟨flag, hflag, rfl⟩ := optionWord?_eq_some_iff.1 hfull
    constructor
    · rintro ⟨⟩
      exact ⟨flag, _, none, hflag, by simpa using cut_of_spelling hflag, rfl⟩
    · rintro ⟨other, spelling, attached, hother, hcut, rfl⟩
      obtain ⟨hsame, rfl⟩ := hcut.unique (cut_of_spelling hflag)
      subst hsame
      rw [String.ofList_toList] at hflag ⊢
      rw [Flag.eq_of_mem_spellings hother hflag]
      rfl
  | none =>
    constructor
    · intro h
      obtain ⟨⟨spelling, text⟩, hsplit, hword⟩ := Option.bind_eq_some_iff.1 h
      obtain ⟨flag, hflag, rfl⟩ := optionWord?_eq_some_iff.1 hword
      exact ⟨flag, spelling, some text, hflag, splitEquals?_eq_some_iff.1 hsplit, rfl⟩
    · rintro ⟨flag, spelling, attached, hflag, hcut, rfl⟩
      cases attached with
      | none =>
        obtain rfl : chars = spelling.toList := by simpa using hcut.2
        rw [String.ofList_toList, optionWord?_eq_some_iff.2 ⟨flag, hflag, rfl⟩] at hfull
        cases hfull
      | some text =>
        refine Option.bind_eq_some_iff.2 ⟨_, splitEquals?_eq_some_iff.2 hcut, ?_⟩
        exact optionWord?_eq_some_iff.2 ⟨flag, hflag, rfl⟩

/-! ## Spellings that are meant -/

/-- An argument that can stand for a spelling without giving it in full: the start
of a long one, or a short one with a text right after it. -/
inductive StandsFor (chars : List Char) : String → Option String → Prop where
  | start {start : List Char} {spelling : String} {attached : Option String}
      (hcut : Cut chars start attached) (hlong : ['-', '-'] <+: start)
      (hstart : start <+: spelling.toList) : StandsFor chars spelling attached
  | letter {c : Char} {text : List Char} (hchars : chars = '-' :: c :: text) :
      StandsFor chars (String.ofList ['-', c]) (some (String.ofList text))

/-- The option that an argument names, and the text that it brings with it: the one
whose spelling it gives in full, or else the only one that it can stand for. -/
inductive Names (chars : List Char) (flag : Flag) (spelling : String) (attached : Option String) :
    Prop where
  | full (hspelling : spelling ∈ flag.spellings) (hcut : Cut chars spelling.toList attached)
  | only (hspelling : spelling ∈ flag.spellings) (hstands : StandsFor chars spelling attached)
      (hnot : ∀ (other : Flag), ∀ name ∈ other.spellings, ∀ text, ¬Cut chars name.toList text)
      (honly : ∀ (other : Flag), ∀ name ∈ other.spellings, ∀ text, StandsFor chars name text →
        name = spelling)

theorem two_dashes_not_mem : "--" ∉ flag.spellings := by
  cases flag <;> decide

theorem isLongSpelling_iff : isLongSpelling spelling = true ↔ ['-', '-'] <+: spelling.toList :=
  List.isPrefixOf_iff_prefix

theorem Cut.two_dashes {rest : List Char} (h : Cut ('-' :: '-' :: rest) start attached) :
    ['-', '-'] <+: start := by
  rw [h.start_eq]
  simp

theorem mem_completions_iff :
    (spelling, flag) ∈ completions (String.ofList start) ↔
      spelling ∈ flag.spellings ∧ start <+: spelling.toList := by
  simp [completions, List.mem_filter, Flag.mem_table_iff]

theorem candidates_long (rest : List Char) :
    ∃ start attached, Cut ('-' :: '-' :: rest) start attached ∧
      candidates ('-' :: '-' :: rest) = (completions (String.ofList start)).map fun entry =>
        (entry.1, .option entry.2 true attached) := by
  cases hsplit : splitEquals? ('-' :: '-' :: rest) with
  | none => exact ⟨_, none, cut_of_splitEquals?_eq_none hsplit, by simp [candidates, hsplit]⟩
  | some parts =>
    exact ⟨parts.1.toList, some parts.2, splitEquals?_eq_some_iff.1 hsplit,
      by simp [candidates, hsplit]⟩

theorem candidates_short {c : Char} (hc : c ≠ '-') (rest : List Char) :
    candidates ('-' :: c :: rest) =
      ((optionWord? (String.ofList ['-', c]) (some (String.ofList rest))).map fun word =>
        (String.ofList ['-', c], word)).toList := by
  unfold candidates
  split
  · next heq =>
    cases heq
    exact absurd rfl hc
  · simp only [List.take, List.drop]
    cases optionWord? (String.ofList ['-', c]) (some (String.ofList rest)) <;> rfl

/-- The candidates are the options that an argument can stand for. -/
theorem mem_candidates_iff {c : Char} {rest : List Char} {word : Word} :
    (spelling, word) ∈ candidates ('-' :: c :: rest) ↔
      ∃ flag attached, spelling ∈ flag.spellings ∧
        StandsFor ('-' :: c :: rest) spelling attached ∧
        word = .option flag (isLongSpelling spelling) attached := by
  by_cases hc : c = '-'
  · subst hc
    obtain ⟨start, attached, hcut, hcandidates⟩ := candidates_long rest
    simp only [hcandidates, List.mem_map, Prod.exists, mem_completions_iff, Prod.mk.injEq]
    constructor
    · rintro ⟨spelling, flag, ⟨hspelling, hstart⟩, rfl, rfl⟩
      refine ⟨flag, attached, hspelling, .start hcut hcut.two_dashes hstart, ?_⟩
      rw [isLongSpelling_iff.2 (hcut.two_dashes.trans hstart)]
    · rintro ⟨flag, text, hspelling, hstands, rfl⟩
      cases hstands with
      | start hother hlong hstart =>
        obtain ⟨rfl, rfl⟩ := hother.unique hcut
        refine ⟨spelling, flag, ⟨hspelling, hstart⟩, rfl, ?_⟩
        rw [isLongSpelling_iff.2 (hlong.trans hstart)]
      | letter hchars =>
        cases hchars
        exact absurd hspelling two_dashes_not_mem
  · simp only [candidates_short hc, Option.mem_toList, Option.map_eq_some_iff,
      optionWord?_eq_some_iff, Prod.mk.injEq]
    constructor
    · rintro ⟨word, ⟨flag, hspelling, rfl⟩, rfl, rfl⟩
      exact ⟨flag, _, hspelling, .letter rfl, rfl⟩
    · rintro ⟨flag, attached, hspelling, hstands, rfl⟩
      cases hstands with
      | start hcut hlong =>
        obtain ⟨more, rfl⟩ := hlong
        have hchars := hcut.2
        simp only [List.cons_append, List.nil_append, List.cons.injEq] at hchars
        exact absurd hchars.2.1 hc
      | letter hchars =>
        cases hchars
        exact ⟨_, ⟨flag, hspelling, rfl⟩, rfl, rfl⟩

/-- No spelling is a candidate twice. -/
theorem nodup_candidates (c : Char) (rest : List Char) :
    ((candidates ('-' :: c :: rest)).map (·.1)).Nodup := by
  by_cases hc : c = '-'
  · subst hc
    obtain ⟨start, attached, -, hcandidates⟩ := candidates_long rest
    rw [hcandidates, List.map_map]
    exact (List.filter_sublist.map _).nodup Flag.nodup_table
  · rw [candidates_short hc]
    cases optionWord? (String.ofList ['-', c]) (some (String.ofList rest)) <;> simp

/-- The only candidate. -/
theorem candidates_eq_singleton_iff {c : Char} {rest : List Char} {word : Word} :
    candidates ('-' :: c :: rest) = [(spelling, word)] ↔
      (spelling, word) ∈ candidates ('-' :: c :: rest) ∧
        ∀ entry ∈ candidates ('-' :: c :: rest), entry.1 = spelling := by
  have hnodup := nodup_candidates c rest
  generalize candidates ('-' :: c :: rest) = entries at hnodup ⊢
  constructor
  · rintro rfl
    simp
  · rintro ⟨hmem, honly⟩
    rcases entries with _ | ⟨first, _ | ⟨second, others⟩⟩
    · cases hmem
    · rw [List.mem_singleton.1 hmem]
    · have hfirst := honly first List.mem_cons_self
      have hsecond := honly second (List.mem_cons_of_mem _ List.mem_cons_self)
      simp [hfirst, hsecond] at hnodup

/-! ## Arguments on their own -/

/-- An argument that is no option and does not look like one: it does not start
with a dash, or is a dash alone, or is a negative number, or has a space. -/
def Plain (argument : String) : Prop :=
  (∀ c rest, argument.toList ≠ '-' :: c :: rest) ∨
    (∀ (flag : Flag), ∀ spelling ∈ flag.spellings, ∀ attached,
        ¬Cut argument.toList spelling.toList attached ∧
          ¬StandsFor argument.toList spelling attached) ∧
      (isNegativeNumber argument.toList = true ∨ ' ' ∈ argument.toList)

theorem Cut.shape (h : Cut chars spelling.toList attached) (hspelling : spelling ∈ flag.spellings) :
    ∃ c rest, chars = '-' :: c :: rest := by
  obtain ⟨-, c, rest, hshape⟩ := Flag.spelling_shape hspelling
  exact ⟨c, _, by rw [h.2, hshape]; rfl⟩

theorem StandsFor.shape (h : StandsFor chars spelling attached) :
    ∃ c rest, chars = '-' :: c :: rest := by
  cases h with
  | start hcut hlong =>
    obtain ⟨more, rfl⟩ := hlong
    exact ⟨'-', _, hcut.2⟩
  | letter hchars => exact ⟨_, _, hchars⟩

theorem Names.shape (h : Names chars flag spelling attached) :
    ∃ c rest, chars = '-' :: c :: rest := by
  cases h with
  | full hspelling hcut => exact hcut.shape hspelling
  | only _ hstands => exact hstands.shape

theorem spelledOut?_eq_none_iff :
    spelledOut? chars = none ↔ ∀ (flag : Flag), ∀ spelling ∈ flag.spellings, ∀ attached,
      ¬Cut chars spelling.toList attached := by
  simp only [Option.eq_none_iff_forall_ne_some, ne_eq, spelledOut?_eq_some_iff]
  constructor
  · intro h flag spelling hspelling attached hcut
    exact h _ ⟨flag, spelling, attached, hspelling, hcut, rfl⟩
  · rintro h _ ⟨flag, spelling, attached, hspelling, hcut, -⟩
    exact h flag spelling hspelling attached hcut

section Dashed

variable {c : Char} {rest : List Char}

theorem candidates_eq_nil_iff :
    candidates ('-' :: c :: rest) = [] ↔ ∀ (flag : Flag), ∀ spelling ∈ flag.spellings,
      ∀ attached, ¬StandsFor ('-' :: c :: rest) spelling attached := by
  simp only [List.eq_nil_iff_forall_not_mem, Prod.forall, mem_candidates_iff]
  constructor
  · intro h flag spelling hspelling attached hstands
    exact h spelling _ ⟨flag, attached, hspelling, hstands, rfl⟩
  · rintro h _ _ ⟨flag, attached, hspelling, hstands, -⟩
    exact h flag _ hspelling attached hstands

/-- An argument that spells no option names one if it is the only candidate. -/
theorem names_iff_candidates (hnone : spelledOut? ('-' :: c :: rest) = none) :
    Names ('-' :: c :: rest) flag spelling attached ↔ candidates ('-' :: c :: rest) =
      [(spelling, .option flag (isLongSpelling spelling) attached)] := by
  have hnot := spelledOut?_eq_none_iff.1 hnone
  rw [candidates_eq_singleton_iff, mem_candidates_iff]
  constructor
  · rintro (⟨hspelling, hcut⟩ | ⟨hspelling, hstands, -, honly⟩)
    · exact absurd hcut (hnot flag spelling hspelling attached)
    · refine ⟨⟨flag, attached, hspelling, hstands, rfl⟩, ?_⟩
      rintro ⟨name, word⟩ hentry
      obtain ⟨other, text, hname, hother, -⟩ := mem_candidates_iff.1 hentry
      exact honly other name hname text hother
  · rintro ⟨⟨other, text, hspelling, hstands, hword⟩, honly⟩
    cases hword
    refine .only hspelling hstands hnot fun other name hname text hother => ?_
    exact honly (name, _) (mem_candidates_iff.2 ⟨other, text, hname, hother, rfl⟩)

end Dashed

/-- The options among the arguments are those that name one. -/
theorem classify_eq_option_iff {argument : String} {isLong : Bool} :
    classify argument = .ok (.option flag isLong attached) ↔
      ∃ spelling, Names argument.toList flag spelling attached ∧
        isLong = isLongSpelling spelling := by
  unfold classify
  split
  · next c rest hchars =>
    rw [hchars]
    dsimp only
    split
    · next word hspelled =>
      obtain ⟨other, spelling, text, hspelling, hcut, rfl⟩ := spelledOut?_eq_some_iff.1 hspelled
      constructor
      · rintro ⟨⟩
        exact ⟨spelling, .full hspelling hcut, rfl⟩
      · rintro ⟨name, ⟨hname, hother⟩ | ⟨-, -, hnot, -⟩, rfl⟩
        · obtain ⟨hsame, rfl⟩ := hother.unique hcut
          obtain rfl := String.toList_inj.1 hsame
          rw [Flag.eq_of_mem_spellings hname hspelling]
        · exact absurd hcut (hnot other spelling hspelling text)
    · next hnone =>
      simp only [names_iff_candidates hnone]
      split
      · next name word hcandidates =>
        have hmem : (name, word) ∈ candidates ('-' :: c :: rest) := by simp [hcandidates]
        obtain ⟨other, text, -, -, rfl⟩ := mem_candidates_iff.1 hmem
        simp only [hcandidates, List.cons.injEq, Prod.mk.injEq, and_true, Except.ok.injEq]
        constructor
        · rintro ⟨⟩
          exact ⟨name, ⟨rfl, rfl⟩, rfl⟩
        · rintro ⟨spelling, ⟨rfl, hword⟩, rfl⟩
          exact hword
      · next hcandidates =>
        simp only [hcandidates, List.nil_eq, reduceCtorEq, false_and, exists_false, iff_false]
        split <;> simp
      · next hmany _ =>
        simp only [reduceCtorEq, false_iff, not_exists, not_and]
        intro spelling hsingle
        exact (hmany _ _ hsingle).elim
  · next hplain =>
    simp only [Except.ok.injEq, reduceCtorEq, false_iff, not_exists, not_and]
    intro spelling hnames
    obtain ⟨c, rest, hchars⟩ := hnames.shape
    exact (hplain c rest hchars).elim

/-- The plain arguments. -/
theorem classify_eq_plain_iff {argument text : String} :
    classify argument = .ok (.plain text) ↔ text = argument ∧ Plain argument := by
  unfold classify Plain
  split
  · next c rest hchars =>
    rw [hchars]
    dsimp only
    split
    · next word hspelled =>
      obtain ⟨flag, spelling, attached, hspelling, hcut, rfl⟩ :=
        spelledOut?_eq_some_iff.1 hspelled
      simp only [Except.ok.injEq, reduceCtorEq, false_iff, not_and]
      rintro - (hnot | ⟨hnone, -⟩)
      · exact hnot c rest rfl
      · exact (hnone flag spelling hspelling attached).1 hcut
    · next hnone =>
      have hnot := spelledOut?_eq_none_iff.1 hnone
      split
      · next name word hcandidates =>
        have hmem : (name, word) ∈ candidates ('-' :: c :: rest) := by simp [hcandidates]
        obtain ⟨flag, attached, hspelling, hstands, rfl⟩ := mem_candidates_iff.1 hmem
        simp only [Except.ok.injEq, reduceCtorEq, false_iff, not_and]
        rintro - (hshort | ⟨hnone, -⟩)
        · exact hshort c rest rfl
        · exact (hnone flag name hspelling attached).2 hstands
      · next hcandidates =>
        have hnothing := candidates_eq_nil_iff.1 hcandidates
        have hplain : (isNegativeNumber ('-' :: c :: rest) ||
            ('-' :: c :: rest).contains ' ') = true ↔
              isNegativeNumber ('-' :: c :: rest) = true ∨ ' ' ∈ '-' :: c :: rest := by
          rw [Bool.or_eq_true, List.contains_iff_mem]
        split
        · next htext =>
          simp only [Except.ok.injEq, Word.plain.injEq, eq_comm (b := text)]
          refine (and_iff_left (.inr ⟨fun flag spelling hspelling attached => ?_, ?_⟩)).symm
          · exact ⟨hnot flag spelling hspelling attached,
              hnothing flag spelling hspelling attached⟩
          · exact hplain.1 htext
        · next htext =>
          simp only [Except.ok.injEq, reduceCtorEq, false_iff, not_and]
          rintro - (hshort | ⟨-, htrue⟩)
          · exact hshort c rest rfl
          · exact htext (hplain.2 htrue)
      · next hsome =>
        simp only [reduceCtorEq, false_iff, not_and]
        rintro - (hshort | ⟨hnone, -⟩)
        · exact hshort c rest rfl
        · refine hsome (candidates_eq_nil_iff.2 fun flag spelling hspelling attached => ?_)
          exact (hnone flag spelling hspelling attached).2
  · next hplain =>
    simp only [Except.ok.injEq, Word.plain.injEq, eq_comm (b := text)]
    exact (and_iff_left (.inl hplain)).symm

/-! ## Attached texts -/

/-- What an option with a text attached to it stands for: the value of the option,
or the letters of more options. -/
inductive Carries : Flag → List Char → Joined → Prop where
  | value {flag : Flag} {text : List Char} (htakes : flag.takesValue = true) :
      Carries flag text ⟨[], flag, some (.ofAttached (String.ofList text))⟩
  | letter {flag next : Flag} {c : Char} (hswitch : flag.takesValue = false)
      (hnext : String.ofList ['-', c] ∈ next.spellings) : Carries flag [c] ⟨[flag], next, none⟩
  | letters {flag next last : Flag} {c d : Char} {rest : List Char} {before : List Flag}
      {value : Option Value} (hswitch : flag.takesValue = false)
      (hnext : String.ofList ['-', c] ∈ next.spellings)
      (hrest : Carries next (d :: rest) ⟨before, last, value⟩) :
      Carries flag (c :: d :: rest) ⟨flag :: before, last, value⟩

theorem joinShort_eq_ok_iff {text : List Char} {joined : Joined} :
    joinShort flag text = .ok joined ↔ Carries flag text joined := by
  constructor
  · intro h
    fun_induction joinShort flag text generalizing joined with
    | case1 text flag htakes =>
      cases h
      exact .value htakes
    | case2 | case3 => cases h
    | case4 flag hswitch c rest next hnext hempty =>
      cases h
      obtain rfl := List.isEmpty_iff.1 hempty
      exact .letter (by simpa using hswitch) (Flag.ofSpelling?_eq_some_iff.1 hnext)
    | case5 flag hswitch c rest next hnext hempty ih =>
      obtain ⟨inner, hinner, hjoined⟩ := bind_eq_ok_iff.1 h
      cases hjoined
      obtain ⟨d, rest, rfl⟩ := List.exists_cons_of_ne_nil (by simpa using hempty)
      exact .letters (by simpa using hswitch) (Flag.ofSpelling?_eq_some_iff.1 hnext) (ih hinner)
  · intro h
    induction h with
    | value htakes =>
      unfold joinShort
      rw [if_pos htakes]
    | letter hswitch hnext =>
      rw [joinShort, if_neg (by simp [hswitch]), Flag.ofSpelling?_eq_some_iff.2 hnext]
      rfl
    | letters hswitch hnext _ ih =>
      rw [joinShort, if_neg (by simp [hswitch]), Flag.ofSpelling?_eq_some_iff.2 hnext]
      dsimp only
      rw [if_neg (by simp), ih]
      rfl

/-- The options of an argument that names one: without a text the option alone, and
with a text what it carries.  A text after a long spelling has to be a value. -/
inductive OptionWord (argument : String) : Joined → Prop where
  | bare {flag : Flag} {spelling : String}
      (hnames : Names argument.toList flag spelling none) : OptionWord argument ⟨[], flag, none⟩
  | attached {flag : Flag} {spelling text : String} {joined : Joined}
      (hnames : Names argument.toList flag spelling (some text))
      (hlong : isLongSpelling spelling = true → flag.takesValue = true)
      (hcarries : Carries flag text.toList joined) : OptionWord argument joined

/-- The options of an argument are read as they are named. -/
theorem optionWord_iff {argument : String} {joined : Joined} :
    OptionWord argument joined ↔ ∃ flag isLong attached,
      classify argument = .ok (.option flag isLong attached) ∧
        join flag isLong attached = .ok joined := by
  simp only [classify_eq_option_iff]
  constructor
  · rintro (@⟨flag, spelling, hnames⟩ | @⟨flag, spelling, text, _, hnames, hlong, hcarries⟩)
    · exact ⟨flag, _, none, ⟨spelling, hnames, rfl⟩, rfl⟩
    · refine ⟨flag, _, some text, ⟨spelling, hnames, rfl⟩, ?_⟩
      have hvalue : ¬(isLongSpelling spelling && !flag.takesValue) = true := by
        simpa using hlong
      rw [join, if_neg hvalue]
      exact joinShort_eq_ok_iff.2 hcarries
  · rintro ⟨flag, _, attached, ⟨spelling, hnames, rfl⟩, hjoin⟩
    cases attached with
    | none =>
      cases hjoin
      exact .bare hnames
    | some text =>
      rw [join] at hjoin
      split at hjoin
      · cases hjoin
      · next hvalue =>
        exact .attached hnames (by simpa using hvalue) (joinShort_eq_ok_iff.1 hjoin)

end CallReach.CommandLine
