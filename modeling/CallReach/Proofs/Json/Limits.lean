import Mathlib.Data.List.TakeWhile
import CallReach.Json.Reader

/-!
# Limits of the reader

The reader refuses an integer with too many digits, and a compound value at the
limit of nesting, by flaws of their own.  `Within` says that each part of the reader
leaves an end of its text and complains of a limit only where the text goes beyond
it.

* `stringBody_within`, `number?_within` and `toJson_justified` are about the parts,
  and `values_within` joins them by induction on the steps.

`parse_tooManyDigits` and `parse_tooDeep` are the results: a text without so many
digits in a row or so many opening brackets is never refused for them.  By
`parse_brackets` and `parse_ones` the limits are reached.
-/

namespace CallReach.Json

open Decimal

variable {α : Type} {text rest : List Char} {nesting count : Nat}

/-- The text has this many digits in a row. -/
def HasDigits (text : List Char) (count : Nat) : Prop :=
  ∃ digits, digits <:+: text ∧ digits.length = count ∧ ∀ c ∈ digits, isDigit c = true

/-- The character opens an array or an object. -/
def isOpening (c : Char) : Bool :=
  c = '[' || c = '\x7b'

/-- The number of brackets of a text that open an array or an object. -/
def openings (text : List Char) : Nat :=
  text.countP isOpening

/-- A stop complains of a limit only where the text goes beyond it. -/
def Stop.Justified (nesting : Nat) (text : List Char) (stop : Stop) : Prop :=
  match stop.flaw with
  | .tooManyDigits count => maxIntegerDigits < count ∧ HasDigits text count
  | .tooDeep _ => nesting < openings text
  | _ => True

/-- What is read leaves an end of the text, and a stop is justified by it. -/
def Within (nesting : Nat) (text : List Char) : Except Stop (α × List Char) → Prop
  | .ok (_, rest) => rest <:+ text
  | .error stop => stop.Justified nesting text

theorem HasDigits.mono (h : HasDigits rest count) (hrest : rest <:+ text) :
    HasDigits text count := by
  obtain ⟨digits, hinside, hlength, hdigits⟩ := h
  exact ⟨digits, hinside.trans hrest.isInfix, hlength, hdigits⟩

theorem openings_le (h : rest <:+ text) : openings rest ≤ openings text :=
  h.sublist.countP_le

theorem Stop.Justified.mono {stop : Stop} (h : stop.Justified nesting rest)
    (hrest : rest <:+ text) : stop.Justified nesting text := by
  unfold Stop.Justified at h ⊢
  split at h
  · exact ⟨h.1, h.2.mono hrest⟩
  · exact h.trans_le (openings_le hrest)
  · trivial

theorem Within.mono {result : Except Stop (α × List Char)} (h : Within nesting rest result)
    (hrest : rest <:+ text) : Within nesting text result := by
  cases result with
  | error stop => exact Stop.Justified.mono h hrest
  | ok found => exact List.IsSuffix.trans h hrest

/-- Behind an opening bracket the limit is one less. -/
theorem Stop.Justified.enter {stop : Stop} {c : Char} (h : stop.Justified nesting rest)
    (hc : isOpening c = true) : stop.Justified (nesting + 1) (c :: rest) := by
  unfold Stop.Justified at h ⊢
  split at h
  · exact ⟨h.1, h.2.mono (List.suffix_cons _ _)⟩
  · simpa [openings, List.countP_cons, hc] using h
  · trivial

theorem Within.enter {result : Except Stop (α × List Char)} {c : Char}
    (h : Within nesting rest result) (hc : isOpening c = true) :
    Within (nesting + 1) (c :: rest) result := by
  cases result with
  | error stop => exact Stop.Justified.enter h hc
  | ok found => exact List.IsSuffix.trans h (List.suffix_cons _ _)

/-- A part that is read first leaves the text of the next one. -/
theorem Within.bind {β : Type} {first : Except Stop (α × List Char)}
    {next : α × List Char → Except Stop (β × List Char)} (hfirst : Within nesting text first)
    (hnext : ∀ a rest, rest <:+ text → Within nesting text (next (a, rest))) :
    Within nesting text (first >>= next) := by
  cases first with
  | error stop => exact hfirst
  | ok found => exact hnext found.1 found.2 hfirst

theorem skipSpaces_suffix (text : List Char) : skipSpaces text <:+ text :=
  List.dropWhile_suffix _

theorem lowHalf?_suffix {low : Except Nat Nat} (h : lowHalf? text = some (low, rest)) :
    rest <:+ text := by
  unfold lowHalf? at h
  split at h
  · split at h
    · cases h
      exact List.nil_suffix
    · split at h
      · cases h
        exact List.suffix_append [_, _, _, _, _, _] _
      · cases h
  · cases h

theorem stringBody_within (fuel whole : Nat) (text : List Char) (acc : List Text.Piece) :
    Within nesting text (stringBody fuel whole text acc) := by
  fun_induction stringBody fuel whole text acc with
  | case3 => exact List.suffix_cons _ _
  | case5 fuel acc c rest _ _ _ ih => exact ih.mono (List.suffix_cons _ _)
  | case9 fuel acc c _ _ _ a b d e f after _ _ _ low more hlow _ ih =>
    refine ih.mono ((lowHalf?_suffix hlow).trans ?_)
    exact List.suffix_append [_, _, _, _, _, _] _
  | case10 _ _ _ _ _ _ _ _ _ _ _ _ _ _ _ _ ih =>
    exact ih.mono (List.suffix_append [_, _, _, _, _, _] _)
  | case11 _ _ _ _ _ _ _ _ _ _ _ _ _ _ _ ih =>
    exact ih.mono (List.suffix_append [_, _, _, _, _, _] _)
  | case13 _ _ _ _ _ _ _ _ _ _ _ _ ih => exact ih.mono (List.suffix_append [_, _] _)
  | _ => trivial

/-! ## Numbers -/

theorem wholePart?_spec {digits : List Char} (h : wholePart? text = some (digits, rest)) :
    text = digits ++ rest ∧ ∀ c ∈ digits, isDigit c = true := by
  unfold wholePart? at h
  split at h
  · cases h
    exact ⟨rfl, List.forall_mem_singleton.2 rfl⟩
  · next c others _ =>
    split at h
    · next hdigit =>
      cases h
      refine ⟨?_, ?_⟩
      · rw [List.cons_append, List.takeWhile_append_dropWhile]
      · rintro d (_ | ⟨_, hd⟩)
        · exact hdigit
        · exact (List.mem_takeWhile_imp hd)
    · cases h
  · cases h

theorem fractionPart_suffix (text : List Char) : (fractionPart text).2 <:+ text := by
  unfold fractionPart
  split
  · split
    · exact (List.dropWhile_suffix _).trans (List.suffix_append [_, _] _)
    · exact List.suffix_rfl
  · exact List.suffix_rfl

theorem exponentPart_suffix (text : List Char) : (exponentPart text).2 <:+ text := by
  unfold exponentPart
  split
  · next mark others =>
    split
    · have hsign : (exponentPart.splitSign others).2 <:+ others := by
        unfold exponentPart.splitSign
        split
        · exact List.suffix_cons _ _
        · exact List.suffix_cons _ _
        · exact List.suffix_rfl
      dsimp only
      split
      · exact List.suffix_rfl
      · exact ((List.dropWhile_suffix _).trans hsign).trans (List.suffix_cons _ _)
    · exact List.suffix_rfl
  · exact List.suffix_rfl

/-- A number leaves an end of the text, and the digits of an integer stand in
it. -/
theorem number?_within {number : Number} (h : number? text = some (number, rest)) :
    rest <:+ text ∧ ∀ negative digits, number = .int negative digits →
      digits <:+: text ∧ ∀ c ∈ digits, isDigit c = true := by
  unfold number? at h
  split at h
  next negative body hsplit =>
  have hbody : body <:+ text := by
    split at hsplit
    · cases hsplit
      exact List.suffix_cons _ _
    · cases hsplit
      exact List.suffix_rfl
  obtain ⟨⟨whole, others⟩, hwhole, hread⟩ := Option.bind_eq_some_iff.1 h
  obtain ⟨rfl, hdigits⟩ := wholePart?_spec hwhole
  have hothers : others <:+ text := (List.suffix_append _ _).trans hbody
  have hrest : (exponentPart (fractionPart others).2).2 <:+ text :=
    ((exponentPart_suffix _).trans (fractionPart_suffix _)).trans hothers
  dsimp only at hread
  split at hread
  · cases hread
    refine ⟨hrest, ?_⟩
    rintro _ _ ⟨⟩
    exact ⟨(List.infix_append [] _ _).trans hbody.isInfix, hdigits⟩
  · cases hread
    refine ⟨hrest, ?_⟩
    rintro _ _ ⟨⟩

theorem word?_suffix {found : Json} (h : word? text = some (found, rest)) : rest <:+ text := by
  obtain ⟨word, -, hword⟩ := List.exists_of_findSome?_eq_some h
  dsimp only at hword
  split at hword
  · cases hword
    exact List.drop_suffix _ _
  · cases hword

/-- The value of a number is read, or it has too many digits. -/
theorem toJson_justified {number : Number} {left : Nat} {stop : Stop}
    (hnumber : number? text = some (number, rest)) (h : number.toJson left = .error stop) :
    stop.Justified nesting text := by
  cases number with
  | float value => cases h
  | int negative digits =>
    rw [Number.toJson] at h
    split at h
    · next hlong =>
      cases h
      obtain ⟨hinside, hdigits⟩ := (number?_within hnumber).2 negative digits rfl
      exact ⟨hlong, digits, hinside, rfl, hdigits⟩
    · cases h

/-! ## Values -/

/-- What comes after blanks is an end of the text. -/
theorem suffix_of_skipSpaces {c : Char} {others : List Char} (h : skipSpaces rest = c :: others)
    (hrest : rest <:+ text) : others <:+ text :=
  ((h ▸ List.suffix_cons c others : others <:+ skipSpaces rest).trans (skipSpaces_suffix _)).trans
    hrest

section Step

variable {fuel : Nat} (hvalue : ∀ nesting text, Within nesting text (value nesting fuel text))
  (hitems : ∀ nesting text acc, Within nesting text (items nesting fuel text acc))
  (hmembers : ∀ nesting text acc, Within nesting text (members nesting fuel text acc))

include hitems hmembers in
theorem value_within_succ (nesting : Nat) (text : List Char) :
    Within nesting text (value nesting (fuel + 1) text) := by
  -- The steps are generalised so that each case still knows how many are left.
  generalize hsteps : fuel + 1 = steps
  fun_cases value nesting steps text with
  | case1 | case2 | case12 => trivial
  | case3 _ _ rest =>
    refine ((stringBody_within _ _ rest []).mono (List.suffix_cons _ _)).bind ?_
    exact fun _ _ hrest => hrest
  | case4 _ rest | case7 _ rest =>
    show 0 < openings (_ :: rest)
    simp [openings, isOpening]
  | case5 _ rest _ others hend | case8 _ rest _ others hend =>
    exact suffix_of_skipSpaces hend (List.suffix_cons _ _)
  | case6 left rest nesting =>
    obtain rfl : fuel = left := by omega
    exact ((hmembers nesting _ []).mono (skipSpaces_suffix rest)).enter rfl
  | case9 left rest nesting =>
    obtain rfl : fuel = left := by omega
    exact ((hitems nesting _ []).mono (skipSpaces_suffix rest)).enter rfl
  | case10 _ _ _ _ _ _ _ found hword => exact word?_suffix hword
  | case11 _ _ _ _ _ _ _ number rest hnumber =>
    cases hjson : number.toJson text.length with
    | error stop => exact toJson_justified hnumber hjson
    | ok found => exact (number?_within hnumber).1

include hvalue hitems in
theorem items_within_succ (nesting : Nat) (text : List Char) (acc : List Json) :
    Within nesting text (items nesting (fuel + 1) text acc) := by
  rw [items]
  refine (hvalue nesting text).bind fun item rest hrest => ?_
  dsimp only
  split
  · next hend => exact suffix_of_skipSpaces hend hrest
  · next others hcomma =>
    exact (hitems _ _ _).mono ((skipSpaces_suffix _).trans (suffix_of_skipSpaces hcomma hrest))
  · trivial

include hvalue hmembers in
theorem members_within_succ (nesting : Nat) (text : List Char) (acc : List (Text.Wide × Json)) :
    Within nesting text (members nesting (fuel + 1) text acc) := by
  generalize hsteps : fuel + 1 = steps
  unfold members
  split
  · trivial
  · next left rest =>
    obtain rfl : fuel = left := by omega
    refine ((stringBody_within _ _ rest []).mono (List.suffix_cons _ _)).bind ?_
    intro key rest hrest
    dsimp only
    split
    · next others hcolon =>
      have hothers := suffix_of_skipSpaces hcolon hrest
      refine ((hvalue _ _).mono ((skipSpaces_suffix _).trans hothers)).bind ?_
      intro item rest hrest
      dsimp only
      split
      · next hend => exact suffix_of_skipSpaces hend hrest
      · next others hcomma =>
        exact (hmembers _ _ _).mono
          ((skipSpaces_suffix _).trans (suffix_of_skipSpaces hcomma hrest))
      · trivial
    · trivial
  · trivial

end Step

/-- All values, by induction on the steps that are allowed. -/
theorem values_within (fuel : Nat) :
    (∀ nesting text, Within nesting text (value nesting fuel text)) ∧
      (∀ nesting text acc, Within nesting text (items nesting fuel text acc)) ∧
      ∀ nesting text acc, Within nesting text (members nesting fuel text acc) := by
  induction fuel with
  | zero =>
    refine ⟨fun nesting text => ?_, fun nesting text acc => ?_, fun nesting text acc => ?_⟩
    · rw [value.eq_1]
      trivial
    · rw [items]
      trivial
    · rw [members.eq_1]
      trivial
  | succ fuel ih =>
    obtain ⟨hvalue, hitems, hmembers⟩ := ih
    exact ⟨value_within_succ hitems hmembers, items_within_succ hvalue hitems,
      members_within_succ hvalue hmembers⟩

theorem document_justified {stop : Stop} (h : document nesting text = .error stop) :
    stop.Justified nesting text := by
  unfold document at h
  split at h
  · cases h
    trivial
  · have hwithin := ((values_within (2 * text.length + 2)).1 nesting _).mono
      (skipSpaces_suffix text)
    cases hvalue : value nesting (2 * text.length + 2) (skipSpaces text) with
    | error found =>
      rw [hvalue] at h hwithin
      cases h
      exact hwithin
    | ok found =>
      rw [hvalue] at h
      simp only [bind, Except.bind] at h
      split at h
      · cases h
      · cases h
        trivial

theorem parse_justified {fault : Fault} (h : parse nesting text = .error fault) :
    ∃ stop : Stop, stop.flaw = fault.flaw ∧ stop.Justified nesting text := by
  unfold parse at h
  split at h
  · cases h
  · next stop hstop =>
    cases h
    exact ⟨stop, rfl, document_justified hstop⟩

/-- A text is refused for too many digits only when it has that many digits in a
row, and these are more than an integer may have. -/
theorem parse_tooManyDigits {fault : Fault} (h : parse nesting text = .error fault)
    (hflaw : fault.flaw = .tooManyDigits count) :
    maxIntegerDigits < count ∧ HasDigits text count := by
  obtain ⟨stop, hstop, hjustified⟩ := parse_justified h
  rw [Stop.Justified, hstop, hflaw] at hjustified
  exact hjustified

/-- A text is refused for its nesting only when it has more opening brackets than
may be nested. -/
theorem parse_tooDeep {fault : Fault} {kind : Compound} (h : parse nesting text = .error fault)
    (hflaw : fault.flaw = .tooDeep kind) : nesting < openings text := by
  obtain ⟨stop, hstop, hjustified⟩ := parse_justified h
  rw [Stop.Justified, hstop, hflaw] at hjustified
  exact hjustified

/-! ## Texts beyond the limits -/

theorem skipSpaces_brackets (more : Nat) :
    skipSpaces (List.replicate more '[') = List.replicate more '[' := by
  cases more <;> simp [skipSpaces, List.replicate_succ, isSpace]

/-- The reader goes into opening brackets up to the limit. -/
theorem value_brackets {fuel more : Nat} (hmore : nesting < more) (hfuel : 2 * nesting < fuel) :
    value nesting fuel (List.replicate more '[') = .error ⟨.tooDeep .array, more - nesting⟩ := by
  induction nesting generalizing fuel more with
  | zero =>
    obtain ⟨fuel, rfl⟩ := Nat.exists_eq_add_one.2 hfuel
    obtain ⟨more, rfl⟩ := Nat.exists_eq_add_one.2 hmore
    rw [List.replicate_succ, value]
    simp
  | succ nesting ih =>
    obtain ⟨fuel, rfl⟩ : ∃ steps, fuel = steps + 2 := ⟨fuel - 2, by omega⟩
    obtain ⟨more, rfl⟩ : ∃ left, more = left + 2 := ⟨more - 2, by omega⟩
    have hinner : value nesting fuel (List.replicate (more + 1) '[') =
        .error ⟨.tooDeep .array, more + 1 - nesting⟩ := ih (by omega) (by omega)
    rw [List.replicate_succ, value, skipSpaces_brackets]
    split
    · next hclosed => simp [List.replicate_succ] at hclosed
    · rw [items, hinner]
      simp only [bind, Except.bind]
      congr 2
      omega

/-- A text of opening brackets beyond the limit is refused for its nesting. -/
theorem parse_brackets {more : Nat} (h : nesting < more) :
    ∃ fault, parse nesting (List.replicate more '[') = .error fault ∧
      fault.flaw = .tooDeep .array := by
  have hdocument : document nesting (List.replicate more '[') =
      .error ⟨.tooDeep .array, more - nesting⟩ := by
    unfold document
    split
    · next rest hmark =>
      have hmem : '\uFEFF' ∈ List.replicate more '[' := hmark ▸ List.mem_cons_self
      exact absurd (List.eq_of_mem_replicate hmem) (by decide)
    · rw [skipSpaces_brackets, List.length_replicate, value_brackets h (by omega)]
      rfl
  exact ⟨_, by rw [parse, hdocument], rfl⟩

theorem number?_ones (more : Nat) :
    number? (List.replicate (more + 1) '1') =
      some (.int false (List.replicate (more + 1) '1'), []) := by
  have hwhole : wholePart? ('1' :: List.replicate more '1') =
      some ('1' :: List.replicate more '1', []) := by
    have hdigit : isDigit '1' = true := rfl
    have htake : (List.replicate more '1').takeWhile isDigit = List.replicate more '1' := by
      rw [List.takeWhile_replicate, if_pos hdigit]
    have hdrop : (List.replicate more '1').dropWhile isDigit = [] := by
      rw [List.dropWhile_replicate, if_pos hdigit]
    rw [wholePart?, if_pos hdigit, htake, hdrop]
    simp
  rw [List.replicate_succ]
  unfold number?
  split
  next negative body hsign =>
    cases hsign
    rw [hwhole]
    rfl

/-- A text of digits beyond the limit is refused for them. -/
theorem parse_ones {more : Nat} (h : maxIntegerDigits < more) :
    ∃ fault, parse nesting (List.replicate more '1') = .error fault ∧
      fault.flaw = .tooManyDigits more := by
  obtain ⟨more, rfl⟩ := Nat.exists_eq_add_one.2 (Nat.zero_lt_of_lt h)
  have hspaces : skipSpaces (List.replicate (more + 1) '1') = List.replicate (more + 1) '1' := by
    simp [skipSpaces, isSpace, List.replicate_succ]
  have hvalue : ∀ fuel, value nesting (fuel + 1) (List.replicate (more + 1) '1') =
      .error ⟨.tooManyDigits (more + 1), more + 1⟩ := by
    intro fuel
    have hnumber := number?_ones more
    have hword : word? ('1' :: List.replicate more '1') = none := rfl
    rw [List.replicate_succ] at hnumber ⊢
    rw [value, hword, hnumber]
    · simp [Number.toJson, h, bind, Except.bind]
    all_goals simp
  have hdocument : document nesting (List.replicate (more + 1) '1') =
      .error ⟨.tooManyDigits (more + 1), more + 1⟩ := by
    unfold document
    split
    · next hmark => cases hmark
    · rw [hspaces, hvalue]
      rfl
  exact ⟨_, by rw [parse, hdocument], rfl⟩

end CallReach.Json
