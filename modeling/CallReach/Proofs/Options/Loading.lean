import CallReach.Options.File
import CallReach.Proofs.Json.Limits
import CallReach.Proofs.Options.Precedence
import CallReach.Proofs.Text.Utf8

/-!
# Options from the contents of a file

`Holds` says that contents are the text of an object, and `Overruns` that they
cannot be read as a text or as JSON at all: they are not UTF-8, or an integer is too
long, or values are nested too deeply.  Those three faults are no complaints about
the options.

* `loaded` lists the ways in which contents are taken.
* `ofContents_eq_ok_iff` and `exists_ofContents_not_complaint_iff` say when options
  are loaded, and when there is neither an answer nor a complaint.

`loadsAs` sums them up.
-/

namespace CallReach.Options

open Text

variable {nesting : Nat} {path : String} {contents : Except Files.Fault (List UInt8)}
  {options : Options}

/-- The contents are the text of an object with these members. -/
def Holds (nesting : Nat) (contents : Except Files.Fault (List UInt8))
    (members : List (Wide × Json)) : Prop :=
  ∃ chars, contents = .ok (Utf8.encode chars) ∧
    Json.parse nesting (unifyLineEnds chars) = .ok (.obj members)

/-- The contents are no text, or the reader of the text stops at one of its
limits. -/
inductive Overruns (nesting : Nat) : Except Files.Fault (List UInt8) → Prop where
  | notText {bytes : List UInt8} (hnone : ∀ chars, bytes ≠ Utf8.encode chars) :
      Overruns nesting (.ok bytes)
  /-- An integer has too many digits. -/
  | digits {chars : List Char} {fault : Json.Fault} {count : Nat}
      (hparse : Json.parse nesting (unifyLineEnds chars) = .error fault)
      (hflaw : fault.flaw = .tooManyDigits count) : Overruns nesting (.ok (Utf8.encode chars))
  /-- Arrays and objects are nested too deeply. -/
  | depth {chars : List Char} {fault : Json.Fault} {kind : Json.Compound}
      (hparse : Json.parse nesting (unifyLineEnds chars) = .error fault)
      (hflaw : fault.flaw = .tooDeep kind) : Overruns nesting (.ok (Utf8.encode chars))

theorem Holds.unique {members others : List (Wide × Json)} (h : Holds nesting contents members)
    (hothers : Holds nesting contents others) : members = others := by
  obtain ⟨chars, rfl, hparse⟩ := h
  obtain ⟨_, hsame, hother⟩ := hothers
  rw [Utf8.encode_inj (Except.ok.inj hsame), hother] at hparse
  exact (Json.obj.inj (Except.ok.inj hparse)).symm

/-- Contents that overrun are no text, or the text is not read as JSON. -/
theorem Overruns.parse_ne_ok (h : Overruns nesting contents) {chars : List Char}
    (hcontents : contents = .ok (Utf8.encode chars)) (value : Json) :
    Json.parse nesting (unifyLineEnds chars) ≠ .ok value := by
  intro hvalue
  cases h with
  | notText hnone => exact hnone chars (Except.ok.inj hcontents)
  | digits hparse | depth hparse =>
    rw [Utf8.encode_inj (Except.ok.inj hcontents), hvalue] at hparse
    cases hparse

theorem Holds.not_overruns {members : List (Wide × Json)} (h : Holds nesting contents members) :
    ¬Overruns nesting contents := by
  obtain ⟨chars, hcontents, hparse⟩ := h
  exact fun hoverruns => hoverruns.parse_ne_ok hcontents _ hparse

namespace LoadFault

/-- The fault is reported as a complaint about the options. -/
def IsComplaint : LoadFault → Bool
  | notUtf8 _ | tooManyDigits _ | tooDeep _ => false
  | _ => true

end LoadFault

/-- The ways in which the contents of a file are taken. -/
inductive Loaded (nesting : Nat) (path : String) (contents : Except Files.Fault (List UInt8)) :
    Except LoadFault (Options × Log) → Prop where
  | unreadable {fault : Files.Fault} (hcontents : contents = .error fault) :
      Loaded nesting path contents (.error (.unreadable path fault))
  | overrun {fault : LoadFault} (hoverruns : Overruns nesting contents)
      (hfault : fault.IsComplaint = false) : Loaded nesting path contents (.error fault)
  | notJson {chars : List Char} {fault : Json.Fault}
      (hcontents : contents = .ok (Utf8.encode chars))
      (hparse : Json.parse nesting (unifyLineEnds chars) = .error fault)
      (hdigits : ∀ count, fault.flaw ≠ .tooManyDigits count)
      (hdepth : ∀ kind, fault.flaw ≠ .tooDeep kind) :
      Loaded nesting path contents (.error (.notJson path fault))
  | notObject {chars : List Char} {value : Json}
      (hcontents : contents = .ok (Utf8.encode chars))
      (hparse : Json.parse nesting (unifyLineEnds chars) = .ok value)
      (hvalue : ∀ members, value ≠ .obj members) :
      Loaded nesting path contents (.error (.notObject path))
  | invalid {members : List (Wide × Json)} {fault : OptionsFault}
      (hholds : Holds nesting contents members)
      (hinvalid : ∀ options : Options, ¬options.Takes (standard.valuesOver members)) :
      Loaded nesting path contents (.error (.invalid fault))
  | valid {members : List (Wide × Json)} {options : Options}
      (hholds : Holds nesting contents members)
      (htakes : options.Takes (standard.valuesOver members)) :
      Loaded nesting path contents
        (.ok (options, (unknownWarnings members).map (warningLine .config)))

theorem loaded (nesting : Nat) (path : String) (contents : Except Files.Fault (List UInt8)) :
    Loaded nesting path contents (ofContents nesting path contents) := by
  unfold ofContents
  cases contents with
  | error fault => exact .unreadable rfl
  | ok bytes =>
    cases hdecode : Utf8.decode bytes with
    | error fault =>
      simp only [bind, Except.bind, hdecode]
      refine .overrun (.notText fun chars hchars => ?_) rfl
      rw [Utf8.decode_eq_ok_iff.2 hchars] at hdecode
      cases hdecode
    | ok chars =>
      obtain rfl := Utf8.decode_eq_ok_iff.1 hdecode
      simp only [bind, Except.bind, hdecode]
      split
      · next fault hparse =>
        split
        · next count hflaw => exact .overrun (.digits hparse hflaw) rfl
        · next kind hflaw => exact .overrun (.depth hparse hflaw) rfl
        · next hdigits hdepth => exact .notJson rfl hparse hdigits hdepth
      · next members hparse =>
        have hholds : Holds nesting (.ok (Utf8.encode chars)) members := ⟨chars, rfl, hparse⟩
        cases hmembers : ofMembers members with
        | error fault =>
          refine .invalid hholds fun options htakes => ?_
          rw [ofMembers_eq_ok_iff.2 ⟨htakes, rfl⟩] at hmembers
          cases hmembers
        | ok found =>
          obtain ⟨htakes, hwarnings⟩ := ofMembers_eq_ok_iff.1 hmembers
          simp only [hwarnings]
          exact .valid hholds htakes
      · next value hvalue hparse => exact .notObject rfl hparse hvalue

theorem ofContents_eq_ok_iff {log : Log} :
    ofContents nesting path contents = .ok (options, log) ↔
      ∃ members, Holds nesting contents members ∧ options.Takes (standard.valuesOver members) ∧
        log = (unknownWarnings members).map (warningLine .config) := by
  constructor
  · intro h
    have hloaded := loaded nesting path contents
    rw [h] at hloaded
    cases hloaded with
    | valid hholds htakes => exact ⟨_, hholds, htakes, rfl⟩
  · rintro ⟨members, ⟨chars, rfl, hparse⟩, htakes, rfl⟩
    have hdecode : Utf8.decode (Utf8.encode chars) = .ok chars := Utf8.decode_eq_ok_iff.2 rfl
    have hmembers := ofMembers_eq_ok_iff.2 ⟨htakes, rfl⟩
    simp only [ofContents, bind, Except.bind, hdecode, hparse, hmembers, pure, Except.pure]

/-- Loading fails without a complaint when the contents overrun. -/
theorem exists_ofContents_not_complaint_iff :
    (∃ fault, ofContents nesting path contents = .error fault ∧ fault.IsComplaint = false) ↔
      Overruns nesting contents := by
  constructor
  · rintro ⟨fault, hload, hfault⟩
    have hloaded := loaded nesting path contents
    rw [hload] at hloaded
    cases hloaded with
    | overrun hoverruns => exact hoverruns
    | _ => cases hfault
  · intro hoverruns
    cases hoverruns with
    | @notText bytes hnone =>
      cases hdecode : Utf8.decode bytes with
      | error fault => exact ⟨.notUtf8 fault, by simp [ofContents, hdecode, bind, Except.bind], rfl⟩
      | ok chars => exact absurd (Utf8.decode_eq_ok_iff.1 hdecode) (hnone chars)
    | @digits chars fault count hparse hflaw =>
      have hdecode : Utf8.decode (Utf8.encode chars) = .ok chars := Utf8.decode_eq_ok_iff.2 rfl
      refine ⟨.tooManyDigits count, ?_, rfl⟩
      simp only [ofContents, bind, Except.bind, hdecode, hparse, hflaw]
    | @depth chars fault kind hparse hflaw =>
      have hdecode : Utf8.decode (Utf8.encode chars) = .ok chars := Utf8.decode_eq_ok_iff.2 rfl
      refine ⟨.tooDeep kind, ?_, rfl⟩
      simp only [ofContents, bind, Except.bind, hdecode, hparse, hflaw]

theorem unifyLineEnds_replicate {c : Char} (hc : c ≠ '\r') (more : Nat) :
    unifyLineEnds (List.replicate more c) = List.replicate more c := by
  induction more with
  | zero => rfl
  | succ more ih => rw [List.replicate_succ, unifyLineEnds, ih] <;> simp [hc]

/-- Brackets that are opened beyond the limit overrun. -/
theorem overruns_brackets {more : Nat} (h : nesting < more) :
    Overruns nesting (.ok (Utf8.encode (List.replicate more '['))) := by
  obtain ⟨fault, hparse, hflaw⟩ := Json.parse_brackets h
  exact .depth (by rw [unifyLineEnds_replicate (by decide), hparse]) hflaw

/-- So do digits beyond their limit. -/
theorem overruns_ones {more : Nat} (h : Decimal.maxIntegerDigits < more) :
    Overruns nesting (.ok (Utf8.encode (List.replicate more '1'))) := by
  obtain ⟨fault, hparse, hflaw⟩ := Json.parse_ones h
  exact .digits (by rw [unifyLineEnds_replicate (by decide), hparse]) hflaw

/-- What loading makes of contents. -/
structure LoadsAs (nesting : Nat) (contents : Except Files.Fault (List UInt8))
    (loaded : Except LoadFault (Options × Log)) : Prop where
  /-- Options that are loaded pass all checks, and they are those of the file in
  front of the standard ones. -/
  valid : ∀ options log, loaded = .ok (options, log) →
    ∃ members, Holds nesting contents members ∧ options.Takes (standard.valuesOver members)
  overruns_iff : (∃ fault, loaded = .error fault ∧ fault.IsComplaint = false) ↔
    Overruns nesting contents
  /-- A text without too many digits in a row and too many opening brackets is
  loaded or complained of. -/
  complaint : ∀ chars, contents = .ok (Utf8.encode chars) →
    (∀ count, Json.HasDigits (unifyLineEnds chars) count → count ≤ Decimal.maxIntegerDigits) →
    Json.openings (unifyLineEnds chars) ≤ nesting →
    ∀ fault, loaded = .error fault → fault.IsComplaint = true

theorem loadsAs (nesting : Nat) (path : String) (contents : Except Files.Fault (List UInt8)) :
    LoadsAs nesting contents (ofContents nesting path contents) := by
  refine ⟨fun options log h => ?_, exists_ofContents_not_complaint_iff, ?_⟩
  · obtain ⟨members, hholds, htakes, -⟩ := ofContents_eq_ok_iff.1 h
    exact ⟨members, hholds, htakes⟩
  · intro chars hcontents hdigits hdepth fault hfault
    by_contra hcomplaint
    have hoverruns :=
      exists_ofContents_not_complaint_iff.1 ⟨fault, hfault, by simpa using hcomplaint⟩
    cases hoverruns with
    | notText hnone => exact hnone chars (Except.ok.inj hcontents)
    | @digits _ _ count hparse hflaw =>
      obtain rfl := Utf8.encode_inj (Except.ok.inj hcontents)
      obtain ⟨hlong, hhas⟩ := Json.parse_tooManyDigits hparse hflaw
      exact absurd (hdigits count hhas) (by omega)
    | depth hparse hflaw =>
      obtain rfl := Utf8.encode_inj (Except.ok.inj hcontents)
      exact absurd hdepth (by have := Json.parse_tooDeep hparse hflaw; omega)

end CallReach.Options
