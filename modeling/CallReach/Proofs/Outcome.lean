import Mathlib.Data.List.Forall2

/-!
# Outcomes

Readers and checks stop at the first fault, and `bind_eq_ok_iff` and
`mapM_eq_ok_iff` say when a sequence of them has none.  A change of a state may
stop too; `outcome` is what it answers and the state that it leaves.
-/

namespace CallReach

variable {ε α β : Type}

/-- Two steps succeed when the first does and the second does with its
result. -/
theorem bind_eq_ok_iff {first : Except ε α} {second : α → Except ε β} {b : β} :
    first >>= second = .ok b ↔ ∃ a, first = .ok a ∧ second a = .ok b := by
  cases first <;> simp [bind, Except.bind]

/-- A list is read when each member is. -/
theorem mapM_eq_ok_iff {read : α → Except ε β} {as : List α} {bs : List β} :
    as.mapM read = .ok bs ↔ List.Forall₂ (fun a b => read a = .ok b) as bs := by
  induction as generalizing bs with
  | nil => cases bs <;> simp [pure, Except.pure]
  | cons a as ih =>
    simp only [List.mapM_cons, bind_eq_ok_iff, ih, List.forall₂_cons_left_iff, pure, Except.pure,
      Except.ok.injEq]
    constructor
    · rintro ⟨b, hb, bs, hbs, rfl⟩
      exact ⟨b, bs, hb, hbs, rfl⟩
    · rintro ⟨b, bs, hb, hbs, rfl⟩
      exact ⟨b, hb, bs, hbs, rfl⟩

/-! ## Changes of a state -/

section Change

variable {σ : Type}

/-- What a change that may fail makes of a state. -/
def outcome (change : ExceptT ε (StateM σ) α) (s : σ) : Except ε α × σ :=
  change.run.run s

@[simp]
theorem outcome_bind (first : ExceptT ε (StateM σ) α) (next : α → ExceptT ε (StateM σ) β)
    (s : σ) :
    outcome (first >>= next) s =
      match outcome first s with
      | (.ok a, mid) => outcome (next a) mid
      | (.error fault, mid) => (.error fault, mid) := by
  simp only [outcome, ExceptT.run_bind, StateT.run_bind]
  generalize first.run.run s = ended
  obtain ⟨_ | a, mid⟩ := ended <;> rfl

@[simp]
theorem outcome_get (s : σ) : outcome (get : ExceptT ε (StateM σ) σ) s = (.ok s, s) := rfl

end Change

end CallReach
