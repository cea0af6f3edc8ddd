/-!
# Collecting results

A list of attempts succeeds as a whole only if none of them fails; otherwise all failures are
reported, in order.
-/

namespace NormalGrammar

variable {ε α : Type}

/-- The values of the attempts that succeeded. -/
def successes (rs : List (Except ε α)) : List α := rs.filterMap Except.toOption

/-- The faults of the attempts that failed. -/
def failures (rs : List (Except ε α)) : List ε :=
  rs.filterMap fun
    | .error e => some e
    | .ok _ => none

/-- All values, or all faults if there are any. -/
def collect (rs : List (Except ε α)) : Except (List ε) (List α) :=
  match failures rs with
  | [] => .ok (successes rs)
  | e :: es => .error (e :: es)

theorem failures_eq_nil_iff {rs : List (Except ε α)} :
    failures rs = [] ↔ ∃ as : List α, rs = as.map .ok := by
  induction rs with
  | nil => exact ⟨fun _ => ⟨[], rfl⟩, fun _ => rfl⟩
  | cons r rs ih =>
    cases r with
    | error e =>
      refine ⟨fun h => absurd h (List.cons_ne_nil e (failures rs)), ?_⟩
      rintro ⟨as, h⟩
      cases as <;> simp at h
    | ok a =>
      rw [show failures (.ok a :: rs) = failures rs from rfl, ih]
      constructor
      · rintro ⟨as, rfl⟩
        exact ⟨a :: as, rfl⟩
      · rintro ⟨as, h⟩
        cases as with
        | nil => simp at h
        | cons b as => exact ⟨as, (List.cons.inj h).2⟩

@[simp] theorem successes_map_ok (as : List α) :
    successes (as.map (.ok : α → Except ε α)) = as := by
  simp [successes, List.filterMap_map, Function.comp_def, Except.toOption]

theorem collect_eq_ok_iff {rs : List (Except ε α)} {as : List α} :
    collect rs = .ok as ↔ rs = as.map .ok := by
  constructor
  · intro h
    unfold collect at h
    split at h
    · rename_i hf
      obtain ⟨bs, rfl⟩ := failures_eq_nil_iff.1 hf
      rw [successes_map_ok] at h
      rw [Except.ok.inj h]
    · cases h
  · rintro rfl
    have hf : failures (as.map (.ok : α → Except ε α)) = [] := failures_eq_nil_iff.2 ⟨as, rfl⟩
    unfold collect
    rw [hf, successes_map_ok]

theorem collect_eq_error_iff {rs : List (Except ε α)} {es : List ε} :
    collect rs = .error es ↔ es = failures rs ∧ es ≠ [] := by
  unfold collect
  split
  · rename_i hf
    simp only [reduceCtorEq, hf, false_iff, not_and]
    exact fun h => not_not_intro h
  · rename_i e es' hf
    simp only [Except.error.injEq, hf]
    constructor
    · rintro rfl
      exact ⟨rfl, List.cons_ne_nil _ _⟩
    · exact fun h => h.1.symm

end NormalGrammar
