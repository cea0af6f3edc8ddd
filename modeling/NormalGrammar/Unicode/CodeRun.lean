/-!
# Sets of code points as ascending runs

A property of characters is written as a list of runs. In many alphabets the two cases
alternate, so a run has a step. `covers` scans an ascending list and stops early;
`covers_iff` says that this is membership in one of the runs. `apart` compares two ascending
lists in one walk and tells that no code point is in both (`not_covers_of_apart`).
-/

namespace NormalGrammar.Unicode

/-- The code points `first`, `first + step` and so on, none above `last`. -/
structure CodeRun where
  first : Nat
  last : Nat
  step : Nat
deriving DecidableEq

namespace CodeRun

/-- The code point lies in the run. -/
def Holds (r : CodeRun) (n : Nat) : Prop :=
  r.first ≤ n ∧ n ≤ r.last ∧ (n - r.first) % r.step = 0

instance (r : CodeRun) (n : Nat) : Decidable (r.Holds n) :=
  inferInstanceAs (Decidable (_ ∧ _ ∧ _))

/-- Each run starts and ends below the start of every later one. -/
def Ascending (rs : List CodeRun) : Prop :=
  rs.Pairwise fun r s => r.first ≤ s.first ∧ r.last < s.first

/-- Compares each run with the next one only. -/
def ascends : List CodeRun → Bool
  | r :: s :: rs => decide (r.first ≤ s.first ∧ r.last < s.first) && ascends (s :: rs)
  | _ => true

theorem ascending_of_ascends {rs : List CodeRun} (h : ascends rs = true) : Ascending rs := by
  fun_induction ascends rs with
  | case1 r s rs ih =>
    simp only [Bool.and_eq_true, decide_eq_true_eq] at h
    have tail := ih h.2
    refine List.pairwise_cons.2 ⟨fun t ht => ?_, tail⟩
    rcases List.mem_cons.1 ht with rfl | ht
    · exact h.1
    · have := (List.pairwise_cons.1 tail).1 t ht
      omega
  | case2 rs hrs =>
    match rs, hrs with
    | [], _ => exact List.Pairwise.nil
    | [r], _ => exact List.pairwise_singleton _ r
    | r :: s :: rs, hrs => exact (hrs r s rs rfl).elim

/-- Membership in an ascending list of runs. -/
def covers : List CodeRun → Nat → Bool
  | [], _ => false
  | r :: rs, n => if n ≤ r.last then decide (r.Holds n) else covers rs n

theorem covers_iff {rs : List CodeRun} (h : Ascending rs) (n : Nat) :
    covers rs n = true ↔ ∃ r ∈ rs, r.Holds n := by
  induction rs with
  | nil => simp [covers]
  | cons r rs ih =>
    obtain ⟨hr, hrs⟩ := List.pairwise_cons.1 h
    simp only [covers, List.mem_cons, exists_eq_or_imp]
    split
    · rename_i hn
      have later : ¬ ∃ s ∈ rs, s.Holds n := by
        rintro ⟨s, hs, hh⟩
        have := (hr s hs).2
        have := hh.1
        omega
      simp [later]
    · rename_i hn
      rw [ih hrs]
      exact ⟨Or.inr, fun hh => hh.resolve_left fun hr => hn hr.2.1⟩

/-- The code points of a run, in ascending order. -/
def members (r : CodeRun) : List Nat :=
  (List.range ((r.last - r.first) / r.step + 1)).map fun k => r.first + k * r.step

theorem Holds.mem_members {r : CodeRun} {n : Nat} (h : r.Holds n) : n ∈ r.members := by
  obtain ⟨hf, hl, hs⟩ := h
  refine List.mem_map.2 ⟨(n - r.first) / r.step, ?_, ?_⟩
  · exact List.mem_range.2 (Nat.lt_succ_of_le (Nat.div_le_div_right (by omega)))
  · have := Nat.div_add_mod' (n - r.first) r.step
    omega

/-! ## Lists without a common code point -/

/-- The two ascending lists share no code point. -/
def apart : List CodeRun → List CodeRun → Bool
  | [], _ => true
  | r :: rs, ss =>
    match ss.dropWhile fun s => s.last < r.first with
    | rest =>
      ((rest.takeWhile fun s => s.first ≤ r.last).all fun s =>
        r.members.all fun n => !decide (s.Holds n)) && apart rs rest

theorem lt_first_of_mem_dropWhile {ss : List CodeRun} (h : Ascending ss) {m : Nat} {s : CodeRun}
    (hs : s ∈ ss.dropWhile fun s => s.first ≤ m) : m < s.first := by
  induction ss with
  | nil => simp at hs
  | cons t ss ih =>
    obtain ⟨ht, hss⟩ := List.pairwise_cons.1 h
    rw [List.dropWhile_cons] at hs
    split at hs
    · exact ih hss hs
    · rename_i hm
      simp only [decide_eq_true_eq] at hm
      rcases List.mem_cons.1 hs with rfl | hs
      · omega
      · have := (ht s hs).1
        omega

theorem not_holds_of_apart {rs ss : List CodeRun} (hrs : Ascending rs) (hss : Ascending ss)
    (h : apart rs ss = true) {r s : CodeRun} (hr : r ∈ rs) (hs : s ∈ ss) {n : Nat}
    (hn : r.Holds n) : ¬ s.Holds n := by
  induction rs generalizing ss with
  | nil => simp at hr
  | cons t rs ih =>
    obtain ⟨ht, hrs⟩ := List.pairwise_cons.1 hrs
    simp only [apart, Bool.and_eq_true, List.all_eq_true, Bool.not_eq_true',
      decide_eq_false_iff_not] at h
    have first_le : t.first ≤ n := by
      rcases List.mem_cons.1 hr with rfl | hr
      · exact hn.1
      · exact Nat.le_trans (ht r hr).1 hn.1
    rw [← List.takeWhile_append_dropWhile (p := fun s => s.last < t.first) (l := ss),
      List.mem_append] at hs
    rcases hs with hs | hs
    · have := List.all_eq_true.1 List.all_takeWhile s hs
      simp only [decide_eq_true_eq] at this
      exact fun hh => absurd hh.2.1 (by omega)
    · have hrest := hss.sublist (List.dropWhile_sublist fun s => s.last < t.first)
      rcases List.mem_cons.1 hr with rfl | hr
      · rw [← List.takeWhile_append_dropWhile (p := fun s => s.first ≤ r.last)
          (l := ss.dropWhile _), List.mem_append] at hs
        rcases hs with hs | hs
        · exact h.1 s hs n hn.mem_members
        · have := lt_first_of_mem_dropWhile hrest hs
          exact fun hh => absurd hh.1 (by have := hn.2.1; omega)
      · exact ih hrs hrest h.2 hr hs

theorem not_covers_of_apart {rs ss : List CodeRun} (hrs : Ascending rs) (hss : Ascending ss)
    (h : apart rs ss = true) {n : Nat} (hn : covers rs n = true) : covers ss n = false := by
  obtain ⟨r, hr, hrn⟩ := (covers_iff hrs n).1 hn
  refine Bool.eq_false_iff.2 fun hc => ?_
  obtain ⟨s, hs, hsn⟩ := (covers_iff hss n).1 hc
  exact not_holds_of_apart hrs hss h hr hs hrn hsn

end CodeRun

end NormalGrammar.Unicode
