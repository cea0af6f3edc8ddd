import NormalGrammar.Proofs.Sampling.Growth

/-!
# Which words pick which candidate

Every candidate is picked by some word as long as there are fewer than `2 ^ 32` of them
(`exists_index?_eq_some`). Hence any list of choices is made by a source that begins with the
right words (`exists_makes`).
-/

namespace NormalGrammar.Source

variable {n i : Nat} {s : Source}

theorem le_zone_succ (n : Nat) : n ≤ zone n + 1 := by
  have : n * 1 ≤ n * 2 ^ leadingZeros n := Nat.mul_le_mul_left n (Nat.two_pow_pos _)
  unfold zone
  rw [Nat.shiftLeft_eq]
  omega

/-- The least word whose product with `n` reaches `i * 2 ^ 32` overshoots it by less than `n`. -/
theorem exists_index?_eq_some (hi : i < n) (hn : n < UInt32.size) :
    ∃ v : UInt32, index? n v = some i := by
  have hzone := le_zone_succ n
  obtain ⟨q, r, hqr, hr⟩ : ∃ q r, q * n = UInt32.size * i + r ∧ r < n := by
    have hdiv := Nat.div_add_mod' (UInt32.size * i + (n - 1)) n
    have hmod := Nat.mod_lt (UInt32.size * i + (n - 1)) (Nat.zero_lt_of_lt hi)
    exact ⟨(UInt32.size * i + (n - 1)) / n, n - 1 - (UInt32.size * i + (n - 1)) % n,
      by omega, by omega⟩
  have hq : q < UInt32.size := by
    have hle : UInt32.size * (i + 1) ≤ UInt32.size * n := Nat.mul_le_mul_left _ hi
    have : q * n < UInt32.size * n := by
      rw [Nat.mul_succ] at hle
      omega
    exact Nat.lt_of_mul_lt_mul_right this
  refine ⟨UInt32.ofNat q, ?_⟩
  have hto : (UInt32.ofNat q).toNat = q := UInt32.toNat_ofNat_of_lt' hq
  have hsize : r < UInt32.size := Nat.lt_trans hr hn
  rw [index?, hto, hqr, Nat.mul_add_mod, Nat.mod_eq_of_lt hsize, if_pos (by omega),
    Nat.mul_add_div (by decide), Nat.div_eq_of_lt hsize, Nat.add_zero]

theorem choose_of_index?_eq_some (hn : 0 < n) (h : index? n s.current = some i) :
    choose n hn s = (⟨i, index?_lt hn h⟩, s.next) := by
  rw [choose]
  split
  · rename_i j hj
    rw [hj] at h
    obtain rfl := Option.some.inj h
    rfl
  · rename_i hnone
    rw [hnone] at h
    cases h

theorem choose_of_index?_eq_none (hn : 0 < n) (h : index? n s.current = none) :
    choose n hn s = choose n hn s.next := by
  rw [choose]
  split
  · rename_i i hi
    rw [hi] at h
    cases h
  · rfl

/-- The words that come next are the given ones. -/
def Begins (s : Source) (ws : List UInt32) : Prop :=
  ∀ k v, ws[k]? = some v → s.word (s.position + k) = v

theorem begins_ofList (ws : List UInt32) : (ofList ws).Begins ws := by
  intro k v hv
  simp [ofList, hv]

theorem Begins.current {v : UInt32} {ws : List UInt32} (h : s.Begins (v :: ws)) :
    s.current = v := h 0 v rfl

theorem Begins.next {v : UInt32} {ws : List UInt32} (h : s.Begins (v :: ws)) :
    s.next.Begins ws := by
  intro k u hu
  have := h (k + 1) u (by simpa using hu)
  show s.word (s.position + 1 + k) = u
  rwa [Nat.add_assoc, Nat.add_comm 1 k]

theorem Begins.append_singleton {v : UInt32} {ws : List UInt32} (h : s.Begins ws)
    (hv : s.word (s.position + ws.length) = v) : s.Begins (ws ++ [v]) := by
  intro k u hu
  rw [List.getElem?_append] at hu
  split at hu
  · exact h k u hu
  · rename_i hk
    obtain ⟨hlt, rfl⟩ := List.getElem?_eq_some_iff.1 hu
    obtain rfl : k = ws.length := by
      rw [List.length_singleton] at hlt
      omega
    simpa using hv

theorem exists_makes {cs : List (Nat × Nat)} (hcs : ∀ c ∈ cs, c.2 < c.1 ∧ c.1 < UInt32.size) :
    ∃ ws : List UInt32, ∀ s : Source, s.Begins ws → ∃ s', Makes choose cs s s' := by
  induction cs with
  | nil =>
    refine ⟨[], ?_⟩
    intro s _
    exact ⟨s, rfl⟩
  | cons c cs ih =>
    obtain ⟨⟨hi, hn⟩, hcs⟩ := List.forall_mem_cons.1 hcs
    obtain ⟨v, hv⟩ := exists_index?_eq_some hi hn
    obtain ⟨ws, hws⟩ := ih hcs
    refine ⟨v :: ws, ?_⟩
    intro s hs
    obtain ⟨s', made⟩ := hws s.next hs.next
    have hpos : 0 < c.1 := Nat.zero_lt_of_lt hi
    have hc := choose_of_index?_eq_some hpos (hs.current ▸ hv)
    refine ⟨s', hpos, ?_, ?_⟩
    · rw [hc]
    · rwa [hc]

end NormalGrammar.Source
