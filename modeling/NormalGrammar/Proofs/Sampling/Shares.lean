import Mathlib.Algebra.Order.Floor.Div
import Mathlib.Data.FinEnum
import Mathlib.Data.Set.Card
import Mathlib.Order.Interval.Finset.Nat
import NormalGrammar.Proofs.Sampling.Picking

/-!
# The shares of the rules

The words that pick one index have their products with the number `n` of candidates in one
window. Its length is a multiple of `n`, so that it holds equally many multiples of `n` wherever
it starts: every index is picked by `2 ^ leadingZeros n` words (`ncard_index?`). The other words,
no more than half of all, are passed over (`ncard_index?_eq_none`).

A word that is next in the source either makes `pick` take one candidate at once, or is passed
over for the word after it. Each candidate is taken for equally many words
(`ncard_takes_mem`), so a right side is taken in proportion to the number of rules that give it
to the nonterminal and fit into the budget (`candidates_share_words`).
-/

namespace NormalGrammar

namespace Source

variable {n i : Nat} {v : UInt32} {s : Source}

/-! ## Leading zeros -/

/-- Moved to the left by its leading zeros, a number fills 32 bits. -/
theorem shifted_bounds (hn : 0 < n) (hlt : n < 2 ^ 32) :
    2 ^ 31 ≤ n * 2 ^ leadingZeros n ∧ n * 2 ^ leadingZeros n < 2 ^ 32 := by
  have hlog : n.log2 < 32 := (Nat.log2_lt hn.ne').2 hlt
  have low : 2 ^ n.log2 ≤ n := Nat.log2_self_le hn.ne'
  have high : n < 2 ^ (n.log2 + 1) := Nat.lt_log2_self
  unfold leadingZeros
  constructor
  · calc 2 ^ 31 = 2 ^ n.log2 * 2 ^ (31 - n.log2) := by rw [← Nat.pow_add]; congr 1; omega
      _ ≤ n * 2 ^ (31 - n.log2) := Nat.mul_le_mul_right _ low
  · calc n * 2 ^ (31 - n.log2) < 2 ^ (n.log2 + 1) * 2 ^ (31 - n.log2) :=
          Nat.mul_lt_mul_of_pos_right high (Nat.two_pow_pos _)
      _ = 2 ^ 32 := by rw [← Nat.pow_add]; congr 1; omega

theorem leadingZeros_eq_clz (hn : 0 < n) (hlt : n < 2 ^ 32) :
    leadingZeros n = (BitVec.ofNat 32 n).clz.toNat := by
  have hto : (BitVec.ofNat 32 n).toNat = n := by
    rw [BitVec.toNat_ofNat, Nat.mod_eq_of_lt hlt]
  have hne : BitVec.ofNat 32 n ≠ 0#32 := by
    intro h0
    rw [h0] at hto
    exact hn.ne hto
  have low := BitVec.two_pow_sub_clz_le_toNat_of_ne_zero (by decide) hne
  have high := BitVec.toNat_lt_two_pow_sub_clz (x := BitVec.ofNat 32 n)
  rw [hto] at low high
  have hclz : (BitVec.ofNat 32 n).clz.toNat < 32 := BitVec.lt_def.1 (BitVec.clz_lt_iff_ne_zero.2 hne)
  generalize (BitVec.ofNat 32 n).clz.toNat = z at low high hclz
  have hlog : n.log2 = 31 - z := by
    rw [Nat.log2_eq_iff hn.ne']
    refine ⟨low, ?_⟩
    rwa [show 31 - z + 1 = 32 - z by omega]
  unfold leadingZeros
  omega

/-! ## Windows -/

theorem zone_eq (n : Nat) : zone n = n * 2 ^ leadingZeros n - 1 := by
  rw [zone, Nat.shiftLeft_eq]

/-- The words that pick an index have their products with `n` in one window. -/
theorem index?_eq_some_iff (hn : 0 < n) (hlt : n < 2 ^ 32) :
    index? n v = some i ↔
      2 ^ 32 * i ≤ n * v.toNat ∧ n * v.toNat < 2 ^ 32 * i + n * 2 ^ leadingZeros n := by
  obtain ⟨low, high⟩ := shifted_bounds hn hlt
  have hsize : UInt32.size = 2 ^ 32 := rfl
  rw [index?, zone_eq, Nat.mul_comm v.toNat n, hsize, Option.ite_none_right_eq_some,
    Option.some.injEq]
  have := Nat.div_add_mod (n * v.toNat) (2 ^ 32)
  have := Nat.mod_lt (n * v.toNat) (Nat.two_pow_pos 32)
  constructor
  · rintro ⟨hmod, rfl⟩
    omega
  · rintro ⟨hle, hwin⟩
    have hdiv : n * v.toNat / 2 ^ 32 = i := by omega
    exact ⟨by omega, hdiv⟩

/-- A window whose length is a multiple of `n` holds equally many multiples of `n` wherever it
starts. -/
theorem window_eq_Ico (hn : 0 < n) (a m : Nat) :
    {k : Nat | a ≤ n * k ∧ n * k < a + n * m} = Set.Ico (a ⌈/⌉ n) (a ⌈/⌉ n + m) := by
  have shifted : (a + n * m) ⌈/⌉ n = a ⌈/⌉ n + m := by
    rw [Nat.ceilDiv_eq_add_pred_div, Nat.ceilDiv_eq_add_pred_div, ← Nat.add_mul_div_left _ _ hn]
    congr 1
    omega
  ext k
  have low : a ⌈/⌉ n ≤ k ↔ a ≤ n * k := ceilDiv_le_iff_le_mul hn
  have high : a ⌈/⌉ n + m ≤ k ↔ a + n * m ≤ n * k := by
    rw [← shifted]
    exact ceilDiv_le_iff_le_mul hn
  rw [Set.mem_Ico, low, ← Nat.not_le, high, Nat.not_le]
  rfl

/-! ## Shares -/

/-- Every index is picked by equally many words. -/
theorem ncard_index? (hi : i < n) (hlt : n < 2 ^ 32) :
    {v : UInt32 | index? n v = some i}.ncard = 2 ^ leadingZeros n := by
  have hn : 0 < n := Nat.zero_lt_of_lt hi
  have image : UInt32.toNat '' {v : UInt32 | index? n v = some i} =
      {k : Nat | 2 ^ 32 * i ≤ n * k ∧ n * k < 2 ^ 32 * i + n * 2 ^ leadingZeros n} := by
    ext k
    constructor
    · rintro ⟨v, hv, rfl⟩
      exact (index?_eq_some_iff hn hlt).1 hv
    · rintro ⟨low, high⟩
      -- the window of the last index ends before the product of `n` with `2 ^ 32`
      have hk : k < 2 ^ 32 := by
        have hwin := (shifted_bounds hn hlt).2
        have hle : 2 ^ 32 * (i + 1) ≤ 2 ^ 32 * n := Nat.mul_le_mul_left _ hi
        have : n * k < n * 2 ^ 32 := by
          rw [Nat.mul_comm n (2 ^ 32)]
          omega
        exact Nat.lt_of_mul_lt_mul_left this
      have hto : (UInt32.ofNat k).toNat = k := UInt32.toNat_ofNat_of_lt' hk
      refine ⟨UInt32.ofNat k, (index?_eq_some_iff hn hlt).2 ?_, hto⟩
      rw [hto]
      exact ⟨low, high⟩
  have injective : Function.Injective UInt32.toNat := fun _ _ => UInt32.toNat_inj.1
  rw [← Set.ncard_image_of_injective _ injective, image, window_eq_Ico hn, ← Finset.coe_Ico,
    Set.ncard_coe_finset, Nat.card_Ico, Nat.add_sub_cancel_left]

theorem card_UInt32 : Nat.card UInt32 = 2 ^ 32 := by
  rw [Nat.card_eq_fintype_card, ← FinEnum.card_eq_fintypeCard, FinEnum.card_UInt32]

/-- Several indices together have the sum of their shares. -/
theorem ncard_index?_mem {is : Finset Nat} (his : ∀ i ∈ is, i < n) (hlt : n < 2 ^ 32) :
    {v : UInt32 | ∃ i ∈ is, index? n v = some i}.ncard = is.card * 2 ^ leadingZeros n := by
  induction is using Finset.induction_on with
  | empty => simp
  | insert i is fresh ih =>
    obtain ⟨hi, his⟩ := Finset.forall_mem_insert _ _ _ |>.1 his
    have split : {v : UInt32 | ∃ j ∈ insert i is, index? n v = some j} =
        {v | index? n v = some i} ∪ {v | ∃ j ∈ is, index? n v = some j} := by
      ext v
      exact Finset.exists_mem_insert _ _ _
    have disjoint : Disjoint {v : UInt32 | index? n v = some i}
        {v | ∃ j ∈ is, index? n v = some j} := by
      rw [Set.disjoint_left]
      rintro v hv ⟨j, hj, hvj⟩
      obtain rfl := Option.some.inj (hv.symm.trans hvj)
      exact fresh hj
    rw [split, Set.ncard_union_eq disjoint, ncard_index? hi hlt, ih his,
      Finset.card_insert_of_notMem fresh, Nat.add_comm, Nat.succ_mul]

/-- The words that are passed over are those that are no index's share. -/
theorem ncard_index?_eq_none (hn : 0 < n) (hlt : n < 2 ^ 32) :
    {v : UInt32 | index? n v = none}.ncard = 2 ^ 32 - n * 2 ^ leadingZeros n := by
  have compl : {v : UInt32 | index? n v = none} =
      {v | ∃ i ∈ Finset.range n, index? n v = some i}ᶜ := by
    ext v
    rw [Set.mem_compl_iff]
    constructor
    · rintro hv ⟨i, -, hi⟩
      cases hv.symm.trans hi
    · intro hv
      rcases h : index? n v with _ | i
      · exact h
      · exact absurd ⟨i, Finset.mem_range.2 (index?_lt hn h), h⟩ hv
  rw [compl, Set.ncard_compl, card_UInt32, ncard_index?_mem (fun i => Finset.mem_range.1) hlt,
    Finset.card_range]

/-! ## Single words -/

theorem position_lt_choose (hn : 0 < n) (s : Source) :
    s.position < (choose n hn s).2.position := by
  fun_induction choose n hn s with
  | case1 s i h => exact Nat.lt_succ_self _
  | case2 s h ih => exact Nat.lt_trans (Nat.lt_succ_self _) ih

/-- A choice costs one word if and only if that word picks the index. -/
theorem makes_next_iff : Makes choose [(n, i)] s s.next ↔ 0 < n ∧ index? n s.current = some i := by
  simp only [Makes]
  constructor
  · rintro ⟨hn, rfl, he⟩
    refine ⟨hn, ?_⟩
    rcases h : index? n s.current with _ | j
    · have := position_lt_choose hn s.next
      rw [← choose_of_index?_eq_none hn h, he] at this
      exact absurd this (Nat.lt_irrefl _)
    · rw [choose_of_index?_eq_some hn h]
  · rintro ⟨hn, h⟩
    refine ⟨hn, ?_⟩
    rw [choose_of_index?_eq_some hn h]
    exact ⟨rfl, rfl⟩

end Source

namespace Grammar

variable {g : Grammar} {h : Heights} {x : Char} {budget n : Nat} {v : UInt32}
  {kp : Nat × Production}

/-! ## Outcomes of a word -/

/-- Wherever the word is next, the rule is taken at the cost of this word alone. -/
def Takes (g : Grammar) (h : Heights) (x : Char) (budget : Nat) (v : UInt32)
    (kp : Nat × Production) : Prop :=
  ∀ s : Source, s.current = v → pick Source.choose g h x budget s = (some kp, s.next)

/-- Wherever the word is next, the pick is made as if it were not there. -/
def PassesOver (g : Grammar) (h : Heights) (x : Char) (budget : Nat) (v : UInt32) : Prop :=
  ∀ s : Source, s.current = v →
    pick Source.choose g h x budget s = pick Source.choose g h x budget s.next

/-- The number of rules, with repetitions, that give the nonterminal the right side and whose
height is at most the budget. -/
def weight (g : Grammar) (h : Heights) (x : Char) (budget : Nat) (p : Production) : Nat :=
  g.rules.countP fun r => r.left = x ∧ r.right = p ∧ (h.ofProduction? r.right).any (· ≤ budget)

theorem length_filter_candidates (p : Production) :
    ((g.candidates h x budget).filter (·.2 = p)).length = g.weight h x budget p := by
  have right : ((g.candidates h x budget).filter (·.2 = p)).length =
      ((g.candidates h x budget).map (·.2)).countP (· = p) := by
    rw [List.countP_map, List.countP_eq_length_filter]
    rfl
  rw [right, map_snd_candidates, List.countP_filter, alternatives, List.countP_map,
    List.countP_filter]
  refine List.countP_congr fun r _ => ?_
  simp only [Function.comp_apply, Bool.and_eq_true, beq_iff_eq, decide_eq_true_eq, fits_eq_any]
  constructor
  · rintro ⟨⟨hp, hfit⟩, hl⟩
    exact ⟨hl, hp, hfit⟩
  · rintro ⟨hl, hp, hfit⟩
    exact ⟨⟨hp, hfit⟩, hl⟩

theorem takes_iff : g.Takes h x budget v kp ↔ kp ∈ g.candidates h x budget ∧
    Source.index? (g.candidates h x budget).length v =
      some ((g.candidates h x budget).idxOf kp) := by
  simp only [Takes, pick_eq_some_iff, choiceOf, Source.makes_next_iff]
  constructor
  · intro taken
    obtain ⟨hmem, -, hv⟩ := taken (.ofList [v]) rfl
    exact ⟨hmem, hv⟩
  · rintro ⟨hmem, hv⟩ s rfl
    exact ⟨hmem, List.length_pos_of_mem hmem, hv⟩

theorem exists_takes_iff (hn : 0 < (g.candidates h x budget).length) :
    (∃ kp, g.Takes h x budget v kp) ↔ Source.index? (g.candidates h x budget).length v ≠ none := by
  simp only [takes_iff]
  constructor
  · rintro ⟨kp, -, hv⟩ none
    rw [hv] at none
    cases none
  · intro some
    obtain ⟨i, hi⟩ := Option.ne_none_iff_exists'.1 some
    have hlt := Source.index?_lt hn hi
    refine ⟨_, List.getElem_mem hlt, ?_⟩
    rw [hi, (nodup_candidates g _ x budget).idxOf_getElem]

/-- A word that is passed over costs a further one. -/
theorem Takes.not_passesOver (hv : g.Takes h x budget v kp) : ¬ g.PassesOver h x budget v := by
  intro passes
  have hn := List.length_pos_of_mem (takes_iff.1 hv).1
  have taken := hv (.ofList [v]) rfl
  rw [passes (.ofList [v]) rfl, pick, dif_pos hn] at taken
  have := Source.position_lt_choose hn (Source.ofList [v]).next
  rw [(Prod.mk.inj taken).2] at this
  exact absurd this (Nat.lt_irrefl _)

/-- Every word takes a candidate or is passed over, and none does both. -/
theorem passesOver_iff (hn : 0 < (g.candidates h x budget).length) :
    g.PassesOver h x budget v ↔ ¬ ∃ kp, g.Takes h x budget v kp := by
  constructor
  · rintro passes ⟨kp, hv⟩
    exact hv.not_passesOver passes
  · rw [exists_takes_iff hn, not_not]
    rintro hv s rfl
    simp only [pick, dif_pos hn]
    rw [Source.choose_of_index?_eq_none hn hv]

/-! ## Counting words -/

/-- Each of some candidates is taken for equally many words. -/
theorem ncard_takes_mem {L : List (Nat × Production)} (nodup : L.Nodup)
    (hL : ∀ kp ∈ L, kp ∈ g.candidates h x budget)
    (hlt : (g.candidates h x budget).length < 2 ^ 32) :
    {v | ∃ kp ∈ L, g.Takes h x budget v kp}.ncard =
      L.length * 2 ^ Source.leadingZeros (g.candidates h x budget).length := by
  generalize hcs : g.candidates h x budget = cs at hL hlt
  have indices : {v | ∃ kp ∈ L, g.Takes h x budget v kp} =
      {v | ∃ i ∈ (L.map cs.idxOf).toFinset, Source.index? cs.length v = some i} := by
    ext v
    simp only [takes_iff, hcs, List.mem_toFinset, List.mem_map, Set.mem_ofPred_eq]
    constructor
    · rintro ⟨kp, hkp, -, hv⟩
      exact ⟨_, ⟨kp, hkp, rfl⟩, hv⟩
    · rintro ⟨_, ⟨kp, hkp, rfl⟩, hv⟩
      exact ⟨kp, hkp, hL kp hkp, hv⟩
  have lower : ∀ i ∈ (L.map cs.idxOf).toFinset, i < cs.length := by
    simp only [List.mem_toFinset, List.mem_map]
    rintro _ ⟨kp, hkp, rfl⟩
    exact List.idxOf_lt_length_of_mem (hL kp hkp)
  -- a rule that is written twice is two candidates, told apart by their positions
  have distinct : (L.map cs.idxOf).Nodup :=
    nodup.map_on fun a ha b hb he => (List.idxOf_inj (hL a ha)).1 he
  rw [indices, Source.ncard_index?_mem lower hlt, List.toFinset_card_of_nodup distinct,
    List.length_map]

theorem ncard_takes (hkp : kp ∈ g.candidates h x budget)
    (hlt : (g.candidates h x budget).length < 2 ^ 32) :
    {v | g.Takes h x budget v kp}.ncard =
      2 ^ Source.leadingZeros (g.candidates h x budget).length := by
  have := ncard_takes_mem (List.nodup_singleton kp) (List.forall_mem_singleton.2 hkp) hlt
  simpa using this

theorem ncard_takes_right (p : Production) (hlt : (g.candidates h x budget).length < 2 ^ 32) :
    {v | ∃ k, g.Takes h x budget v (k, p)}.ncard = g.weight h x budget p *
      2 ^ Source.leadingZeros (g.candidates h x budget).length := by
  rw [← length_filter_candidates, ← ncard_takes_mem ((nodup_candidates g _ x budget).filter _)
    (fun kp hkp => (List.mem_filter.1 hkp).1) hlt]
  congr 1
  ext v
  constructor
  · rintro ⟨k, hk⟩
    exact ⟨(k, p), List.mem_filter.2 ⟨(takes_iff.1 hk).1, decide_eq_true rfl⟩, hk⟩
  · rintro ⟨⟨k, q⟩, hkq, hk⟩
    obtain rfl : q = p := of_decide_eq_true (List.mem_filter.1 hkq).2
    exact ⟨k, hk⟩

theorem ncard_passesOver (hn : 0 < (g.candidates h x budget).length)
    (hlt : (g.candidates h x budget).length < 2 ^ 32) :
    {v | g.PassesOver h x budget v}.ncard = 2 ^ 32 - (g.candidates h x budget).length *
      2 ^ Source.leadingZeros (g.candidates h x budget).length := by
  rw [← Source.ncard_index?_eq_none hn hlt]
  congr 1
  ext v
  have := passesOver_iff (v := v) hn
  rwa [exists_takes_iff hn, not_not] at this

/-! ## Calls -/

/-- What is left of a call once it has taken a right side. -/
def follow {σ : Type} (choose : Chooser σ) (g : Grammar) (h : Heights) (budget : Nat) :
    Production → Array Char → σ → Except SampleFault (Array Char) × σ
  | .terminal c, word, s => (.ok (word.push c), s)
  | .pair b c, word, s =>
    match expand choose g h budget b word s with
    | (.error e, s) => (.error e, s)
    | (.ok word, s) => expand choose g h budget c word s

/-- A call depends on the source only through its pick. -/
theorem expand_eq_follow {σ : Type} (choose : Chooser σ) (h : Heights) (word : Array Char) (s : σ) :
    expand choose g h budget x word s =
      match pick choose g h x budget s with
      | (none, s) => (.error (.unproductive x), s)
      | (some (_, p), s) => follow choose g h (budget - 1) p word s := by
  rcases budget with _ | budget
  · have none_fits : pick choose g h x 0 s = (none, s) := by simp [pick, candidates_zero]
    rw [none_fits]
    rfl
  · rw [expand, Nat.add_sub_cancel]
    rcases pick choose g h x (budget + 1) s with ⟨_ | ⟨k, c | ⟨b, c⟩⟩, s⟩ <;> rfl

/-- **Shares.** Let `n` candidates fit into the budget. Of the `2 ^ 32` words that may come next,
each candidate is taken at once for `2 ^ lz`, where `lz` counts the leading zero bits of `n`, and
so a right side for as many as that times the number of rules that give it. The remaining words,
at most half of all, are passed over, and the call goes on with the word after them. This is so
for any heights `h`, and hence for the least ones. -/
theorem candidates_share_words (hn : (g.candidates h x budget).length = n) (hpos : 0 < n)
    (hlt : n < 2 ^ 32) :
    (∀ kp ∈ g.candidates h x budget,
      {v | g.Takes h x budget v kp}.ncard = 2 ^ Source.leadingZeros n) ∧
    (∀ p, {v | ∃ k, g.Takes h x budget v (k, p)}.ncard =
      g.weight h x budget p * 2 ^ Source.leadingZeros n) ∧
    ({v | g.PassesOver h x budget v}.ncard = 2 ^ 32 - n * 2 ^ Source.leadingZeros n ∧
      n * 2 ^ Source.leadingZeros n < 2 ^ 32 ∧
      2 * {v | g.PassesOver h x budget v}.ncard ≤ 2 ^ 32) ∧
    Source.leadingZeros n = (BitVec.ofNat 32 n).clz.toNat ∧
    ∀ v, (g.PassesOver h x budget v ↔ ¬ ∃ kp, g.Takes h x budget v kp) ∧
      ∀ (s : Source) (word : Array Char), s.current = v →
        (∀ k p, g.Takes h x budget v (k, p) →
          expand Source.choose g h budget x word s =
            follow Source.choose g h (budget - 1) p word s.next) ∧
        (g.PassesOver h x budget v →
          expand Source.choose g h budget x word s =
            expand Source.choose g h budget x word s.next) := by
  subst hn
  obtain ⟨low, high⟩ := Source.shifted_bounds hpos hlt
  have passed := ncard_passesOver hpos hlt
  refine ⟨fun kp hkp => ncard_takes hkp hlt, fun p => ncard_takes_right p hlt,
    ⟨passed, high, by omega⟩, Source.leadingZeros_eq_clz hpos hlt, ?_⟩
  intro v
  refine ⟨passesOver_iff hpos, ?_⟩
  intro s word hs
  constructor
  · intro k p taken
    rw [expand_eq_follow, taken s hs]
  · intro passes
    rw [expand_eq_follow, passes s hs, ← expand_eq_follow]

/-- A rule that is written twice, with another one in between. -/
def weighted : Grammar :=
  .ofRules [⟨'S', .terminal 's'⟩, ⟨'S', .pair 'S' 'S'⟩, ⟨'S', .terminal 's'⟩]

theorem weighted_takes_s_twice_as_often :
    Heights.least weighted = ⟨[('S', 1)]⟩ ∧
      (weighted.candidates ⟨[('S', 1)]⟩ 'S' 2).length = 3 ∧ 0 < 3 ∧ 3 < 2 ^ 32 ∧
      {v | ∃ k, weighted.Takes ⟨[('S', 1)]⟩ 'S' 2 v (k, .terminal 's')}.ncard = 2 * 2 ^ 30 ∧
      {v | ∃ k, weighted.Takes ⟨[('S', 1)]⟩ 'S' 2 v (k, .pair 'S' 'S')}.ncard = 1 * 2 ^ 30 ∧
      {v | weighted.PassesOver ⟨[('S', 1)]⟩ 'S' 2 v}.ncard = 2 ^ 30 := by
  have low : Heights.least weighted = ⟨[('S', 1)]⟩ := by
    rw [Heights.least, Heights.settle, if_neg (by decide), Heights.settle, if_pos (by decide)]
    rfl
  have three : (weighted.candidates ⟨[('S', 1)]⟩ 'S' 2).length = 3 := by decide
  have twice : weighted.weight ⟨[('S', 1)]⟩ 'S' 2 (.terminal 's') = 2 := by decide
  have once : weighted.weight ⟨[('S', 1)]⟩ 'S' 2 (.pair 'S' 'S') = 1 := by decide
  have zeros : Source.leadingZeros 3 = 30 := by decide +kernel
  obtain ⟨-, takes, ⟨passed, -⟩, -⟩ := candidates_share_words three (by decide) (by decide)
  rw [zeros] at takes passed
  refine ⟨low, three, by decide, by decide, ?_, ?_, passed⟩
  · rw [takes, twice]
  · rw [takes, once]

end Grammar

end NormalGrammar
