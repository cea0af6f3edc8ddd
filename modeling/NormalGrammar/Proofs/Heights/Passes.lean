import Mathlib.Data.Nat.SuccPred
import NormalGrammar.Proofs.Heights.Least

/-!
# The loop behind the least heights

The loop keeps a flag beside the heights. A pass clears the flag and gives each rule its turn, a
rule that records a height sets the flag, and the first pass that leaves it cleared is the last.
A pass records what a round does, and it leaves the flag cleared if and only if the round changes
nothing (`changed_pass`), for no later turn undoes a change. So the loop ends where `settle` does,
and it ends with the least heights of the derivation trees.

Between any two turns of the loop (`moment`) the recorded heights are heights of trees, none of
them is above the number of recorded nonterminals, and from then on none of them rises (`Lowers`).
Each pass carries the bounds one level up: what is right for all trees of height `k` before a pass
is right for all trees of height `k + 1` after it, in whatever order the rules have their turns
(`Reaches.round`). So the passes come to an end as soon as the highest of the least heights is
reached.
-/

namespace NormalGrammar.Heights

/-! ## The loop -/

section Passes

/-- The heights, and whether the pass under way has recorded any. -/
structure LoopState where
  heights : Heights
  changed : Bool

/-- The turn of one rule. -/
def LoopState.visit (s : LoopState) (r : Rule) : LoopState :=
  match s.heights.ofProduction? r.right with
  | some n => if s.heights.improves r.left n then ⟨s.heights.record r.left n, true⟩ else s
  | none => s

/-- One pass over the rules, in order. -/
def pass (rules : List Rule) (h : Heights) : LoopState := rules.foldl .visit ⟨h, false⟩

/-- The heights after the first `k` passes. -/
def afterPasses (rules : List Rule) : Nat → Heights
  | 0 => empty
  | k + 1 => (pass rules (afterPasses rules k)).heights

variable {g : Grammar} {rules : List Rule} {h : Heights} {s : LoopState} {r : Rule}

/-! ## One pass -/

theorem LoopState.visit_of_relax_eq (same : s.heights.relax r = s.heights) : s.visit r = s := by
  unfold visit
  split
  · rename_i n hp
    obtain ⟨m, hm, hle⟩ := closedUnder_of_relax_eq same n hp
    rw [improves, hm, if_neg (by simpa using hle)]
  · rfl

theorem LoopState.visit_of_relax_ne (news : s.heights.relax r ≠ s.heights) :
    s.visit r = ⟨s.heights.relax r, true⟩ := by
  unfold visit
  unfold relax at news ⊢
  rcases hp : s.heights.ofProduction? r.right with _ | n
  · rw [hp] at news
    exact absurd rfl news
  · rw [hp] at news
    by_cases hi : s.heights.improves r.left n = true
    · simp only [if_pos hi]
    · simp only [if_neg hi] at news
      exact absurd rfl news

theorem heights_foldl_visit (rs : List Rule) (s : LoopState) :
    (rs.foldl .visit s).heights = rs.foldl relax s.heights := by
  induction rs generalizing s with
  | nil => rfl
  | cons r rs ih =>
    rw [List.foldl_cons, List.foldl_cons, ih]
    by_cases same : s.heights.relax r = s.heights
    · rw [LoopState.visit_of_relax_eq same, same]
    · rw [LoopState.visit_of_relax_ne same]

/-- The flag tells whether anything has changed: a change stays, and so does the flag. -/
theorem changed_foldl_visit (rs : List Rule) (s : LoopState) :
    (rs.foldl .visit s).changed = true ↔
      s.changed = true ∨ rs.foldl relax s.heights ≠ s.heights := by
  induction rs generalizing s with
  | nil => simp
  | cons r rs ih =>
    rw [List.foldl_cons, List.foldl_cons, ih]
    by_cases same : s.heights.relax r = s.heights
    · rw [LoopState.visit_of_relax_eq same, same]
    · rw [LoopState.visit_of_relax_ne same]
      have stays : rs.foldl relax (s.heights.relax r) ≠ s.heights := by
        intro undone
        have all : ∀ q ∈ r :: rs, s.heights.relax q = s.heights :=
          relax_eq_of_foldl_relax_eq (fun _ hq => hq) undone
        exact same (all r List.mem_cons_self)
      simp [stays]

theorem heights_pass (rules : List Rule) (h : Heights) : (pass rules h).heights = round rules h :=
  heights_foldl_visit rules ⟨h, false⟩

theorem changed_pass : (pass rules h).changed = true ↔ round rules h ≠ h := by
  rw [pass, changed_foldl_visit]
  simp [round]

/-! ## All passes -/

/-- The rounds that `settle` repeats are passes, up to the first one that changes nothing. -/
theorem exists_settle_eq_afterPasses {i : Nat} (hi : afterPasses rules i = h)
    (before : ∀ j < i, (pass rules (afterPasses rules j)).changed = true) :
    ∃ k, (∀ j < k, (pass rules (afterPasses rules j)).changed = true) ∧
      (pass rules (afterPasses rules k)).changed = false ∧
      settle rules h = afterPasses rules (k + 1) := by
  fun_induction settle rules h generalizing i with
  | case1 h same =>
    subst hi
    refine ⟨i, before, ?_, ?_⟩
    · rw [Bool.eq_false_iff, ne_eq, changed_pass]
      exact not_not_intro same
    · rw [afterPasses, heights_pass, same]
  | case2 h news ih =>
    subst hi
    apply ih (i := i + 1)
    · rw [afterPasses, heights_pass]
    · intro j hj
      rcases Nat.lt_succ_iff_lt_or_eq.1 hj with hj | rfl
      · exact before j hj
      · exact changed_pass.2 news

theorem isSome_height?_least_iff {x : Char} :
    ((least g).height? x).isSome ↔ ∃ t : Tree, t.ValidFor g x := by
  rw [← not_iff_not, Option.not_isSome_iff_eq_none, height?_least_eq_none_iff, not_exists]

/-- **The loop ends with the least heights.** Some first pass changes nothing. The heights after it
are those that are found: a nonterminal is recorded if and only if it has a derivation tree, and
with the least height of its trees. -/
theorem loop_ends_with_least (g : Grammar) :
    (∃ k, (∀ j < k, (pass g.rules (afterPasses g.rules j)).changed = true) ∧
      (pass g.rules (afterPasses g.rules k)).changed = false ∧
      least g = afterPasses g.rules (k + 1)) ∧
    (∀ x, ((least g).height? x).isSome ↔ ∃ t : Tree, t.ValidFor g x) ∧
    ∀ x n, (least g).height? x = some n ↔
      IsLeast {m | ∃ t : Tree, t.ValidFor g x ∧ t.height = m} n := by
  refine ⟨?_, fun x => isSome_height?_least_iff, fun x n => height?_least_eq_some_iff⟩
  exact exists_settle_eq_afterPasses (i := 0) rfl fun j hj => absurd hj (Nat.not_lt_zero j)

end Passes

/-! ## Moments of the loop -/

variable {g : Grammar} {rules rs : List Rule} {h h₁ h₂ h₃ : Heights} {x : Char} {n : Nat}

/-- The state of the loop after `k` passes and the turns of `j` more rules. -/
def moment (rules : List Rule) (k j : Nat) : LoopState :=
  (rules.take j).foldl .visit ⟨afterPasses rules k, false⟩

/-- The heights of the trees of a nonterminal. -/
def treeHeights (g : Grammar) (x : Char) : Set Nat := {m | ∃ t : Tree, t.ValidFor g x ∧ t.height = m}

/-! ## No height rises -/

/-- What is recorded first is recorded second, and not higher. -/
def Lowers (h₁ h₂ : Heights) : Prop :=
  ∀ x n, h₁.height? x = some n → ∃ m ≤ n, h₂.height? x = some m

theorem Lowers.refl (h : Heights) : h.Lowers h := fun _ n hx => ⟨n, Nat.le_refl n, hx⟩

theorem Lowers.trans (h₁₂ : h₁.Lowers h₂) (h₂₃ : h₂.Lowers h₃) : h₁.Lowers h₃ := by
  intro x n hx
  obtain ⟨m, hmn, hm⟩ := h₁₂ x n hx
  obtain ⟨l, hlm, hl⟩ := h₂₃ x m hm
  exact ⟨l, hlm.trans hmn, hl⟩

theorem lowers_relax (h : Heights) (r : Rule) : h.Lowers (h.relax r) := by
  rcases relax_cases h r with ⟨e, -⟩ | ⟨n, -, news, e⟩
  · rw [e]
    exact .refl h
  · intro x m hx
    rw [e, height?_record]
    split
    · rename_i hxr
      subst hxr
      exact ⟨n, Nat.le_of_lt (news m hx), rfl⟩
    · exact ⟨m, Nat.le_refl m, hx⟩

theorem lowers_foldl_relax (rs : List Rule) (h : Heights) : h.Lowers (rs.foldl relax h) := by
  have step : ∀ k, h.Lowers k → ∀ r ∈ rs, h.Lowers (k.relax r) := by
    intro k hk r _
    exact hk.trans (lowers_relax k r)
  exact foldl_relax_induction step (fun _ hr => hr) (.refl h)

/-! ## From one moment to the next -/

theorem heights_moment (rules : List Rule) (k j : Nat) :
    (moment rules k j).heights = (rules.take j).foldl relax (afterPasses rules k) :=
  heights_foldl_visit _ _

/-- What the rules keep true is true at every moment. -/
theorem moment_induction {P : Heights → Prop} (start : P empty)
    (step : ∀ h, P h → ∀ r ∈ rules, P (h.relax r)) (k j : Nat) : P (moment rules k j).heights := by
  have passes : P (afterPasses rules k) := by
    induction k with
    | zero => exact start
    | succ k ih =>
      rw [afterPasses, heights_pass]
      exact foldl_relax_induction step (fun _ hr => hr) ih
  rw [heights_moment]
  exact foldl_relax_induction step (fun _ hr => List.mem_of_mem_take hr) passes

theorem lowers_moment_of_le {j j' : Nat} (rules : List Rule) (k : Nat) (hj : j ≤ j') :
    (moment rules k j).heights.Lowers (moment rules k j').heights := by
  obtain ⟨d, rfl⟩ := Nat.exists_eq_add_of_le hj
  rw [heights_moment, heights_moment, List.take_add, List.foldl_append]
  exact lowers_foldl_relax _ _

theorem lowers_moment_zero (rules : List Rule) (k j : Nat) :
    (moment rules k j).heights.Lowers (moment rules (k + 1) 0).heights := by
  have whole : (moment rules (k + 1) 0).heights = (moment rules k (max j rules.length)).heights := by
    rw [heights_moment rules k, List.take_of_length_le (Nat.le_max_right _ _)]
    exact heights_pass rules _
  rw [whole]
  exact lowers_moment_of_le rules k (Nat.le_max_left _ _)

/-- A later moment is one in a later pass, or one after more turns of the same pass. -/
theorem lowers_moment {k k' j j' : Nat} (rules : List Rule) (later : k < k' ∨ k = k' ∧ j ≤ j') :
    (moment rules k j).heights.Lowers (moment rules k' j').heights := by
  rcases later with hk | ⟨rfl, hj⟩
  · obtain ⟨d, rfl⟩ := Nat.exists_eq_add_of_lt hk
    induction d generalizing j' with
    | zero => exact (lowers_moment_zero rules k j).trans (lowers_moment_of_le rules _ (Nat.zero_le j'))
    | succ d ih =>
      have before : (moment rules k j).heights.Lowers (moment rules (k + d + 1) 0).heights :=
        ih (by omega)
      exact before.trans ((lowers_moment_zero rules _ 0).trans
        (lowers_moment_of_le rules _ (Nat.zero_le j')))
  · exact lowers_moment_of_le rules k hj

/-! ## Bounds at every moment -/

theorem attained_moment (g : Grammar) (k j : Nat) : Attained g (moment g.rules k j).heights :=
  moment_induction (attained_empty g) (fun _ hh _ hr => hh.relax hr) k j

theorem bounded_moment (rules : List Rule) (k j : Nat) : Bounded rules (moment rules k j).heights :=
  moment_induction (bounded_empty rules) (fun _ hh _ hr => hh.relax hr) k j

theorem Attained.exists_isLeast_le (hh : Attained g h) (hx : h.height? x = some n) :
    ∃ m ≤ n, IsLeast (treeHeights g x) m := by
  obtain ⟨t, valid, rfl⟩ := hh x n hx
  obtain ⟨m, hm, hle⟩ := exists_height?_le valid
  exact ⟨m, hle, height?_least_eq_some_iff.1 hm⟩

/-- There are no more left sides than code points. -/
theorem card_leftSides_le (g : Grammar) : g.leftSides.card ≤ 0x110000 := by
  have code_lt : ∀ x ∈ g.leftSides, x.toNat ∈ Finset.range 0x110000 := by
    intro x _
    have valid := x.valid
    rw [Finset.mem_range]
    show x.val.toNat < 0x110000
    unfold UInt32.isValidChar Nat.isValidChar at valid
    omega
  have injective : Set.InjOn Char.toNat g.leftSides := fun x _ y _ same => Char.toNat_inj.1 same
  rw [← Finset.card_range 0x110000]
  exact Finset.card_le_card_of_injOn Char.toNat code_lt injective

/-- The heights that are computed stay small. -/
theorem Bounded.computed_lt (hh : Bounded g.rules h) {p : Production}
    (hp : h.ofProduction? p = some n) : n ≤ g.leftSides.card + 1 ∧ n < 2 ^ 32 := by
  have := hh.ofProduction?_le hp
  have := hh.length_recorded_le
  have := card_leftSides_le g
  omega

/-! ## One level a pass -/

/-- For every tree of height at most `k` its nonterminal is recorded, with at most its height. -/
def Reaches (g : Grammar) (k : Nat) (h : Heights) : Prop :=
  ∀ x (t : Tree), t.ValidFor g x → t.height ≤ k → ∃ n ≤ t.height, h.height? x = some n

variable {k : Nat}

theorem Reaches.of_lowers (hh : Reaches g k h₁) (low : h₁.Lowers h₂) : Reaches g k h₂ := by
  intro x t valid ht
  obtain ⟨n, hnt, hn⟩ := hh x t valid ht
  obtain ⟨m, hmn, hm⟩ := low x n hn
  exact ⟨m, hmn.trans hnt, hm⟩

/-- The rule at the root of a tree gives at most its height once the parts below are reached. -/
theorem exists_rule_of_height_le {t : Tree} (valid : t.ValidFor g x) (ht : t.height ≤ k + 1) :
    ∃ p, ⟨x, p⟩ ∈ g.rules ∧ ∀ h, Reaches g k h → ∃ n ≤ t.height, h.ofProduction? p = some n := by
  cases valid with
  | @leaf _ c _ rule =>
    exact ⟨.terminal c, List.mem_of_getElem? rule, fun h _ => ⟨1, Nat.le_refl 1, rfl⟩⟩
  | @node _ b c _ l r rule left right =>
    rw [Tree.height] at ht
    refine ⟨.pair b c, List.mem_of_getElem? rule, ?_⟩
    intro h hh
    obtain ⟨m, hml, hm⟩ := hh b l left (by omega)
    obtain ⟨m', hmr, hm'⟩ := hh c r right (by omega)
    refine ⟨1 + max m m', ?_, ofProduction?_pair_eq_some_iff.2 ⟨m, m', hm, hm', rfl⟩⟩
    show 1 + max m m' ≤ 1 + max l.height r.height
    omega

theorem exists_height?_relax_le {r : Rule} (hp : h.ofProduction? r.right = some n) :
    ∃ m ≤ n, (h.relax r).height? r.left = some m := by
  rcases relax_cases h r with ⟨e, closed⟩ | ⟨m, hm, -, e⟩
  · obtain ⟨m, hx, hle⟩ := closed n hp
    exact ⟨m, hle, by rw [e, hx]⟩
  · rw [hp] at hm
    obtain rfl := Option.some.inj hm
    exact ⟨n, Nat.le_refl n, by rw [e, height?_record, if_pos rfl]⟩

/-- The turns before a rule's own keep what is reached, and those after it keep what it records. -/
theorem Reaches.round (hh : Reaches g k h) : Reaches g (k + 1) (round g.rules h) := by
  intro x t valid ht
  obtain ⟨p, rule, gives⟩ := exists_rule_of_height_le valid ht
  obtain ⟨before, after, split⟩ := List.append_of_mem rule
  obtain ⟨n, hnt, hn⟩ := gives _ (hh.of_lowers (lowers_foldl_relax before h))
  obtain ⟨m, hmn, hm⟩ := exists_height?_relax_le (r := ⟨x, p⟩) hn
  obtain ⟨l, hlm, hl⟩ := lowers_foldl_relax after _ x m hm
  refine ⟨l, hlm.trans (hmn.trans hnt), ?_⟩
  rw [Heights.round, split, List.foldl_append, List.foldl_cons]
  exact hl

theorem reaches_afterPasses (g : Grammar) (k : Nat) : Reaches g k (afterPasses g.rules k) := by
  induction k with
  | zero =>
    intro x t _ ht
    have := t.height_pos
    omega
  | succ k ih =>
    rw [afterPasses, heights_pass]
    exact ih.round

/-- After `k` passes the least heights up to `k` are recorded. -/
theorem height?_afterPasses_of_le {m : Nat} (hm : IsLeast (treeHeights g x) m) (hk : m ≤ k) :
    (afterPasses g.rules k).height? x = some m := by
  obtain ⟨⟨t, valid, rfl⟩, least⟩ := hm
  obtain ⟨n, hnt, hn⟩ := reaches_afterPasses g k x t valid hk
  have attained := attained_moment g k 0 x n hn
  rw [hn, Nat.le_antisymm hnt (least attained)]

/-! ## The last pass -/

/-- No rule has news once all least heights are recorded. -/
theorem Attained.round_eq (hh : Attained g h)
    (final : ∀ x m, IsLeast (treeHeights g x) m → h.height? x = some m) : round g.rules h = h := by
  have same : ∀ r ∈ g.rules, h.relax r = h := by
    intro r hr
    rcases relax_cases h r with ⟨e, -⟩ | ⟨n, hp, news, -⟩
    · exact e
    · obtain ⟨t, valid, rfl⟩ := hh.exists_tree (x := r.left) hr hp
      obtain ⟨m, hm, hle⟩ := exists_height?_le valid
      have := news m (final r.left m (height?_least_eq_some_iff.1 hm))
      omega
  apply foldl_relax_induction (P := fun k => k = h) ?_ (fun _ hr => hr) rfl
  rintro _ rfl r hr
  exact same r hr

/-- The least heights of all nonterminals with trees, and 0. -/
def leastHeights (g : Grammar) : Set Nat := insert 0 {m | ∃ x, IsLeast (treeHeights g x) m}

theorem exists_isGreatest_leastHeights (g : Grammar) : ∃ H, IsGreatest (leastHeights g) H := by
  have bounded : BddAbove (leastHeights g) := by
    refine ⟨g.leftSides.card, ?_⟩
    rintro m (rfl | ⟨x, hm⟩)
    · exact Nat.zero_le _
    · exact height?_least_le (height?_least_eq_some_iff.2 hm)
  exact bounded.exists_isGreatest_of_nonempty (Set.insert_nonempty _ _)

theorem changed_pass_of_isGreatest {H : Nat} (hH : IsGreatest (leastHeights g) H) :
    (pass g.rules (afterPasses g.rules H)).changed = false := by
  rw [Bool.eq_false_iff, ne_eq, changed_pass, not_not]
  apply (attained_moment g H 0).round_eq
  intro x m hm
  exact height?_afterPasses_of_le hm (hH.2 (Or.inr ⟨x, hm⟩))

/-- **Progress.** At every moment the recorded nonterminals are distinct left sides, the heights
that are computed are at most one more than there are left sides, and a recorded height is between
the least height of a tree and the number of recorded nonterminals, and never rises. After `k`
passes the least heights up to `k` are recorded for good. If `H` is the highest of the least
heights, at most `H` passes change something, and the one after them is the last and changes
nothing. -/
theorem loop_makes_progress (g : Grammar) :
    (∀ k j, (moment g.rules k j).heights.recorded.Nodup ∧
      (moment g.rules k j).heights.recorded.length ≤ g.leftSides.card ∧
      (∀ p n, (moment g.rules k j).heights.ofProduction? p = some n →
        n ≤ g.leftSides.card + 1 ∧ n < 2 ^ 32) ∧
      ∀ x n, (moment g.rules k j).heights.height? x = some n →
        (∃ m ≤ n, IsLeast (treeHeights g x) m) ∧
        n ≤ (moment g.rules k j).heights.recorded.length ∧
        ∀ k' j', (k < k' ∨ k = k' ∧ j ≤ j') →
          ∃ m ≤ n, (moment g.rules k' j').heights.height? x = some m) ∧
    (∀ k x m, IsLeast (treeHeights g x) m → m ≤ k →
      (afterPasses g.rules k).height? x = some m ∧ (least g).height? x = some m) ∧
    ∃ H, IsGreatest (leastHeights g) H ∧
      ∃ k ≤ H, (∀ i < k, (pass g.rules (afterPasses g.rules i)).changed = true) ∧
        (pass g.rules (afterPasses g.rules k)).changed = false ∧
        afterPasses g.rules (k + 1) = afterPasses g.rules k ∧
        least g = afterPasses g.rules (k + 1) := by
  refine ⟨?_, ?_, ?_⟩
  · intro k j
    have bounded := bounded_moment g.rules k j
    refine ⟨bounded.nodup, bounded.length_recorded_le, fun p n => bounded.computed_lt, ?_⟩
    intro x n hx
    exact ⟨(attained_moment g k j).exists_isLeast_le hx, bounded.le x n hx,
      fun k' j' later => lowers_moment g.rules later x n hx⟩
  · intro k x m hm hk
    exact ⟨height?_afterPasses_of_le hm hk, height?_least_eq_some_iff.2 hm⟩
  · obtain ⟨H, hH⟩ := exists_isGreatest_leastHeights g
    obtain ⟨k, before, unchanged, settled⟩ :=
      exists_settle_eq_afterPasses (i := 0) (show afterPasses g.rules 0 = empty from rfl)
        fun j hj => absurd hj (Nat.not_lt_zero j)
    refine ⟨H, hH, k, ?_, before, unchanged, ?_, settled⟩
    · by_contra later
      have changed := before H (Nat.lt_of_not_le later)
      rw [changed_pass_of_isGreatest hH] at changed
      cases changed
    · rw [afterPasses, heights_pass]
      by_contra news
      rw [changed_pass.2 news] at unchanged
      cases unchanged

end NormalGrammar.Heights
