import Mathlib.Data.Finset.Card
import Mathlib.Data.List.Basic
import Mathlib.Order.Bounds.Defs
import NormalGrammar.Derivation
import NormalGrammar.Heights

/-!
# The recorded heights are least

A recorded height is at every time the height of a tree (`Attained`), and once a round changes
nothing, no tree of a nonterminal is lower than what is recorded for it (`Closed`). Both together
say that `Heights.least` records exactly the nonterminals that have trees, with their least
heights (`height?_least_eq_some_iff`). Moreover a recorded height never exceeds the number of
recorded nonterminals (`Bounded`), and so it is at most the number of left sides.
-/

namespace NormalGrammar

/-- The nonterminals that have rules. -/
def Grammar.leftSides (g : Grammar) : Finset Char := (g.rules.map (·.left)).toFinset

namespace Heights

variable {g : Grammar} {rules : List Rule} {h : Heights} {x : Char} {n : Nat}

/-! ## One rule -/

theorem ofProduction?_pair_eq_some_iff {b c : Char} :
    h.ofProduction? (.pair b c) = some n ↔
      ∃ m k, h.height? b = some m ∧ h.height? c = some k ∧ n = 1 + max m k := by
  rw [ofProduction?]
  cases h.height? b <;> cases h.height? c <;> simp [eq_comm]

theorem ofProduction?_pos {p : Production} (hp : h.ofProduction? p = some n) : 0 < n := by
  cases p with
  | terminal c =>
    obtain rfl := Option.some.inj hp
    exact Nat.one_pos
  | pair b c =>
    obtain ⟨m, k, -, -, rfl⟩ := ofProduction?_pair_eq_some_iff.1 hp
    omega

/-- The rule gives its left side no height below the recorded one. -/
def ClosedUnder (h : Heights) (r : Rule) : Prop :=
  ∀ n, h.ofProduction? r.right = some n → ∃ m, h.height? r.left = some m ∧ m ≤ n

/-- A rule either records a height that is news or has nothing new to say. -/
theorem relax_cases (h : Heights) (r : Rule) :
    (h.relax r = h ∧ h.ClosedUnder r) ∨
      ∃ n, h.ofProduction? r.right = some n ∧ (∀ m, h.height? r.left = some m → n < m) ∧
        h.relax r = h.record r.left n := by
  unfold relax ClosedUnder
  cases hp : h.ofProduction? r.right with
  | none => exact Or.inl ⟨rfl, fun n hn => by cases hn⟩
  | some n =>
    simp only [Option.some.injEq]
    by_cases hi : h.improves r.left n = true
    · refine Or.inr ⟨n, rfl, ?_, if_pos hi⟩
      intro m hm
      rw [improves, hm] at hi
      exact of_decide_eq_true hi
    · refine Or.inl ⟨if_neg hi, ?_⟩
      rintro _ rfl
      unfold improves at hi
      cases hm : h.height? r.left with
      | none => simp [hm] at hi
      | some m => exact ⟨m, rfl, by simpa [hm] using hi⟩

/-- What each rule keeps true stays true when some rules have their turns. -/
theorem foldl_relax_induction {P : Heights → Prop} {rs : List Rule}
    (step : ∀ h, P h → ∀ r ∈ rules, P (h.relax r)) (hrs : ∀ r ∈ rs, r ∈ rules) (start : P h) :
    P (rs.foldl relax h) := by
  induction rs generalizing h with
  | nil => exact start
  | cons r rs ih =>
    obtain ⟨hr, hrs⟩ := List.forall_mem_cons.1 hrs
    exact ih hrs (step h start r hr)

/-- What the rules keep true stays true until nothing changes any more. -/
theorem settle_induction {P : Heights → Prop} (step : ∀ h, P h → ∀ r ∈ rules, P (h.relax r))
    (start : P h) : P (settle rules h) := by
  fun_induction settle rules h with
  | case1 h he => exact start
  | case2 h _ ih => exact ih (foldl_relax_induction step (fun _ hr => hr) start)

/-! ## Recorded heights are heights of trees -/

/-- Each recorded height is the height of a tree. -/
def Attained (g : Grammar) (h : Heights) : Prop :=
  ∀ x n, h.height? x = some n → ∃ t : Tree, t.ValidFor g x ∧ t.height = n

theorem Attained.exists_tree (hh : Attained g h) {p : Production} (rule : ⟨x, p⟩ ∈ g.rules)
    (hp : h.ofProduction? p = some n) : ∃ t : Tree, t.ValidFor g x ∧ t.height = n := by
  obtain ⟨k, hk⟩ := List.getElem?_of_mem rule
  cases p with
  | terminal c => exact ⟨.leaf k c, .leaf hk, Option.some.inj hp⟩
  | pair b c =>
    obtain ⟨m, m', hb, hc, rfl⟩ := ofProduction?_pair_eq_some_iff.1 hp
    obtain ⟨l, hl, rfl⟩ := hh b m hb
    obtain ⟨r, hr, rfl⟩ := hh c m' hc
    exact ⟨.node k l r, .node hk hl hr, rfl⟩

theorem Attained.relax (hh : Attained g h) {r : Rule} (hr : r ∈ g.rules) :
    Attained g (h.relax r) := by
  rcases relax_cases h r with ⟨e, -⟩ | ⟨n, hp, -, e⟩
  · rwa [e]
  · rw [e]
    intro y m hy
    rw [height?_record] at hy
    split at hy
    · rename_i heq
      obtain rfl := Option.some.inj hy
      rw [heq]
      exact hh.exists_tree hr hp
    · exact hh y m hy

theorem attained_empty (g : Grammar) : Attained g empty := by
  intro x n hx
  cases hx

theorem attained_least (g : Grammar) : Attained g (least g) :=
  settle_induction (fun _ hh _ hr => hh.relax hr) (attained_empty g)

/-! ## No tree is lower -/

theorem relax_eq_of_foldl_relax_eq {rs : List Rule} (hrs : ∀ r ∈ rs, r ∈ rules)
    (he : rs.foldl relax h = h) : ∀ r ∈ rs, h.relax r = h := by
  induction rs with
  | nil =>
    intro r hr
    exact absurd hr List.not_mem_nil
  | cons r rs ih =>
    obtain ⟨hr, hrs⟩ := List.forall_mem_cons.1 hrs
    have hfirst : h.relax r = h := by
      by_contra hne
      -- the rest of the round cannot undo a change
      have head := below_of_relax_ne hr hne
      have whole : Below rules h h := by
        rcases eq_or_below_foldl_relax rs (h.relax r) hrs with e | tail
        · rw [List.foldl_cons, e] at he
          rwa [he] at head
        · rw [List.foldl_cons] at he
          rw [he] at tail
          exact tail.trans head
      unfold Below at whole
      omega
    rw [List.foldl_cons, hfirst] at he
    exact List.forall_mem_cons.2 ⟨hfirst, ih hrs he⟩

theorem closedUnder_of_relax_eq {r : Rule} (he : h.relax r = h) : h.ClosedUnder r := by
  rcases relax_cases h r with ⟨-, hc⟩ | ⟨n, -, hn, e⟩
  · exact hc
  · have hx : (h.relax r).height? r.left = some n := by rw [e, height?_record, if_pos rfl]
    rw [he] at hx
    exact absurd (hn n hx) (Nat.lt_irrefl n)

/-- No rule gives its left side a height below the recorded one. -/
def Closed (rules : List Rule) (h : Heights) : Prop := ∀ r ∈ rules, h.ClosedUnder r

theorem closed_settle (rules : List Rule) (h : Heights) : Closed rules (settle rules h) := by
  intro r hr
  apply closedUnder_of_relax_eq
  exact relax_eq_of_foldl_relax_eq (fun _ hr => hr) (round_settle rules h) r hr

theorem Closed.exists_le_height (hh : Closed g.rules h) {t : Tree} (ht : t.ValidFor g x) :
    ∃ n, h.height? x = some n ∧ n ≤ t.height := by
  induction ht with
  | leaf rule => exact hh _ (List.mem_of_getElem? rule) 1 rfl
  | @node x b c k l r rule _ _ ihl ihr =>
    obtain ⟨m, hm, hml⟩ := ihl
    obtain ⟨m', hm', hmr⟩ := ihr
    obtain ⟨n, hn, hle⟩ := hh _ (List.mem_of_getElem? rule) (1 + max m m')
      (ofProduction?_pair_eq_some_iff.2 ⟨m, m', hm, hm', rfl⟩)
    refine ⟨n, hn, ?_⟩
    show n ≤ 1 + max l.height r.height
    omega

theorem exists_height?_le {t : Tree} (ht : t.ValidFor g x) :
    ∃ n, (least g).height? x = some n ∧ n ≤ t.height :=
  (closed_settle g.rules empty).exists_le_height ht

/-- The recorded height is the least height of a tree, and there is none without trees. -/
theorem height?_least_eq_some_iff :
    (least g).height? x = some n ↔ IsLeast {m | ∃ t : Tree, t.ValidFor g x ∧ t.height = m} n := by
  constructor
  · intro hx
    refine ⟨attained_least g x n hx, ?_⟩
    rintro _ ⟨t, ht, rfl⟩
    obtain ⟨m, hm, hle⟩ := exists_height?_le ht
    rw [hx] at hm
    rwa [Option.some.inj hm]
  · rintro ⟨⟨t, ht, rfl⟩, hleast⟩
    obtain ⟨m, hm, hle⟩ := exists_height?_le ht
    obtain ⟨t', ht', rfl⟩ := attained_least g x m hm
    rw [hm, Nat.le_antisymm hle (hleast ⟨t', ht', rfl⟩)]

theorem height?_least_eq_none_iff :
    (least g).height? x = none ↔ ∀ t : Tree, ¬ t.ValidFor g x := by
  constructor
  · intro hx t ht
    obtain ⟨n, hn, -⟩ := exists_height?_le ht
    rw [hx] at hn
    cases hn
  · intro hno
    cases hx : (least g).height? x with
    | none => rfl
    | some n =>
      obtain ⟨t, ht, -⟩ := attained_least g x n hx
      exact absurd ht (hno t)

/-- Nonterminals whose trees have the same heights, be it in two grammars, have one least height. -/
theorem height?_least_congr {g' : Grammar} {y : Char}
    (same : ∀ m, (∃ t : Tree, t.ValidFor g x ∧ t.height = m) ↔
      ∃ t : Tree, t.ValidFor g' y ∧ t.height = m) :
    (least g).height? x = (least g').height? y := by
  ext n
  rw [height?_least_eq_some_iff, height?_least_eq_some_iff]
  simp only [same]

/-! ## Recorded heights are at most as many as the left sides -/

/-- The nonterminals with a height, in the order in which they got one. -/
def recorded (h : Heights) : List Char := Assoc.keys h.entries

theorem mem_recorded_iff : x ∈ h.recorded ↔ (h.height? x).isSome := Assoc.mem_keys_iff

theorem recorded_record (h : Heights) (x : Char) (n : Nat) :
    (h.record x n).recorded = if x ∈ h.recorded then h.recorded else h.recorded ++ [x] :=
  Assoc.keys_put x n h.entries

/-- Left sides get heights once, and no height exceeds the number of those that have one. -/
structure Bounded (rules : List Rule) (h : Heights) : Prop where
  nodup : h.recorded.Nodup
  left : ∀ x ∈ h.recorded, ∃ r ∈ rules, r.left = x
  le : ∀ x n, h.height? x = some n → n ≤ h.recorded.length

theorem bounded_empty (rules : List Rule) : Bounded rules empty where
  nodup := List.nodup_nil
  left _ hx := absurd hx List.not_mem_nil
  le _ _ hx := by cases hx

theorem Bounded.ofProduction?_le (hh : Bounded rules h) {p : Production}
    (hp : h.ofProduction? p = some n) : n ≤ h.recorded.length + 1 := by
  cases p with
  | terminal c =>
    obtain rfl := Option.some.inj hp
    exact Nat.le_add_left 1 _
  | pair b c =>
    obtain ⟨m, k, hb, hc, rfl⟩ := ofProduction?_pair_eq_some_iff.1 hp
    have := hh.le b m hb
    have := hh.le c k hc
    omega

/-- An old height is lowered. -/
theorem Bounded.lower (hh : Bounded rules h) {m : Nat} (hx : h.height? x = some m) (hn : n < m) :
    Bounded rules (h.record x n) := by
  have hrec : (h.record x n).recorded = h.recorded := by
    rw [recorded_record, if_pos (mem_recorded_iff.2 (Option.isSome_of_eq_some hx))]
  refine ⟨hrec ▸ hh.nodup, hrec ▸ hh.left, ?_⟩
  intro y k hy
  rw [hrec]
  rw [height?_record] at hy
  split at hy
  · obtain rfl := Option.some.inj hy
    exact (Nat.le_of_lt hn).trans (hh.le x m hx)
  · exact hh.le y k hy

/-- A new height may be one more than there were heights, for now there is one more. -/
theorem Bounded.add (hh : Bounded rules h) {r : Rule} (hr : r ∈ rules)
    (hx : r.left ∉ h.recorded) (hn : n ≤ h.recorded.length + 1) :
    Bounded rules (h.record r.left n) := by
  have hrec : (h.record r.left n).recorded = h.recorded ++ [r.left] := by
    rw [recorded_record, if_neg hx]
  refine ⟨Assoc.nodup_keys_put hh.nodup r.left n, ?_, ?_⟩
  · rw [hrec]
    intro y hy
    rcases List.mem_append.1 hy with hy | hy
    · exact hh.left y hy
    · exact ⟨r, hr, (List.mem_singleton.1 hy).symm⟩
  · intro y k hy
    rw [hrec, List.length_append, List.length_singleton]
    rw [height?_record] at hy
    split at hy
    · obtain rfl := Option.some.inj hy
      exact hn
    · exact (hh.le y k hy).trans (Nat.le_succ _)

theorem Bounded.relax (hh : Bounded rules h) {r : Rule} (hr : r ∈ rules) :
    Bounded rules (h.relax r) := by
  rcases relax_cases h r with ⟨e, -⟩ | ⟨n, hp, hn, e⟩
  · rwa [e]
  · rw [e]
    by_cases hx : r.left ∈ h.recorded
    · obtain ⟨m, hm⟩ := Option.isSome_iff_exists.1 (mem_recorded_iff.1 hx)
      exact hh.lower hm (hn m hm)
    · exact hh.add hr hx (hh.ofProduction?_le hp)

theorem Bounded.length_recorded_le (hh : Bounded g.rules h) :
    h.recorded.length ≤ g.leftSides.card := by
  rw [← List.toFinset_card_of_nodup hh.nodup]
  apply Finset.card_le_card
  intro x hx
  obtain ⟨r, hr, rfl⟩ := hh.left x (List.mem_toFinset.1 hx)
  exact List.mem_toFinset.2 (List.mem_map_of_mem hr)

theorem height?_least_le (hx : (least g).height? x = some n) : n ≤ g.leftSides.card := by
  have hh : Bounded g.rules (least g) :=
    settle_induction (fun _ hh _ hr => hh.relax hr) (bounded_empty g.rules)
  exact (hh.le x n hx).trans hh.length_recorded_le

end Heights

end NormalGrammar
