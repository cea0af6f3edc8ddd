import NormalGrammar.Grammar

/-!
# Least heights

The height of a derivation tree counts the rules on its longest path. `Heights.least` finds the
least height for each nonterminal that has a tree at all, by rounds over the rules that lower
the recorded heights until a round changes nothing. Every change either records a further
nonterminal or lowers a height (`below_of_relax_ne`), so the rounds come to an end.
-/

namespace NormalGrammar

/-- The heights recorded so far, by nonterminal. -/
structure Heights where
  entries : List (Char × Nat)
deriving DecidableEq

namespace Heights

/-- Nothing is recorded. -/
def empty : Heights := ⟨[]⟩

/-- The recorded height of a nonterminal. -/
def height? (h : Heights) (x : Char) : Option Nat := h.entries.lookup x

/-- Records a height, in place of the old one if there is one. -/
def record (h : Heights) (x : Char) (n : Nat) : Heights := ⟨Assoc.put x n h.entries⟩

theorem height?_record (h : Heights) (x y : Char) (n : Nat) :
    (h.record x n).height? y = if y = x then some n else h.height? y :=
  Assoc.lookup_put x y n h.entries

/-- The height of a tree that starts with the right side and goes on with trees of the recorded
heights. -/
def ofProduction? (h : Heights) : Production → Option Nat
  | .terminal _ => some 1
  | .pair b c =>
    match h.height? b, h.height? c with
    | some m, some n => some (1 + max m n)
    | _, _ => none

/-- The height is news: the nonterminal has no height yet, or a greater one. -/
def improves (h : Heights) (x : Char) (n : Nat) : Bool :=
  match h.height? x with
  | some m => n < m
  | none => true

/-- Records the height that a rule gives its left side, if that is news. -/
def relax (h : Heights) (r : Rule) : Heights :=
  match h.ofProduction? r.right with
  | some n => if h.improves r.left n then h.record r.left n else h
  | none => h

/-- One round over the rules, in order. -/
def round (rules : List Rule) (h : Heights) : Heights := rules.foldl relax h

/-! ## Rounds come to an end -/

/-- The number of rules whose left side has no height. -/
def missing (rules : List Rule) (h : Heights) : Nat :=
  rules.countP fun r => (h.height? r.left).isNone

/-- The sum of the recorded heights of all left sides. -/
def total : List Rule → Heights → Nat
  | [], _ => 0
  | r :: rules, h => (h.height? r.left).getD 0 + total rules h

theorem total_append (as bs : List Rule) (h : Heights) :
    total (as ++ bs) h = total as h + total bs h := by
  induction as with
  | nil => simp [total]
  | cons a as ih => simp [total, ih, Nat.add_assoc]

/-- Fewer heights are missing, or as many and the recorded ones are lower. -/
def Below (rules : List Rule) (h k : Heights) : Prop :=
  missing rules h < missing rules k ∨
    missing rules h = missing rules k ∧ total rules h < total rules k

theorem Below.trans {rules : List Rule} {h k l : Heights} (hk : Below rules h k)
    (kl : Below rules k l) : Below rules h l := by
  unfold Below at *
  omega

theorem missing_record_lt {rules : List Rule} {h : Heights} {x : Char} (n : Nat)
    (hx : h.height? x = none) (hr : ∃ r ∈ rules, r.left = x) :
    missing rules (h.record x n) < missing rules h := by
  have le : ∀ rs : List Rule, missing rs (h.record x n) ≤ missing rs h := fun rs =>
    List.countP_mono_left fun r _ => by
      rw [height?_record]
      split <;> simp_all
  obtain ⟨r, hm, rfl⟩ := hr
  obtain ⟨as, bs, rfl⟩ := List.append_of_mem hm
  have := le as
  have := le bs
  simp only [missing, List.countP_append, List.countP_cons] at *
  rw [height?_record, if_pos rfl, hx]
  simp only [Option.isNone_some, Option.isNone_none, if_true, Bool.false_eq_true, if_false]
  omega

theorem missing_record_eq (rules : List Rule) {h : Heights} {x : Char} {m : Nat} (n : Nat)
    (hx : h.height? x = some m) : missing rules (h.record x n) = missing rules h := by
  refine List.countP_congr fun r _ => ?_
  rw [height?_record]
  split <;> simp_all

theorem total_record_lt {rules : List Rule} {h : Heights} {x : Char} {m n : Nat}
    (hx : h.height? x = some m) (hn : n < m) (hr : ∃ r ∈ rules, r.left = x) :
    total rules (h.record x n) < total rules h := by
  have le : ∀ rs : List Rule, total rs (h.record x n) ≤ total rs h := by
    intro rs
    induction rs with
    | nil => exact Nat.le_refl _
    | cons r rs ih =>
      simp only [total]
      refine Nat.add_le_add ?_ ih
      rw [height?_record]
      split
      · rename_i hr
        rw [hr, hx]
        exact Nat.le_of_lt hn
      · exact Nat.le_refl _
  obtain ⟨r, hm, rfl⟩ := hr
  obtain ⟨as, bs, rfl⟩ := List.append_of_mem hm
  have := le as
  have := le bs
  simp only [total_append, total]
  rw [height?_record, if_pos rfl, hx]
  simp only [Option.getD_some]
  omega

theorem below_of_relax_ne {rules : List Rule} {h : Heights} {r : Rule} (hr : r ∈ rules)
    (hne : h.relax r ≠ h) : Below rules (h.relax r) h := by
  unfold relax at hne ⊢
  split at hne
  · rename_i n _
    split at hne
    · rename_i hi
      simp only [hi, if_true]
      unfold improves at hi
      split at hi
      · rename_i m hm
        exact Or.inr ⟨missing_record_eq rules n hm,
          total_record_lt hm (of_decide_eq_true hi) ⟨r, hr, rfl⟩⟩
      · rename_i hm
        exact Or.inl (missing_record_lt n hm ⟨r, hr, rfl⟩)
    · exact absurd rfl hne
  · exact absurd rfl hne

theorem eq_or_below_foldl_relax {rules : List Rule} (rs : List Rule) (h : Heights)
    (hrs : ∀ r ∈ rs, r ∈ rules) : rs.foldl relax h = h ∨ Below rules (rs.foldl relax h) h := by
  induction rs generalizing h with
  | nil => exact Or.inl rfl
  | cons r rs ih =>
    rw [List.foldl_cons]
    have tail := ih (h.relax r) fun s hs => hrs s (List.mem_cons_of_mem _ hs)
    by_cases hne : h.relax r = h
    · rwa [hne] at tail ⊢
    · have head := below_of_relax_ne (hrs r List.mem_cons_self) hne
      rcases tail with e | tail
      · exact Or.inr (by rw [e]; exact head)
      · exact Or.inr (tail.trans head)

theorem below_of_round_ne {rules : List Rule} {h : Heights} (hne : round rules h ≠ h) :
    Below rules (round rules h) h :=
  (eq_or_below_foldl_relax rules h fun _ hr => hr).resolve_left hne

/-- Repeats rounds until one changes nothing. -/
def settle (rules : List Rule) (h : Heights) : Heights :=
  if round rules h = h then h else settle rules (round rules h)
termination_by (missing rules h, total rules h)
decreasing_by
  rename_i hne
  rcases below_of_round_ne hne with hlt | ⟨heq, hlt⟩
  · exact Prod.Lex.left _ _ hlt
  · rw [heq]
    exact Prod.Lex.right _ hlt

/-- The least height of each nonterminal that derives a finite word. -/
def least (g : Grammar) : Heights := settle g.rules empty

theorem round_settle (rules : List Rule) (h : Heights) :
    round rules (settle rules h) = settle rules h := by
  fun_induction settle rules h with
  | case1 h he => exact he
  | case2 h _ ih => exact ih

end Heights

end NormalGrammar
