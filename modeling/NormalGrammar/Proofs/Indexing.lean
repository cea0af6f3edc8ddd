import Mathlib.Data.List.Perm.Subperm
import NormalGrammar.Grammar

/-!
# The index says what the rules say

Each rule that an index takes in keeps its keys distinct, so there is one entry for each right
side, and it holds the left sides of all rules with that right side
(`ProducerIndex.find?_ofRules_eq_some_iff`). Indexes thus have the same entries as soon as their
rule lists have the same members, in whatever order these were put in
(`ProducerIndex.agrees_ofRules_iff`). The queries of a grammar that read the index agree with
those that scan the rules, and grammars are told apart by start symbol and rules alone
(`Grammar.index_agrees_with_rules`).
-/

namespace NormalGrammar

/-! ## Maps with distinct keys -/

namespace Assoc

variable {α β : Type} [DecidableEq α] {m n : List (α × β)}

theorem lookup_eq_some_iff (h : (keys m).Nodup) {k : α} {v : β} :
    m.lookup k = some v ↔ (k, v) ∈ m := by
  induction m with
  | nil => simp
  | cons e m ih =>
    obtain ⟨l, u⟩ := e
    rw [keys_cons, List.nodup_cons] at h
    obtain ⟨fresh, distinct⟩ := h
    rw [lookup_cons, List.mem_cons, Prod.mk.injEq]
    by_cases hk : k = l
    · subst hk
      have gone : (k, v) ∉ m := fun hmem => fresh (List.mem_map.2 ⟨(k, v), hmem, rfl⟩)
      simp [gone, eq_comm]
    · simp [hk, ih distinct]

theorem agrees_iff [DecidableEq β] (hm : (keys m).Nodup) (hn : (keys n).Nodup) :
    agrees m n = true ↔ ∀ k, m.lookup k = n.lookup k := by
  simp only [agrees, Bool.and_eq_true, decide_eq_true_eq, List.all_eq_true]
  constructor
  · rintro ⟨size, found⟩ k
    rcases hk : m.lookup k with - | v
    · -- the keys of the first are among those of the second, which has no more of them
      have sub : keys m ⊆ keys n := by
        intro l hl
        obtain ⟨e, he, rfl⟩ := List.mem_map.1 hl
        rw [mem_keys_iff, found e he]
        rfl
      have size_le : (keys n).length ≤ (keys m).length := by simp [keys, size]
      have same := (List.subperm_of_subset hm sub).perm_of_length_le size_le
      have absent : k ∉ keys n := by simp [← same.mem_iff, mem_keys_iff, hk]
      rw [mem_keys_iff, Option.not_isSome_iff_eq_none] at absent
      exact absent.symm
    · exact (found (k, v) ((lookup_eq_some_iff hm).1 hk)).symm
  · intro h
    have same : (keys m).Perm (keys n) := by
      rw [List.perm_ext_iff_of_nodup hm hn]
      intro k
      rw [mem_keys_iff, mem_keys_iff, h]
    constructor
    · simpa [keys] using same.length_eq
    · rintro ⟨k, v⟩ he
      rw [← h, lookup_eq_some_iff hm]
      exact he

end Assoc

/-! ## Entries of an index -/

theorem SymbolSet.ne_empty_iff {s : SymbolSet} : s ≠ ∅ ↔ ∃ x, x ∈ s := by
  rw [ne_eq, eq_empty_iff]
  constructor
  · exact List.exists_mem_of_ne_nil s.toList
  · rintro ⟨x, hx⟩
    exact List.ne_nil_of_mem hx

namespace ProducerIndex

variable {rules rules' : List Rule} {p : Production}

/-- No right side gets a second entry. -/
theorem nodup_keys_foldl_add (rules : List Rule) (ix : ProducerIndex)
    (h : (Assoc.keys ix.entries).Nodup) : (Assoc.keys (rules.foldl add ix).entries).Nodup := by
  induction rules generalizing ix with
  | nil => exact h
  | cons r rules ih => exact ih (ix.add r) (Assoc.nodup_keys_put h _ _)

theorem nodup_keys_ofRules (rules : List Rule) : (Assoc.keys (ofRules rules).entries).Nodup :=
  nodup_keys_foldl_add rules ⟨[]⟩ List.nodup_nil

/-- An entry is never empty, and its members are the left sides of the rules. -/
theorem find?_ofRules_eq_some_iff {s : SymbolSet} :
    (ofRules rules).find? p = some s ↔ s ≠ ∅ ∧ ∀ x, x ∈ s ↔ ⟨x, p⟩ ∈ rules := by
  rw [SymbolSet.ne_empty_iff]
  constructor
  · intro h
    have mem : ∀ x, x ∈ s ↔ ⟨x, p⟩ ∈ rules := by
      intro x
      rw [← mem_find?_ofRules, h, Option.getD_some]
    obtain ⟨⟨x, q⟩, hr, rfl⟩ := (isSome_find?_ofRules rules p).1 (by rw [h]; rfl)
    exact ⟨⟨x, (mem x).2 hr⟩, mem⟩
  · rintro ⟨⟨x, hx⟩, mem⟩
    have used : ∃ r ∈ rules, r.right = p := ⟨⟨x, p⟩, (mem x).1 hx, rfl⟩
    obtain ⟨t, ht⟩ := Option.isSome_iff_exists.1 ((isSome_find?_ofRules rules p).2 used)
    have same : t = s := by
      ext y
      rw [mem, ← mem_find?_ofRules, ht, Option.getD_some]
    rw [ht, same]

/-- The entries tell which rules there are, and neither their order nor how often each occurs. -/
theorem agrees_ofRules_iff :
    (ofRules rules).agrees (ofRules rules') = true ↔ ∀ r, r ∈ rules ↔ r ∈ rules' := by
  rw [agrees, Assoc.agrees_iff (nodup_keys_ofRules rules) (nodup_keys_ofRules rules')]
  constructor
  · rintro h ⟨x, p⟩
    have same : (ofRules rules).find? p = (ofRules rules').find? p := h p
    rw [← mem_find?_ofRules, same, mem_find?_ofRules]
  · intro h p
    show (ofRules rules).find? p = (ofRules rules').find? p
    apply Option.ext
    intro s
    simp only [find?_ofRules_eq_some_iff, h]

end ProducerIndex

/-! ## Queries of a grammar -/

namespace Grammar

variable {g h : Grammar} {p : Production} {x : Char}

theorem producers?_eq_none_iff : g.producers? p = none ↔ ¬ ∃ r ∈ g.rules, r.right = p := by
  rw [← isSome_producers?, Option.not_isSome_iff_eq_none]

theorem producers?_eq_some_iff {s : SymbolSet} :
    g.producers? p = some s ↔ s ≠ ∅ ∧ ∀ x, x ∈ s ↔ p ∈ g.alternatives x := by
  rw [producers?, g.index_eq, ProducerIndex.find?_ofRules_eq_some_iff]
  simp only [mem_alternatives]

/-- The answer is the one list of all nonterminals with this alternative, in ascending order. -/
theorem toList_producers?_eq_some_iff {xs : List Char} :
    (g.producers? p).map SymbolSet.toList = some xs ↔
      xs ≠ [] ∧ xs.Pairwise (· < ·) ∧ ∀ x, x ∈ xs ↔ p ∈ g.alternatives x := by
  simp only [Option.map_eq_some_iff, producers?_eq_some_iff, ne_eq, SymbolSet.eq_empty_iff]
  constructor
  · rintro ⟨s, ⟨ne, mem⟩, rfl⟩
    exact ⟨ne, s.ascending, mem⟩
  · rintro ⟨ne, ascending, mem⟩
    exact ⟨⟨xs, ascending⟩, ⟨ne, mem⟩, rfl⟩

theorem defines_iff_alternatives_ne_nil : g.defines x = true ↔ g.alternatives x ≠ [] := by
  rw [defines_iff]
  constructor
  · rintro ⟨p, rule⟩
    exact List.ne_nil_of_mem (mem_alternatives.2 rule)
  · intro h
    obtain ⟨p, hp⟩ := List.exists_mem_of_ne_nil _ h
    exact ⟨p, mem_alternatives.1 hp⟩

theorem defines_iff_produced :
    g.defines x = true ↔ ∃ p s, g.producers? p = some s ∧ x ∈ s := by
  rw [defines_iff]
  constructor
  · rintro ⟨p, rule⟩
    obtain ⟨s, hs⟩ := Option.isSome_iff_exists.1 (isSome_producers?.2 ⟨_, rule, rfl⟩)
    exact ⟨p, s, hs, ((producers?_eq_some_iff.1 hs).2 x).2 (mem_alternatives.2 rule)⟩
  · rintro ⟨p, s, hs, hx⟩
    exact ⟨p, mem_alternatives.1 (((producers?_eq_some_iff.1 hs).2 x).1 hx)⟩

/-- Grammars that agree are the same: the index has nothing to add to the rules. -/
theorem agrees_iff_eq : g.agrees h = true ↔ g = h := by
  simp only [agrees, Bool.and_eq_true, decide_eq_true_eq]
  constructor
  · rintro ⟨⟨start, rules⟩, -⟩
    exact Grammar.ext start rules
  · rintro rfl
    refine ⟨⟨rfl, rfl⟩, ?_⟩
    rw [g.index_eq, ProducerIndex.agrees_ofRules_iff]
    exact fun r => Iff.rfl

/-- The grammar of a rule list, after its start symbol was chosen any number of times. -/
def restarted (rules : List Rule) (starts : List Char) : Grammar :=
  starts.foldl withStart (ofRules rules)

@[simp] theorem rules_restarted (rules : List Rule) (starts : List Char) :
    (restarted rules starts).rules = rules := by
  have kept (g : Grammar) : (starts.foldl withStart g).rules = g.rules := by
    induction starts generalizing g with
    | nil => rfl
    | cons x starts ih => exact ih (g.withStart x)
  exact kept (ofRules rules)

/-- **The index.** A right side has no producers if and only if no rule has it, and otherwise its
producers are the nonterminals that have it among their alternatives, each once and in ascending
order. A nonterminal is defined if it has an alternative, that is if it produces some right side.
Grammars agree in start symbol, rules and index if and only if they have the same start symbol and
come from the same list of rules. -/
theorem index_agrees_with_rules (rules : List Rule) (starts : List Char) :
    (∀ p, ((restarted rules starts).producers? p = none ↔ ¬ ∃ r ∈ rules, r.right = p) ∧
      ∀ xs, ((restarted rules starts).producers? p).map SymbolSet.toList = some xs ↔
        xs ≠ [] ∧ xs.Pairwise (· < ·) ∧
          ∀ x, x ∈ xs ↔ p ∈ (restarted rules starts).alternatives x) ∧
    (∀ x, ((restarted rules starts).defines x = true ↔
        (restarted rules starts).alternatives x ≠ []) ∧
      ((restarted rules starts).defines x = true ↔
        ∃ p s, (restarted rules starts).producers? p = some s ∧ x ∈ s)) ∧
    ∀ rules' starts', (restarted rules starts).agrees (restarted rules' starts') = true ↔
      (restarted rules starts).start = (restarted rules' starts').start ∧ rules = rules' := by
  refine ⟨fun p => ⟨?_, fun xs => toList_producers?_eq_some_iff⟩,
    fun x => ⟨defines_iff_alternatives_ne_nil, defines_iff_produced⟩, fun rules' starts' => ?_⟩
  · rw [producers?_eq_none_iff, rules_restarted]
  · rw [agrees_iff_eq, Grammar.ext_iff, rules_restarted, rules_restarted]

/-- Two nonterminals share a right side, a rule occurs twice, and a right side has no rule. -/
example :
    let g := restarted [⟨'S', .pair 'A' 'B'⟩, ⟨'C', .pair 'A' 'B'⟩, ⟨'A', .terminal 'a'⟩,
      ⟨'A', .terminal 'a'⟩] ['Q', 'A']
    (g.producers? (.pair 'A' 'B')).map SymbolSet.toList = some ['C', 'S'] ∧
      (g.producers? (.terminal 'a')).map SymbolSet.toList = some ['A'] ∧
      g.producers? (.pair 'B' 'A') = none := by
  decide

end Grammar

end NormalGrammar
