/-!
# Finite maps as lists of pairs

`List.lookup` reads a map and `put` writes it; `lookup_put` is all there is to know about the
two. A key keeps the place where it was first written.
-/

namespace NormalGrammar.Assoc

variable {α β : Type} [DecidableEq α]

/-- Sets the value of a key, replacing the old one if there is one. -/
def put (k : α) (v : β) : List (α × β) → List (α × β)
  | [] => [(k, v)]
  | e :: m => if e.1 = k then (k, v) :: m else e :: put k v m

theorem lookup_cons (x : α) (e : α × β) (m : List (α × β)) :
    (e :: m).lookup x = if x = e.1 then some e.2 else m.lookup x := by
  rw [List.lookup_cons]
  by_cases h : x = e.1
  · simp [h]
  · simp [h, beq_false_of_ne h]

theorem lookup_put (k x : α) (v : β) (m : List (α × β)) :
    (put k v m).lookup x = if x = k then some v else m.lookup x := by
  induction m with
  | nil => rw [put, lookup_cons]
  | cons e m ih =>
    rw [put]
    by_cases he : e.1 = k
    · rw [if_pos he, lookup_cons, lookup_cons, he]
      by_cases h : x = k <;> simp [h]
    · rw [if_neg he, lookup_cons, lookup_cons, ih]
      by_cases h : x = e.1
      · simp [h, he]
      · simp [h]

/-- The keys of a map, in the order they were first written. -/
def keys (m : List (α × β)) : List α := m.map (·.1)

omit [DecidableEq α] in
@[simp] theorem keys_cons (e : α × β) (m : List (α × β)) : keys (e :: m) = e.1 :: keys m := rfl

theorem keys_put (k : α) (v : β) (m : List (α × β)) :
    keys (put k v m) = if k ∈ keys m then keys m else keys m ++ [k] := by
  induction m with
  | nil => rfl
  | cons e m ih =>
    rw [put]
    by_cases h : e.1 = k
    · simp [h]
    · rw [if_neg h, keys_cons, ih, keys_cons]
      by_cases hk : k ∈ keys m
      · simp [hk]
      · have h' : ¬ k = e.1 := fun hk => h hk.symm
        simp [hk, h']

theorem nodup_keys_put {m : List (α × β)} (h : (keys m).Nodup) (k : α) (v : β) :
    (keys (put k v m)).Nodup := by
  rw [keys_put]
  split
  · exact h
  · rename_i fresh
    refine List.nodup_append.2 ⟨h, by simp, ?_⟩
    intro a ha b hb
    rw [List.mem_singleton.1 hb]
    rintro rfl
    exact fresh ha

theorem mem_keys_iff {k : α} {m : List (α × β)} : k ∈ keys m ↔ (m.lookup k).isSome := by
  induction m with
  | nil => simp [keys]
  | cons e m ih =>
    rw [keys_cons, lookup_cons, List.mem_cons, ih]
    by_cases h : k = e.1 <;> simp [h]

/-- The maps have equally many entries, and the second one holds each entry of the first. The
places of the entries do not matter. -/
def agrees [DecidableEq β] (m n : List (α × β)) : Bool :=
  m.length = n.length && m.all fun e => n.lookup e.1 = some e.2

end NormalGrammar.Assoc
