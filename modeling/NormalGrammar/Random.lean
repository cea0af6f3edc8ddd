/-!
# Random words and fair choices

A source is an endless sequence of 32-bit words and the position that is read next. From some
position on it holds only zeros.

To choose among `n` candidates, a random word is stretched over them by a multiplication. Words
that would favour a candidate are passed over, and zero is never one of them, so that every choice
ends.

A seed of 64 bits is expanded to a key by a permuted congruential generator, and the key to a
stream of words by the ChaCha cipher with twelve rounds.
-/

namespace NormalGrammar

/-! ## Sources -/

/-- Random words by position, zeros from `limit` on. -/
structure Source where
  word : Nat → UInt32
  limit : Nat
  word_eq_zero : ∀ i, limit ≤ i → word i = 0
  position : Nat := 0

namespace Source

/-- The given words, then zeros. -/
def ofList (ws : List UInt32) : Source where
  word i := ws[i]?.getD 0
  limit := ws.length
  word_eq_zero i hi := by simp [List.getElem?_eq_none hi]

/-- The word at the current position. -/
def current (s : Source) : UInt32 := s.word s.position

/-- The source after its current word. -/
def next (s : Source) : Source := { s with position := s.position + 1 }

theorem position_lt_limit {s : Source} (h : s.current ≠ 0) : s.position < s.limit :=
  Nat.lt_of_not_le fun hle => h (s.word_eq_zero s.position hle)

/-- The number of words taken between two states of one source. -/
def drawn (before after : Source) : Nat := after.position - before.position

end Source

/-! ## Choices -/

/-- A way to pick one of `n` candidates by its index, at the cost of a step of the state. -/
abbrev Chooser (σ : Type) : Type := (n : Nat) → 0 < n → σ → Fin n × σ

namespace Source

/-- The number of leading zero bits of a positive number below `2 ^ 32`. -/
def leadingZeros (n : Nat) : Nat := 31 - n.log2

/-- The greatest remainder with which a word is accepted for `n` candidates. -/
def zone (n : Nat) : Nat := (n <<< leadingZeros n) - 1

/-- The index that a word picks among `n` candidates, none if the word is passed over. -/
def index? (n : Nat) (v : UInt32) : Option Nat :=
  if v.toNat * n % UInt32.size ≤ zone n then some (v.toNat * n / UInt32.size) else none

theorem index?_lt {n i : Nat} {v : UInt32} (hn : 0 < n) (h : index? n v = some i) : i < n := by
  unfold index? at h
  split at h
  · obtain rfl := Option.some.inj h
    have := Nat.mul_lt_mul_of_pos_right v.toNat_lt hn
    exact Nat.div_lt_of_lt_mul this
  · cases h

theorem index?_zero (n : Nat) : index? n 0 = some 0 := by
  simp [index?]

/-- A word that is passed over stands before the zeros. -/
theorem position_lt_limit_of_index?_eq_none {n : Nat} {s : Source}
    (h : index? n s.current = none) : s.position < s.limit := by
  apply position_lt_limit
  intro h0
  rw [h0, index?_zero] at h
  cases h

/-- Takes words until one picks an index. -/
def choose (n : Nat) (hn : 0 < n) (s : Source) : Fin n × Source :=
  match h : index? n s.current with
  | some i => (⟨i, index?_lt hn h⟩, s.next)
  | none => choose n hn s.next
termination_by s.limit - s.position
decreasing_by
  have := position_lt_limit_of_index?_eq_none h
  simp only [next]
  omega

end Source

/-! ## Seeded sources -/

namespace ChaCha

/-! ### Keys -/

/-- One step of the congruential generator. -/
def advance (state : UInt64) : UInt64 := state * 6364136223846793005 + 11634580027462260723

/-- The word turned to the left by `k` places, where `0 < k < 32`. -/
def rotateLeft (x k : UInt32) : UInt32 := (x <<< k) ||| (x >>> (32 - k))

/-- The output of a state: its high bits mixed, turned to the right as its top five bits say. -/
def output (state : UInt64) : UInt32 :=
  let x := (((state >>> 18) ^^^ state) >>> 27).toUInt32
  let k := (state >>> 59).toUInt32
  (x >>> k) ||| (x <<< ((32 - k) % 32))

/-- The outputs of the next `n` states. -/
def outputs (state : UInt64) : Nat → List UInt32
  | 0 => []
  | n + 1 => output (advance state) :: outputs (advance state) n

/-- The eight words of a seed's key. -/
def key (seed : UInt64) : List UInt32 := outputs seed 8

/-! ### Blocks -/

/-- The sixteen words of a block. -/
abbrev Block : Type := Vector UInt32 16

/-- Mixes the words at four places. -/
def quarterRound (s : Block) (a b c d : Fin 16) : Block :=
  let s := s.set a (s[a] + s[b])
  let s := s.set d (rotateLeft (s[d] ^^^ s[a]) 16)
  let s := s.set c (s[c] + s[d])
  let s := s.set b (rotateLeft (s[b] ^^^ s[c]) 12)
  let s := s.set a (s[a] + s[b])
  let s := s.set d (rotateLeft (s[d] ^^^ s[a]) 8)
  let s := s.set c (s[c] + s[d])
  s.set b (rotateLeft (s[b] ^^^ s[c]) 7)

/-- Mixes the four columns and then the four diagonals of a block. -/
def doubleRound (s : Block) : Block :=
  let s := quarterRound s 0 4 8 12
  let s := quarterRound s 1 5 9 13
  let s := quarterRound s 2 6 10 14
  let s := quarterRound s 3 7 11 15
  let s := quarterRound s 0 5 10 15
  let s := quarterRound s 1 6 11 12
  let s := quarterRound s 2 7 8 13
  quarterRound s 3 4 9 14

/-- The block before mixing: four fixed words, the key, the block's number and two zeros. -/
def initial (key : List UInt32) (number : Nat) : Block :=
  let words : List UInt32 := [0x61707865, 0x3320646e, 0x79622d32, 0x6b206574] ++ key ++
    [number.toUInt32, (number / UInt32.size).toUInt32, 0, 0]
  .ofFn fun i => words.getD i 0

/-- A block of the stream. -/
def block (key : List UInt32) (number : Nat) : Block :=
  let start := initial key number
  let mixed := (List.range 6).foldl (fun s _ => doubleRound s) start
  mixed.zipWith (· + ·) start

/-- The word of the stream at a position. -/
def word (key : List UInt32) (i : Nat) : UInt32 := (block key (i / 16))[i % 16]

end ChaCha

/-- The stream of a seed. Block numbers have 64 bits, which bounds its length. -/
def Source.ofSeed (seed : UInt64) : Source :=
  let key := ChaCha.key seed
  { word := fun i => if i < 16 * UInt64.size then ChaCha.word key i else 0
    limit := 16 * UInt64.size
    word_eq_zero := fun _ hi => if_neg (Nat.not_lt.2 hi) }

end NormalGrammar
