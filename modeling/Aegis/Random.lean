import Mathlib.Data.List.Basic
import Mathlib.Logic.Function.Iterate
import Mathlib.Order.Basic
import Mathlib.Algebra.GroupWithZero.Nat

/-! The random generator: ChaCha20 blocks handed out byte by byte, with a new key every 64 blocks or
after enough entropy. What reaches the accumulator before a refill, and the cycle counter read in
it, come from a schedule. `inputs` records what the block function was applied to, and whether its
result was put into the buffer or became a key. -/

namespace Aegis.Random

abbrev Words := Fin 16 → UInt32

abbrev Block := Vector UInt8 64

open List Function

def rotl32 (v n : UInt32) : UInt32 := v <<< n ||| v >>> (32 - n)

def qr (x : Words) : Fin 16 × Fin 16 × Fin 16 × Fin 16 → Words
  | (i, j, k, l) =>
    let a := x i + x j
    let d := rotl32 (x l ^^^ a) 16
    let c := x k + d
    let b := rotl32 (x j ^^^ c) 12
    let a := a + b
    let d := rotl32 (d ^^^ a) 8
    let c := c + d
    let b := rotl32 (b ^^^ c) 7
    update (update (update (update x i a) j b) k c) l d

def doubleRound (x : Words) : Words :=
  [(0, 4, 8, 12), (1, 5, 9, 13), (2, 6, 10, 14), (3, 7, 11, 15),
    (0, 5, 10, 15), (1, 6, 11, 12), (2, 7, 8, 13), (3, 4, 9, 14)].foldl qr x

def chacha20Block (input : Words) : Words := fun i => doubleRound^[10] input i + input i

def bytes (x : Words) : Block :=
  .ofFn fun i => (x ⟨i / 4, by omega⟩ >>> (8 * (i % 4 : Nat)).toUInt32).toUInt8

def counter (x : Words) : Nat := (x 12).toNat + 2 ^ 32 * (x 13).toNat

def countUp (x : Words) : Words :=
  let y := update x 12 (x 12 + 1)
  if y 12 = 0 then update y 13 (y 13 + 1) else y

structure Rng where
  state : Words
  entropyAcc : UInt64
  entropyCount : UInt32
  buf : Block
  bufPos : Nat
  blocksSinceRekey : UInt32
  inputs : List (Words × Bool)

/-- What is mixed in before a refill, after `mix64`, and the cycles it reads. -/
structure Refill where
  entropy : List UInt64
  cycles : UInt64

def addEntropy (r : Rng) (x : UInt64) : Rng :=
  { r with entropyAcc := r.entropyAcc ^^^ x, entropyCount := r.entropyCount + 1 }

/-- The key with the entropy folded in, and a key from the first words of a block. -/
def mixKey (cycles : UInt64) (r : Rng) : Words :=
  let lo := r.entropyAcc.toUInt32
  let hi := (r.entropyAcc >>> 32).toUInt32
  let s := update r.state 4 (r.state 4 ^^^ lo)
  let s := update s 5 (s 5 ^^^ hi)
  let s := update s 6 (s 6 ^^^ (lo ^^^ hi))
  update s 7 (s 7 ^^^ (hi ^^^ cycles.toUInt32))

def setKey (s tmp : Words) : Words := fun i => if 4 ≤ i ∧ i < 12 then tmp (i - 4) else s i

def rekey (cycles : UInt64) (r : Rng) : Rng :=
  let s := mixKey cycles r
  { r with
    state := countUp (setKey s (chacha20Block s)), inputs := r.inputs ++ [(s, false)]
    entropyAcc := 0, entropyCount := 0, blocksSinceRekey := 0 }

def generate (r : Rng) : Rng :=
  let out := bytes (chacha20Block r.state)
  { r with
    state := countUp r.state, buf := out, bufPos := 0, blocksSinceRekey := r.blocksSinceRekey + 1
    inputs := r.inputs ++ [(r.state, true)] }

def outputs (inputs : List (Words × Bool)) : List Words := (inputs.filter Prod.snd).map Prod.fst

def keystream (inputs : List (Words × Bool)) : List UInt8 :=
  (outputs inputs).flatMap fun x => (bytes (chacha20Block x)).toList

section

variable (schedule : Nat → Refill)

def refillBuf (r : Rng) : Rng :=
  let now := schedule (outputs r.inputs).length
  let r := now.entropy.foldl addEntropy r
  generate (if 64 ≤ r.blocksSinceRekey ∨ 8 ≤ r.entropyCount then rekey now.cycles r else r)

def ready (r : Rng) : Rng := if 64 ≤ r.bufPos then refillBuf schedule r else r

theorem ready_pos (r : Rng) : (ready schedule r).bufPos < 64 := by
  rw [ready]
  split_ifs with h
  · exact Nat.zero_lt_succ _
  · omega

def Rng.rest (r : Rng) : List UInt8 := r.buf.toList.drop r.bufPos

def Rng.advance (r : Rng) (n : Nat) : Rng := { r with bufPos := r.bufPos + n }

def andThen (x : List UInt8 × Rng) (f : Rng → List UInt8 × Rng) : List UInt8 × Rng :=
  (x.1 ++ (f x.2).1, (f x.2).2)

def randomGetBytes (r : Rng) (len : Nat) : List UInt8 × Rng :=
  if len = 0 then ([], r)
  else
    let q := ready schedule r
    let chunk := min len (64 - q.bufPos)
    andThen (q.rest.take chunk, q.advance chunk) fun next => randomGetBytes next (len - chunk)
termination_by len
decreasing_by
  have := ready_pos schedule r
  show len - min len (64 - (ready schedule r).bufPos) < len
  omega

def serve (r : Rng) : List Nat → List UInt8 × Rng
  | [] => ([], r)
  | len :: rest => andThen (randomGetBytes schedule r len) fun r => serve r rest

end

section

variable {schedule : Nat → Refill} {r : Rng}

/-! ### Requests can be split -/

theorem andThen_assoc (x : List UInt8 × Rng) (f g : Rng → List UInt8 × Rng) :
    andThen (andThen x f) g = andThen x fun r => andThen (f r) g := by
  simp only [andThen, append_assoc]

theorem ready_of_lt (h : r.bufPos < 64) : ready schedule r = r := if_neg (by omega)

theorem get_zero : randomGetBytes schedule r 0 = ([], r) := by
  rw [randomGetBytes, if_pos rfl]

theorem get_ready {n : Nat} (hn : n ≠ 0) :
    randomGetBytes schedule r n = randomGetBytes schedule (ready schedule r) n := by
  rw [randomGetBytes, randomGetBytes, if_neg hn, if_neg hn, ready_of_lt (ready_pos schedule r)]

theorem get_within {a : Nat} (b : Nat) (ha : r.bufPos + a ≤ 64) :
    randomGetBytes schedule r (a + b) =
      andThen (r.rest.take a, r.advance a) fun r => randomGetBytes schedule r b := by
  rcases Nat.eq_zero_or_pos a with rfl | pos
  · simp [andThen, Rng.advance]
  have same : ready schedule r = r := ready_of_lt (by omega)
  rw [randomGetBytes, if_neg (by omega), same]
  dsimp only
  rcases Nat.eq_zero_or_pos b with rfl | hb
  · rw [show min (a + 0) (64 - r.bufPos) = a by omega]
    simp only [andThen, Nat.add_zero, Nat.sub_self]
  rcases Nat.lt_or_eq_of_le ha with lt | eq
  · have next : ready schedule (r.advance a) = r.advance a := ready_of_lt lt
    have chunk : min (a + b) (64 - r.bufPos) = a + min b (64 - (r.advance a).bufPos) := by
      simp only [Rng.advance]
      omega
    have left : a + b - min (a + b) (64 - r.bufPos) = b - min b (64 - (r.advance a).bufPos) := by
      omega
    rw [left, chunk]
    simp only [andThen]
    rw [randomGetBytes.eq_def schedule (r.advance a), if_neg (by omega), next]
    simp only [andThen, Rng.advance, Rng.rest, take_add, drop_drop, Nat.add_assoc, append_assoc]
  · rw [show min (a + b) (64 - r.bufPos) = a by omega, Nat.add_sub_cancel_left]

theorem get_add (a b : Nat) : randomGetBytes schedule r (a + b) =
    andThen (randomGetBytes schedule r a) fun r => randomGetBytes schedule r b := by
  induction a using Nat.strongRecOn generalizing r with
  | ind a ih =>
    rcases Nat.eq_zero_or_pos a with rfl | pos
    · rw [get_zero]
      simp [andThen]
    have hp := ready_pos schedule r
    rw [get_ready (by omega), get_ready (n := a) (by omega)]
    generalize ready schedule r = q at hp
    by_cases within : q.bufPos + a ≤ 64
    · rw [get_within b within, ← Nat.add_zero a, get_within 0 within, andThen_assoc]
      simp only [get_zero, andThen, nil_append, Nat.add_zero]
    obtain ⟨n, rfl⟩ := Nat.exists_eq_add_of_le (show 64 - q.bufPos ≤ a by omega)
    rw [Nat.add_assoc, get_within (n + b) (by omega), get_within n (by omega), andThen_assoc]
    exact congrArg (andThen _) (funext fun r => ih n (by omega))

theorem serve_eq (requests : List Nat) :
    serve schedule r requests = randomGetBytes schedule r requests.sum := by
  induction requests generalizing r with
  | nil => exact get_zero.symm
  | cons n rest ih =>
    rw [serve, sum_cons, get_add]
    exact congrArg (andThen _) (funext fun _ => ih)

/-! ### Every byte once, and the counter -/

theorem counter_countUp (x : Words) : counter (countUp x) = (counter x + 1) % 2 ^ 64 := by
  have lo := (x 12).toNat_lt
  have hi := (x 13).toNat_lt
  have wraps : x 12 + 1 = 0 ↔ (x 12).toNat + 1 = 2 ^ 32 := by
    rw [← UInt32.toNat_inj, UInt32.toNat_add]
    simp
    omega
  unfold countUp
  simp only [update_self, wraps]
  split_ifs with h <;> simp [counter, update_of_ne, UInt32.toNat_add] <;> omega

/-- Blocks were made from consecutive counters, and `x` has the next one. -/
def Counted (n : Nat) (x : Words) (used : List Words) : Prop :=
  counter x = (n + used.length) % 2 ^ 64 ∧
    used.map counter = (range used.length).map fun i => (n + i) % 2 ^ 64

theorem Counted.snoc {n : Nat} {x y z : Words} {used : List Words} (h : Counted n x used)
    (hy : counter y = counter x) (hz : counter z = counter x) :
    Counted n (countUp z) (used ++ [y]) := by
  constructor
  · rw [counter_countUp, hz, h.1, length_append, length_singleton]
    omega
  · rw [map_append, h.2, map_singleton, hy, h.1, length_append, length_singleton, range_succ,
      map_append, map_singleton]

/-- What was handed out since `start`, and the computations that it came from. -/
def Traced (start : Rng) (out : List UInt8) (r : Rng) : Prop :=
  ∃ used, r.inputs = start.inputs ++ used ∧ out ++ r.rest = start.rest ++ keystream used ∧
    Counted (counter start.state) r.state (used.map Prod.fst)

variable {start : Rng} {out : List UInt8}

theorem Traced.refl (r : Rng) : Traced r [] r := by
  have := (r.state 12).toNat_lt
  have := (r.state 13).toNat_lt
  refine ⟨[], by simp, by simp [keystream, outputs], ?_, rfl⟩
  rw [counter, map_nil, length_nil]
  omega

theorem Traced.entropy (h : Traced start out r) (l : List UInt64) :
    Traced start out (l.foldl addEntropy r) ∧ (l.foldl addEntropy r).bufPos = r.bufPos := by
  induction l generalizing r with
  | nil => exact ⟨h, rfl⟩
  | cons x l ih => exact ih h

theorem Traced.rekey (h : Traced start out r) (cycles : UInt64) :
    Traced start out (rekey cycles r) := by
  obtain ⟨used, hi, eq, counted⟩ := h
  refine ⟨used ++ [(mixKey cycles r, false)], ?_, ?_, ?_⟩
  · rw [← append_assoc, ← hi]
    rfl
  · show out ++ r.rest = _
    simpa [keystream, outputs] using eq
  · rw [map_append]
    exact counted.snoc rfl rfl

theorem Traced.generate (h : Traced start out r) (hp : 64 ≤ r.bufPos) :
    Traced start out (generate r) := by
  obtain ⟨used, hi, eq, counted⟩ := h
  have empty : r.rest = [] := drop_eq_nil_of_le (by simpa using hp)
  refine ⟨used ++ [(r.state, true)], ?_, ?_, ?_⟩
  · rw [← append_assoc, ← hi]
    rfl
  · rw [empty, append_nil] at eq
    simp [eq, Random.generate, Rng.rest, keystream, outputs]
  · rw [map_append]
    exact counted.snoc rfl rfl

theorem Traced.ready (h : Traced start out r) : Traced start out (ready schedule r) := by
  obtain ⟨mixed, pos⟩ := h.entropy (schedule (outputs r.inputs).length).entropy
  rw [Random.ready]
  split_ifs with used
  · rw [refillBuf]
    split_ifs
    · exact (mixed.rekey _).generate (pos ▸ used)
    · exact mixed.generate (pos ▸ used)
  · exact h

theorem Traced.get (h : Traced start out r) (n : Nat) :
    Traced start (out ++ (randomGetBytes schedule r n).1) (randomGetBytes schedule r n).2 ∧
      (randomGetBytes schedule r n).1.length = n := by
  induction n using Nat.strongRecOn generalizing r out with
  | ind n ih =>
    rw [randomGetBytes]
    split_ifs with zero
    · exact ⟨by simpa using h, zero.symm⟩
    have pos := ready_pos schedule r
    have hq : Traced start out (Random.ready schedule r) := h.ready
    generalize Random.ready schedule r = q at pos hq
    dsimp only
    generalize hc : min n (64 - q.bufPos) = chunk
    have moved : Traced start (out ++ q.rest.take chunk) (q.advance chunk) := by
      obtain ⟨used, hi, eq, counted⟩ := hq
      refine ⟨used, hi, ?_, counted⟩
      rw [← eq, append_assoc, Rng.rest, Rng.rest, Rng.advance, ← drop_drop, take_append_drop]
    obtain ⟨traced, length⟩ := ih (n - chunk) (by omega) moved
    rw [append_assoc] at traced
    refine ⟨traced, ?_⟩
    rw [andThen, length_append, length, length_take, Rng.rest, length_drop, q.buf.length_toList]
    omega

/-- For every split into requests the output is that of one request for the whole. With what is
left in the buffer it is the old rest of the buffer and then the block function of one input after
the other, each block once; the inputs, those of the new keys among them, have consecutive
counters. -/
theorem keystream_once (schedule : Nat → Refill) (r : Rng) (requests : List Nat) :
    serve schedule r requests = randomGetBytes schedule r requests.sum ∧
    (serve schedule r requests).1.length = requests.sum ∧
    ∃ used, (serve schedule r requests).2.inputs = r.inputs ++ used ∧
      (serve schedule r requests).1 ++ (serve schedule r requests).2.rest =
        r.rest ++ (outputs used).flatMap (fun x => (bytes (chacha20Block x)).toList) ∧
      used.map (fun x => counter x.1) =
        (range used.length).map fun i => (counter r.state + i) % 2 ^ 64 := by
  rw [serve_eq]
  obtain ⟨⟨used, hi, eq, counted⟩, length⟩ := (Traced.refl r).get requests.sum
  refine ⟨rfl, length, used, hi, eq, ?_⟩
  have counters := counted.2
  rwa [map_map, length_map] at counters

end

end Aegis.Random
