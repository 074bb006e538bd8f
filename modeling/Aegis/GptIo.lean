import Aegis.LabelledRun
import Aegis.Gpt

/-! Reading and writing partitions: `gpt_part_read`, `gpt_part_write` and `sys_blkdev_io`. The
bound checks add 64-bit words, so a request can wrap around; on a disk with blocks of 4096 bytes
every request is served through one block. -/

namespace Aegis.Gpt

open LabelledRun ByteMemory List Nat Gpt.Partition
open ByteLayout (Byte)

/-! ### Requests -/

/-- What a partition asks of its disk: first block and number of blocks. -/
def Partition.request (p : Partition) (lba count : Nat) : Option (Nat × Nat) :=
  if p.blockCount < (lba + count) % word then none
  else if p.parentBs = 512 then some ((lba + p.lbaOffset) % word, count)
  else some ((p.lbaOffset + lba * 512 % word / p.parentBs) % word, 1)

/-- Success of `gpt_part_read` and `gpt_part_write` on a disk that answers `disk`. -/
def Partition.transfer (p : Partition) (disk : Nat → Nat → Bool) (lba count : Nat) : Bool :=
  match p.request lba count with
  | none => false
  | some (block, n) => disk block n

structure Registered (p : Partition) (first last : Nat) : Prop where
  entry : p = Partition.ofEntry p.parentBs first last
  size : p.parentBs = 512 ∨ p.parentBs = 4096
  order : first < last
  bound : last < word

/-- A request fails, or the blocks it accesses are blocks of the partition. -/
def Confined (p : Partition) (first last lba count : Nat) : Prop :=
  ∀ disk : Nat → Nat → Bool, p.transfer disk lba count = true → ∀ block n,
    p.request lba count = some (block, n) → ∀ i < n, first ≤ block + i ∧ block + i ≤ last

/-- The bound check refuses the request, or it is in range without wrapping around. -/
def InRange (p : Partition) (first last lba count : Nat) : Prop :=
  p.blockCount < (lba + count) % word ∨
    if p.parentBs = 512 then count = 0 ∨ lba + count ≤ last - first + 1
    else lba % 2 ^ 55 / 8 ≤ last - first

/-! ### The system call -/

/-- The sectors that one request really moves: on a disk with larger blocks, those in the block
that is read. -/
def Partition.moved (p : Partition) (lba count : Nat) : List Nat :=
  List.range' lba (if p.parentBs = 512 then count else min count (8 - lba % 8))

inductive IoResult
  | failed
  | success (moved : List Nat)
  | hangs
  deriving DecidableEq

/-- The loop of `sys_blkdev_io` on a partition; `user` says which parts of the buffer are
valid. A chunk of 0 sectors leaves everything as it is. -/
def ioLoop (p : Partition) (disk user : Nat → Nat → Bool) (lba count : Nat) :
    Nat → Nat → List Nat → IoResult
  | 0, _, _ => .hangs
  | fuel + 1, done, moved =>
    if count ≤ done then .success moved
    else
      let chunk := min ((count - done) % 2 ^ 32) 8
      if !p.transfer disk ((lba + done) % word) chunk || !user (done * 512) (chunk * 512) then
        .failed
      else if chunk = 0 then .hangs
      else ioLoop p disk user lba count fuel (done + chunk)
        (moved ++ p.moved ((lba + done) % word) chunk)

def sysBlkdevIo (p : Partition) (disk user : Nat → Nat → Bool) (lba count : Nat) : IoResult :=
  if count = 0 then .success []
  else if p.blockCount < (lba + count) % word then .failed
  else ioLoop p disk user lba count (count + 1) 0 []

/-- Whatever the disk and the buffer answer: an error, or all blocks and no others. -/
def TransfersAll (p : Partition) (lba count : Nat) : Prop :=
  ∀ disk user, sysBlkdevIo p disk user lba count = .failed ∨
    sysBlkdevIo p disk user lba count = .success (List.range' lba count) ∧
      (count = 0 ∨ lba + count ≤ p.blockCount)

/-- The sectors that are transferred before the count of the rest is 0 in 32 bits. -/
def beforeStall (count : Nat) : Nat := if count < 2 ^ 32 then count else count % 2 ^ 32

def Reaches (p : Partition) (lba stop : Nat) : Prop :=
  (lba + stop) % word ≤ p.blockCount ∧
    ∀ k, 8 * k < stop → (lba + min (8 * (k + 1)) stop) % word ≤ p.blockCount

/-- Chunks of eight sectors from `lba` on, each in one block of the disk. -/
def Aligned (p : Partition) (lba count : Nat) : Prop :=
  p.parentBs = 512 ∨ lba % 8 + min count 8 ≤ 8

/-- Nothing to do, or refused at once or by a chunk, or in range, with a count of 32 bits and
chunks that do not cross blocks of the disk. -/
def Servable (p : Partition) (lba count : Nat) : Prop :=
  count = 0 ∨ p.blockCount < (lba + count) % word ∨ ¬ Reaches p lba (beforeStall count) ∨
    count < 2 ^ 32 ∧ lba + count ≤ p.blockCount ∧ Aligned p lba count

section
variable {p : Partition} {first last lba count : Nat}

theorem Registered.blockCount_le (hr : Registered p first last) :
    p.blockCount ≤ (last - first + 1) * (p.parentBs / 512) := by
  obtain ⟨entry, -, order, hb⟩ := hr
  have count : p.blockCount = (last + word - first + 1) % word * (p.parentBs / 512) % word :=
    congrArg blockCount entry
  have blocks : (last + word - first + 1) % word ≤ last - first + 1 := by
    have hw : last + word - first + 1 = last - first + 1 + word := by omega
    rw [hw, add_mod_right]
    exact mod_le _ _
  rw [count]
  exact le_trans (mod_le _ _) (Nat.mul_le_mul_right _ blocks)

theorem Registered.offset (hr : Registered p first last) : p.lbaOffset = first :=
  congrArg lbaOffset hr.entry

theorem native_block (lba : Nat) : lba * 512 % word / 4096 = lba % 2 ^ 55 / 8 := by
  have hp : lba * 512 % word = lba % 2 ^ 55 * 512 := by
    rw [word, show (2 : Nat) ^ 64 = 2 ^ 55 * 512 by decide, mul_mod_mul_right]
  rw [hp]
  omega

theorem confined_iff_512 (hr : Registered p first last) (native : p.parentBs = 512)
    (ok : (lba + count) % word ≤ p.blockCount) (address : lba < word) :
    (∀ i < count, first ≤ (lba + first) % word + i ∧ (lba + first) % word + i ≤ last) ↔
      count = 0 ∨ lba + count ≤ last - first + 1 := by
  have total := hr.blockCount_le
  rw [native] at total
  have order := hr.order
  have hb := hr.bound
  constructor
  · intro hi
    rcases Nat.eq_zero_or_pos count with none | some
    · exact .inl none
    have low := (hi 0 some).1
    have high := (hi (count - 1) (by omega)).2
    right
    by_cases hs : lba + count < word
    · rw [mod_eq_of_lt hs] at ok
      omega
    by_cases hw : lba + first < word
    · rw [mod_eq_of_lt hw] at high
      omega
    · rw [mod_eq_sub_mod (by omega), mod_eq_of_lt (by omega)] at low
      omega
  · rintro (none | fits) i less
    · omega
    · rw [mod_eq_of_lt (by omega)]
      omega

theorem confined_iff (hr : Registered p first last) (address : lba < word) :
    Confined p first last lba count ↔ InRange p first last lba count := by
  have offset := hr.offset
  rw [Confined, InRange]
  by_cases hf : p.blockCount < (lba + count) % word
  · have none : p.request lba count = none := if_pos hf
    simp [none, hf]
  have ok := Nat.le_of_not_lt hf
  have hn : ∀ request, p.request lba count = some request →
      ((∀ disk : Nat → Nat → Bool, p.transfer disk lba count = true → ∀ block n,
        p.request lba count = some (block, n) → ∀ i < n, first ≤ block + i ∧ block + i ≤ last) ↔
      ∀ i < request.2, first ≤ request.1 + i ∧ request.1 + i ≤ last) := by
    rintro ⟨block, n⟩ ha
    constructor
    · intro hc
      exact hc (fun _ _ => true) (by rw [transfer, ha]) block n ha
    intro hi disk _ block' n' hg
    rw [ha] at hg
    cases hg
    exact hi
  rcases hr.size with native | native
  · have ha : p.request lba count = some ((lba + p.lbaOffset) % word, count) := by
      rw [request, if_neg hf, if_pos native]
    rw [hn _ ha, offset, if_pos native]
    simp only [hf, false_or]
    exact confined_iff_512 hr native ok address
  · have ha : p.request lba count = some ((p.lbaOffset + lba * 512 % word / 4096) % word, 1) := by
      rw [request, if_neg hf, if_neg (by omega), native]
    rw [hn _ ha, offset, native_block, if_neg (by omega)]
    simp only [hf, false_or, lt_one_iff, forall_eq, add_zero]
    have lt : lba % 2 ^ 55 / 8 < 2 ^ 52 := by omega
    have order := hr.order
    have hb := hr.bound
    by_cases hw : first + lba % 2 ^ 55 / 8 < word
    · rw [mod_eq_of_lt hw]
      omega
    · rw [mod_eq_sub_mod (by omega), mod_eq_of_lt (by rw [word] at *; omega)]
      omega

def movedFrom (p : Partition) (lba stop : Nat) : Nat → Nat → List Nat
  | 0, _ => []
  | fuel + 1, done =>
    if stop ≤ done then []
    else p.moved ((lba + done) % word) (min (stop - done) 8) ++
      movedFrom p lba stop fuel (done + min (stop - done) 8)

theorem beforeStall_le : beforeStall count ≤ count := by
  rw [beforeStall]
  split
  · exact le_rfl
  · exact mod_le _ _

theorem rest_mod {done : Nat} (pre : done ≤ beforeStall count) :
    (count - done) % 2 ^ 32 = beforeStall count - done := by
  rw [beforeStall] at *
  split at pre
  · next lt =>
    rw [if_pos lt, mod_eq_of_lt (by omega)]
  next hl =>
  rw [if_neg hl]
  have split := div_add_mod count (2 ^ 32)
  have rest : count - done = 2 ^ 32 * (count / 2 ^ 32) + (count % 2 ^ 32 - done) := by omega
  rw [rest, mul_add_mod, mod_eq_of_lt]
  have hb := mod_lt count (Nat.two_pow_pos 32)
  omega

theorem transfer_eq {disk : Nat → Nat → Bool} {n : Nat} :
    p.transfer disk (lba % word) n = (decide ((lba + n) % word ≤ p.blockCount) &&
      ((p.request (lba % word) n).any fun r => disk r.1 r.2)) := by
  have sum : (lba % word + n) % word = (lba + n) % word := by rw [mod_add_mod]
  rw [transfer, request, sum]
  by_cases hr : p.blockCount < (lba + n) % word
  · simp [hr]
  · have ok := Nat.le_of_not_lt hr
    by_cases native : p.parentBs = 512 <;> simp [hr, ok, native]

/-- The loop fails, or no chunk was refused and it ends or stalls as the count says. -/
theorem ioLoop_cases {disk user : Nat → Nat → Bool} {fuel done : Nat} {m : List Nat}
    (he : count < fuel + done) (pre : done ≤ beforeStall count)
    (step : done % 8 = 0 ∨ done = beforeStall count)
    (hc : count < 2 ^ 32 → (lba + beforeStall count) % word ≤ p.blockCount) :
    ioLoop p disk user lba count fuel done m = .failed ∨
    ((lba + beforeStall count) % word ≤ p.blockCount ∧
      ∀ k, done ≤ 8 * k → 8 * k < beforeStall count →
        (lba + min (8 * (k + 1)) (beforeStall count)) % word ≤ p.blockCount) ∧
    (count < 2 ^ 32 ∧ ioLoop p disk user lba count fuel done m =
        .success (m ++ movedFrom p lba (beforeStall count) fuel done) ∨
      2 ^ 32 ≤ count ∧ ioLoop p disk user lba count fuel done m = .hangs) := by
  induction fuel generalizing done m with
  | zero =>
    have le : beforeStall count ≤ count := beforeStall_le
    omega
  | succ fuel ih =>
    have le : beforeStall count ≤ count := beforeStall_le
    rw [ioLoop, movedFrom]
    by_cases past : count ≤ done
    · have lt : count < 2 ^ 32 := by
        refine Nat.lt_of_not_le fun hl => ?_
        have stall : beforeStall count = count % 2 ^ 32 := if_neg (Nat.not_lt_of_le hl)
        have hb := mod_lt count (Nat.two_pow_pos 32)
        omega
      rw [if_pos past, if_pos (by omega), append_nil]
      exact .inr ⟨⟨hc lt, fun k low high => by omega⟩, .inl ⟨lt, rfl⟩⟩
    rw [if_neg past, rest_mod pre]
    dsimp only
    rw [transfer_eq]
    generalize chunk : min (beforeStall count - done) 8 = c
    by_cases ok : (lba + done + c) % word ≤ p.blockCount
    swap
    · left
      rw [decide_eq_false ok]
      rfl
    rw [decide_eq_true ok, Bool.true_and]
    by_cases hr : (!((p.request ((lba + done) % word) c).any fun r => disk r.1 r.2) ||
        !user (done * 512) (c * 512)) = true
    · rw [if_pos hr]
      exact .inl rfl
    rw [if_neg hr]
    by_cases hs : c = 0
    · have here : done = beforeStall count := by omega
      have hl : 2 ^ 32 ≤ count := by
        refine Nat.le_of_not_lt fun lt => ?_
        have stall : beforeStall count = count := if_pos lt
        omega
      rw [if_pos hs]
      refine .inr ⟨⟨?_, fun k low high => by omega⟩, .inr ⟨hl, rfl⟩⟩
      rw [hs, add_zero, here] at ok
      exact ok
    · have more : done < beforeStall count := by omega
      have hm : done % 8 = 0 := step.resolve_right (by omega)
      rw [if_neg hs, if_neg (by omega)]
      have next := @ih (done + c) (m ++ p.moved ((lba + done) % word) c) (by omega) (by omega)
        (by omega)
      rcases next with hf | ⟨⟨stop, ht⟩, ends⟩
      · exact .inl hf
      refine .inr ⟨⟨stop, fun k low high => ?_⟩, ?_⟩
      · by_cases first : 8 * k = done
        · have eq : min (8 * (k + 1)) (beforeStall count) = done + c := by omega
          rw [eq, ← add_assoc]
          exact ok
        · exact ht k (by omega) high
      · rw [append_assoc] at ends
        exact ends

theorem ioLoop_ne_failed {fuel done : Nat} {m : List Nat}
    (pre : done ≤ beforeStall count) (step : done % 8 = 0 ∨ done = beforeStall count)
    (hr : Reaches p lba (beforeStall count)) :
    ioLoop p (fun _ _ => true) (fun _ _ => true) lba count fuel done m ≠ .failed := by
  induction fuel generalizing done m with
  | zero => simp [ioLoop]
  | succ fuel ih =>
    rw [ioLoop]
    by_cases past : count ≤ done
    · simp [past]
    rw [if_neg past, rest_mod pre]
    dsimp only
    rw [transfer_eq]
    generalize chunk : min (beforeStall count - done) 8 = c
    have ok : (lba + done + c) % word ≤ p.blockCount := by
      rw [add_assoc]
      by_cases ends : done = beforeStall count
      · have eq : done + c = beforeStall count := by omega
        rw [eq]
        exact hr.1
      · have hm := step.resolve_right ends
        have eq : done + c = min (8 * (done / 8 + 1)) (beforeStall count) := by omega
        rw [eq]
        exact hr.2 (done / 8) (by omega)
    have ha : ((p.request ((lba + done) % word) c).any fun _ => true) = true := by
      rw [request, mod_add_mod, if_neg (Nat.not_lt_of_le ok)]
      split <;> rfl
    rw [ha, decide_eq_true ok]
    by_cases hs : c = 0
    · simp [hs]
    · simp only [Bool.and_self, Bool.not_true, Bool.or_self, Bool.false_eq_true, if_false, hs]
      exact ih (by omega) (by omega)

theorem moved_length (n : Nat) : (p.moved lba n).length ≤ n := by
  rw [moved, length_range']
  split <;> omega

theorem movedFrom_length {stop fuel done : Nat} :
    (movedFrom p lba stop fuel done).length ≤ stop - done := by
  induction fuel generalizing done with
  | zero => simp [movedFrom]
  | succ fuel ih =>
    rw [movedFrom]
    split
    · simp
    have chunk : (p.moved ((lba + done) % word) (min (stop - done) 8)).length ≤ _ :=
      moved_length _
    have rest := @ih (done + min (stop - done) 8)
    rw [length_append]
    omega

theorem movedFrom_short {fuel : Nat} (hc : ¬ Aligned p lba count) (address : lba < word) :
    (movedFrom p lba count (fuel + 1) 0).length < count := by
  obtain ⟨native, hc⟩ := not_or.mp hc
  have first : (p.moved lba (min count 8)).length = min (min count 8) (8 - lba % 8) := by
    rw [moved, length_range', if_neg native]
  have rest := @movedFrom_length p lba count fuel (min count 8)
  rw [movedFrom, if_neg (by omega), add_zero, mod_eq_of_lt address, Nat.sub_zero,
    zero_add, length_append, first]
  omega

theorem movedFrom_aligned {fuel done : Nat} (ha : Aligned p lba count)
    (address : lba + count ≤ word) (he : count < fuel + done) (pre : done ≤ count)
    (step : done % 8 = 0 ∨ done = count) :
    movedFrom p lba count fuel done = range' (lba + done) (count - done) := by
  induction fuel generalizing done with
  | zero => omega
  | succ fuel ih =>
    rw [movedFrom]
    by_cases ends : count ≤ done
    · rw [if_pos ends, Nat.sub_eq_zero_of_le ends]
      rfl
    have hm : done % 8 = 0 := step.resolve_right (by omega)
    have hw : p.moved (lba + done) (min (count - done) 8) =
        range' (lba + done) (min (count - done) 8) := by
      rw [moved]
      rcases ha with native | fits
      · rw [if_pos native]
      split
      · rfl
      · congr 1
        omega
    rw [if_neg ends, mod_eq_of_lt (by omega), hw, ih (by omega) (by omega) (by omega),
      ← add_assoc, range'_append_1]
    congr 1
    omega

theorem transfersAll_iff (size : p.blockCount < word) (address : lba < word) :
    TransfersAll p lba count ↔ Servable p lba count := by
  rcases Nat.eq_zero_or_pos count with rfl | pos
  · exact iff_of_true (fun disk user => .inr ⟨rfl, .inl rfl⟩) (.inl rfl)
  by_cases hr : p.blockCount < (lba + count) % word
  · refine iff_of_true (fun disk user => .inl ?_) (.inr (.inl hr))
    rw [sysBlkdevIo, if_neg (by omega), if_pos hr]
  have hc : count < 2 ^ 32 → (lba + beforeStall count) % word ≤ p.blockCount := by
    intro lt
    rw [beforeStall, if_pos lt]
    exact Nat.le_of_not_lt hr
  have loop (disk user) : sysBlkdevIo p disk user lba count =
      ioLoop p disk user lba count (count + 1) 0 [] := by
    rw [sysBlkdevIo, if_neg (by omega), if_neg hr]
  have outcome (disk user : Nat → Nat → Bool) :=
    @ioLoop_cases p lba count disk user (count + 1) 0 [] (by omega) (zero_le _) (.inl rfl) hc
  constructor
  · intro all
    by_cases hd : Reaches p lba (beforeStall count)
    swap
    · exact .inr (.inr (.inl hd))
    have he := all (fun _ _ => true) (fun _ _ => true)
    rw [loop] at he
    have hw := @ioLoop_ne_failed p lba count (count + 1) 0 [] (zero_le _) (.inl rfl) hd
    obtain ⟨hs, range⟩ := he.resolve_left hw
    obtain ⟨-, ⟨lt, hm⟩ | ⟨-, hangs⟩⟩ :=
      (outcome (fun _ _ => true) (fun _ _ => true)).resolve_left hw
    · refine .inr (.inr (.inr ⟨lt, range.resolve_left (by omega), ?_⟩))
      have hl := IoResult.success.inj (hm.symm.trans hs)
      rw [beforeStall, if_pos lt, nil_append] at hl
      by_contra crosses
      have hh := @movedFrom_short p lba count count crosses address
      rw [hl, length_range'] at hh
      omega
    · rw [hangs] at hs
      contradiction
  · rintro (none | ok | ht | ⟨lt, range, ha⟩) disk user
    · omega
    · exact absurd ok hr
    · left
      rw [loop]
      refine (outcome disk user).resolve_right fun ⟨⟨stop, chunks⟩, _⟩ => ht ⟨stop, ?_⟩
      exact fun k high => chunks k (zero_le _) high
    · rw [loop]
      rcases outcome disk user with hf | ⟨-, ⟨-, hm⟩ | ⟨hg, -⟩⟩
      · exact .inl hf
      · rw [beforeStall, if_pos lt, nil_append,
          movedFrom_aligned ha (by omega) (by omega) (zero_le _) (.inl rfl)] at hm
        exact .inr ⟨hm, .inr range⟩
      · omega

theorem Registered.blockCount_lt (hr : Registered p first last) : p.blockCount < word := by
  rw [hr.entry]
  exact mod_lt _ (Nat.two_pow_pos 64)

/-- A request of the block layer stays inside the partition exactly if it is refused or does not
wrap around, and the system call transfers all blocks or fails exactly for the requests it can
serve. -/
theorem partition_confined (registered : Registered p first last) (address : lba < word) :
    (Confined p first last lba count ↔ InRange p first last lba count) ∧
      (TransfersAll p lba count ↔ Servable p lba count) :=
  ⟨confined_iff registered address, transfersAll_iff registered.blockCount_lt address⟩

end

def smallPart : Partition := Partition.ofEntry 512 100 200

theorem smallPart_registered : Registered smallPart 100 200 := ⟨rfl, .inl rfl, by decide, by decide⟩

theorem partition_confined_two : Confined smallPart 100 200 5 2 ∧ TransfersAll smallPart 5 2 := by
  obtain ⟨confined, transfers⟩ :=
    @partition_confined smallPart 100 200 5 2 smallPart_registered (by decide)
  constructor
  · apply confined.mpr
    simp [InRange, smallPart, Partition.ofEntry]
  · apply transfers.mpr
    exact .inr (.inr (.inr ⟨by decide, by decide, .inl rfl⟩))

/-- Two sectors from the last 64-bit number on are block 99 and block 100 of the disk, and a
count of `2 ^ 32` sectors never ends. -/
theorem partition_escapes : smallPart.request (2 ^ 64 - 1) 2 = some (99, 2) ∧
    ¬ Confined smallPart 100 200 (2 ^ 64 - 1) 2 ∧
    sysBlkdevIo (Partition.ofEntry 512 100 (2 ^ 33)) (fun _ _ => true) (fun _ _ => true) 0 (2 ^ 32)
      = .hangs := by
  have request : smallPart.request (2 ^ 64 - 1) 2 = some (99, 2) := by decide
  refine ⟨request, fun confined => ?_, ?_⟩
  · have inside := confined (fun _ _ => true) (by decide) 99 2 request 0 (by decide)
    omega
  · rw [sysBlkdevIo, if_neg (by decide), if_neg (by decide), ioLoop, if_neg (by decide)]
    rfl

end Aegis.Gpt
