import Mathlib.Data.List.Basic

/-! The counts that `sys_write` and `sys_writev` return (`sys_io.c`). The descriptor has any
write operation that takes a prefix of what it is given; a sink keeps what it has taken. -/

namespace Aegis.WriteCalls

open List

structure Sink (σ β : Type) where
  state : σ
  accepted : List β

structure IoVec (β : Type) where
  valid : Bool
  data : List β

variable {σ β : Type}

section
variable (op : σ → List β → Int × σ)

/-- An answer is a count of at most what was given, zero or an error. -/
def TakesPrefix : Prop := ∀ s chunk, (op s chunk).1 ≤ chunk.length

/-- The answer to the next staging buffer of at most 256 bytes. -/
def Sink.answer (w : Sink σ β) (data : List β) : Int := (op w.state (data.take 256)).1

def Sink.write (w : Sink σ β) (data : List β) : Sink σ β :=
  ⟨(op w.state (data.take 256)).2, w.accepted ++ data.take (w.answer op data).toNat⟩

/-- The inner loop of both calls on the data that are left: the answer that refuses, if there is
one, and the bytes written. Only `sys_write` stops at a short count. Every turn takes a byte. -/
def pieces (stopsShort : Bool) : Nat → List β → Nat → Sink σ β → Option Int × Nat × Sink σ β
  | turns + 1, b :: data, done, w =>
    let r := w.answer op (b :: data)
    if r ≤ 0 then (some r, done, w.write op (b :: data))
    else if stopsShort ∧ r.toNat < ((b :: data).take 256).length then
      (none, done + r.toNat, w.write op (b :: data))
    else
      pieces stopsShort turns ((b :: data).drop r.toNat) (done + r.toNat) (w.write op (b :: data))
  | _, _, done, w => (none, done, w)

def sysWrite (valid : Bool) (data : List β) (w : Sink σ β) : Int × Sink σ β :=
  if valid = false then (-14, w)
  else match pieces op true data.length data 0 w with
    | (some r, total, w) => (if 0 < total then total else r, w)
    | (none, total, w) => (total, w)

def vectors : List (IoVec β) → Nat → Sink σ β → Int × Sink σ β
  | [], total, w => (total, w)
  | iov :: rest, total, w =>
    if iov.data.length = 0 then vectors rest total w
    else if iov.valid = false then (-14, w)
    else match pieces op false iov.data.length iov.data 0 w with
      | (some r, _, w) => (if r < 0 ∧ total = 0 then r else total, w)
      | (none, vecWritten, w) => vectors rest (total + vecWritten) w

def sysWritev (valid : Bool) (iov : List (IoVec β)) (w : Sink σ β) : Int × Sink σ β :=
  if 1024 < iov.length then (-22, w)
  else if valid = false then (-14, w)
  else vectors op iov 0 w

/-- So many bytes were taken, the first ones, and none with an error. -/
def TrueCount (data : List β) (result : Int × Sink σ β) : Prop :=
  (0 ≤ result.1 → result.2.accepted <+: data ∧ result.2.accepted.length = result.1.toNat) ∧
  (result.1 < 0 → result.2.accepted = [])

/-- The descriptor takes all of the data, offered in pieces of at most 256 bytes. -/
inductive TakesAll : σ → List β → σ → Prop
  | nil (s : σ) : TakesAll s [] s
  | piece {s t : σ} {data : List β} : 0 < (op s (data.take 256)).1 →
      TakesAll (op s (data.take 256)).2 (data.drop (op s (data.take 256)).1.toNat) t →
      TakesAll s data t

/-- The descriptor takes every vector as a whole up to one that it refuses from the start, and a
vector that is not valid comes before anything is taken. -/
def WholeVectors : List (IoVec β) → σ → Bool → Prop
  | [], _, _ => True
  | iov :: rest, s, taken =>
    if iov.data.length = 0 then WholeVectors rest s taken
    else if iov.valid = false then taken = false
    else (op s (iov.data.take 256)).1 ≤ 0 ∨
      ∃ t, TakesAll op s iov.data t ∧ WholeVectors rest t true

end

section
variable {op : σ → List β → Int × σ} {data all : List β} {w w' : Sink σ β} {stopsShort : Bool}
  {turns total done n : Nat} {r : Int} {refusal : Option Int}

theorem trueCount_total (hk : w.accepted <+: all) (count : w.accepted.length = total) :
    TrueCount all ((total : Int), w) :=
  ⟨fun _ => ⟨hk, count⟩, fun negative => absurd negative (by simp)⟩

theorem trueCount_error (hr : r ≤ 0) (none : w.accepted = []) : TrueCount all (r, w) := by
  refine ⟨fun _ => ?_, fun _ => none⟩
  rw [none, Int.toNat_of_nonpos hr]
  exact .intro nil_prefix rfl

variable (takes : TakesPrefix op)
include takes

theorem answer_le (w : Sink σ β) (data : List β) : (w.answer op data).toNat ≤ data.length := by
  have hg : w.answer op data ≤ (data.take 256).length := takes ..
  rw [length_take] at hg
  omega

/-- What the loop adds to the sink and to its count, and how much of the data is left. -/
theorem pieces_takes (he : data.length ≤ turns)
    (ran : pieces op stopsShort turns data done w = (refusal, n, w')) :
    ∃ a rest, data = a ++ rest ∧ n = done + a.length ∧
      w'.accepted = w.accepted ++ a ∧ refusal.getD 0 ≤ 0 ∧
      (refusal = none → stopsShort = false → rest = []) := by
  induction turns generalizing data done w with
  | zero =>
    cases ran
    exact ⟨[], data, rfl, rfl, (append_nil _).symm, by decide,
      fun _ _ => length_eq_zero_iff.mp (Nat.le_zero.mp he)⟩
  | succ turns ih =>
    cases data with
    | nil =>
      cases ran
      exact ⟨[], [], rfl, rfl, (append_nil _).symm, by decide, fun _ _ => rfl⟩
    | cons b data =>
      rw [pieces] at ran
      have hi := length_take_of_le (answer_le takes w (b :: data))
      have hw := take_append_drop (w.answer op (b :: data)).toNat (b :: data)
      split at ran
      · next hr =>
        cases ran
        refine ⟨[], _, rfl, rfl, ?_, hr, nofun⟩
        rw [Sink.write, Int.toNat_of_nonpos hr, take_zero]
      · split at ran
        · next hs =>
          cases ran
          exact ⟨_, _, hw.symm, by rw [hi], rfl, by decide, fun _ hg => by
            simp [hg] at hs⟩
        · obtain ⟨a, rest, split, rfl, ok, ends⟩ := ih (by rw [length_drop]; omega) ran
          refine ⟨(b :: data).take (w.answer op (b :: data)).toNat ++ a, rest, ?_, ?_, ?_, ends⟩
          · rw [append_assoc, ← split, hw]
          · rw [length_append, hi, Nat.add_assoc]
          · rw [ok, Sink.write, append_assoc]

theorem TakesAll.unique {s t t' : σ} (h1 : TakesAll op s data t) (h2 : TakesAll op s data t') :
    t = t' := by
  have none (s : σ) : ¬ 0 < (op s (([] : List β).take 256)).1 := Int.not_lt.mpr (takes s [])
  induction h1 with
  | nil s =>
    cases h2 with
    | nil => rfl
    | piece more => exact absurd more (none s)
  | piece more _ ih =>
    cases h2 with
    | nil => exact absurd more (none _)
    | piece _ rest => exact ih rest

omit takes in
theorem TakesAll.first {s t : σ} (all : TakesAll op s data t) (some : data ≠ []) :
    0 < (op s (data.take 256)).1 := by
  cases all with
  | nil => exact absurd rfl some
  | piece more => exact more

/-- The loop without a refusal has offered all of the data; else it stops before, and at once if
the first answer refuses. -/
theorem pieces_all (he : data.length ≤ turns)
    (ran : pieces op false turns data done w = (refusal, n, w')) :
    (refusal = none → TakesAll op w.state data w'.state) ∧
      (refusal ≠ none → (∀ t, ¬ TakesAll op w.state data t) ∧
        (n = done ↔ (op w.state (data.take 256)).1 ≤ 0)) := by
  induction turns generalizing data done w with
  | zero =>
    cases ran
    obtain rfl := length_eq_zero_iff.mp (Nat.le_zero.mp he)
    exact ⟨fun _ => .nil _, fun some => absurd rfl some⟩
  | succ turns ih =>
    cases data with
    | nil =>
      cases ran
      exact ⟨fun _ => .nil _, fun some => absurd rfl some⟩
    | cons b data =>
      rw [pieces] at ran
      split at ran
      · next hr =>
        cases ran
        refine ⟨nofun, fun _ => ⟨fun t all => ?_, iff_of_true rfl hr⟩⟩
        cases all with
        | piece more => exact absurd hr (Int.not_le.mpr more)
      · next hr =>
        rw [if_neg (by simp)] at ran
        have more := Int.not_le.mp hr
        obtain ⟨whole, part⟩ := ih (by rw [length_drop]; omega) ran
        refine ⟨fun ok => .piece more (whole ok), fun no => ⟨fun t all => ?_, ?_⟩⟩
        · cases all with
          | piece _ rest => exact (part no).1 t rest
        · obtain ⟨a, -, -, rfl, -⟩ := pieces_takes takes (by rw [length_drop]; omega) ran
          exact iff_of_false (by omega) hr

theorem sysWrite_true (s : σ) (v : Bool) (data : List β) :
    TrueCount data (sysWrite op v data ⟨s, []⟩) := by
  unfold sysWrite
  split
  · exact trueCount_error (by decide) rfl
  rcases ran : pieces op true data.length data 0 ⟨s, []⟩ with ⟨_ | r, n, w'⟩
  all_goals
    obtain ⟨ht, rest, rfl, hc, ok, hr, -⟩ :=
      pieces_takes takes (Nat.le_refl _) ran
    rw [nil_append] at ok
    rw [Nat.zero_add, ← ok] at hc
    rw [← ok]
  · exact trueCount_total (prefix_append ..) hc.symm
  dsimp only
  split
  · exact trueCount_total (prefix_append ..) hc.symm
  next hn =>
  refine trueCount_error hr (length_eq_zero_iff.mp ?_)
  rw [← hc]
  exact Nat.eq_zero_of_not_pos hn

theorem vectors_true_iff (iov : List (IoVec β)) (count : w.accepted.length = total) {taken : Bool}
    (ht : taken = false ↔ w.accepted = []) :
    TrueCount (w.accepted ++ iov.flatMap IoVec.data) (vectors op iov total w) ↔
      WholeVectors op iov w.state taken := by
  induction iov generalizing total w taken with
  | nil => exact iff_of_true (trueCount_total (prefix_append ..) count) trivial
  | cons v iov ih =>
    rw [vectors, WholeVectors, flatMap_cons]
    split
    · next he =>
      rw [length_eq_zero_iff.mp he, nil_append]
      exact ih count ht
    next some =>
    split
    · exact ⟨fun true => ht.mpr (true.2 (by simp)), fun none =>
        trueCount_error (by decide) (ht.mp none)⟩
    rcases ran : pieces op false v.data.length v.data 0 w with ⟨_ | r, n, w'⟩
    all_goals
      obtain ⟨a, rest, data, hc, ok, hr, ends⟩ := pieces_takes takes (Nat.le_refl _) ran
      obtain ⟨whole, part⟩ := pieces_all takes (Nat.le_refl _) ran
      have length : w'.accepted.length = total + n := by
        rw [ok, length_append, count, hc, Nat.zero_add]
    · have all := whole rfl
      have step : TrueCount (w.accepted ++ (v.data ++ iov.flatMap IoVec.data))
          (vectors op iov (total + n) w') ↔ WholeVectors op iov w'.state true := by
        rw [data, append_assoc, ← append_assoc w.accepted, ← ok, ends rfl rfl]
        refine ih length (iff_of_false (by simp) fun none => some ?_)
        rw [data, ends rfl rfl, (append_eq_nil_iff.mp (ok.symm.trans none)).2]
        rfl
      refine step.trans ⟨fun rest => .inr ⟨_, all, rest⟩, ?_⟩
      rintro (no | ⟨t, other, rest⟩)
      · exact absurd no (Int.not_le.mpr (all.first (some <| length_eq_zero_iff.mpr ·)))
      · exact all.unique takes other ▸ rest
    obtain ⟨no, first⟩ := part nofun
    rw [or_iff_left fun ⟨t, all, _⟩ => no t all, ← first]
    constructor
    · intro true
      dsimp only at true
      split at true
      · next lost =>
        rw [true.2 lost.1, length_nil] at length
        exact (Nat.add_eq_zero_iff.mp length.symm).2
      · exact Nat.add_left_cancel (length.symm.trans (true.1 (Int.natCast_nonneg _)).2)
    · rintro rfl
      dsimp only
      rw [data, append_assoc, ← append_assoc w.accepted, ← ok]
      split
      · next lost => exact trueCount_error hr (length_eq_zero_iff.mp (length.trans lost.2))
      · exact trueCount_total (prefix_append ..) length

/-- The result of `sys_write` is true, and that of `sys_writev` exactly if the vectors that it
comes to are taken as a whole. -/
theorem write_counts_true (s : σ) (valid : Bool) (data : List β) (iov : List (IoVec β)) :
    TrueCount data (sysWrite op valid data ⟨s, []⟩) ∧
      (TrueCount (iov.flatMap IoVec.data) (sysWritev op valid iov ⟨s, []⟩) ↔
        (iov.length ≤ 1024 ∧ valid → WholeVectors op iov s false)) := by
  refine ⟨sysWrite_true takes s valid data, ?_⟩
  unfold sysWritev
  split_ifs with many invalid
  · exact iff_of_true (trueCount_error (by decide) rfl) (by simp [Nat.not_le.mpr many])
  · exact iff_of_true (trueCount_error (by decide) rfl) (by simp [invalid])
  · refine Iff.trans (vectors_true_iff takes (w := ⟨s, []⟩) iov rfl (iff_of_true rfl rfl))
      (imp_iff_right ?_).symm
    exact ⟨Nat.le_of_not_lt many, eq_true_of_ne_false invalid⟩

end

/-- A descriptor with given answers, each cut to what it is offered. -/
def scripted (answers : List Int) (chunk : List Nat) : Int × List Int :=
  (min (answers.headD 0) chunk.length, answers.tail)

theorem write_counts_true_scripted : TakesPrefix scripted ∧
    (sysWrite scripted true [1, 2, 3] ⟨[2, 1], []⟩).1 = 2 ∧
    TrueCount [1, 2, 3] (sysWrite scripted true [1, 2, 3] ⟨[2, 1], []⟩) ∧
    (sysWritev scripted true [⟨true, [1, 2]⟩, ⟨true, [3]⟩] ⟨[1, 1, 0], []⟩).1 = 2 ∧
    TrueCount [1, 2, 3] (sysWritev scripted true [⟨true, [1, 2]⟩, ⟨true, [3]⟩] ⟨[1, 1, 0], []⟩) := by
  have takes : TakesPrefix scripted := fun _ _ => Int.min_le_right ..
  have counts := write_counts_true takes
  refine ⟨takes, rfl, (counts [2, 1] true [1, 2, 3] []).1, rfl, ?_⟩
  refine (counts [1, 1, 0] true [] [⟨true, [1, 2]⟩, ⟨true, [3]⟩]).2.mpr fun _ => .inr ⟨[0], ?_, ?_⟩
  · exact .piece (by decide) (.piece (by decide) (.nil _))
  · exact .inl (by decide)

/-- A vector is refused after two of its bytes; an invalid vector follows one that was taken. -/
theorem writev_counts_lost :
    sysWritev scripted true [⟨true, [1, 2, 3]⟩] ⟨[2, -32], []⟩ = (-32, ⟨[], [1, 2]⟩) ∧
      sysWritev scripted true [⟨true, [1]⟩, ⟨false, [2]⟩] ⟨[1], []⟩ = (-14, ⟨[], [1]⟩) :=
  ⟨rfl, rfl⟩

end Aegis.WriteCalls
