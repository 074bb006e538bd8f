import Aegis.ElfImage
import Aegis.Kva
import Aegis.UserMemory

/-! How `elf_load` (kernel/proc/elf.c) places the segments of an image. Each segment gets pages
of the kernel virtual allocator, is copied into them through kernel addresses, and the frames
behind these pages are then mapped at the user addresses. Frames have contents here, and a
frame that is handed out keeps what was in it. The VMA table of the process is left out. -/

namespace Aegis.Elf

open ByteLayout (Byte)
open Memory PagedBuffer RadixTree List Option

structure LoadMem where
  kva : Kva
  user : Space
  bytes : TableMemory.Memory Byte

def frameBehind (master : Space) (dst i : Nat) : Nat := (master.pte (dst + i)).frame

/-- The three loops that fill the buffer of a segment: zeros before it in the first page, the
file bytes, and zeros up to its size in memory. -/
def fillSegment (img : Image) (seg : Segment) (place : Nat → Nat)
    (bytes : TableMemory.Memory Byte) : TableMemory.Memory Byte :=
  let bytes := pokes 4096 place 0 seg.vaOffset (fun _ => 0) bytes
  let bytes := pokes 4096 place seg.vaOffset seg.filesz
    (fun k => img ((seg.offset + k) % 2 ^ 64)) bytes
  pokes 4096 place (seg.vaOffset + seg.filesz) (seg.memsz - seg.filesz) (fun _ => 0) bytes

/-- The mapping loop, from page `j` on; `none` is a panic. -/
def mapPages (master : Space) (dst vaPage : Nat) (flags : PteFlags) :
    Nat → Nat → Pmm × Space → Option (Pmm × Space)
  | 0, _, m => some m
  | n + 1, j, (p, s) =>
    (vmmPhysOf master (dst + j)).bind fun frame =>
      (vmmMapUserPage p s (vaPage + j) frame flags).bind
        (mapPages master dst vaPage flags n (j + 1))

def segmentFlags (seg : Segment) : PteFlags := ⟨false, seg.writable, true, false⟩

def placeSegment (img : Image) (m : LoadMem) (seg : Segment) : Option LoadMem :=
  (kvaAllocPages m.kva seg.pageCount).bind fun (dst, kva) =>
    (mapPages kva.master dst (seg.vaBase / 4096) (segmentFlags seg) seg.pageCount 0
      (kva.pmm, m.user)).map fun (pmm, user) =>
        { kva := { kva with pmm := pmm }
          user := user
          bytes := fillSegment img seg (frameBehind kva.master dst) m.bytes }

/-- `none` is a panic; the result is -1 or what `elf_load` fills in. -/
def elfLoad (img : Image) (base : Nat) (m : LoadMem) : Option (LoadMem × Option LoadResult) :=
  ((elfSegments img base).value.1.foldlM (placeSegment img) m).map fun m =>
    (m, (elfSegments img base).value.2)

def LoadMem.userByte (m : LoadMem) (va : Nat) : Option Byte := readUser m.user m.bytes va

/-- Byte `k` of the pages of a segment as the file has it: zero outside its file part. -/
def imageByte (img : Image) (seg : Segment) (k : Nat) : Byte :=
  if seg.vaOffset ≤ k ∧ k < seg.vaOffset + seg.filesz then
    img ((seg.offset + (k - seg.vaOffset)) % 2 ^ 64)
  else 0

def placedByte (img : Image) (seg : Segment) (old : Byte) (k : Nat) : Byte :=
  if seg.vaOffset + seg.memsz ≤ k then old else imageByte img seg k

structure Segment.Proper (seg : Segment) : Prop where
  aligned : seg.vaBase % 4096 = 0
  sizes : seg.filesz ≤ seg.memsz
  pages : seg.vaOffset + seg.memsz ≤ seg.pageCount * 4096
  tail : seg.pageCount * 4096 < seg.vaOffset + seg.memsz + 4096

section
variable {p p' : Pmm} {s s' : Space} {page n : Nat}

theorem backPages_frames (hb : backPages n page (p, s) = some (p', s')) :
    (∀ g, InUse p g → InUse p' g) ∧
      (∀ i < n, ¬ InUse p (frameBehind s' page i) ∧ InUse p' (frameBehind s' page i)) ∧
      Apart (· < n) (frameBehind s' page) := by
  have hf := backPages_mapsFresh hb
  obtain ⟨hg, -, pages⟩ := hf.frames
  exact ⟨hg, fun i lt => (pages i lt).2, hf.apart⟩

theorem mapPages_frames {master : Space} {dst hv j : Nat} {flags : PteFlags}
    (hm : mapPages master dst hv flags n j (p, s) = some (p', s')) :
    (∀ g, InUse p g → InUse p' g) ∧ (∀ q, (s.pte q).flags.present = true → s'.pte q = s.pte q) ∧
      ∀ i, j ≤ i → i < j + n →
        s'.pte (hv + i) = ⟨frameBehind master dst i, { flags with present := true }⟩ := by
  induction n generalizing j p s with
  | zero =>
    cases hm
    exact ⟨fun _ used => used, fun _ _ => rfl, fun i low high => by omega⟩
  | succ n ih =>
    obtain ⟨frame, phys, hm⟩ := bind_eq_some_iff.mp hm
    obtain ⟨⟨next, t⟩, h1, hd⟩ := bind_eq_some_iff.mp hm
    obtain ⟨entry, kept, more⟩ := vmmMapUserPage_keeps h1
    obtain ⟨hg, hk, hl⟩ := ih hd
    refine ⟨fun g pre => hg g (more g pre), fun q present => ?_, fun i low high => ?_⟩
    · have eq := kept q present
      rw [hk q (by rw [eq]; exact present), eq]
    by_cases here : i = j
    · subst here
      rw [hk _ (by rw [entry]), entry, frameBehind]
      unfold vmmPhysOf at phys
      split at phys
      · rw [some.inj phys]
      · cases phys
    · exact hl i (by omega) (by omega)

end

section
variable {img : Image} {seg : Segment} {m m' : LoadMem} {place : Nat → Nat}
  {bytes : TableMemory.Memory Byte}

theorem peek_fillSegment (hp : seg.Proper) (ha : Apart (· < seg.pageCount) place) {k : Nat}
    (hi : k < seg.pageCount * 4096) :
    peek 4096 place (fillSegment img seg place bytes) k =
      placedByte img seg (peek 4096 place bytes k) k := by
  have sizes := hp.sizes
  have pages := hp.pages
  have page (l : Nat) (hb : l < seg.pageCount * 4096) : l / 4096 < seg.pageCount := page_lt_of_lt hb
  rw [fillSegment, peek_pokes ha (fun i _ => page _ (by omega)) (page k hi),
    peek_pokes ha (fun i _ => page _ (by omega)) (page k hi),
    peek_pokes ha (fun i _ => page _ (by omega)) (page k hi), placedByte, imageByte]
  by_cases tail : seg.vaOffset + seg.memsz ≤ k
  · rw [if_neg (by omega), if_neg (by omega), if_neg (by omega), if_pos tail]
  rw [if_neg tail]
  by_cases file : seg.vaOffset ≤ k ∧ k < seg.vaOffset + seg.filesz
  · rw [if_neg (by omega), if_pos file, if_pos file]
  rw [if_neg file, if_neg file]
  by_cases bss : seg.vaOffset + seg.filesz ≤ k
  · rw [if_pos (by omega)]
  · rw [if_neg (by omega), if_pos (by omega)]

theorem fillSegment_other {g : Nat} (hp : seg.Proper)
    (ho : ∀ i < seg.pageCount, g ≠ place i) : fillSegment img seg place bytes g = bytes g := by
  have sizes := hp.sizes
  have pages := hp.pages
  have page (l : Nat) (hb : l < seg.pageCount * 4096) : l / 4096 < seg.pageCount := page_lt_of_lt hb
  rw [fillSegment, pokes_other (fun i _ => page _ (by omega)) ho,
    pokes_other (fun i _ => page _ (by omega)) ho,
    pokes_other (fun i _ => page _ (by omega)) ho]

theorem kvaAllocPages_frames {k k' : Kva} {n dst : Nat}
    (alloc : kvaAllocPages k n = some (dst, k')) :
    (∀ g, InUse k.pmm g → InUse k'.pmm g) ∧ (∀ i < n, ¬ InUse k.pmm (frameBehind k'.master dst i) ∧
        InUse k'.pmm (frameBehind k'.master dst i)) ∧
      Apart (· < n) (frameBehind k'.master dst) := by
  unfold kvaAllocPages at alloc
  split at alloc
  · next none =>
    cases alloc
    subst none
    exact ⟨fun _ used => used, nofun, nofun⟩
  · rcases range : takeRange k n with ⟨base, mid⟩
    have eq : mid.pmm = k.pmm ∧ mid.master = k.master := by
      simp only [takeRange] at range
      split at range
      · cases range
        exact ⟨rfl, rfl⟩
      · cases range
        exact ⟨rfl, rfl⟩
    simp only [range, eq.1, eq.2] at alloc
    obtain ⟨⟨p, s⟩, hb, hr⟩ := map_eq_some_iff.mp alloc
    cases hr
    exact backPages_frames hb

/-- What placing a segment does: its pages get frames that were not in use, with the bytes of
the segment over what was in them; frames in use and present pages stay as they are. -/
structure Places (img : Image) (m m' : LoadMem) (seg : Segment) (place : Nat → Nat) : Prop where
  entries : ∀ i < seg.pageCount, m'.user.pte (seg.vaBase / 4096 + i) =
    ⟨place i, { segmentFlags seg with present := true }⟩
  fresh : ∀ i < seg.pageCount, ¬ InUse m.kva.pmm (place i)
  used : ∀ i < seg.pageCount, InUse m'.kva.pmm (place i)
  bytes : ∀ k < seg.pageCount * 4096, peek 4096 place m'.bytes k =
    placedByte img seg (peek 4096 place m.bytes k) k

theorem placeSegment_spec (hp : seg.Proper) (done : placeSegment img m seg = some m') :
    (∃ place, Places img m m' seg place) ∧
      (∀ g, InUse m.kva.pmm g → InUse m'.kva.pmm g ∧ m'.bytes g = m.bytes g) ∧
      (∀ g, ¬ InUse m'.kva.pmm g → m'.bytes g = m.bytes g) ∧
      ∀ q, (m.user.pte q).flags.present = true → m'.user.pte q = m.user.pte q := by
  obtain ⟨⟨dst, kva⟩, alloc, done⟩ := bind_eq_some_iff.mp done
  obtain ⟨⟨pmm, user⟩, hm, rfl⟩ := map_eq_some_iff.mp done
  obtain ⟨hg, frames, ha⟩ := kvaAllocPages_frames alloc
  obtain ⟨more, hk, entries⟩ := mapPages_frames hm
  have inUse (i : Nat) (lt : i < seg.pageCount) :
      InUse pmm (frameBehind kva.master dst i) := more _ (frames i lt).2
  refine ⟨⟨frameBehind kva.master dst, ?_, fun i lt => (frames i lt).1, inUse, ?_⟩, ?_, ?_, hk⟩
  · exact fun i lt => entries i (Nat.zero_le i) (by omega)
  · exact fun k hi => peek_fillSegment hp ha hi
  · intro g used
    refine ⟨more g (hg g used), fillSegment_other hp fun i lt eq => ?_⟩
    exact (frames i lt).1 (eq ▸ used)
  · intro g hu
    exact fillSegment_other hp fun i lt eq => hu (eq ▸ inUse i lt)

theorem placeSegments_spec {segs : List Segment} (hr : ∀ seg ∈ segs, seg.Proper)
    (done : segs.foldlM (placeSegment img) m = some m') :
    (∀ seg ∈ segs, ∃ place, Places img m m' seg place) ∧
      (∀ g, InUse m.kva.pmm g → InUse m'.kva.pmm g ∧ m'.bytes g = m.bytes g) ∧
      ∀ q, (m.user.pte q).flags.present = true → m'.user.pte q = m.user.pte q := by
  induction segs generalizing m with
  | nil =>
    cases done
    exact ⟨nofun, fun _ used => ⟨used, rfl⟩, fun _ _ => rfl⟩
  | cons h1 segs ih =>
    rw [foldlM_cons] at done
    obtain ⟨mid, hp, rest⟩ := bind_eq_some_iff.mp done
    obtain ⟨⟨place, here⟩, kept, hu, hk⟩ := placeSegment_spec (hr h1 mem_cons_self) hp
    obtain ⟨hl, kept', hk'⟩ := ih (fun seg mem => hr seg (mem_cons_of_mem h1 mem)) rest
    refine ⟨fun seg mem => ?_, fun g used => ?_, fun q present => ?_⟩
    · rcases mem_cons.mp mem with rfl | mem
      · -- the frames of the first segment are in use when the others are placed
        refine ⟨place, fun i lt => ?_, here.fresh, fun i lt => (kept' _ (here.used i lt)).1,
          fun k hi => ?_⟩
        · rw [hk' _ (by rw [here.entries i lt]), here.entries i lt]
        · have frame := (kept' _ (here.used _ (page_lt_of_lt hi))).2
          rw [← here.bytes k hi, peek, peek, frame]
      · obtain ⟨place', ht⟩ := hl seg mem
        refine ⟨place', ht.entries, fun i lt used => ht.fresh i lt (kept _ used).1,
          ht.used, fun k hi => ?_⟩
        have frame := hu _ (ht.fresh _ (page_lt_of_lt hi))
        rw [ht.bytes k hi, peek, peek, frame]
    · obtain ⟨used', eq⟩ := kept g used
      obtain ⟨used'', eq'⟩ := kept' g used'
      exact ⟨used'', eq'.trans eq⟩
    · have eq := hk q present
      rw [hk' q (by rw [eq]; exact present), eq]

theorem placeSegments_isSome {segs : List Segment} {n : LoadMem} (kva : n.kva = m.kva)
    (user : n.user = m.user) (done : segs.foldlM (placeSegment img) m = some m') :
    ∃ n', segs.foldlM (placeSegment img) n = some n' := by
  induction segs generalizing m n with
  | nil => exact ⟨n, rfl⟩
  | cons h1 segs ih =>
    rw [foldlM_cons] at done
    obtain ⟨mid, hp, rest⟩ := bind_eq_some_iff.mp done
    obtain ⟨⟨dst, after⟩, alloc, hp⟩ := bind_eq_some_iff.mp hp
    obtain ⟨⟨pmm, space⟩, hm, rfl⟩ := map_eq_some_iff.mp hp
    rw [← kva] at alloc
    rw [← user] at hm
    have placed' : placeSegment img n h1 = some ⟨{ after with pmm := pmm }, space,
        fillSegment img h1 (frameBehind after.master dst) n.bytes⟩ := by
      rw [placeSegment, alloc]
      simp only [bind_some, hm, map_some]
    rw [foldlM_cons, placed']
    refine ih ?_ ?_ rest
    · rfl
    · rfl

theorem Places.userByte (hp : Places img m m' seg place) (hr : seg.Proper) {k : Nat}
    (hi : k < seg.pageCount * 4096) :
    m'.userByte (seg.vaBase + k) = some (placedByte img seg (peek 4096 place m.bytes k) k) := by
  have ha := hr.aligned
  have page : (seg.vaBase + k) / 4096 = seg.vaBase / 4096 + k / 4096 := by omega
  have offset : (seg.vaBase + k) % 4096 = k % 4096 := by omega
  rw [LoadMem.userByte, readUser, page, offset, hp.entries _ (page_lt_of_lt hi), if_pos rfl,
    ← hp.bytes k hi, peek]

end

theorem segmentAt_proper {img : Image} {i base : Nat} (fine : ¬ Refused img i)
    (load : pType img i = ptLoad) : (segmentAt img i base).Proper := by
  have sizes : pFilesz img i ≤ pMemsz img i := by
    by_contra short
    exact fine ⟨load, .inr (Nat.lt_of_not_le short)⟩
  refine ⟨?_, sizes, ?_, ?_⟩
  · exact Nat.mul_mod_left ..
  · simp only [segmentAt, Segment.make]
    omega
  · simp only [segmentAt, Segment.make]
    omega

theorem elfSegments_proper {img : Image} {base : Nat} {seg : Segment}
    (hp : seg ∈ (elfSegments img base).value.1) : seg.Proper := by
  by_cases ok : Accepted img
  · obtain ⟨i, -, -, fine, load, rfl⟩ := (mem_elfSegments base ok seg).mp hp
    exact segmentAt_proper fine load
  · rw [(elfSegments_value img base).1 ok] at hp
    exact absurd hp not_mem_nil

/-- After a successful load, every byte of every page of a segment is the byte of the image,
whatever the frames contained before, exactly if every segment ends at the end of a page: the
bytes of the last page behind a segment are never written. -/
theorem loaded_bytes_exact_iff {img : Image} {base : Nat} {m m' : LoadMem} {result : LoadResult}
    (loaded : elfLoad img base m = some (m', some result)) :
    (∀ bytes m₁, elfLoad img base { m with bytes := bytes } = some (m₁, some result) →
      ∀ seg ∈ (elfSegments img base).value.1, ∀ k < seg.pageCount * 4096,
        m₁.userByte (seg.vaBase + k) = some (imageByte img seg k)) ↔
      ∀ seg ∈ (elfSegments img base).value.1, (seg.vaOffset + seg.memsz) % 4096 = 0 := by
  obtain ⟨last, done, same⟩ := map_eq_some_iff.mp loaded
  constructor
  · intro exact seg placed
    by_contra partly
    obtain ⟨m₁, done₁⟩ := placeSegments_isSome (m := m) (n := { m with bytes := fun _ _ => 1 })
      rfl rfl done
    have proper := elfSegments_proper placed
    obtain ⟨place, places⟩ := (placeSegments_spec (fun _ => elfSegments_proper) done₁).1 seg placed
    have inside : seg.vaOffset + seg.memsz < seg.pageCount * 4096 := by
      have := proper.pages
      omega
    have loaded₁ : elfLoad img base { m with bytes := fun _ _ => 1 } = some (m₁, some result) := by
      rw [elfLoad, done₁, ← (Prod.mk.inj same).2]
      rfl
    have byte := exact _ m₁ loaded₁ seg placed _ inside
    rw [places.userByte proper inside, placedByte, if_pos le_rfl, imageByte,
      if_neg (by have := proper.sizes; omega)] at byte
    cases byte
  · intro whole bytes m₁ loaded₁ seg placed k inside
    obtain ⟨last₁, done₁, same₁⟩ := map_eq_some_iff.mp loaded₁
    obtain ⟨rfl, -⟩ := Prod.mk.inj same₁
    have proper := elfSegments_proper placed
    obtain ⟨place, places⟩ := (placeSegments_spec (fun _ => elfSegments_proper) done₁).1 seg placed
    have before : ¬ seg.vaOffset + seg.memsz ≤ k := by
      have := whole seg placed
      have := proper.tail
      have := proper.pages
      omega
    rw [places.userByte proper inside, placedByte, if_neg before]

/-- A program with one segment at 0x400000: four file bytes, `256 * high + low` bytes in
memory. -/
def oneSegmentImage (low high : Byte) : Image := fun off =>
  match off with
  | 0 => 0x7F
  | 1 => 0x45
  | 2 => 0x4C
  | 3 => 0x46
  | 4 => 2
  | 16 => 2
  | 18 => 0x3E
  | 32 => 64
  | 56 => 1
  | 64 => 1
  | 68 => 6
  | 82 => 0x40
  | 96 => 4
  | 104 => low
  | 105 => high
  | _ => 0

def dirtyMem : LoadMem where
  kva := { bootKva with pmm := ⟨fun f => f ≤ 2, fun f => if f ≤ 2 then 1 else 0, [], []⟩ }
  user := ⟨2, empty Pte.zero 3⟩
  bytes := fun _ _ => 0xAA

theorem loaded_bytes_exact_whole_page :
    ∃ m' result, elfLoad (oneSegmentImage 0 0x10) 0 dirtyMem = some (m', some result) ∧
      m'.userByte 0x400003 = some 0x46 ∧ m'.userByte 0x400FFF = some 0 := by
  obtain ⟨⟨m', result⟩, loaded⟩ := isSome_iff_exists.mp
    (by decide +kernel : (elfLoad (oneSegmentImage 0 0x10) 0 dirtyMem).isSome)
  have segments : (elfSegments (oneSegmentImage 0 0x10) 0).value.1 =
      [⟨0x400000, 0x400000, 0, 1, 0, 4, 0x1000, true⟩] := by
    decide +kernel
  obtain ⟨result, rfl⟩ : ∃ r, result = some r := by
    obtain ⟨m₁, -, same⟩ := map_eq_some_iff.mp loaded
    rw [← (Prod.mk.inj same).2]
    exact isSome_iff_exists.mp (by decide +kernel)
  have bytes := (loaded_bytes_exact_iff loaded).mpr (by rw [segments]; decide) dirtyMem.bytes m'
    loaded
  rw [segments] at bytes
  exact ⟨m', result, loaded, bytes _ mem_cons_self 3 (by decide),
    bytes _ mem_cons_self 0xFFF (by decide)⟩

/-- The byte behind a segment of four bytes is what the frame contained before. -/
theorem old_byte_readable : (elfLoad (oneSegmentImage 4 0) 0 dirtyMem).map
      (fun r => (r.1.userByte 0x400003, r.1.userByte 0x400004, r.2.isSome)) =
        some (some 0x46, some 0xAA, true) := by
  decide +kernel

end Aegis.Elf
