import Aegis.MemSpec
import Aegis.PmmInit
import Aegis.Tally

/-! What a memory call that runs out of frames leaves behind. `sys_brk` keeps the pages it has
mapped; `sys_mmap` takes its pages out again, but not the tables it made for them, nor does it
undo what it did before: the unmapped pages of `MAP_FIXED` and the range taken from the free
list. Running out of frames for a table is a panic, so a call that returns has failed to get
a frame for a page. -/

namespace Aegis.Memory

open RadixTree Function List Option

def freeFrames (p : Pmm) : Nat :=
  (List.range pmmMaxPages).countP fun f => !p.bitmap f

def Space.HasTables (s : Space) (page : Nat) : Prop :=
  reaches 512 3 s.top page = true
  deriving Decidable

variable {p p' : Pmm} {m m' : Pmm × Space} {s s' : Space} {page q frame count : Nat}
  {pages held new : List Nat} {flags : PteFlags}

theorem pmmAllocPage_freeFrames (ht : pmmAllocPage p = (frame, p')) (some : frame ≠ 0) :
    freeFrames p' + 1 = freeFrames p := by
  obtain ⟨zero, -⟩ | ⟨clear, lt, rfl⟩ := pmmAllocPage_cases ht
  · exact absurd zero some
  have hc := @Tally.countP_change Nat (range pmmMaxPages) frame
    (fun f => !p.bitmap f) (fun f => !update p.bitmap frame true f) nodup_range
    (mem_range.mpr lt) fun f _ other => by rw [update_of_ne other]
  simpa [freeFrames, clear] using hc

theorem freeFrames_of_full (hr : p.bitmap 0 = true) (ht : pmmAllocPage p = (0, p')) :
    freeFrames p = 0 := by
  refine countP_eq_zero.mpr fun f mem => ?_
  have set := pmmAllocPage_full hr ht (mem_range.mp mem)
  simp [set]

theorem allocs_freeFrames (ht : Allocs allocTable p new p') :
    freeFrames p' + new.length = freeFrames p := by
  induction ht with
  | nil => rw [length_nil, add_zero]
  | cons h1 _ ih =>
    rw [allocTable] at h1
    split at h1
    · cases h1
    next hf =>
    have eq := some.inj h1
    have one := pmmAllocPage_freeFrames eq (by simpa [eq] using hf)
    rw [length_cons]
    omega

theorem allocs_inUse_iff (ht : Allocs allocTable p new p') :
    ∀ g, InUse p' g ↔ g ∈ new ∨ InUse p g := by
  induction ht with
  | nil => simp
  | cons h1 _ ih =>
    intro g
    rw [ih g, (allocTable_inUse h1).2.2 g, mem_cons]
    tauto

theorem vmmMapUserPage_frames (hm : vmmMapUserPage p s page frame flags = some (p', s')) :
    ∃ tables, Allocs allocTable p tables p' ∧ (tables = [] ↔ s.HasTables page) ∧
      (tables = [] → ∀ q, s'.HasTables q ↔ s.HasTables q) := by
  obtain ⟨⟨top, last⟩, hp, eq⟩ := map_eq_some_iff.mp hm
  cases eq
  obtain ⟨tables, -, ht, none, kept⟩ := plant_allocs hp
  refine ⟨tables, ht, none, fun way q => ?_⟩
  rw [Space.HasTables, Space.HasTables, kept (none.mp way) q]

theorem mapFresh_frames (hp : flags.present = true) (ne : pages.Nodup)
    (hi : InUser pages) (hr : m.1.bitmap 0 = true)
    (done : mapFresh flags pages m = some (count, m')) :
    ∃ new tables, Allocs allocTable m.1 new m'.1 ∧
      new.Perm ((pages.take count).map (fun q => (m'.2.pte q).frame) ++ tables) ∧
      (tables = [] ↔ ∀ q ∈ pages.take count, m.2.HasTables q) ∧
      (count < pages.length → freeFrames m'.1 = 0) := by
  induction pages generalizing m count with
  | nil =>
    cases done
    exact ⟨[], [], .nil _, by simp, by simp, by simp⟩
  | cons page rest ih =>
    obtain ⟨hc, ne⟩ := nodup_cons.mp ne
    rw [mapFresh] at done
    split at done
    · next none =>
      cases done
      have hf : pmmAllocPage m.1 = (0, (pmmAllocPage m.1).2) := Prod.ext none rfl
      rw [pmmAllocPage_failed hr hf]
      exact ⟨[], [], .nil _, by simp, by simp, fun _ => freeFrames_of_full hr hf⟩
    · next some =>
      obtain ⟨next, hm, hl⟩ := bind_eq_some_iff.mp done
      obtain ⟨⟨more, last⟩, loop, eq⟩ := map_eq_some_iff.mp hl
      cases eq
      have own : allocTable m.1 = .some (pmmAllocPage m.1) := by rw [allocTable, if_neg some]
      obtain ⟨made, ht, way, kept⟩ := vmmMapUserPage_frames hm
      have h1 : Allocs allocTable m.1 ((pmmAllocPage m.1).1 :: made) next.1 := .cons own ht
      have hd : next.1.bitmap 0 = true :=
        (Owned.custody.allocs h1 ⟨nodup_nil, hr, by simp⟩).reserved
      obtain ⟨new, tables, ha, perm, ways, full⟩ := ih ne hi.tail hd loop
      refine ⟨_, made ++ tables, h1.append ha, ?_, ?_, fun hs => full ?_⟩
      · have entry : (last.2.pte page).frame = (pmmAllocPage m.1).1 := by
          have ho : page ∉ rest.take more := fun mem => hc (mem_of_mem_take mem)
          rw [(mapFresh_pte hp ne hi.tail loop).2.2 page hi.head ho,
            (vmmMapUserPage_pte hi.head hm).1]
        rw [take_succ_cons, map_cons, entry]
        exact .cons _ ((perm.append_left made).trans (perm_append_comm_assoc ..))
      · rw [take_succ_cons, forall_mem_cons, append_eq_nil_iff, ways, ← way]
        refine and_congr_right fun none => forall₂_congr fun q _ => kept none q
      · rw [length_cons] at hs
        omega

theorem mapFresh_zero (clear : m.1.bitmap 0 = false)
    (done : mapFresh flags pages m = some (count, m')) (hs : count < pages.length) :
    count = 0 ∧ InUse m'.1 0 := by
  cases pages with
  | nil => cases hs
  | cons page rest =>
    have hl : firstClear m.1.bitmap (1048575 + 1) 0 = some 0 := by
      rw [firstClear, if_neg (by simp [clear])]
    have zero : (pmmAllocPage m.1).1 = 0 := by rw [pmmAllocPage, pmmMaxPages, hl]
    rw [mapFresh, if_pos zero] at done
    cases done
    refine ⟨rfl, .inl ?_⟩
    rw [pmmAllocPage, pmmMaxPages, hl]
    exact update_self 0 true m.1.bitmap

theorem pmmFreePage_clear (clear : p.bitmap q = false) :
    (pmmFreePage p frame).bitmap q = false := by
  simp only [pmmFreePage]
  split_ifs
  · exact clear
  · exact clear
  · exact clear
  rw [dropRef]
  simp only
  split_ifs
  · by_cases eq : q = frame
    · rw [eq, update_self]
    · rwa [update_of_ne eq]
  · exact clear

theorem dropPages_clear (clear : m.1.bitmap q = false) :
    (pages.foldl dropPage m).1.bitmap q = false := by
  induction pages generalizing m with
  | nil => exact clear
  | cons page rest ih =>
    refine ih ?_
    rw [dropPage]
    split
    · exact clear
    · exact pmmFreePage_clear clear

theorem dropPages_absent (ha : ∀ q ∈ pages, vmmPhysOfUser m.2 q = 0) :
    pages.foldl dropPage m = m := by
  induction pages with
  | nil => rfl
  | cons page rest ih =>
    rw [foldl_cons, dropPage, if_pos (ha page mem_cons_self)]
    exact ih fun q mem => ha q (.tail _ mem)

theorem vmmPhysOfUser_ne_zero (some : vmmPhysOfUser s page ≠ 0) :
    (s.pte page).flags.present = true := by
  by_contra absent
  rw [vmmPhysOfUser, if_neg absent] at some
  exact some rfl

theorem dropPage_phys (lt : page < userPages) (lt' : q < userPages) : (dropPage m page).2.pte q =
      if q = page ∧ vmmPhysOfUser m.2 q ≠ 0 then Pte.zero else m.2.pte q := by
  rw [dropPage]
  split
  · next none =>
    rw [if_neg]
    rintro ⟨rfl, some⟩
    exact some none
  · next some =>
    rw [pte_unmap_eq lt lt']
    by_cases eq : q = page
    · subst eq
      simp [vmmPhysOfUser_ne_zero some, some]
    · simp [eq]

theorem dropPages_phys (hi : InUser pages) (lt : q < userPages) : (pages.foldl dropPage m).2.pte q =
      if q ∈ pages ∧ vmmPhysOfUser m.2 q ≠ 0 then Pte.zero else m.2.pte q := by
  induction pages generalizing m with
  | nil => simp
  | cons page rest ih =>
    have h1 := @dropPage_phys m page q hi.head lt
    rw [foldl_cons, ih hi.tail, vmmPhysOfUser, h1]
    by_cases hc : q = page ∧ vmmPhysOfUser m.2 q ≠ 0
    · rw [if_pos hc, ite_self, if_pos ⟨hc.1 ▸ mem_cons_self, hc.2⟩]
    rw [if_neg hc, ← vmmPhysOfUser]
    by_cases eq : q = page
    · have none : vmmPhysOfUser m.2 q = 0 := by simpa [eq] using hc
      simp [none]
    · simp [eq]

theorem dropPages_owned (ne : pages.Nodup) (hi : InUser pages)
    (hp : ∀ q ∈ pages, (m.2.pte q).flags.present = true)
    (how : Owned m.1 (pages.map (fun q => (m.2.pte q).frame) ++ held)) :
    ∀ g, InUse (pages.foldl dropPage m).1 g ↔
      InUse m.1 g ∧ g ∉ pages.map fun q => (m.2.pte q).frame := by
  induction pages generalizing m with
  | nil => simp
  | cons page rest ih =>
    obtain ⟨hf, ne⟩ := nodup_cons.mp ne
    have phys : vmmPhysOfUser m.2 page = (m.2.pte page).frame := by
      rw [vmmPhysOfUser, if_pos (hp page mem_cons_self)]
    have live := how.live _ mem_cons_self
    have h1 : dropPage m page =
        (pmmFreePage m.1 (m.2.pte page).frame, vmmUnmapUserPage m.2 page) := by
      rw [dropPage, phys, if_neg live.2.2.1]
    have ho : ∀ q ∈ rest, (vmmUnmapUserPage m.2 page).pte q = m.2.pte q := fun q mem =>
      pte_unmap_other hi.head (hi.tail q mem) fun eq => hf (eq ▸ mem)
    have frames : rest.map (fun q => ((vmmUnmapUserPage m.2 page).pte q).frame) =
        rest.map fun q => (m.2.pte q).frame :=
      map_congr_left fun q mem => by rw [ho q mem]
    rw [foldl_cons, h1]
    have hl := @ih (pmmFreePage m.1 (m.2.pte page).frame, vmmUnmapUserPage m.2 page) ne
      hi.tail (fun q mem => by
        rw [ho q mem]
        exact hp q (mem_cons_of_mem page mem)) (by
        rw [frames]
        exact how.free)
    rw [frames] at hl
    intro g
    rw [hl g, map_cons, mem_cons, not_or, ← and_assoc]
    refine and_congr_left fun _ => ?_
    rw [pmmFreePage_single live]
    by_cases eq : g = (m.2.pte page).frame
    · simp [InUse, eq, not_le.mpr live.2.2.2]
    · simp [InUse, eq]

theorem mapFresh_undone_pte (hp : flags.present = true) (ne : pages.Nodup)
    (hi : InUser pages) (done : mapFresh flags pages m = some (count, m'))
    (lt : q < userPages) : ((pages.take count).foldl dropPage m').2.pte q =
      if q ∈ pages.take count then Pte.zero else m.2.pte q := by
  obtain ⟨-, hf, kept⟩ := mapFresh_pte hp ne hi done
  rw [dropPages_phys (fun q mem => hi q (mem_of_mem_take mem)) lt]
  by_cases mem : q ∈ pages.take count
  · obtain ⟨-, f, hn, entry⟩ := hf q mem
    have phys : vmmPhysOfUser m'.2 q ≠ 0 := by rwa [vmmPhysOfUser, entry, if_pos hp]
    rw [if_pos ⟨mem, phys⟩, if_pos mem]
  · rw [if_neg fun both => mem both.1, if_neg mem, kept q lt mem]

theorem mapFresh_undone (hp : flags.present = true) (ne : pages.Nodup)
    (hi : InUser pages) (hr : m.1.bitmap 0 = true)
    (done : mapFresh flags pages m = some (count, m')) (hs : count < pages.length) :
    ∃ tables, count + tables.length = freeFrames m.1 ∧
      (tables = [] ↔ ∀ q ∈ pages.take count, m.2.HasTables q) ∧
      (∀ g ∈ tables, ¬ InUse m.1 g) ∧
      ∀ g, InUse ((pages.take count).foldl dropPage m').1 g ↔ g ∈ tables ∨ InUse m.1 g := by
  obtain ⟨new, tables, ha, perm, ways, full⟩ := mapFresh_frames hp ne hi hr done
  have ho : Owned m'.1 ((pages.take count).map (fun q => (m'.2.pte q).frame) ++ tables) := by
    have all := Owned.custody.allocs ha ⟨nodup_nil, hr, by simp⟩
    rw [append_nil] at all
    exact all.perm perm
  have hm : ∀ q ∈ pages.take count, (m'.2.pte q).flags.present = true := fun q mem => by
    obtain ⟨-, f, -, entry⟩ := (mapFresh_pte hp ne hi done).2.1 q mem
    rw [entry, hp]
  have frames := dropPages_owned (ne.sublist (take_sublist ..))
    (fun q mem => hi q (mem_of_mem_take mem)) hm ho
  have hf : ∀ g ∈ (pages.take count).map (fun q => (m'.2.pte q).frame) ++ tables,
      ¬ InUse m.1 g := fun g mem => (allocs_inUse ha).1 g (perm.mem_iff.mpr mem)
  refine ⟨tables, ?_, ways, fun g mem => hf g (mem_append_right _ mem), fun g => ?_⟩
  · have total := allocs_freeFrames ha
    have size := perm.length_eq
    rw [length_append, length_map, length_take, min_eq_left hs.le] at size
    rw [full hs] at total
    omega
  · rw [frames g, allocs_inUse_iff ha g, perm.mem_iff, mem_append]
    constructor
    · intro ⟨left, other⟩
      exact left.imp_left fun either => either.resolve_left other
    intro left
    refine ⟨left.imp_left .inr, fun own => ?_⟩
    rcases left with table | pre
    · exact (nodup_append.mp ho.nodup).2.2 g own g table rfl
    · exact hf g (mem_append_left _ own) pre

theorem mapFresh_restored_iff (hp : flags.present = true) (ne : pages.Nodup)
    (hi : InUser pages) (hr : m.1.bitmap 0 = true)
    (done : mapFresh flags pages m = some (count, m')) (hs : count < pages.length) :
    ((∀ q < userPages, ((pages.take count).foldl dropPage m').2.pte q = m.2.pte q) ∧
      ∀ g, InUse ((pages.take count).foldl dropPage m').1 g ↔ InUse m.1 g) ↔
      ∀ q ∈ pages.take (freeFrames m.1), m.2.HasTables q ∧ m.2.pte q = Pte.zero := by
  obtain ⟨tables, total, ways, hf, frames⟩ := mapFresh_undone hp ne hi hr done hs
  have ptes := fun q => @mapFresh_undone_pte m m' q count pages flags hp ne hi done
  constructor
  · rintro ⟨samePtes, sameFrames⟩
    have none : tables = [] := eq_nil_iff_forall_not_mem.mpr fun g mem =>
      hf g mem ((sameFrames g).mp ((frames g).mpr (.inl mem)))
    have all : freeFrames m.1 = count := by rw [← total, none, length_nil, add_zero]
    intro q mem
    rw [all] at mem
    have lt := hi q (mem_of_mem_take mem)
    refine ⟨ways.mp none q mem, ?_⟩
    rw [← samePtes q lt, ptes q lt, if_pos mem]
  · intro hc
    have part : pages.take count ⊆ pages.take (freeFrames m.1) :=
      (take_sublist_take_left (by omega)).subset
    have none : tables = [] := ways.mpr fun q mem => (hc q (part mem)).1
    refine ⟨fun q lt => ?_, fun g => by simp [frames g, none]⟩
    rw [ptes q lt]
    split
    · next mem => exact (hc q (part mem)).2.symm
    · rfl

/-! ### Ranges that are not there -/

/-- `vma_remove` leaves the entry: it lies outside the range, or it surrounds the range and
the table has no room to split it. -/
def Spared (base stop count : Nat) (e : VmaEntry) : Prop :=
  e.stop ≤ base ∨ stop ≤ e.base ∨ vmaCapacity ≤ count ∧ e.base < base ∧ stop < e.stop
  deriving Decidable

section
variable {base stop len k : Nat} {e x : VmaEntry} {table : List VmaEntry} {l : List FreeRange}

theorem removeEntry_spared (hs : Spared base stop count e) :
    removeEntry base stop count e = [e] := by
  rw [removeEntry]
  split_ifs with outside inside front back around full
  · rfl
  · rw [Spared] at hs
    omega
  · rw [Spared] at hs
    omega
  · rw [Spared] at hs
    omega
  · rfl
  · rw [Spared] at hs
    omega
  · rfl

theorem removeEntry_apart (left : x ∈ removeEntry base stop count e) :
    Spared base stop vmaCapacity x := by
  rw [removeEntry] at left
  split_ifs at left with outside inside front back around full
  · obtain rfl := mem_singleton.mp left
    exact outside.imp_right .inl
  · cases left
  · obtain rfl := mem_singleton.mp left
    exact .inr (.inl (by simp only; omega))
  · obtain rfl := mem_singleton.mp left
    exact .inl (by simp only [VmaEntry.stop] at *; omega)
  · obtain rfl := mem_singleton.mp left
    exact .inr (.inr ⟨le_refl _, around⟩)
  · rcases mem_cons.mp left with rfl | right
    · exact .inl (by simp only [VmaEntry.stop] at *; omega)
    · obtain rfl := mem_singleton.mp right
      exact .inr (.inl (by simp only; omega))
  · omega

theorem mem_walk_remove (left : x ∈ walk (removeEntry base stop) count table) :
    Spared base stop vmaCapacity x := by
  induction table generalizing count with
  | nil => cases left
  | cons e rest ih =>
    rw [walk] at left
    rcases mem_append.mp left with here | hl
    · exact removeEntry_apart here
    · exact ih hl

theorem walk_remove_spared (hs : ∀ e ∈ table, Spared base stop count e) :
    walk (removeEntry base stop) count table = table := by
  induction table with
  | nil => rfl
  | cons e rest ih =>
    rw [walk, removeEntry_spared (hs e mem_cons_self)]
    simpa using ih fun e mem => hs e (mem_cons_of_mem _ mem)

theorem length_walk_remove (ha : ∀ e ∈ table, Spared base stop vmaCapacity e) :
    table.length ≤ (walk (removeEntry base stop) count table).length ∧
      ((walk (removeEntry base stop) count table).length = table.length →
        ∀ e ∈ table, Spared base stop count e) := by
  induction table generalizing count with
  | nil => simp [walk]
  | cons e rest ih =>
    have hl := fun count => @ih count fun e mem => ha e (mem_cons_of_mem _ mem)
    by_cases hs : Spared base stop count e
    · rw [walk, removeEntry_spared hs]
      simpa [hs] using hl count
    have h1 := ha e mem_cons_self
    have two : (removeEntry base stop count e).length = 2 := by
      simp only [Spared] at hs h1
      rw [removeEntry, if_neg (by omega), if_neg (by omega), if_neg (by omega),
        if_neg (by omega), if_pos (by omega), if_neg (by omega)]
      rfl
    have more := (hl (count + 2 - 1)).1
    rw [walk, length_append, two, length_cons]
    exact ⟨by omega, fun eq => by omega⟩

theorem vmaRemove_eq_self_iff (wide : 0 < len) : vmaRemove table base len = table ↔
    ∀ e ∈ table, Spared base (base + len) table.length e := by
  rw [vmaRemove, if_neg wide.ne']
  refine ⟨fun eq => ?_, walk_remove_spared⟩
  have ha : ∀ e ∈ table, Spared base (base + len) vmaCapacity e := fun e mem =>
    mem_walk_remove (eq.symm ▸ mem)
  exact (length_walk_remove ha).2 (congrArg List.length eq)

theorem bestFit_ne_none (best : Nat × FreeRange) : bestFit len k (some best) l ≠ none := by
  induction l generalizing k best with
  | nil => exact some_ne_none best
  | cons e rest ih =>
    rw [bestFit]
    split_ifs
    · exact some_ne_none _
    · exact ih _
    · exact ih _

theorem bestFit_eq_none_iff :
    bestFit len k none l = none ↔ ∀ e ∈ l, e.len < len ∨ 2 ^ 64 - 1 ≤ e.len := by
  induction l generalizing k with
  | nil => simp [bestFit]
  | cons e rest ih =>
    rw [bestFit, forall_mem_cons]
    split
    · next fits =>
      have not : ¬ (e.len < len ∨ 2 ^ 64 - 1 ≤ e.len) := by
        rw [bestLen] at fits
        omega
      refine iff_of_false ?_ fun all => not all.1
      split
      · exact some_ne_none _
      · exact bestFit_ne_none _
    · next hs =>
      rw [bestLen] at hs
      rw [ih]
      exact (and_iff_right (by omega)).symm

theorem mmapFreeAlloc_eq_self_iff (wide : 0 < len) :
    (mmapFreeAlloc l len).2 = l ↔ ∀ e ∈ l, e.len < len ∨ 2 ^ 64 - 1 ≤ e.len := by
  rw [← bestFit_eq_none_iff, mmapFreeAlloc]
  cases search : bestFit len 0 none l with
  | none => exact iff_of_true rfl rfl
  | some hf =>
    obtain ⟨i, e⟩ := hf
    refine iff_of_false (fun eq => ?_) (some_ne_none _)
    rcases bestFit_some search with start | ⟨-, entry, long⟩
    · cases start
    rw [Nat.sub_zero] at entry
    simp only at eq
    split at eq
    · have hs := (swapRemove_perm entry).length_eq
      rw [eq, length_cons] at hs
      omega
    · have hc : (l.set i ⟨e.base + len, e.len - len⟩)[i]? = l[i]? := by rw [eq]
      rw [List.getElem?_set_self (List.getElem?_eq_some_iff.mp entry).1, entry] at hc
      have hm := congrArg FreeRange.base (some.inj hc)
      simp only at hm
      omega

end

section
variable {m m' : Mem} {a : MmapArgs} {files : Nat → Option Memfd} {base e : Nat}

theorem sysMmap_mappable (ok : Mappable m a) :
    sysMmap files m a = mmapAt files (mmapReady m a) a (mmapTarget m a) := by
  obtain ⟨some, bits, source, offset, hp, room⟩ := ok
  have hk : ¬ (!a.fileBacked && !a.anonymous) = true := by
    rcases source with hb | ha
    · simp [hb]
    · simp [ha]
  have hl : ¬ (a.fileBacked && a.off % 4096 ≠ 0) = true := by simpa using offset
  rw [sysMmap, if_neg (ne_of_gt some), if_neg (not_le.mpr bits), if_neg hk,
    if_neg hl, mmapReady, mmapTarget]
  cases hf : a.fixed with
  | true =>
    simp only [mmapTarget, hf, if_true] at hp room ⊢
    rw [mmapFixed, if_neg (by omega), if_neg (by omega)]
  | false =>
    simp only [mmapTarget, hf, Bool.false_eq_true, if_false] at hp room ⊢
    rw [mmapAnywhere, if_neg (by omega), if_neg (by omega)]

theorem mmapAt_enomem (done : mmapAt files m a base = some (m', .error enomem)) :
    mmapPrivate m a base = some (m', .error enomem) := by
  rw [mmapAt] at done
  split at done
  · unfold mmapShared at done
    split at done
    · cases done
    split at done
    · cases done
    · obtain ⟨r, -, hr⟩ := map_eq_some_iff.mp done
      split at hr <;> cases hr
  · exact done

/-! ### What a failed call leaves behind -/

def OutOfFrames (m : Mem) : MemCall → Mem → Prop
  | .brk arg, m' => m.proc.brk < pageUp arg ∧ ¬ (arg = 0 ∨ userAddrMax ≤ arg ∨
      arg < m.proc.brkBase) ∧ sysBrk m arg = some (m', .ok m.proc.brk)
  | .mmap files a, m' => Mappable m a ∧ sysMmap files m a = some (m', .error enomem)
  | _, _ => False

structure SameMemory (m m' : Mem) : Prop where
  pte : ∀ q < userPages, m'.proc.space.pte q = m.proc.space.pte q
  vmas : m'.proc.vmas = m.proc.vmas
  mmapBase : m'.proc.mmapBase = m.proc.mmapBase
  mmapFree : m'.proc.mmapFree = m.proc.mmapFree
  brk : m'.proc.brk = m.proc.brk
  frames : ∀ g, InUse m'.pmm g ↔ InUse m.pmm g

def NothingThere (m : Mem) (base len : Nat) : Prop :=
  (∀ q ∈ pagesOf base len, vmmPhysOfUser m.proc.space q = 0) ∧
    ∀ e ∈ m.proc.vmas, Spared base (base + len) m.proc.vmas.length e
  deriving Decidable

def NothingToTake (m : Mem) (len : Nat) : Prop :=
  ∀ e ∈ m.proc.mmapFree, e.len < len ∨ 2 ^ 64 - 1 ≤ e.len
  deriving Decidable

def NothingToUndo (m : Mem) (a : MmapArgs) : Prop :=
  if a.fixed then NothingThere m a.addr (pageUp a.len) else NothingToTake m (pageUp a.len)
  deriving Decidable

/-- Frame 0, which stands for failure, is reserved. `sys_brk` finds no free frame at all.
`sys_mmap` has nothing to clear and no range to take, and the pages it can map have their
tables and no dormant entry. -/
def LeavesNoTrace (m : Mem) : MemCall → Prop
  | .brk _ => m.pmm.bitmap 0 = true ∧ freeFrames m.pmm = 0
  | .mmap _ a => m.pmm.bitmap 0 = true ∧ NothingToUndo m a ∧
      ∀ q ∈ (pagesOf (mmapTarget m a) (pageUp a.len)).take (freeFrames m.pmm),
        m.proc.space.HasTables q ∧ m.proc.space.pte q = Pte.zero
  | _ => True

theorem mmapPrivate_failed (done : mmapPrivate m a base = some (m', .error e)) :
    ∃ count last, mapFresh (protFlags a.prot) (pagesOf base (pageUp a.len))
        (m.pmm, m.proc.space) = some (count, last) ∧
      count < (pagesOf base (pageUp a.len)).length ∧
      m' = m.withSpace (((pagesOf base (pageUp a.len)).take count).foldl dropPage last) := by
  obtain ⟨⟨count, last⟩, loop, hr⟩ := map_eq_some_iff.mp done
  simp only at hr
  split at hr
  · next hs => exact ⟨count, last, loop, hs, (Prod.mk.inj hr).1.symm⟩
  · cases (Prod.mk.inj hr).2

theorem sysBrk_failed {arg : Nat} (hf : OutOfFrames m (.brk arg) m') :
    ∃ count last, mapFresh heapFlags (pagesOf m.proc.brk (pageUp arg - m.proc.brk))
        (m.pmm, m.proc.space) = some (count, last) ∧
      count < (pagesOf m.proc.brk (pageUp arg - m.proc.brk)).length ∧
      InUser (pagesOf m.proc.brk (pageUp arg - m.proc.brk)) ∧ m' = m.withSpace last := by
  obtain ⟨hg, ha, done⟩ := hf
  have hb : pageUp arg ≤ 2 ^ 47 := by
    simp only [pageUp, userAddrMax] at *
    omega
  rw [sysBrk, if_neg ha] at done
  simp only [hg, if_true] at done
  obtain ⟨⟨count, last⟩, loop, hr⟩ := map_eq_some_iff.mp done
  simp only at hr
  split at hr
  · next hs =>
    exact ⟨count, last, loop, hs, pagesOf_inUser (by omega), (Prod.mk.inj hr).1.symm⟩
  · have eq : pageUp arg = m.proc.brk := Except.ok.inj (Prod.mk.inj hr).2
    omega

theorem sysBrk_restored_iff {arg : Nat} (hr : m.pmm.bitmap 0 = true)
    (hf : OutOfFrames m (.brk arg) m') : SameMemory m m' ↔ freeFrames m.pmm = 0 := by
  obtain ⟨count, last, loop, hs, hi, rfl⟩ := sysBrk_failed hf
  obtain ⟨new, tables, ha, perm, -, full⟩ := mapFresh_frames rfl pagesOf_nodup hi hr loop
  have total := allocs_freeFrames ha
  rw [full hs, zero_add] at total
  rw [← total, length_eq_zero_iff]
  constructor
  · intro eq
    refine eq_nil_iff_forall_not_mem.mpr fun g mem => ?_
    exact (allocs_inUse ha).1 g mem ((eq.frames g).mp ((allocs_inUse_iff ha g).mpr (.inl mem)))
  · intro none
    subst none
    have hm := map_eq_nil_iff.mp (append_eq_nil_iff.mp perm.symm.eq_nil).1
    have kept := (mapFresh_pte rfl pagesOf_nodup hi loop).2.2
    refine ⟨fun q lt => kept q lt (by simp [hm]), rfl, rfl, rfl, rfl, fun g => ?_⟩
    exact (allocs_inUse_iff ha g).trans (by simp)

theorem mmapReady_eq_self (wide : 0 < pageUp a.len) (hn : NothingToUndo m a) :
    mmapReady m a = m := by
  rw [mmapReady]
  rw [NothingToUndo] at hn
  split at hn
  · next hf =>
    rw [if_pos hf, mmapClear, dropPages_absent hn.1, (vmaRemove_eq_self_iff wide).mpr hn.2]
    rfl
  · next ha =>
    rw [if_neg ha, mmapTake, (mmapFreeAlloc_eq_self_iff wide).mpr hn]

theorem mmapReady_clear {g : Nat} (clear : m.pmm.bitmap g = false) :
    (mmapReady m a).pmm.bitmap g = false := by
  rw [mmapReady]
  split
  · exact dropPages_clear clear
  · exact clear

theorem sysMmap_failed (hf : OutOfFrames m (.mmap files a) m') :
    ∃ count last, mapFresh (protFlags a.prot) (pagesOf (mmapTarget m a) (pageUp a.len))
        ((mmapReady m a).pmm, (mmapReady m a).proc.space) = some (count, last) ∧
      count < (pagesOf (mmapTarget m a) (pageUp a.len)).length ∧
      m' = (mmapReady m a).withSpace
        (((pagesOf (mmapTarget m a) (pageUp a.len)).take count).foldl dropPage last) := by
  obtain ⟨ok, done⟩ := hf
  rw [sysMmap_mappable ok] at done
  exact mmapPrivate_failed (mmapAt_enomem done)

theorem nothing_of_sameMemory (hf : OutOfFrames m (.mmap files a) m')
    (eq : SameMemory m m') : NothingToUndo m a := by
  have wide := hf.1.1
  have hi := hf.1.inUser
  obtain ⟨count, last, loop, -, rfl⟩ := sysMmap_failed hf
  have ptes := fun q => @mapFresh_undone_pte _ _ q _ _ _ rfl pagesOf_nodup hi loop
  rw [NothingToUndo]
  split
  · next hx =>
    rw [mmapTarget, if_pos hx] at hi
    have vmas := eq.vmas
    rw [mmapReady, if_pos hx] at ptes vmas
    refine ⟨fun q mem => ?_, (vmaRemove_eq_self_iff wide).mp vmas⟩
    by_contra some
    have lt := hi q mem
    have gone : (mmapClear m a.addr (pageUp a.len)).proc.space.pte q = Pte.zero :=
      (dropPages_phys hi lt).trans (if_pos ⟨mem, some⟩)
    have zero := (eq.pte q lt).symm.trans (ptes q lt)
    rw [gone, ite_self] at zero
    exact Pte.ne_zero_of_present (vmmPhysOfUser_ne_zero some) zero
  · next ha =>
    have free := eq.mmapFree
    rw [mmapReady, if_neg ha] at free
    exact (mmapFreeAlloc_eq_self_iff wide).mp free

theorem sysMmap_restored_iff (hr : m.pmm.bitmap 0 = true) (hf : OutOfFrames m (.mmap files a) m') :
    SameMemory m m' ↔ LeavesNoTrace m (.mmap files a) := by
  have hi := hf.1.inUser
  obtain ⟨count, last, loop, hs, hl⟩ := sysMmap_failed hf
  have ha (hn : NothingToUndo m a) : SameMemory m m' ↔
      ∀ q ∈ (pagesOf (mmapTarget m a) (pageUp a.len)).take (freeFrames m.pmm),
        m.proc.space.HasTables q ∧ m.proc.space.pte q = Pte.zero := by
    rw [mmapReady_eq_self hf.1.1 hn] at loop hl
    rw [← mapFresh_restored_iff rfl pagesOf_nodup hi hr loop hs, hl]
    exact ⟨fun eq => ⟨eq.pte, eq.frames⟩, fun ⟨pte, frames⟩ => ⟨pte, rfl, rfl, rfl, rfl, frames⟩⟩
  constructor
  · intro eq
    have hn := nothing_of_sameMemory hf eq
    exact ⟨hr, hn, (ha hn).mp eq⟩
  · intro ⟨_, hn, hc⟩
    exact (ha hn).mpr hc

theorem reserved_of_sameMemory {call : MemCall} (hf : OutOfFrames m call m')
    (eq : SameMemory m m') : m.pmm.bitmap 0 = true := by
  by_contra free
  have clear : m.pmm.bitmap 0 = false := by simpa using free
  have lost : ¬ InUse m.pmm 0 := by simp [InUse, clear, pmmMaxPages]
  cases call with
  | brk arg =>
    obtain ⟨count, last, loop, hs, -, rfl⟩ := sysBrk_failed hf
    exact lost ((eq.frames 0).mp (mapFresh_zero clear loop hs).2)
  | mmap files a =>
    obtain ⟨count, last, loop, hs, rfl⟩ := sysMmap_failed hf
    obtain ⟨rfl, held⟩ := mapFresh_zero (mmapReady_clear clear) loop hs
    exact lost ((eq.frames 0).mp held)
  | munmap addr len => cases hf
  | mprotect addr len prot => cases hf

/-- A call that runs out of frames leaves the memory as it was exactly when there was nothing
to clear, nothing to take and no table to make; `sys_brk` must not even get one frame. -/
theorem failed_call_restores_iff {call : MemCall} (failed : OutOfFrames m call m') :
    SameMemory m m' ↔ LeavesNoTrace m call := by
  by_cases reserved : m.pmm.bitmap 0 = true
  · cases call with
    | brk arg => exact (sysBrk_restored_iff reserved failed).trans (and_iff_right reserved).symm
    | mmap files a => exact sysMmap_restored_iff reserved failed
    | munmap addr len => cases failed
    | mprotect addr len prot => cases failed
  · refine iff_of_false (fun same => reserved (reserved_of_sameMemory failed same)) fun clean => ?_
    cases call with
    | brk arg => exact reserved clean.1
    | mmap files a => exact reserved clean.1
    | munmap addr len => cases failed
    | mprotect addr len prot => cases failed

end

/-! ### Processes that run out of frames -/

theorem pmmAllocPage_of_full (full : ∀ f, InUse p f) : pmmAllocPage p = (0, p) := by
  rw [pmmAllocPage]
  cases hf : firstClear p.bitmap pmmMaxPages 0 with
  | none => rfl
  | some i =>
    obtain ⟨clear, lt⟩ := firstClear_spec hf
    rcases full i with set | ho
    · rw [set] at clear
      cases clear
    · omega

theorem mapFresh_stops {front rest : List Nat} (full : ∀ f, InUse m'.1 f)
    (done : mapFresh flags front m = some (front.length, m')) :
    mapFresh flags (front ++ page :: rest) m = some (front.length, m') := by
  induction front generalizing m with
  | nil =>
    cases done
    rw [nil_append, mapFresh, pmmAllocPage_of_full full, if_pos rfl]
    rfl
  | cons h1 ho ih =>
    rw [mapFresh] at done
    split at done
    · cases done
    next some =>
    obtain ⟨next, hm, hl⟩ := bind_eq_some_iff.mp done
    obtain ⟨⟨more, last⟩, loop, eq⟩ := map_eq_some_iff.mp hl
    obtain ⟨hc, rfl⟩ := Prod.mk.inj eq
    obtain rfl : more = ho.length := Nat.succ.inj hc
    rw [cons_append, mapFresh, if_neg some, hm, bind_some, ih loop]
    rfl

theorem sysMmap_stops {m : Mem} {a : MmapArgs} {files : Nat → Option Memfd}
    {front rest : List Nat} {last : Pmm × Space} (ok : Mappable m a)
    (hn : NothingToUndo m a) (ha : a.anonymous = true)
    (range : pagesOf (mmapTarget m a) (pageUp a.len) = front ++ page :: rest)
    (loop : mapFresh (protFlags a.prot) front (m.pmm, m.proc.space) = some (front.length, last))
    (full : ∀ f, InUse last.1 f) :
    OutOfFrames m (.mmap files a) (m.withSpace (front.foldl dropPage last)) := by
  refine ⟨ok, ?_⟩
  rw [sysMmap_mappable ok, mmapReady_eq_self ok.1 hn, mmapAt_anonymous ha, mmapPrivate]
  simp only [range, mapFresh_stops full loop, map_some, length_append, length_cons, take_left']
  rw [if_pos (by omega)]

def fiveFrames : Pmm :=
  ⟨fun f => f < 2 ∨ 7 ≤ f, fun f => if f = 1 then 1 else 0, [1], []⟩

def tightProcess : Mem :=
  { emptyProcess with pmm := fiveFrames }

def mapThree : MmapArgs :=
  ⟨0, 0x3000, 3, 0x22, 2 ^ 64 - 1, 0⟩

theorem fiveFrames_some : 0 < freeFrames fiveFrames :=
  countP_pos_iff.mpr ⟨2, by simp [pmmMaxPages], rfl⟩

theorem fiveFrames_used (hp : flags.present = true) (ne : pages.Nodup)
    (hi : InUser pages) (all : (mapFresh flags pages (fiveFrames, s)).any
      (fun r => r.1 == pages.length && (range 7).all r.2.1.bitmap) = true) :
    ∃ last, mapFresh flags pages (fiveFrames, s) = some (pages.length, last) ∧
      ∀ f, InUse last.1 f := by
  obtain ⟨⟨count, last⟩, loop, hf⟩ := (Option.any_eq_true ..).mp all
  obtain ⟨hw, low⟩ := Bool.and_eq_true_iff.mp hf
  obtain rfl : count = pages.length := eq_of_beq hw
  obtain ⟨new, tables, ha, -⟩ := mapFresh_frames hp ne hi rfl loop
  refine ⟨last, loop, fun f => ?_⟩
  by_cases lt : f < 7
  · exact .inl (all_eq_true.mp low f (mem_range.mpr lt))
  · have set : fiveFrames.bitmap f = true := by simp [fiveFrames, not_lt.mp lt]
    exact (allocs_inUse ha).2 f (.inl set)

/-- In a process with five free frames, growing the break by three pages fails at the third
and leaves two pages mapped; mapping three pages leaves the three tables. -/
theorem failed_call_leaves_trace :
    (∃ m', OutOfFrames tightProcess (.brk 0x403000) m' ∧ ¬ SameMemory tightProcess m') ∧
      ∃ m', OutOfFrames tightProcess (.mmap (fun _ => none) mapThree) m' ∧
        ¬ SameMemory tightProcess m' := by
  constructor
  · obtain ⟨last, loop, full⟩ := @fiveFrames_used emptyProcess.proc.space [0x400, 0x401] heapFlags
      rfl (by decide) (by simp [InUser, userPages]) (by decide +kernel)
    have failed : OutOfFrames tightProcess (.brk 0x403000) (tightProcess.withSpace last) := by
      refine ⟨by decide, by decide, ?_⟩
      have stops := @mapFresh_stops _ _ 0x402 heapFlags _ [] full loop
      have grows : brkGrow tightProcess 0x403000 =
          some (tightProcess.withSpace last, .ok 0x400000) := by
        rw [brkGrow]
        exact congrArg (Option.map _) stops
      exact grows
    refine ⟨_, failed, fun same => ?_⟩
    exact fiveFrames_some.ne' ((sysBrk_restored_iff rfl failed).mp same)
  · obtain ⟨last, loop, full⟩ := @fiveFrames_used emptyProcess.proc.space
      [0x700000000, 0x700000001] (protFlags 3) rfl (by decide) (by simp [InUser, userPages])
      (by decide +kernel)
    have failed := @sysMmap_stops 0x700000002 tightProcess mapThree (fun _ => none) _ [] last
      (by decide) (by decide) (by decide) (by decide) loop full
    refine ⟨_, failed, fun same => ?_⟩
    have clean := ((sysMmap_restored_iff rfl failed).mp same).2.2 0x700000000 ?_
    · exact absurd clean.1 (by decide)
    obtain ⟨n, more⟩ := Nat.exists_eq_add_of_lt fiveFrames_some
    have some : freeFrames tightProcess.pmm = n + 1 := by rw [tightProcess, more, zero_add]
    rw [some]
    exact .head _

def oneFrame : Pmm :=
  ⟨fun f => f ≠ 6, fun _ => 1, [], []⟩

def onePage : Mem where
  pmm := oneFrame
  proc := { emptyProcess.proc with
    space := ((vmmMapUserPage fiveFrames emptyProcess.proc.space 0x700000000 2 (protFlags 3)).map
      Prod.snd).getD emptyProcess.proc.space
    mmapBase := 0x700000001000
    vmas := [⟨0x700000000000, 0x1000, 3, .mmap⟩] }

def mapTwo : MmapArgs :=
  ⟨0, 0x2000, 3, 0x22, 2 ^ 64 - 1, 0⟩

theorem oneFrame_free : freeFrames oneFrame = 1 := by
  have eq : (fun f => !oneFrame.bitmap f) = fun f => f == 6 := by
    funext f
    simp [oneFrame, Bool.beq_eq_decide_eq]
  rw [freeFrames, eq]
  exact count_eq_one_of_mem nodup_range (by simp [pmmMaxPages])

/-- Two pages do not fit into one free frame, but the tables are there: the page that was
mapped is taken out and nothing is left. -/
theorem failed_call_restores_iff_tables :
    ∃ m', OutOfFrames onePage (.mmap (fun _ => none) mapTwo) m' ∧ SameMemory onePage m' := by
  have mapped : (mapFresh (protFlags 3) [0x700000001] (oneFrame, onePage.proc.space)).any
      (fun r => r.1 == 1 && r.2.1.bitmap 6) = true := by decide +kernel
  obtain ⟨⟨count, last⟩, loop, facts⟩ := (Option.any_eq_true ..).mp mapped
  obtain ⟨one, taken⟩ := Bool.and_eq_true_iff.mp facts
  obtain rfl : count = 1 := eq_of_beq one
  obtain ⟨new, tables, allocs, -⟩ := mapFresh_frames rfl (by decide) (by simp [InUser, userPages])
    rfl loop
  have full : ∀ f, InUse last.1 f := fun f => by
    by_cases free : f = 6
    · exact .inl (free ▸ taken)
    · exact (allocs_inUse allocs).2 f (.inl (by simp [oneFrame, free]))
  have failed := @sysMmap_stops 0x700000002 onePage mapTwo (fun _ => none) [0x700000001] [] last
    (by decide) (by decide) (by decide) (by decide) loop full
  refine ⟨_, failed, (failed_call_restores_iff failed).mpr ⟨rfl, by decide, ?_⟩⟩
  rw [show freeFrames onePage.pmm = 1 from oneFrame_free]
  decide +kernel

end Aegis.Memory
