import Aegis.MemSpec

/-! How the memory calls keep an account of frames: what an address space holds is its own
root, tables and pages, and the calls hand frames over one at a time. `shared` lists the
frames that belong to somebody else; they are accounted for in `rest`. -/

namespace Aegis.Memory

open List Option

section
variable {account : Pmm → List Nat → Prop} (hc : Custody account)
  {m m' : Pmm × Space} {pages shared rest : List Nat} {flags : PteFlags} {page : Nat}
include hc

theorem Custody.dropPage (lt : page < userPages)
    (own : (m.2.pte page).flags.present = true → (m.2.pte page).frame ∉ shared)
    (start : account m.1 (m.2.held shared ++ rest)) :
    account (dropPage m page).1 ((dropPage m page).2.held shared ++ rest) := by
  rw [Memory.dropPage]
  split
  · exact start
  next some =>
  rw [vmmPhysOfUser] at some ⊢
  split at some
  · next hp =>
    have hu := hc.unmap lt hp start
    have used := Pte.ne_zero_of_present hp
    rw [pteOwned, if_neg (not_or.mpr ⟨used, own hp⟩)] at hu
    rw [if_pos hp]
    exact hc.free hu
  · exact absurd rfl some

theorem Custody.dropPages (hb : m.2.Backed) (hi : InUser pages)
    (own : ∀ q ∈ pages, (m.2.pte q).flags.present = true → (m.2.pte q).frame ∉ shared)
    (start : account m.1 (m.2.held shared ++ rest)) :
    account (pages.foldl Memory.dropPage m).1
      ((pages.foldl Memory.dropPage m).2.held shared ++ rest) := by
  induction pages generalizing m with
  | nil => exact start
  | cons page ho ih =>
    have lt := hi.head
    have h1 := hc.dropPage lt (own page mem_cons_self) start
    have entry := fun q => dropPage_pte (q := q) hb lt
    have single : InUser [page] := by simpa [InUser] using lt
    refine ih (dropPages_pte hb single).1 hi.tail (fun q mem hp => ?_) h1
    rw [entry q (hi.tail q mem)] at hp ⊢
    split_ifs at hp ⊢
    · cases hp
    · exact own q (mem_cons_of_mem page mem) hp

theorem Custody.mapFresh {count : Nat} (known : ∀ f ∈ shared, f ∈ rest)
    (present : flags.present = true) (distinct : pages.Nodup) (inUser : InUser pages)
    (awake : m.2.Awake pages)
    (done : Memory.mapFresh flags pages m = some (count, m'))
    (start : account m.1 (m.2.held shared ++ rest)) :
    account m'.1 (m'.2.held shared ++ rest) ∧
      ∀ q ∈ pages.take count, (m'.2.pte q).frame ∉ shared := by
  induction pages generalizing m count with
  | nil =>
    cases done
    exact ⟨start, by simp⟩
  | cons page others ih =>
    obtain ⟨new, apart⟩ := nodup_cons.mp distinct
    rw [Memory.mapFresh] at done
    split at done
    · next none =>
      cases done
      have same := pmmAllocPage_failed (hc.owned start).reserved (Prod.ext none rfl)
      exact ⟨by simpa only [same] using start, by simp⟩
    · next some =>
      obtain ⟨next, mapped, later⟩ := bind_eq_some_iff.mp done
      obtain ⟨⟨more, last⟩, loop, same⟩ := map_eq_some_iff.mp later
      cases same
      obtain ⟨entry, absent, kept⟩ := vmmMapUserPage_pte inUser.head mapped
      have vacant := Pte.zero_of_awake (awake page mem_cons_self) absent
      have taken := hc.alloc start rfl some
      have nobodys : (pmmAllocPage m.1).1 ∉ shared := fun mem =>
        (nodup_cons.mp (hc.owned taken).nodup).1 (mem_append_right _ (known _ mem))
      have used : next.2.pte page ≠ Pte.zero := Pte.ne_zero_of_present (by rw [entry])
      have stored : account next.1 (next.2.held shared ++ rest) := by
        refine hc.map inUser.head vacant mapped ?_
        rw [pteOwned, if_neg (not_or.mpr ⟨used, by rwa [entry]⟩), entry]
        exact taken
      have stillAwake : next.2.Awake others := fun q mem => by
        have other : q ≠ page := fun same => new (same ▸ mem)
        rw [kept q (inUser.tail q mem) other]
        exact awake q (mem_cons_of_mem page mem)
      obtain ⟨ends, foreign⟩ := ih apart inUser.tail stillAwake loop stored
      refine ⟨ends, fun q mem => ?_⟩
      rw [take_succ_cons] at mem
      rcases mem_cons.mp mem with rfl | later
      · have outside : q ∉ others.take more := fun mem => new (mem_of_mem_take mem)
        rwa [(mapFresh_pte present apart inUser.tail loop).2.2 q inUser.head outside, entry]
      · exact foreign q later

theorem Custody.mapShared {mf : Memfd} {w : Bool} {j : Nat}
    (hl : ∀ k < mf.pageCount, mf.physPages k ≠ 0 → mf.physPages k ∈ shared)
    (ne : pages.Nodup) (hi : InUser pages) (ha : m.2.Awake pages)
    (done : Memory.mapShared mf flags j pages m = some (w, m'))
    (start : account m.1 (m.2.held shared ++ rest)) :
    account m'.1 (m'.2.held shared ++ rest) := by
  induction pages generalizing m j with
  | nil =>
    cases done
    exact start
  | cons page ho ih =>
    obtain ⟨new, hp⟩ := nodup_cons.mp ne
    rw [Memory.mapShared] at done
    split at done
    · cases done
      exact start
    next ht =>
    obtain ⟨hb, some⟩ := not_or.mp ht
    obtain ⟨next, hm, loop⟩ := bind_eq_some_iff.mp done
    obtain ⟨entry, hd, kept⟩ := vmmMapUserPage_pte hi.head hm
    have hv := Pte.zero_of_awake (ha page mem_cons_self) hd
    have hs : account next.1 (next.2.held shared ++ rest) := by
      refine hc.map hi.head hv hm ?_
      rw [entry, pteOwned, if_pos (.inr (hl j (by omega) some))]
      exact start
    refine ih hp hi.tail (fun q mem => ?_) loop hs
    have other : q ≠ page := fun eq => new (eq ▸ mem)
    rw [kept q (hi.tail q mem) other]
    exact ha q (mem_cons_of_mem page mem)

theorem Custody.setProts {s : Space} {p : Pmm} (hb : s.Backed) (hi : InUser pages)
    (start : account p (s.held shared ++ rest)) :
    account p ((pages.foldl (fun s page => vmmSetUserProt s page flags) s).held shared ++ rest) := by
  induction pages generalizing s with
  | nil => exact start
  | cons page ho ih =>
    refine ih (fun q lt used => ?_) hi.tail (hc.setProt hi.head (hb page hi.head) start)
    by_cases eq : q = page
    · subst eq
      rw [pte_setProt] at used ⊢
      split_ifs at used ⊢ with present
      · exact hb q lt (Pte.ne_zero_of_present present)
      · exact hb q lt used
    · rw [pte_setProt_other hi.head lt eq] at used ⊢
      exact hb q lt used

theorem Custody.mmapPrivate {m m' : Mem} {a : MmapArgs} {base : Nat} {r : Except Nat Nat}
    (hk : ∀ f ∈ shared, f ∈ rest) (hb : m.proc.space.Backed)
    (hi : InUser (pagesOf base (pageUp a.len)))
    (ha : m.proc.space.Awake (pagesOf base (pageUp a.len)))
    (done : Memory.mmapPrivate m a base = some (m', r))
    (start : account m.pmm (m.proc.space.held shared ++ rest)) :
    account m'.pmm (m'.proc.space.held shared ++ rest) := by
  obtain ⟨⟨count, last⟩, loop, hr⟩ := map_eq_some_iff.mp done
  obtain ⟨hm, own⟩ := hc.mapFresh hk rfl pagesOf_nodup hi ha loop start
  obtain ⟨-, hf, kept⟩ := mapFresh_pte rfl pagesOf_nodup hi loop
  simp only at hr
  split at hr
  · cases hr
    refine hc.dropPages (fun q lt used => ?_)
      (fun q mem => hi q (mem_of_mem_take mem)) (fun q mem _ => own q mem)
      hm
    by_cases mem : q ∈ (pagesOf base (pageUp a.len)).take count
    · obtain ⟨-, f, hn, entry⟩ := hf q mem
      rw [entry]
      exact hn
    · rw [kept q lt mem] at used ⊢
      exact hb q lt used
  · cases hr
    exact hm

omit hc in
theorem munmapPages_eq (backed : m.2.Backed) (inUser : InUser pages) (awake : m.2.Awake pages) :
    pages.foldl (munmapPage false) m = pages.foldl dropPage m := by
  induction pages generalizing m with
  | nil => rfl
  | cons page others ih =>
    have same : munmapPage false m page = dropPage m page := by
      by_cases present : (m.2.pte page).flags.present
      · simp [munmapPage, dropPage, vmmPhysOfUserRaw, vmmPhysOfUser, present,
          Pte.ne_zero_of_present present]
      · have zero := Pte.zero_of_awake (awake page mem_cons_self) (by simpa using present)
        simp [munmapPage, dropPage, vmmPhysOfUserRaw, vmmPhysOfUser, zero, Pte.zero]
    have single : InUser [page] := by simpa [InUser] using inUser.head
    obtain ⟨still, entry⟩ := dropPages_pte backed single
    rw [foldl_cons, foldl_cons, same]
    refine ih still inUser.tail fun q mem => ?_
    have after := entry q (inUser.tail q mem)
    rw [foldl_cons, foldl_nil] at after
    rw [after]
    split_ifs
    · exact fun dormant => dormant.1 rfl
    · exact awake q (.tail _ mem)

end

end Aegis.Memory
