import Mathlib.Data.Nat.Find
import Aegis.Ext2Dir
import Aegis.Ext2BlockMap

/-! Directories as finite maps. A directory whose blocks are tiled is a list of entries; the
readers list them and find them by name, the writers add one and take one out. -/

namespace Aegis.Ext2

open ByteMemory BlockProgram RecordChain Function List Option Image Does Field
open ByteLayout (Byte)

namespace Image

variable (geo : Geometry) (m : Image) (dir : Nat)

def dirBlock (k : Nat) : Nat := m.fileBlock geo (m.inode dir) k

def dirBlocks : Nat := iSize.get (m.inode dir) / geo.blockSize

def blockEntries (k : Nat) : List Entry :=
  live (direntsOf geo.blockSize (m.data (m.dirBlock geo dir k)))

def entriesFrom (k : Nat) : List Entry :=
  (List.range' k (m.dirBlocks geo dir - k)).flatMap (m.blockEntries geo dir)

def entries : List Entry := (List.range (m.dirBlocks geo dir)).flatMap (m.blockEntries geo dir)

def HasRoom (name : Name) : Prop := ∃ k < m.dirBlocks geo dir,
  ∃ r ∈ direntsOf geo.blockSize (m.data (m.dirBlock geo dir k)), r.Room (direntSize name.length)

instance (name : Name) : Decidable (m.HasRoom geo dir name) :=
  inferInstanceAs (Decidable (∃ k < _, _))

def extend (blk child : Nat) (name : Name) (fileType : Nat) : Image :=
  (m.setData blk (clip geo.blockSize (freshDirBlock geo.blockSize child name fileType))).setInode
    dir (growDir geo (m.inode dir) (m.dirBlocks geo dir) blk)

@[simp] theorem extend_used {blk child : Nat} {name : Name} {fileType : Nat} :
    (m.extend geo dir blk child name fileType).used = m.used := rfl

end Image

structure DirOk (geo : Geometry) (m : Image) (dir : Nat) : Prop where
  has : geo.HasInode dir
  trim : clip inodeBytes (m.inode dir) = m.inode dir
  size : iSize.get (m.inode dir) = m.dirBlocks geo dir * geo.blockSize
  data : ∀ k < m.dirBlocks geo dir, geo.IsData (m.dirBlock geo dir k)
  apart : ∀ j < m.dirBlocks geo dir, ∀ k < m.dirBlocks geo dir,
    m.dirBlock geo dir j = m.dirBlock geo dir k → j = k
  pointers : ∀ k < m.dirBlocks geo dir, ∀ q ∈ m.pointers geo (m.inode dir) k,
    geo.IsData q ∧ ∀ j < m.dirBlocks geo dir, q ≠ m.dirBlock geo dir j
  tiled : ∀ k < m.dirBlocks geo dir, Tiled geo.blockSize (m.data (m.dirBlock geo dir k))

section
variable {geo : Geometry} {m m' : Image} {dir k j turns : Nat} {name : Name} {d : Bytes}

theorem exists_first {n : Nat} {P : Nat → Prop} (some : ∃ k < n, P k) :
    ∃ j < n, P j ∧ ∀ i < j, ¬ P i := by
  classical
  obtain ⟨inside, here⟩ := Nat.find_spec some
  exact ⟨Nat.find some, inside, here,
    fun i less hh => Nat.find_min some less ⟨lt_trans less inside, hh⟩⟩

theorem range_split {n : Nat} (inside : j < n) :
    range n = range j ++ j :: range' (j + 1) (n - (j + 1)) := by
  have count : n = j + (n - (j + 1) + 1) := by omega
  conv => lhs; rw [count]
  rw [range_eq_range', range_eq_range', ← range'_append_1, range'_succ, zero_add]

theorem loop_reaches {P : Nat → Nat → Prop} (he : j < turns)
    (pass : ∀ k turns, k < j → P turns (k + 1) → P (turns + 1) k)
    (rest : ∀ turns, P (turns + 1) j) : P turns 0 := by
  obtain ⟨turns, rfl⟩ : ∃ t, turns = t + 1 := ⟨turns - 1, by omega⟩
  induction j generalizing turns P with
  | zero => exact rest turns
  | succ j ih =>
    obtain ⟨turns, rfl⟩ : ∃ t, turns = t + 1 := ⟨turns - 1, by omega⟩
    refine pass 0 _ (by omega) (ih (P := fun turns k => P turns (k + 1)) ?_ rest turns (by omega))
    exact fun k turns less => pass (k + 1) turns (by omega)

theorem entries_eq_from : m.entries geo dir = m.entriesFrom geo dir 0 := by
  rw [entries, entriesFrom, Nat.sub_zero, range_eq_range']

theorem entriesFrom_end (past : m.dirBlocks geo dir ≤ k) : m.entriesFrom geo dir k = [] := by
  rw [entriesFrom, Nat.sub_eq_zero_of_le past]
  rfl

theorem entriesFrom_next (inside : k < m.dirBlocks geo dir) :
    m.entriesFrom geo dir k = m.blockEntries geo dir k ++ m.entriesFrom geo dir (k + 1) := by
  have next : m.dirBlocks geo dir - k = m.dirBlocks geo dir - (k + 1) + 1 := by omega
  rw [entriesFrom, next, range'_succ, flatMap_cons, entriesFrom]

/-! ### A directory that grows -/

section
variable {blk : Nat} {inode : Bytes} {f : Field}

theorem growDir_iBlock (word : blk < 2 ^ 32) : (iBlock k).get (growDir geo inode j blk) =
    if k = j then blk else (iBlock k).get inode := by
  rw [growDir]
  rw [get_set_apart (iBlock_apart (by decide)), get_set_apart (iBlock_apart (by decide))]
  split
  · next eq =>
    rw [eq]
    exact get_set word
  · next hd => exact get_set_apart (iBlock_apart_iBlock hd)

theorem growDir_iSize (fits : iSize.get inode + geo.blockSize < 2 ^ 32) :
    iSize.get (growDir geo inode j blk) = iSize.get inode + geo.blockSize := by
  rw [growDir]
  rw [get_set_apart (.inl (by decide)), get_set_apart (apart_iBlock (by decide)),
    Nat.mod_eq_of_lt fits]
  exact get_set fits

theorem growDir_field (low : f.offset + f.width ≤ 40) (size : f.Apart iSize)
    (blocks : f.Apart iBlocks) : f.get (growDir geo inode j blk) = f.get inode := by
  rw [growDir]
  rw [get_set_apart blocks, get_set_apart size, get_set_apart (apart_iBlock low)]

end

namespace DirOk

section
variable (ok : DirOk geo m dir) (ho : geo.Sound)
include ok

section
variable (inside : k < m.dirBlocks geo dir)
include inside

theorem blockNum_does :
    Does geo (ext2BlockNum geo (m.inode dir) k) m (.ok (m.dirBlock geo dir k)) m :=
  ext2BlockNum_does fun q mem _ => (ok.pointers k inside q mem).1

theorem dirBlock_ne : m.dirBlock geo dir k ≠ 0 := ne_of_gt (ok.data k inside).1.1

theorem pos_lt : (k + 1) * geo.blockSize < 2 ^ 32 := by
  have hb : (k + 1) * geo.blockSize ≤ m.dirBlocks geo dir * geo.blockSize :=
    Nat.mul_le_mul_right _ inside
  have word : iSize.get (m.inode dir) < 256 ^ 4 := get_lt
  rw [ok.size] at word
  exact lt_of_le_of_lt hb word

theorem next_pos : (k * geo.blockSize + geo.blockSize) % 2 ^ 32 = (k + 1) * geo.blockSize := by
  rw [← Nat.succ_mul]
  exact Nat.mod_eq_of_lt (ok.pos_lt inside)

end

include ho

theorem size_le_iff : iSize.get (m.inode dir) ≤ k * geo.blockSize ↔ m.dirBlocks geo dir ≤ k := by
  rw [ok.size]
  exact Nat.mul_le_mul_right_iff ho.blockSize_pos

theorem searchLoop_does (name : Name) (start : k ≤ m.dirBlocks geo dir)
    (he : m.dirBlocks geo dir < turns + k) :
    Does geo (searchLoop geo (m.inode dir) name turns (k * geo.blockSize)) m
      (.ok (lookup (m.entriesFrom geo dir k) name)) m := by
  have pos := ho.blockSize_pos
  induction turns generalizing k with
  | zero => omega
  | succ turns ih =>
    rw [searchLoop]
    by_cases past : m.dirBlocks geo dir ≤ k
    · rw [if_pos ((ok.size_le_iff ho).mpr past), entriesFrom_end past]
      exact pure
    have inside : k < m.dirBlocks geo dir := Nat.lt_of_not_le past
    rw [if_neg fun size => past ((ok.size_le_iff ho).mp size)]
    dsimp only
    rw [Nat.mul_div_cancel k pos, Nat.mul_mod_left]
    refine bind (ok.blockNum_does inside) ?_
    rw [if_neg (ok.dirBlock_ne inside)]
    refine bind (look_does (ok.data k inside)) ?_
    dsimp only
    have chain := ok.tiled k inside
    have length := chain.end_eq
    rw [scanDirents_chain chain (by decide) (by decide), scanList_search, entriesFrom_next inside]
    have split : lookup (m.blockEntries geo dir k ++ m.entriesFrom geo dir (k + 1)) name =
        (lookup (m.blockEntries geo dir k) name).or
          (lookup (m.entriesFrom geo dir (k + 1)) name) := by
      rw [lookup, lookup, lookup, find?_append, map_or]
    rw [split, blockEntries]
    cases lookup (live (direntsOf geo.blockSize (m.data (m.dirBlock geo dir k)))) name with
    | some ino => exact pure
    | none =>
      simp only [Nat.sub_zero, none_or]
      rw [← length, ok.next_pos inside, Nat.mod_eq_of_lt (ok.pos_lt inside),
        if_neg (Nat.lt_irrefl _)]
      exact ih inside (by omega)

omit ok ho in
theorem dirTurns_gt (geo : Geometry) (m : Image) (dir : Nat) :
    m.dirBlocks geo dir < geo.dirTurns (iSize.get (m.inode dir)) + 0 := by
  rw [Geometry.dirTurns]
  exact Nat.lt_add_of_pos_right (by decide)

theorem searchDir_does (name : Name) :
    Does geo (searchDir geo (m.inode dir) name) m (.ok (lookup (m.entries geo dir) name)) m := by
  have search := ok.searchLoop_does (k := 0) ho name (Nat.zero_le _) (dirTurns_gt geo m dir)
  rw [Nat.zero_mul, ← entries_eq_from] at search
  exact search

variable {σ β : Type} {visit : σ → Nat → Fs (σ ⊕ β)} {s : σ} {r : Except Stop (σ ⊕ β)}

theorem overDirBlocks_pass {s' : σ} (inside : k < m.dirBlocks geo dir)
    (here : Does geo (visit s (m.dirBlock geo dir k)) m (.ok (.inl s')) m)
    (rest : Does geo (overDirBlocks geo (m.inode dir) visit turns s' ((k + 1) * geo.blockSize)
      (k + 1)) m r m') :
    Does geo (overDirBlocks geo (m.inode dir) visit (turns + 1) s (k * geo.blockSize) k) m r m' := by
  rw [overDirBlocks, if_neg fun size => Nat.not_le_of_lt inside ((ok.size_le_iff ho).mp size)]
  refine bind (ok.blockNum_does inside) ?_
  rw [if_neg (ok.dirBlock_ne inside), ok.next_pos inside]
  exact bind here rest

theorem overDirBlocks_stop {b : β} (inside : k < m.dirBlocks geo dir)
    (here : Does geo (visit s (m.dirBlock geo dir k)) m (.ok (.inr b)) m') :
    Does geo (overDirBlocks geo (m.inode dir) visit (turns + 1) s (k * geo.blockSize) k) m
      (.ok (.inr b)) m' := by
  rw [overDirBlocks, if_neg fun size => Nat.not_le_of_lt inside ((ok.size_le_iff ho).mp size)]
  refine bind (ok.blockNum_does inside) ?_
  rw [if_neg (ok.dirBlock_ne inside)]
  exact bind here pure

theorem overDirBlocks_end (past : m.dirBlocks geo dir ≤ k) :
    Does geo (overDirBlocks geo (m.inode dir) visit (turns + 1) s (k * geo.blockSize) k) m
      (.ok (.inl s)) m := by
  rw [overDirBlocks, if_pos ((ok.size_le_iff ho).mpr past)]
  exact pure

theorem readdir_loop {index : Nat} (count : Nat) (start : k ≤ m.dirBlocks geo dir)
    (he : m.dirBlocks geo dir < turns + k)
    (low : count ≤ index) :
    Does geo (overDirBlocks geo (m.inode dir) (readdirVisit geo index) turns count
      (k * geo.blockSize) k) m (.ok (match (m.entriesFrom geo dir k)[index - count]? with
        | some e => .inr (e.name, direntType e.fileType)
        | none => .inl (count + (m.entriesFrom geo dir k).length))) m := by
  induction turns generalizing k count with
  | zero => omega
  | succ turns ih =>
    by_cases past : m.dirBlocks geo dir ≤ k
    · rw [entriesFrom_end past]
      exact ok.overDirBlocks_end ho past
    have inside : k < m.dirBlocks geo dir := Nat.lt_of_not_le past
    have here : Does geo (readdirVisit geo index count (m.dirBlock geo dir k)) m
        (.ok (scanDirents geo.blockSize (m.data (m.dirBlock geo dir k)) 8 (readdirStep index) count
          0)) m := bind (look_does (ok.data k inside)) pure
    rw [scanDirents_chain (ok.tiled k inside) (by decide) (by decide), scanList_readdir low] at here
    rw [entriesFrom_next inside]
    have hl : live (direntsOf geo.blockSize (m.data (m.dirBlock geo dir k))) =
        m.blockEntries geo dir k := rfl
    rw [hl] at here
    cases hf : (m.blockEntries geo dir k)[index - count]? with
    | some e =>
      rw [hf] at here
      have hb := (List.getElem?_eq_some_iff.mp hf).1
      rw [List.getElem?_append_left hb, hf]
      exact ok.overDirBlocks_stop ho inside here
    | none =>
      rw [hf] at here
      have hb := List.getElem?_eq_none_iff.mp hf
      rw [List.getElem?_append_right hb, length_append, ← add_assoc]
      have skip : index - count - (m.blockEntries geo dir k).length =
          index - (count + (m.blockEntries geo dir k).length) := by omega
      rw [skip]
      exact ok.overDirBlocks_pass ho inside here (ih _ inside (by omega) (by omega))

theorem ext2Readdir_does (directory : fileKind (m.inode dir) = kindDir) (index : Nat) :
    Does geo (ext2Readdir geo dir index) m (match (m.entries geo dir)[index]? with
      | some e => .ok (e.name, direntType e.fileType)
      | none => .error failed) m := by
  refine bind (orStop_does (ext2ReadInode_does ho ok.has)) ?_
  rw [if_neg (not_not_intro directory)]
  have loop := ok.readdir_loop (k := 0) ho 0 (Nat.zero_le _) (dirTurns_gt geo m dir)
    (Nat.zero_le index)
  rw [Nat.zero_mul, ← entries_eq_from, Nat.sub_zero] at loop
  refine bind loop ?_
  cases (m.entries geo dir)[index]? with
  | some e => exact pure
  | none => exact fail

/-! ### Taking an entry out -/

omit ho in
theorem of_data (inode : m'.inode dir = m.inode dir)
    (pointers : ∀ k < m.dirBlocks geo dir, ∀ q ∈ m.pointers geo (m.inode dir) k,
      m'.data q = m.data q)
    (tiled : ∀ k < m.dirBlocks geo dir, Tiled geo.blockSize (m'.data (m.dirBlock geo dir k))) :
    DirOk geo m' dir ∧ m'.entries geo dir = (range (m.dirBlocks geo dir)).flatMap
      fun k => live (direntsOf geo.blockSize (m'.data (m.dirBlock geo dir k))) := by
  have same : ∀ k < m.dirBlocks geo dir, m'.dirBlock geo dir k = m.dirBlock geo dir k ∧
      m'.pointers geo (m'.inode dir) k = m.pointers geo (m.inode dir) k := fun k inside => by
    rw [dirBlock, dirBlock, inode]
    exact fileBlock_congr (fun _ _ => rfl) (pointers k inside)
  have count : m'.dirBlocks geo dir = m.dirBlocks geo dir := by
    rw [dirBlocks, dirBlocks, inode]
  have block : ∀ k < m.dirBlocks geo dir, m'.dirBlock geo dir k = m.dirBlock geo dir k :=
    fun k inside => (same k inside).1
  refine ⟨⟨ok.has, by rw [inode]; exact ok.trim, by rw [inode, count]; exact ok.size, ?_, ?_, ?_,
    ?_⟩, ?_⟩
  all_goals try rw [count]
  · intro k inside
    rw [block k inside]
    exact ok.data k inside
  · intro j insideJ k insideK same
    rw [block j insideJ, block k insideK] at same
    exact ok.apart j insideJ k insideK same
  · intro k inside q mem
    rw [(same k inside).2] at mem
    obtain ⟨valid, other⟩ := ok.pointers k inside q mem
    exact ⟨valid, fun j insideJ => by rw [block j insideJ]; exact other j insideJ⟩
  · intro k inside
    rw [block k inside]
    exact tiled k inside
  · rw [entries, count]
    refine flatMap_congr fun k mem => ?_
    rw [blockEntries, block k (mem_range.mp mem)]

omit ho in
theorem setData (inside : j < m.dirBlocks geo dir) (tiled : Tiled geo.blockSize d) :
    DirOk geo (m.setData (m.dirBlock geo dir j) d) dir ∧
    ∃ front back, m.entries geo dir = front ++ m.blockEntries geo dir j ++ back ∧
      (m.setData (m.dirBlock geo dir j) d).entries geo dir =
        front ++ live (direntsOf geo.blockSize d) ++ back := by
  have other : ∀ k < m.dirBlocks geo dir, k ≠ j →
      (m.setData (m.dirBlock geo dir j) d).data (m.dirBlock geo dir k) =
        m.data (m.dirBlock geo dir k) := fun k insideK differ =>
    update_of_ne (fun same => differ (ok.apart k insideK j inside same)) _ _
  have here : (m.setData (m.dirBlock geo dir j) d).data (m.dirBlock geo dir j) = d :=
    update_self _ _ _
  have inode : (m.setData (m.dirBlock geo dir j) d).inode dir = m.inode dir := rfl
  obtain ⟨after, entries⟩ := ok.of_data inode (fun k insideK q mem =>
      update_of_ne ((ok.pointers k insideK q mem).2 j inside) _ _) fun k insideK => by
      by_cases same : k = j
      · rw [same, here]
        exact tiled
      · rw [other k insideK same]
        exact ok.tiled k insideK
  refine ⟨after, (range j).flatMap (m.blockEntries geo dir),
    (range' (j + 1) (m.dirBlocks geo dir - (j + 1))).flatMap (m.blockEntries geo dir), ?_, ?_⟩
  · rw [Image.entries, range_split inside, flatMap_append, flatMap_cons, append_assoc]
  have new : live (direntsOf geo.blockSize ((m.setData (m.dirBlock geo dir j) d).data
      (m.dirBlock geo dir j))) = live (direntsOf geo.blockSize d) :=
    congrArg (fun d => live (direntsOf geo.blockSize d)) here
  have kept : ∀ k < m.dirBlocks geo dir, k ≠ j →
      live (direntsOf geo.blockSize ((m.setData (m.dirBlock geo dir j) d).data
        (m.dirBlock geo dir k))) = m.blockEntries geo dir k := fun k insideK differ =>
    congrArg (fun d => live (direntsOf geo.blockSize d)) (other k insideK differ)
  rw [entries, range_split inside, flatMap_append, flatMap_cons, append_assoc]
  refine congrArg₂ _ ?_ (congrArg₂ _ new ?_)
  · refine flatMap_congr fun k mem => ?_
    have low := mem_range.mp mem
    exact kept k (by omega) (by omega)
  · refine flatMap_congr fun k mem => ?_
    have bounds := mem_range'_1.mp mem
    exact kept k (by omega) (by omega)

theorem overDirBlocks_skip (inside : j ≤ m.dirBlocks geo dir) (he : j < turns)
    (hv : ∀ i < j, Does geo (visit s (m.dirBlock geo dir i)) m (.ok (.inl s)) m)
    (rest : ∀ turns,
      Does geo (overDirBlocks geo (m.inode dir) visit (turns + 1) s (j * geo.blockSize) j) m r m') :
    Does geo (overDirBlocks geo (m.inode dir) visit turns s 0 0) m r m' := by
  have hw := loop_reaches (P := fun turns k => Does geo
      (overDirBlocks geo (m.inode dir) visit turns s (k * geo.blockSize) k) m r m') he
    (fun k _ less => ok.overDirBlocks_pass ho (by omega) (hv k less)) rest
  rw [Nat.zero_mul] at hw
  exact hw

theorem removeVisit_does (name : Name) (inside : k < m.dirBlocks geo dir) :
    Does geo (removeVisit geo name () (m.dirBlock geo dir k)) m
      (.ok (if (removeInBlock geo.blockSize (m.data (m.dirBlock geo dir k)) name).isSome
        then .inr () else .inl ()))
      (match removeInBlock geo.blockSize (m.data (m.dirBlock geo dir k)) name with
        | none => m
        | some d => m.setData (m.dirBlock geo dir k) (clip geo.blockSize d)) :=
  bind (change_does ho (ok.data k inside)) pure

theorem removeVisit_pass (inside : k < m.dirBlocks geo dir)
    (ha : name ∉ (m.blockEntries geo dir k).map Entry.name) :
    Does geo (removeVisit geo name () (m.dirBlock geo dir k)) m (.ok (.inl ())) m := by
  have hv := ok.removeVisit_does ho name inside
  rw [removeInBlock_none (ok.tiled k inside) (unnamed_iff.mpr ha)] at hv
  exact hv

theorem remove_absent (short : name.length ≤ 255) (ha : name ∉ (m.entries geo dir).map Entry.name) :
    Does geo (ext2DirRemoveEntry geo dir name) m (.error failed) m := by
  refine bind (orStop_does (ext2ReadInode_does ho ok.has)) ?_
  rw [if_neg (Nat.not_lt_of_le short)]
  refine bind (a := .inl ()) ?_ fail
  refine ok.overDirBlocks_skip ho le_rfl (dirTurns_gt geo m dir) (fun k inside => ?_)
    fun _ => ok.overDirBlocks_end ho le_rfl
  refine ok.removeVisit_pass ho inside fun mem => ha ?_
  obtain ⟨e, hl, hn⟩ := mem_map.mp mem
  exact mem_map.mpr ⟨e, mem_flatMap.mpr ⟨k, mem_range.mpr inside, hl⟩, hn⟩

theorem remove_present (short : name.length ≤ 255)
    (hp : name ∈ (m.entries geo dir).map Entry.name) :
    ∃ j d pre e after, j < m.dirBlocks geo dir ∧ Tiled geo.blockSize d ∧
      m.entries geo dir = pre ++ e :: after ∧ e.name = name ∧
      (m.setData (m.dirBlock geo dir j) d).entries geo dir = pre ++ after ∧
      Does geo (ext2DirRemoveEntry geo dir name) m (.ok ())
        (m.setData (m.dirBlock geo dir j) d) := by
  obtain ⟨e, hl, hn⟩ := mem_map.mp hp
  obtain ⟨k, hi, inBlock⟩ := mem_flatMap.mp hl
  -- the first block that has the name
  obtain ⟨j, inside, here, he⟩ := exists_first
    (P := fun k => name ∈ (m.blockEntries geo dir k).map Entry.name)
    ⟨k, mem_range.mp hi, mem_map.mpr ⟨e, inBlock, hn⟩⟩
  have records := ok.tiled j inside
  obtain hu | ⟨pre, r, after, split, hu, used, hn⟩ :=
    unnamed_or_first name (direntsOf geo.blockSize (m.data (m.dirBlock geo dir j)))
  · exact absurd here (unnamed_iff.mp hu)
  rw [Tiled, split] at records
  have size := ho.blockSize_bounds
  obtain ⟨d, rs, hr, chain, ha⟩ := removeInBlock_some records (by omega) hu used hn
  have hs := tiled_of_chain (Chain.clip chain)
  obtain ⟨-, front, back, old, new⟩ := ok.setData inside hs
  refine ⟨j, clip geo.blockSize d, front ++ live pre, r.entry, live after ++ back, inside, hs,
    ?_, hn, ?_, ?_⟩
  · rw [old, blockEntries, split, live_append, live_cons_of_ne used]
    simp
  · rw [new, direntsOf_chain (Chain.clip chain), ha]
    simp
  refine bind (orStop_does (ext2ReadInode_does ho ok.has)) ?_
  rw [if_neg (Nat.not_lt_of_le short)]
  refine bind (a := .inr ()) ?_ pure
  have hv := ok.removeVisit_does ho name inside
  rw [hr] at hv
  exact ok.overDirBlocks_skip ho (le_of_lt inside) (lt_trans inside (dirTurns_gt geo m dir))
    (fun i less => ok.removeVisit_pass ho (lt_trans less inside) (he i less))
    fun _ => ok.overDirBlocks_stop ho inside hv

/-! ### Adding an entry -/

omit ho in
theorem setInode_self : m.setInode dir (m.inode dir) = m := by
  refine Image.ext ?_ rfl rfl rfl
  rw [Image.setInode_inode, ok.trim, update_eq_self]

section
variable {child fileType : Nat} {r : Except Stop Unit}

theorem addLoop_turn (inside : k < m.dirBlocks geo dir)
    (rest : Does geo (if (addInBlock geo.blockSize (m.data (m.dirBlock geo dir k)) child name
          fileType).isSome then ignore (ext2WriteInode geo dir (m.inode dir))
        else addLoop geo dir (m.inode dir) child name fileType turns ((k + 1) * geo.blockSize)
          (k + 1))
      (match addInBlock geo.blockSize (m.data (m.dirBlock geo dir k)) child name fileType with
        | none => m
        | some d => m.setData (m.dirBlock geo dir k) (clip geo.blockSize d)) r m') :
    Does geo (addLoop geo dir (m.inode dir) child name fileType (turns + 1) (k * geo.blockSize) k) m
      r m' := by
  have less : k * geo.blockSize < iSize.get (m.inode dir) :=
    Nat.lt_of_not_le fun size => Nat.not_le_of_lt inside ((ok.size_le_iff ho).mp size)
  rw [addLoop, if_neg (Nat.not_lt_of_lt less), if_neg (ne_of_lt less)]
  refine bind (ok.blockNum_does inside) ?_
  rw [if_neg (ok.dirBlock_ne inside), ok.next_pos inside]
  exact bind (change_does ho (ok.data k inside)) rest

theorem addLoop_skip (inside : j ≤ m.dirBlocks geo dir) (he : j < turns)
    (full : ∀ i < j, addInBlock geo.blockSize (m.data (m.dirBlock geo dir i)) child name fileType =
      none)
    (rest : ∀ turns, Does geo (addLoop geo dir (m.inode dir) child name fileType (turns + 1)
      (j * geo.blockSize) j) m r m') :
    Does geo (addLoop geo dir (m.inode dir) child name fileType turns 0 0) m r m' := by
  have hw := loop_reaches (P := fun turns k => Does geo
      (addLoop geo dir (m.inode dir) child name fileType turns (k * geo.blockSize) k) m r m') he
    (fun k _ less next => ok.addLoop_turn ho (by omega) (by rw [full k less]; exact next)) rest
  rw [Nat.zero_mul] at hw
  exact hw

theorem addLoop_stop (inside : j < m.dirBlocks geo dir)
    (ha : addInBlock geo.blockSize (m.data (m.dirBlock geo dir j)) child name fileType = some d) :
    Does geo (addLoop geo dir (m.inode dir) child name fileType (turns + 1) (j * geo.blockSize) j) m
      (.ok ()) (m.setData (m.dirBlock geo dir j) (clip geo.blockSize d)) := by
  refine ok.addLoop_turn ho inside ?_
  rw [ha]
  have hw : Does geo (ignore (ext2WriteInode geo dir (m.inode dir)))
      (m.setData (m.dirBlock geo dir j) (clip geo.blockSize d)) (.ok ())
      ((m.setData (m.dirBlock geo dir j) (clip geo.blockSize d)).setInode dir (m.inode dir)) :=
    ignore_does (ext2WriteInode_does ho ok.has)
  have eq : (m.setData (m.dirBlock geo dir j) (clip geo.blockSize d)).setInode dir (m.inode dir) =
      m.setData (m.dirBlock geo dir j) (clip geo.blockSize d) :=
    congrArg (·.setData (m.dirBlock geo dir j) (clip geo.blockSize d)) ok.setInode_self
  rw [eq] at hw
  exact hw

end

theorem addLoop_append {child fileType : Nat} {spot : Nat × Nat}
    (hf : m.pick geo .block (range geo.numGroups) = some spot)
    (hv : geo.IsData (m.take geo .block spot).1) (few : m.dirBlocks geo dir < 12) :
    Does geo (addLoop geo dir (m.inode dir) child name fileType (turns + 1)
      (m.dirBlocks geo dir * geo.blockSize) (m.dirBlocks geo dir)) m (.ok ())
      ((m.take geo .block spot).2.extend geo dir (m.take geo .block spot).1 child name fileType) := by
  have ht := ext2AllocBlock_does (m := m) ho
  rw [alloc, hf] at ht
  rw [addLoop, if_neg (by rw [ok.size]; exact lt_irrefl _), if_pos ok.size.symm]
  refine bind ht ?_
  rw [if_neg (ne_of_gt hv.1.1), if_neg (Nat.not_le_of_lt few)]
  exact bind (change_does ho hv) (ignore_does (ext2WriteInode_does ho ok.has))

section
variable {child fileType : Nat} (short : 0 < name.length ∧ name.length ≤ 255)
include short

variable {r : Except Stop Unit}

theorem addEntry_loop (loop : Does geo (addLoop geo dir (m.inode dir) child
      name fileType (geo.dirTurns (iSize.get (m.inode dir))) 0 0) m r m') :
    Does geo (ext2DirAddEntry geo dir child name fileType) m r m' := by
  refine bind (orStop_does (ext2ReadInode_does ho ok.has)) ?_
  rw [if_neg (by omega)]
  exact loop

omit ho short in
theorem full_block (full : ¬ m.HasRoom geo dir name) (inside : k < m.dirBlocks geo dir)
    (small : geo.blockSize < 65536) :
    addInBlock geo.blockSize (m.data (m.dirBlock geo dir k)) child name fileType = none :=
  addInBlock_none (ok.tiled k inside) small fun r mem room => full ⟨k, inside, r, mem, room⟩

theorem addEntry_past (full : ¬ m.HasRoom geo dir name)
    (rest : ∀ turns, Does geo (addLoop geo dir (m.inode dir) child name fileType (turns + 1)
      (m.dirBlocks geo dir * geo.blockSize) (m.dirBlocks geo dir)) m r m') :
    Does geo (ext2DirAddEntry geo dir child name fileType) m r m' := by
  have size := ho.blockSize_bounds
  exact ok.addEntry_loop ho short (ok.addLoop_skip ho le_rfl (dirTurns_gt geo m dir)
    (fun i inside => ok.full_block full inside (by omega)) rest)

theorem add_room (word : child < 2 ^ 32) (used : child ≠ 0) (type : fileType < 256)
    (room : m.HasRoom geo dir name) :
    ∃ j d pre after, j < m.dirBlocks geo dir ∧ Tiled geo.blockSize d ∧
      m.entries geo dir = pre ++ after ∧
      (m.setData (m.dirBlock geo dir j) d).entries geo dir =
        pre ++ ⟨name, child, fileType⟩ :: after ∧
      Does geo (ext2DirAddEntry geo dir child name fileType) m (.ok ())
        (m.setData (m.dirBlock geo dir j) d) := by
  have size := ho.blockSize_bounds
  -- the first block with room, and its first record with room
  obtain ⟨j, inside, ⟨r₀, hm₀, room₀⟩, he⟩ := exists_first room
  have records := ok.tiled j inside
  obtain ⟨pre, r, after, split, room, fullBefore⟩ :
      ∃ pre r after, direntsOf geo.blockSize (m.data (m.dirBlock geo dir j)) =
        pre ++ r :: after ∧ r.Room (direntSize name.length) ∧
        ∀ q ∈ pre, ¬ q.Room (direntSize name.length) := by
    cases hf : (direntsOf geo.blockSize (m.data (m.dirBlock geo dir j))).find?
        fun r => r.Room (direntSize name.length) with
    | none => exact absurd room₀ (by simpa using find?_eq_none.mp hf r₀ hm₀)
    | some r =>
      obtain ⟨room, pre, after, split, hp⟩ := find?_eq_some_iff_append.mp hf
      exact ⟨pre, r, after, split, by simpa using room, fun q mem => by
        simpa using hp q mem⟩
  rw [Tiled, split] at records
  obtain ⟨d, rs, ha, chain, hl⟩ := addInBlock_some word (by omega) type records (by omega)
    fullBefore room used
  have hs := tiled_of_chain (Chain.clip chain)
  obtain ⟨-, front, back, old, new⟩ := ok.setData inside hs
  refine ⟨j, clip geo.blockSize d, front ++ live (pre ++ [r]), live after ++ back, inside, hs,
    ?_, ?_, ?_⟩
  · have hj : pre ++ r :: after = pre ++ [r] ++ after := by simp
    rw [old, blockEntries, split, hj, live_append]
    simp
  · rw [new, direntsOf_chain (Chain.clip chain), hl]
    simp
  · exact ok.addEntry_loop ho short (ok.addLoop_skip ho (le_of_lt inside)
      (lt_trans inside (dirTurns_gt geo m dir))
      (fun i less => addInBlock_none (ok.tiled i (lt_trans less inside)) (by omega)
        fun q mem room => he i less ⟨q, mem, room⟩)
      fun _ => ok.addLoop_stop ho inside ha)

theorem add_append {spot : Nat × Nat} (full : ¬ m.HasRoom geo dir name)
    (hf : m.pick geo .block (range geo.numGroups) = some spot)
    (hv : geo.IsData (m.take geo .block spot).1) (few : m.dirBlocks geo dir < 12) :
    Does geo (ext2DirAddEntry geo dir child name fileType) m (.ok ())
      ((m.take geo .block spot).2.extend geo dir (m.take geo .block spot).1 child name fileType) :=
  ok.addEntry_past ho short full fun _ => ok.addLoop_append ho hf hv few

end

omit ho in
theorem of_same (inode : m'.inode dir = m.inode dir)
    (pointers : ∀ k < m.dirBlocks geo dir, ∀ q ∈ m.pointers geo (m.inode dir) k,
      m'.data q = m.data q)
    (blocks : ∀ k < m.dirBlocks geo dir,
      m'.data (m.dirBlock geo dir k) = m.data (m.dirBlock geo dir k)) :
    DirOk geo m' dir ∧ m'.entries geo dir = m.entries geo dir := by
  obtain ⟨after, entries⟩ := ok.of_data inode pointers fun k inside => by
    rw [blocks k inside]
    exact ok.tiled k inside
  refine ⟨after, entries.trans (flatMap_congr fun k mem => ?_)⟩
  rw [blocks k (mem_range.mp mem), blockEntries]

section
variable {child fileType blk : Nat} (few : m.dirBlocks geo dir < 12)
include few

omit ok ho few in
theorem extend_inode : (m.extend geo dir blk child name fileType).inode dir =
    clip inodeBytes (growDir geo (m.inode dir) (m.dirBlocks geo dir) blk) :=
  update_self _ _ _

theorem extend_size : iSize.get ((m.extend geo dir blk child name fileType).inode dir) =
    (m.dirBlocks geo dir + 1) * geo.blockSize := by
  have total : iSize.get (m.inode dir) + geo.blockSize =
      (m.dirBlocks geo dir + 1) * geo.blockSize := by
    rw [ok.size, Nat.succ_mul]
  have hp : (m.dirBlocks geo dir + 1) * geo.blockSize ≤ 12 * 4096 :=
    Nat.mul_le_mul few ho.blockSize_bounds.2
  rw [extend_inode, get_clip (by decide), growDir_iSize (by omega), total]

theorem extend_dirBlocks : (m.extend geo dir blk child name fileType).dirBlocks geo dir =
    m.dirBlocks geo dir + 1 := by
  rw [dirBlocks, ok.extend_size ho few, Nat.mul_div_cancel _ ho.blockSize_pos]

omit ok ho few in
theorem extend_dirBlock (word : blk < 2 ^ 32) (small : k < 12) :
    (m.extend geo dir blk child name fileType).dirBlock geo dir k =
      if k = m.dirBlocks geo dir then blk else m.dirBlock geo dir k := by
  rw [dirBlock, fileBlock, if_pos small, extend_inode, get_clip,
    growDir_iBlock word, dirBlock, fileBlock, if_pos small]
  simp only [iBlock, inodeBytes]
  omega

theorem extend (hv : geo.IsData blk) (hf : ∀ j < m.dirBlocks geo dir, blk ≠ m.dirBlock geo dir j)
    (short : name.length ≤ 255) (word : child < 2 ^ 32) (used : child ≠ 0) (type : fileType < 256) :
    DirOk geo (m.extend geo dir blk child name fileType) dir ∧
      (m.extend geo dir blk child name fileType).entries geo dir =
        m.entries geo dir ++ [⟨name, child, fileType⟩] := by
  have sizes := ho.blockSize_cases
  generalize is : m.extend geo dir blk child name fileType = next
  have count : next.dirBlocks geo dir = m.dirBlocks geo dir + 1 := is ▸ ok.extend_dirBlocks ho few
  have old : ∀ k < m.dirBlocks geo dir, next.dirBlock geo dir k = m.dirBlock geo dir k := by
    intro k inside
    rw [← is, extend_dirBlock hv.1.2 (by omega), if_neg (ne_of_lt inside)]
  have new : next.dirBlock geo dir (m.dirBlocks geo dir) = blk := by
    rw [← is, extend_dirBlock hv.1.2 few, if_pos rfl]
  have chain : Chain direntFormat (clip geo.blockSize (freshDirBlock geo.blockSize child name
      fileType)) 0 [⟨child, geo.blockSize, fileType, name⟩] geo.blockSize :=
    Chain.clip (freshDirBlock_chain (by omega) (by omega) (by rw [direntSize]; omega) word (by omega)
      type)
  have ht : next.data blk = clip geo.blockSize (freshDirBlock geo.blockSize child name fileType) :=
    is ▸ update_self _ _ _
  have hd : ∀ k < m.dirBlocks geo dir,
      next.data (m.dirBlock geo dir k) = m.data (m.dirBlock geo dir k) := fun k inside =>
    is ▸ update_of_ne (hf k inside).symm _ _
  have cases : ∀ k < m.dirBlocks geo dir + 1, k < m.dirBlocks geo dir ∨ k = m.dirBlocks geo dir :=
    fun k inside => by omega
  refine ⟨⟨ok.has, ?_, ?_, ?_, ?_, ?_, ?_⟩, ?_⟩
  · rw [← is, extend_inode, clip_clip]
  · rw [count, ← is, ok.extend_size ho few]
  · rw [count]
    intro k inside
    rcases cases k inside with less | rfl
    · rw [old k less]
      exact ok.data k less
    · rw [new]
      exact hv
  · rw [count]
    intro j hi k hn eq
    rcases cases j hi with hl | rfl <;> rcases cases k hn with lessK | rfl
    · rw [old j hl, old k lessK] at eq
      exact ok.apart j hl k lessK eq
    · rw [old j hl, new] at eq
      exact absurd eq.symm (hf j hl)
    · rw [old k lessK, new] at eq
      exact absurd eq (hf k lessK)
    · rfl
  · rw [count]
    intro k inside q mem
    rw [Image.pointers, if_pos (by omega)] at mem
    exact absurd mem not_mem_nil
  · rw [count]
    intro k inside
    rcases cases k inside with less | rfl
    · rw [old k less, hd k less]
      exact ok.tiled k less
    · rw [new, ht]
      exact tiled_of_chain chain
  · rw [Image.entries, count, range_succ, flatMap_append, flatMap_singleton]
    refine congrArg₂ _ (flatMap_congr fun k mem => ?_) ?_
    · have inside := mem_range.mp mem
      rw [Image.blockEntries, old k inside, hd k inside, Image.blockEntries]
    · rw [Image.blockEntries, new, ht, direntsOf_chain chain, live_cons_of_ne used]
      rfl

end

end

end DirOk

end

end Aegis.Ext2
