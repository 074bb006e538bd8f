import Mathlib.Data.List.Nodup
import Aegis.Ext2DirMap

/-! Runs of insertions and removals in one directory, through the block cache. The directory
stays a finite map, as long as the counter of ages in the cache does not wrap; a wrap can lose
an entry that was just added. -/

namespace Aegis.Ext2

open ByteMemory BlockProgram LabelledRun Function List Option
open ByteLayout (Byte)

inductive DirCall
  | add (name : Name) (child fileType : Nat)
  | remove (name : Name)

structure DirState where
  vol : CachedVolume
  ref : Name → Option (Nat × Nat)
  returned : Except Stop Unit
  expected : Except Stop Unit

def slash : Byte := 47

def CachedVolume.image (geo : Geometry) (v : CachedVolume) : Image :=
  Ext2.image geo (v.volume geo.blockSize)

section
variable (geo : Geometry) (dir : Nat)

def DirCall.program : DirCall → Fs Unit
  | .add name child fileType => ext2DirAddEntry geo dir child name fileType
  | .remove name => ext2DirRemoveEntry geo dir name

/-- A call with the arguments it is made for; a new block can be allocated if one is needed,
and the directory has room for its pointer. -/
def DirCall.Allowed (s : DirState) : DirCall → Prop
  | .add name child fileType =>
    (0 < name.length ∧ name.length ≤ 255 ∧ slash ∉ name ∧ (0 : Byte) ∉ name) ∧
      (0 < child ∧ child < 2 ^ 32 ∧ fileType < 256) ∧ s.ref name = none ∧
      ((s.vol.image geo).HasRoom geo dir name ∨ (s.vol.image geo).dirBlocks geo dir < 12 ∧
        ((s.vol.image geo).pick geo .block (List.range geo.numGroups)).isSome)
  | .remove name => name.length ≤ 255

instance (s : DirState) (call : DirCall) : Decidable (call.Allowed geo dir s) := by
  rcases call <;> (dsimp only [DirCall.Allowed]; infer_instance)

def DirCall.apply (ref : Name → Option (Nat × Nat)) : DirCall → Name → Option (Nat × Nat)
  | .add name child fileType => update ref name (some (child, fileType))
  | .remove name => update ref name none

def DirCall.answer (ref : Name → Option (Nat × Nat)) : DirCall → Except Stop Unit
  | .add _ _ _ => .ok ()
  | .remove name => if (ref name).isSome then .ok () else .error failed

def dirStep (s : DirState) (call : DirCall) : Option DirState :=
  if call.Allowed geo dir s then
    let r := s.vol.run geo.blockSize (call.program geo dir)
    some ⟨r.2, call.apply s.ref, r.1, call.answer s.ref⟩
  else none

def NoWrap (s : DirState) (call : DirCall) : Prop :=
  s.vol.Early geo.blockSize (call.program geo dir)
  deriving Decidable

def findEntry (name : Name) : Fs (Option Nat) := do
  let inode ← ext2ReadInode geo dir
  searchDir geo inode name

structure DirReady (m : Image) : Prop where
  ok : DirOk geo m dir
  directory : fileKind (m.inode dir) = kindDir
  marked : ∀ k < m.dirBlocks geo dir, m.used .block (m.dirBlock geo dir k) = true
  free : ∀ b, (geo.numbers .block).Has b → m.used .block b = false → geo.IsData b
  distinct : ((m.entries geo dir).map Entry.name).Nodup

def Maps (es : List Entry) (ref : Name → Option (Nat × Nat)) : Prop :=
  ∀ e, e ∈ es ↔ ref e.name = some (e.inode, e.fileType)

structure DirStart (s : DirState) : Prop where
  sound : geo.Sound
  settled : Settled geo.blockSize s.vol.cache (s.vol.volume geo.blockSize).blocks
  ready : DirReady geo dir (s.vol.image geo)
  lists : Maps ((s.vol.image geo).entries geo dir) s.ref
  answer : s.returned = s.expected

/-- The blocks are tiled by records whose entries are the map; `ext2_readdir` enumerates them
and the component search finds them. -/
structure IsMap (s : DirState) : Prop where
  tiled : ∀ k < (s.vol.image geo).dirBlocks geo dir,
    Tiled geo.blockSize ((s.vol.image geo).data ((s.vol.image geo).dirBlock geo dir k))
  distinct : (((s.vol.image geo).entries geo dir).map Entry.name).Nodup
  lists : Maps ((s.vol.image geo).entries geo dir) s.ref
  readdir : ∀ i, s.vol.Early geo.blockSize (ext2Readdir geo dir i) →
    (s.vol.run geo.blockSize (ext2Readdir geo dir i)).1 =
      match ((s.vol.image geo).entries geo dir)[i]? with
      | some e => .ok (e.name, direntType e.fileType)
      | none => .error failed
  search : ∀ name, s.vol.Early geo.blockSize (findEntry geo dir name) →
    (s.vol.run geo.blockSize (findEntry geo dir name)).1 = .ok ((s.ref name).map Prod.fst)
  answer : s.returned = s.expected

end

section
variable {geo : Geometry} {dir : Nat} {s s' start : DirState} {m : Image}
  {es before after : List Entry}
  {ref : Name → Option (Nat × Nat)} {name : Name} {e : Entry}

theorem Maps.lookup_eq (hl : Maps es ref) : lookup es name = (ref name).map Prod.fst := by
  rw [lookup]
  cases hf : es.find? fun e => e.name = name with
  | some e =>
    have mem := (hl e).mp (mem_of_find?_eq_some hf)
    have hn : e.name = name := by simpa using find?_some hf
    rw [← hn, mem]
    rfl
  | none =>
    cases hp : ref name with
    | none => rfl
    | some pair =>
      have hs := (hl ⟨name, pair.1, pair.2⟩).mpr hp
      have ha := find?_eq_none.mp hf _ hs
      simp at ha

theorem Maps.mem_names (hl : Maps es ref) :
    name ∈ es.map Entry.name ↔ (ref name).isSome = true := by
  constructor
  · intro mem
    obtain ⟨e, hs, rfl⟩ := mem_map.mp mem
    rw [(hl e).mp hs]
    rfl
  · intro some
    obtain ⟨pair, hp⟩ := isSome_iff_exists.mp some
    exact mem_map.mpr ⟨⟨name, pair.1, pair.2⟩, (hl _).mpr hp, rfl⟩

theorem Maps.insert (hl : Maps (before ++ after) ref) (ha : ref name = none)
    (child fileType : Nat) :
    Maps (before ++ ⟨name, child, fileType⟩ :: after)
      (update ref name (some (child, fileType))) := by
  intro e
  have old := hl e
  rw [mem_append] at old
  rw [mem_append, mem_cons]
  by_cases hn : e.name = name
  · rw [hn, update_self]
    rw [hn, ha] at old
    constructor
    · rintro (h1 | rfl | h2)
      · cases old.mp (.inl h1)
      · rfl
      · cases old.mp (.inr h2)
    · intro eq
      cases eq
      exact .inr (.inl (by rw [← hn]))
  · rw [update_of_ne hn, ← old]
    constructor
    · rintro (h1 | rfl | h2)
      · exact .inl h1
      · exact absurd rfl hn
      · exact .inr h2
    · rintro (h1 | h2)
      · exact .inl h1
      · exact .inr (.inr h2)

theorem Maps.erase (hl : Maps (before ++ e :: after) ref)
    (ne : ((before ++ e :: after).map Entry.name).Nodup) :
    Maps (before ++ after) (update ref e.name none) := by
  have ha : ∀ q ∈ before ++ after, q.name ≠ e.name := by
    rw [map_append, map_cons, nodup_middle, ← map_append] at ne
    intro q mem eq
    exact (nodup_cons.mp ne).1 (mem_map.mpr ⟨q, mem, eq⟩)
  intro q
  by_cases hn : q.name = e.name
  · rw [hn, update_self]
    exact ⟨fun mem => absurd hn (ha q mem), nofun⟩
  have other : q ≠ e := fun eq => hn (congrArg Entry.name eq)
  rw [update_of_ne hn, ← hl q, mem_append, mem_append, mem_cons]
  exact ⟨fun mem => mem.imp_right .inr,
    fun mem => mem.imp_right fun later => later.resolve_left other⟩

theorem nodup_insert {child fileType : Nat} (ne : ((before ++ after).map Entry.name).Nodup)
    (ha : name ∉ (before ++ after).map Entry.name) :
    ((before ++ ⟨name, child, fileType⟩ :: after).map Entry.name).Nodup := by
  rw [map_append, map_cons, nodup_middle, ← map_append]
  exact nodup_cons.mpr ⟨ha, ne⟩

namespace DirReady

variable (hc : DirReady geo dir m) (sound : geo.Sound)
include hc

theorem setData {j : Nat} {d : Bytes} (hn : j < m.dirBlocks geo dir) (ht : Tiled geo.blockSize d)
    (ne : (((m.setData (m.dirBlock geo dir j) d).entries geo dir).map Entry.name).Nodup) :
    DirReady geo dir (m.setData (m.dirBlock geo dir j) d) := by
  have eq : ∀ k < m.dirBlocks geo dir,
      (m.setData (m.dirBlock geo dir j) d).dirBlock geo dir k = m.dirBlock geo dir k :=
    fun k hi => (Image.fileBlock_congr (fun _ _ => rfl) fun q mem =>
      update_of_ne ((hc.ok.pointers k hi q mem).2 j hn) _ _).1
  refine ⟨(hc.ok.setData hn ht).1, hc.directory, fun k hi => ?_, hc.free, ne⟩
  rw [eq k hi]
  exact hc.marked k hi

include sound

theorem append {spot : Nat × Nat} {child fileType : Nat} (few : m.dirBlocks geo dir < 12)
    (hn : m.pick geo .block (range geo.numGroups) = some spot)
    (hs : name.length ≤ 255) (word : child < 2 ^ 32) (used : child ≠ 0) (type : fileType < 256)
    (ha : name ∉ (m.entries geo dir).map Entry.name) :
    DirReady geo dir ((m.take geo .block spot).2.extend geo dir (m.take geo .block spot).1 child
        name fileType) ∧
      ((m.take geo .block spot).2.extend geo dir (m.take geo .block spot).1 child name
        fileType).entries geo dir = m.entries geo dir ++ [⟨name, child, fileType⟩] := by
  obtain ⟨has, clear⟩ := pick_some sound hn
  have hv := hc.free _ has clear
  have inode : (m.take geo .block spot).2.inode dir = m.inode dir := rfl
  obtain ⟨ok, entries⟩ := hc.ok.of_same inode (fun _ _ _ _ => rfl) fun _ _ => rfl
  have hf : ∀ k < m.dirBlocks geo dir, (m.take geo .block spot).1 ≠ m.dirBlock geo dir k :=
    fun k hi eq => by
      rw [eq, hc.marked k hi] at clear
      cases clear
  have bits : ((m.take geo .block spot).2.extend geo dir (m.take geo .block spot).1 child name
      fileType).used .block = update (m.used .block) (m.take geo .block spot).1 true := by
    rw [Image.extend_used, Image.take_used]
  generalize (m.take geo .block spot).1 = blk at *
  obtain ⟨after, hl⟩ := ok.extend sound few hv hf hs word used type
  have block : ∀ k < 12, ((m.take geo .block spot).2.extend geo dir blk child name
      fileType).dirBlock geo dir k =
      if k = m.dirBlocks geo dir then blk else m.dirBlock geo dir k :=
    fun k lt => DirOk.extend_dirBlock hv.1.2 lt
  have count : ((m.take geo .block spot).2.extend geo dir blk child name fileType).dirBlocks geo
      dir = m.dirBlocks geo dir + 1 := ok.extend_dirBlocks sound few
  rw [entries] at hl
  refine ⟨⟨after, ?_, ?_, ?_, ?_⟩, hl⟩
  · rw [DirOk.extend_inode, fileKind, Field.get_clip (by decide),
      growDir_field (by decide) (.inl (by decide)) (.inl (by decide))]
    exact hc.directory
  · rw [count]
    intro k hi
    rw [block k (by omega), bits]
    split
    · exact update_self _ _ _
    · rw [update_of_ne (hf k (by omega)).symm]
      exact hc.marked k (by omega)
  · intro b has clear
    rw [bits] at clear
    by_cases here : b = blk
    · rw [here]
      exact hv
    · rw [update_of_ne here] at clear
      exact hc.free b has clear
  · rw [hl]
    refine nodup_insert ?_ ?_
    all_goals rw [append_nil]
    · exact hc.distinct
    · exact ha

theorem call_does {call : DirCall} (hl : Maps (m.entries geo dir) s.ref)
    (contents : s.vol.image geo = m) (hd : call.Allowed geo dir s) :
    ∃ m', Does geo (call.program geo dir) m (call.answer s.ref) m' ∧ DirReady geo dir m' ∧
      Maps (m'.entries geo dir) (call.apply s.ref) := by
  cases call with
  | add name child fileType =>
    obtain ⟨⟨some, hs, -, -⟩, ⟨used, word, type⟩, free, room⟩ := hd
    rw [contents] at room
    have ha : name ∉ (m.entries geo dir).map Entry.name := fun mem => by
      rw [hl.mem_names, free] at mem
      cases mem
    by_cases hr : m.HasRoom geo dir name
    · obtain ⟨j, d, before, after, hi, ht, old, new, does⟩ :=
        hc.ok.add_room sound ⟨some, hs⟩ word (ne_of_gt used) type hr
      rw [old] at hl ha
      have ne := hc.distinct
      rw [old] at ne
      refine ⟨_, does, hc.setData hi ht ?_, ?_⟩
      · rw [new]
        exact nodup_insert ne ha
      · rw [new]
        exact hl.insert free child fileType
    · obtain ⟨few, possible⟩ := room.resolve_left hr
      obtain ⟨spot, hf⟩ := isSome_iff_exists.mp possible
      obtain ⟨has, clear⟩ := pick_some sound hf
      obtain ⟨after, he⟩ := hc.append sound few hf hs word (ne_of_gt used) type ha
      refine ⟨_, hc.ok.add_append sound ⟨some, hs⟩ hr hf (hc.free _ has clear) few, after, ?_⟩
      rw [he]
      refine Maps.insert ?_ free child fileType
      rw [append_nil]
      exact hl
  | remove name =>
    have hs : name.length ≤ 255 := hd
    rw [DirCall.answer, DirCall.apply]
    by_cases hp : name ∈ (m.entries geo dir).map Entry.name
    · obtain ⟨j, d, before, e, after, hi, ht, old, hn, new, does⟩ :=
        hc.ok.remove_present sound hs hp
      rw [if_pos (hl.mem_names.mp hp), ← hn]
      have ne := hc.distinct
      rw [old] at hl ne
      rw [hn]
      refine ⟨_, does, hc.setData hi ht ?_, ?_⟩
      · rw [new]
        refine ne.sublist (List.Sublist.map _ ?_)
        exact List.Sublist.append_left (sublist_cons_self _ _) _
      · rw [new, ← hn]
        exact hl.erase ne
    · have none : s.ref name = none := by
        rw [hl.mem_names, not_isSome_iff_eq_none] at hp
        exact hp
      rw [none]
      refine ⟨m, hc.ok.remove_absent sound hs hp, hc, ?_⟩
      rw [update_eq_self_iff.mpr none.symm]
      exact hl

end DirReady

theorem DirStart.step {call : DirCall} (inv : DirStart geo dir s) (he : NoWrap geo dir s call)
    (step : dirStep geo dir s call = some s') : DirStart geo dir s' := by
  obtain ⟨ha, done⟩ := ite_none_right_eq_some.mp step
  cases done
  obtain ⟨m', does, hc, hl⟩ := inv.ready.call_does inv.sound inv.lists rfl ha
  obtain ⟨hn, rfl, hs⟩ := does.cached inv.sound rfl inv.settled he
  exact ⟨inv.sound, hs, hc, hl, hn⟩

theorem DirStart.isMap (inv : DirStart geo dir s) : IsMap geo dir s := by
  obtain ⟨sound, hs, hc, hl, ha⟩ := inv
  refine ⟨hc.ok.tiled, hc.distinct, hl, fun i he => ?_, fun name he => ?_, ha⟩
  · exact ((hc.ok.ext2Readdir_does sound hc.directory i).cached sound rfl hs he).1
  have hf : Does geo (findEntry geo dir name) (s.vol.image geo)
      (.ok (lookup ((s.vol.image geo).entries geo dir) name)) (s.vol.image geo) :=
    Does.bind (ext2ReadInode_does sound hc.ok.has) (hc.ok.searchDir_does sound name)
  rw [(hf.cached sound rfl hs he).1, hl.lookup_eq]

/-- A directory is a finite map, whatever is added and removed. -/
theorem directory_is_map {calls : List DirCall} (wellFormed : DirStart geo dir start)
    (run : RunWhere (dirStep geo dir) (NoWrap geo dir) start calls s) : IsMap geo dir s :=
  (run.invariant wellFormed fun _ _ _ inv early step => inv.step early step).isMap

end

/-! ### A small volume -/

def smallGeometry : Geometry where
  sb := ⟨16, 64, 57, 6, 1, 0, 64, 16, ext2Magic, 0, 0⟩
  blockSize := 1024
  numGroups := 1
  bgd _ := ⟨3, 4, 5, 57, 6, 1⟩

def smallCounters : Counters := ⟨fun _ => 57, fun _ => 6, fun _ => 1, 57, 6⟩

/-- The bitmaps in blocks 3 and 4, the root directory in inode 2 and block 7. -/
def smallPartition : Bytes :=
  partitionOf [(3072, 1, 0x7F), (4096, 2, 0x3FF),
    (5248, 2, 0x41ED), (5252, 4, 1024), (5274, 2, 2), (5276, 4, 2), (5288, 4, 7),
    (7168, 4, 2), (7172, 2, 12), (7174, 1, 1), (7175, 1, 2), (7176, 1, 46),
    (7180, 4, 2), (7184, 2, 1012), (7186, 1, 2), (7187, 1, 2), (7188, 2, 11822)]

def smallVolume (age : Nat) : CachedVolume := ⟨smallCounters, ⟨fun _ => 0, age, smallPartition⟩⟩

/-- The slots hold blocks 41 to 56, just read one after the other. -/
def CachedVolume.filled (v : CachedVolume) : CachedVolume :=
  let read := fun (c : BlockCache) i => (c.label i (41 + i)).devRead 1024 i (41 + i)
  ⟨v.counters, (range cacheSlots).foldl read v.cache⟩

theorem smallGeometry_sound : smallGeometry.Sound where
  block := ⟨0, by decide, rfl⟩
  groups := by decide
  inodes := by decide
  blocks := by decide
  record := by decide
  span := by decide
  last := by decide
  words := by decide
  distinct := by decide

variable {age : Nat}

theorem smallVolume_settled (word : age < 2 ^ 32) :
    Settled 1024 (smallVolume age).cache (devBlock 1024 smallPartition) :=
  Mounted.inv ⟨fun _ _ => ⟨rfl, rfl, rfl⟩, rfl, fun _ => rfl, rfl, word⟩

theorem smallVolume_volume (word : age < 2 ^ 32) :
    (smallVolume age).volume 1024 = ⟨smallCounters, devBlock 1024 smallPartition⟩ :=
  congrArg (Disk.mk smallCounters) (smallVolume_settled word).blocks_eq

def smallImage : Image := image smallGeometry ⟨smallCounters, devBlock 1024 smallPartition⟩

def dot : Name := [46]

def dotdot : Name := [46, 46]

theorem small_entries : smallImage.entries smallGeometry 2 = [⟨dot, 2, 2⟩, ⟨dotdot, 2, 2⟩] := by
  decide +kernel

theorem small_ready : DirReady smallGeometry 2 smallImage where
  ok :=
    { has := by decide
      trim := clip_clip
      size := by decide +kernel
      data := by decide +kernel
      apart := by decide +kernel
      pointers := by decide +kernel
      tiled := by decide +kernel }
  directory := by decide +kernel
  marked := by decide +kernel
  free := by
    have bits : ∀ b < 65, (smallGeometry.numbers .block).Has b →
        smallImage.used .block b = false → smallGeometry.IsData b := by decide +kernel
    exact fun b has clear => bits b has.2 has clear
  distinct := by
    rw [small_entries]
    decide

def smallRef : Name → Option (Nat × Nat) := fun name =>
  if name = dot ∨ name = dotdot then some (2, 2) else none

def smallDir (age : Nat) : DirState := ⟨smallVolume age, smallRef, .ok (), .ok ()⟩

theorem smallDir_start (word : age < 2 ^ 32) : DirStart smallGeometry 2 (smallDir age) := by
  have contents : (smallDir age).vol.image smallGeometry = smallImage :=
    congrArg (image smallGeometry) (smallVolume_volume word)
  refine ⟨smallGeometry_sound, ?_, contents ▸ small_ready, ?_, rfl⟩
  · have blocks := congrArg Disk.blocks (smallVolume_volume word)
    exact blocks ▸ smallVolume_settled word
  rw [contents, small_entries]
  rintro ⟨name, inode, fileType⟩
  simp only [mem_cons, not_mem_nil, or_false, Entry.mk.injEq, smallDir, smallRef]
  by_cases hn : name = dot ∨ name = dotdot
  · rw [if_pos hn]
    constructor
    · rintro (⟨-, rfl, rfl⟩ | ⟨-, rfl, rfl⟩) <;> rfl
    intro eq
    cases eq
    exact hn.imp (fun h1 => ⟨h1, rfl, rfl⟩) fun second => ⟨second, rfl, rfl⟩
  · rw [if_neg hn]
    exact ⟨fun mem => absurd (mem.imp And.left And.left) hn, nofun⟩

theorem directory_is_map_two :
    ∃ s, RunWhere (dirStep smallGeometry 2) (NoWrap smallGeometry 2) (smallDir 0)
        [.add [97] 11 1, .add [98, 98] 12 1, .remove [97]] s ∧
      IsMap smallGeometry 2 s ∧ s.ref [98, 98] = some (12, 1) ∧ s.ref [97] = none :=
  exists_runWhere_with (fun _ => directory_is_map (smallDir_start (by decide)))

/-- A directory on a volume that has been used for long: no slot is free. -/
def usedDir : DirState := ⟨(smallVolume (2 ^ 32 - 18)).filled, smallRef, .ok (), .ok ()⟩

/-- The counter of ages wraps when the block of the directory is read: the call returns 0 and
the entry is not there. -/
theorem added_entry_lost :
    ∃ s, Run (dirStep smallGeometry 2) usedDir [.add [97] 11 1] s ∧
      s.returned = .ok () ∧
      (s.vol.run 1024 (findEntry smallGeometry 2 [97])).1 = .ok none ∧
      ¬ IsMap smallGeometry 2 s := by
  refine exists_run_of (fun s => s.returned = .ok () ∧
    (s.vol.run 1024 (findEntry smallGeometry 2 [97])).1 = .ok none ∧
    s.vol.Early 1024 (findEntry smallGeometry 2 [97]) ∧ s.ref [97] = some (11, 1)) ?_
  rintro s - ⟨returned, missing, early, ref⟩
  refine ⟨returned, missing, fun isMap => ?_⟩
  have found := isMap.search [97] early
  rw [ref] at found
  cases missing.symm.trans found

end Aegis.Ext2
