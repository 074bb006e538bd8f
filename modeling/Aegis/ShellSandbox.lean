import Aegis.Sandbox
import Mathlib.Data.List.TakeWhile

/-! The shell's `sandbox` built-in: the allow list becomes an array of 16 mask slots on the
shell's stack, of which the kernel reads 64. What lies behind the array is an argument.
The built-in asks for all rights of every listed kind. -/

namespace Aegis.Shell

open Capability CapPolicy CapAuthority

def maskSize : Nat := 16

def capNames : List String :=
  ["NULL", "VFS_OPEN", "VFS_WRITE", "VFS_READ", "AUTH", "CAP_GRANT", "SETUID", "NET_SOCKET",
    "NET_ADMIN", "THREAD_CREATE", "PROC_READ", "DISK_ADMIN", "FB", "CAP_DELEGATE", "CAP_QUERY",
    "IPC", "POWER"]

def capNameToKind (name : List Byte) : Option Nat :=
  (List.range' 1 16).find? fun i => ascii (capNames.getD i "") = name

def allRights : Rights := capRightsRead ||| capRightsWrite ||| capRightsExec

def comma : Byte := 0x2C

/-- The loop over the allow list, with `room` slots of the mask left; an unknown name ends
the built-in. -/
def readAllow : Nat → List Byte → Except (List Byte) (List CapSlot)
  | 0, _ => .ok []
  | room + 1, text =>
    if text = [] then .ok []
    else
      match capNameToKind (text.takeWhile (· ≠ comma)) with
      | none => .error (text.takeWhile (· ≠ comma))
      | some kind =>
        match text.dropWhile (· ≠ comma) with
        | [] => .ok [⟨kind, allRights⟩]
        | _ :: rest => (readAllow room rest).map fun slots => ⟨kind, allRights⟩ :: slots

def nullSlot : CapSlot := ⟨capKindNull, 0⟩

/-- What `copy_from_user` reads: the mask, zeroed behind its entries, and the stack. -/
def kernelMask (slots : List CapSlot) (beyond : Vector CapSlot (capTableSize - maskSize)) :
    CapTable where
  slots := (slots ++ List.replicate maskSize nullSlot).take maskSize ++ beyond.toList
  size := by
    rw [List.length_append, List.length_take, List.length_append, List.length_replicate,
      Vector.length_toList]
    simp only [maskSize, capTableSize]
    omega

def commandPath (cmd : List Byte) : List Byte :=
  if cmd.head? = some 0x2F then cmd.take 255 else (ascii "/bin/" ++ cmd).take 255

inductive SandboxError where
  | noDelegate
  | usage
  | noCommand
  | unknownCap (name : List Byte)
  | spawnFailed (errno : Nat)

variable (policy : List PolicyEntry)

def sandboxBuiltin (shell : CapProc) (hasDelegate : Bool) (argv : List (List Byte))
    (beyond : Vector CapSlot (capTableSize - maskSize)) : Except SandboxError CapProc :=
  if !hasDelegate then .error .noDelegate
  else if argv.length < 4 ∨ argv[1]? ≠ some (ascii "-allow") then .error .usage
  else
    match (argv.drop 3).dropWhile (· ≠ ascii "--") with
    | _ :: cmd :: _ =>
      match readAllow maskSize ((argv.getD 2 []).take 255) with
      | .error name => .error (.unknownCap name)
      | .ok slots =>
        match sysSpawn policy shell (commandPath cmd) (some (kernelMask slots beyond)) with
        | .error errno => .error (.spawnFailed errno)
        | .ok child => .ok child
    | _ => .error .noCommand

abbrev CapName := Fin 16

instance names_ne_zero : NeZero 16 := ⟨by decide⟩

def CapName.kind (name : CapName) : Nat := name.val + 1

def CapName.text (name : CapName) : List Byte := ascii (capNames.getD name.kind "")

def allowText : List CapName → List Byte
  | [] => []
  | [name] => name.text
  | name :: names => name.text ++ comma :: allowText names

def commandLine (allow : List CapName) (cmd : List Byte) (args : List (List Byte)) :
    List (List Byte) :=
  [ascii "sandbox", ascii "-allow", allowText allow, ascii "--", cmd] ++ args

def CapName.slot (name : CapName) : CapSlot := ⟨name.kind, allRights⟩

theorem text_no_comma : ∀ name : CapName, ∀ b ∈ name.text, b ≠ comma := by
  decide +kernel

theorem text_length : ∀ name : CapName, 0 < name.text.length ∧ name.text.length ≤ 13 := by
  decide +kernel

theorem capNameToKind_text : ∀ name : CapName, capNameToKind name.text = some name.kind := by
  decide +kernel

theorem takeWhile_text (name : CapName) (rest : List Byte) :
    (name.text ++ comma :: rest).takeWhile (· ≠ comma) = name.text := by
  rw [List.takeWhile_append_of_pos (by simpa using text_no_comma name)]
  simp

theorem dropWhile_text (name : CapName) (rest : List Byte) :
    (name.text ++ comma :: rest).dropWhile (· ≠ comma) = comma :: rest := by
  rw [List.dropWhile_append_of_pos (by simpa using text_no_comma name)]
  simp

theorem readAllow_cons (room : Nat) (name : CapName) (rest : List Byte) :
    readAllow (room + 1) (name.text ++ comma :: rest) =
      (readAllow room rest).map (name.slot :: ·) := by
  have hn : name.text ++ comma :: rest ≠ [] := by simp
  rw [readAllow, if_neg hn, takeWhile_text, dropWhile_text, capNameToKind_text]
  rfl

theorem readAllow_last (room : Nat) (name : CapName) :
    readAllow (room + 1) name.text = .ok [name.slot] := by
  have hn : name.text ≠ [] := List.ne_nil_of_length_pos (text_length name).1
  have all : ∀ b ∈ name.text, decide (b ≠ comma) = true := by simpa using text_no_comma name
  rw [readAllow, if_neg hn, List.takeWhile_eq_self_iff.mpr all,
    List.dropWhile_eq_nil_iff.mpr all, capNameToKind_text]
  rfl

theorem allowText_cons {name : CapName} {names : List CapName} (more : names ≠ []) :
    allowText (name :: names) = name.text ++ comma :: allowText names := by
  cases names with
  | nil => exact absurd rfl more
  | cons h2 names => rfl

theorem allowText_append {h1 rest : List CapName} (some_ : h1 ≠ []) (more : rest ≠ []) :
    allowText (h1 ++ rest) = allowText h1 ++ comma :: allowText rest := by
  induction h1 with
  | nil => exact absurd rfl some_
  | cons name names ih =>
    by_cases last : names = []
    · rw [last, List.cons_append, List.nil_append, allowText_cons more]
      rfl
    · rw [List.cons_append, allowText_cons (by simp [last]), ih last, allowText_cons last]
      simp

theorem allowText_length (allow : List CapName) : (allowText allow).length ≤ 14 * allow.length := by
  induction allow with
  | nil => exact Nat.zero_le 0
  | cons name names ih =>
    have hs := (text_length name).2
    by_cases last : names = []
    · rw [last]
      simp only [allowText, List.length_cons, List.length_nil]
      omega
    · rw [allowText_cons last]
      simp only [List.length_append, List.length_cons]
      omega

open CapName

theorem readAllow_fits {room : Nat} {allow : List CapName} (fits : allow.length ≤ room) :
    readAllow room (allowText allow) = .ok (allow.map slot) := by
  induction allow generalizing room with
  | nil => cases room <;> rfl
  | cons name names ih =>
    obtain ⟨left, rfl⟩ : ∃ left, room = left + 1 := ⟨room - 1, by simp at fits; omega⟩
    by_cases last : names = []
    · rw [last]
      exact readAllow_last left name
    · rw [allowText_cons last, readAllow_cons, ih (by simpa using fits)]
      rfl

theorem readAllow_full {allow : List CapName} (some_ : allow ≠ []) (junk : List Byte) :
    readAllow allow.length (allowText allow ++ comma :: junk) = .ok (allow.map slot) := by
  induction allow with
  | nil => exact absurd rfl some_
  | cons name names ih =>
    by_cases last : names = []
    · rw [last]
      exact readAllow_cons 0 name junk
    rw [allowText_cons last, List.append_assoc, List.cons_append, List.length_cons,
      readAllow_cons, ih last]
    rfl

theorem readAllow_cut {h1 rest : List CapName} (size : h1.length = maskSize) (more : rest ≠ []) :
    readAllow maskSize ((allowText (h1 ++ rest)).take 255) = .ok (h1.map slot) := by
  have some_ : h1 ≠ [] := List.ne_nil_of_length_pos (by rw [size]; decide)
  have hs : (allowText h1).length ≤ 224 := (allowText_length h1).trans (by rw [size]; decide)
  have cut : (allowText (h1 ++ rest)).take 255 =
      allowText h1 ++ comma :: (allowText rest).take (254 - (allowText h1).length) := by
    have left : 255 - (allowText h1).length = 254 - (allowText h1).length + 1 := by omega
    rw [allowText_append some_ more, List.take_append, List.take_of_length_le (by omega), left,
      List.take_succ_cons]
  have full := readAllow_full some_ ((allowText rest).take (254 - (allowText h1).length))
  rwa [size, ← cut] at full

theorem readAllow_allowText (allow : List CapName) :
    readAllow maskSize ((allowText allow).take 255) = .ok ((allow.take maskSize).map slot) := by
  by_cases fits : allow.length ≤ maskSize
  · have hs : (allowText allow).length ≤ 255 :=
      (allowText_length allow).trans (by simp only [maskSize] at fits; omega)
    rw [List.take_of_length_le fits, List.take_of_length_le hs]
    exact readAllow_fits fits
  · have cut := @readAllow_cut (allow.take maskSize) (allow.drop maskSize)
      (by rw [List.length_take]; omega) (List.ne_nil_of_length_pos (by simp; omega))
    rwa [List.take_append_drop] at cut

def HoldsKind (table : CapTable) (kind : Nat) : Prop :=
  ∃ slot ∈ table.slots, slot.kind = kind
  deriving Decidable

section Mask
variable {parent computed child result : CapTable} {mask : List CapSlot} {kind : Nat}

def Acceptable (parent : CapTable) (slot : CapSlot) : Prop :=
  slot.kind ≠ capKindNull →
    slot.kind < capTableSize ∧ capCheck parent slot.kind slot.rights = true

theorem applyMask_ok_iff : (∃ result, applyMask parent computed mask child = .ok result) ↔
    ∀ slot ∈ mask, Acceptable parent slot := by
  induction mask generalizing child with
  | nil => simp [applyMask]
  | cons slot mask ih =>
    rw [List.forall_mem_cons, applyMask]
    by_cases ha : Acceptable parent slot
    · rw [and_iff_right ha]
      split_ifs with empty unknown denied granted
      · exact ih
      · exact absurd (ha empty).1 (not_lt.mpr unknown)
      · simp [(ha empty).2] at denied
      · exact ih
      · exact ih
    · refine iff_of_false (fun ends => ha fun known => ?_) fun both => ha both.1
      obtain ⟨result, ends⟩ := ends
      rw [if_neg known] at ends
      split_ifs at ends with unknown denied
      all_goals exact ⟨Nat.lt_of_not_le unknown, by simpa using denied⟩

theorem holdsKind_capGrant {rights : Rights} {g : Nat} (room : 0 < vacancies child.slots)
    (hk : kind ≠ capKindNull) :
    HoldsKind (capGrant child g rights) kind ↔ HoldsKind child kind ∨ g = kind := by
  constructor
  · intro hh
    obtain ⟨slot, mem, rfl⟩ := hh
    rcases mem_grantSlots mem with rfl | old
    · exact .inr rfl
    · exact .inl ⟨slot, old, rfl⟩
  · intro hh
    rcases hh with ⟨slot, mem, rfl⟩ | rfl
    · exact ⟨slot, mem_grantSlots_of_mem mem hk, rfl⟩
    · exact ⟨⟨g, rights⟩, mem_grantSlots_of_vacancy room, rfl⟩

/-- With room for every slot of the mask, the child gets the kinds of the slots that the
computed table covers. -/
theorem applyMask_kinds (hm : applyMask parent computed mask child = .ok result)
    (room : mask.length ≤ vacancies child.slots) (hk : kind ≠ capKindNull) :
    HoldsKind result kind ↔ HoldsKind child kind ∨
      ∃ slot ∈ mask, slot.kind = kind ∧ capCheck computed slot.kind slot.rights = true := by
  induction mask generalizing child with
  | nil =>
    obtain rfl := Except.ok.inj hm
    simp
  | cons slot mask ih =>
    rw [List.length_cons] at room
    rw [applyMask] at hm
    split_ifs at hm with empty unknown denied granted
    · rw [ih hm (by omega)]
      have other : slot.kind ≠ kind := fun eq => hk (eq ▸ empty)
      simp [other]
    · have left := @vacancies_grantSlots slot child.slots
      rw [ih hm (by show _ ≤ vacancies (grantSlots slot child.slots); omega),
        holdsKind_capGrant (by omega) hk]
      simp [granted, or_assoc]
    · rw [ih hm (by omega)]
      simp [granted]

end Mask

variable {policy} {shell : CapProc} {hasDelegate : Bool} {allow : List CapName}
  {cmd : List Byte} {args : List (List Byte)} {beyond : Vector CapSlot (capTableSize - maskSize)}

theorem sandboxBuiltin_ok_iff {child : CapProc} :
    sandboxBuiltin policy shell hasDelegate (commandLine allow cmd args) beyond = .ok child ↔
      hasDelegate = true ∧ sysSpawn policy shell (commandPath cmd)
        (some (kernelMask ((allow.take maskSize).map slot) beyond)) = .ok child := by
  have usage : ¬ ((commandLine allow cmd args).length < 4 ∨
      (commandLine allow cmd args)[1]? ≠ some (ascii "-allow")) := by
    simp [commandLine]
  have rest : ((commandLine allow cmd args).drop 3).dropWhile (· ≠ ascii "--") =
      ascii "--" :: cmd :: args := by
    simp [commandLine]
  have list : (commandLine allow cmd args).getD 2 [] = allowText allow := rfl
  rw [sandboxBuiltin, if_neg usage, rest, list, readAllow_allowText]
  cases hasDelegate with
  | false => simp
  | true =>
    simp only [Bool.not_true, Bool.false_eq_true, if_false, true_and]
    generalize sysSpawn policy shell (commandPath cmd)
      (some (kernelMask ((allow.take maskSize).map slot) beyond)) = result
    cases result <;> simp

theorem sysSpawn_masked_iff {mask : CapTable} {path : List Byte} {Q : CapTable → Prop} :
    (∃ child, sysSpawn policy shell path (some mask) = .ok child ∧ Q child.caps) ↔
      capCheck shell.caps capKindCapDelegate capRightsRead = true ∧
        ∃ caps, applyMask shell.caps (execCaps policy path shell.authenticated) mask.slots
          emptyCaps = .ok caps ∧ Q caps := by
  cases delegate : capCheck shell.caps capKindCapDelegate capRightsRead with
  | false => simp [sysSpawn, delegate, bind, Except.bind]
  | true =>
    cases hm : applyMask shell.caps (execCaps policy path shell.authenticated) mask.slots
      emptyCaps with
    | error errno => simp [sysSpawn, delegate, hm, bind, Except.bind]
    | ok caps => simp [sysSpawn, delegate, hm, bind, Except.bind, pure, Except.pure]

theorem mem_kernelMask {slots : List CapSlot} {slot : CapSlot} (fits : slots.length ≤ maskSize)
    (hk : slot.kind ≠ capKindNull) :
    slot ∈ (kernelMask slots beyond).slots ↔ slot ∈ slots ∨ slot ∈ beyond.toList := by
  have other : slot ≠ nullSlot := fun eq => hk (by rw [eq]; rfl)
  rw [kernelMask, List.mem_append, List.take_append, List.take_of_length_le fits, List.mem_append]
  simp [other]

theorem holdsKind_of_check {table : CapTable} {kind : Nat} {rights : Rights}
    (check : capCheck table kind rights = true) : HoldsKind table kind := by
  obtain ⟨slot, mem, eq, -⟩ := capCheck_iff.mp check
  exact ⟨slot, mem, eq⟩

theorem emptyCaps_holdsKind {kind : Nat} (hk : kind ≠ capKindNull) :
    ¬ HoldsKind emptyCaps kind := by
  intro hh
  obtain ⟨slot, mem, rfl⟩ := hh
  exact hk (emptyCaps_kind mem)

variable (policy shell hasDelegate allow cmd args beyond)

def computedCaps : CapTable :=
  execCaps policy (commandPath cmd) shell.authenticated

/-- The kinds of the table are the listed ones among those the command would have had. -/
def Narrowed (caps : CapTable) : Prop :=
  ∀ kind, kind ≠ capKindNull → (HoldsKind caps kind ↔
    HoldsKind (computedCaps policy shell cmd) kind ∧ kind ∈ allow.map CapName.kind)

def Works : Prop :=
  ∃ child, sandboxBuiltin policy shell hasDelegate (commandLine allow cmd args) beyond =
    .ok child ∧ Narrowed policy shell allow cmd child.caps

/-- What the built-in needs: the right to delegate, full rights for the names that enter the
mask, stack contents that pass for slots of its own mask, and full rights in the computed
table for every listed kind of it. -/
structure Fits : Prop where
  cached : hasDelegate = true
  delegate : capCheck shell.caps capKindCapDelegate capRightsRead = true
  rights : ∀ name ∈ allow.take maskSize, capCheck shell.caps name.kind allRights = true
  stack : ∀ slot ∈ beyond.toList, Acceptable shell.caps slot
  confined : ∀ slot ∈ beyond.toList, slot.kind ≠ capKindNull →
    capCheck (computedCaps policy shell cmd) slot.kind slot.rights = true →
      slot.kind ∈ allow.map CapName.kind
  kept : ∀ name ∈ allow, HoldsKind (computedCaps policy shell cmd) name.kind →
    (name ∈ allow.take maskSize ∧
        capCheck (computedCaps policy shell cmd) name.kind allRights = true) ∨
      ∃ slot ∈ beyond.toList, slot.kind = name.kind ∧
        capCheck (computedCaps policy shell cmd) slot.kind slot.rights = true

variable {policy shell hasDelegate allow cmd args beyond}

def Passed (policy : List PolicyEntry) (shell : CapProc) (allow : List CapName) (cmd : List Byte)
    (beyond : Vector CapSlot (capTableSize - maskSize)) (kind : Nat) : Prop :=
  (∃ name ∈ allow.take maskSize, name.kind = kind ∧
      capCheck (computedCaps policy shell cmd) name.kind allRights = true) ∨
    ∃ slot ∈ beyond.toList, slot.kind = kind ∧
      capCheck (computedCaps policy shell cmd) slot.kind slot.rights = true

theorem kind_known (name : CapName) : name.kind ≠ capKindNull := Nat.succ_ne_zero _

theorem kind_small (name : CapName) : name.kind < capTableSize := by
  have hb := name.isLt
  simp only [kind, capTableSize]
  omega

theorem maskSlots_length : ((allow.take maskSize).map slot).length ≤ maskSize := by
  rw [List.length_map, List.length_take]
  exact min_le_left ..

theorem mask_acceptable_iff :
    (∀ slot ∈ (kernelMask ((allow.take maskSize).map CapName.slot) beyond).slots,
      Acceptable shell.caps slot) ↔
    (∀ name ∈ allow.take maskSize, capCheck shell.caps name.kind allRights = true) ∧
      ∀ slot ∈ beyond.toList, Acceptable shell.caps slot := by
  constructor
  · intro all
    refine ⟨fun name mem => ?_, fun slot mem hk => ?_⟩
    · have entry : name.slot ∈ (allow.take maskSize).map CapName.slot := List.mem_map_of_mem mem
      exact (all name.slot ((mem_kernelMask maskSlots_length (kind_known name)).mpr (.inl entry))
        (kind_known name)).2
    · exact all slot ((mem_kernelMask maskSlots_length hk).mpr (.inr mem)) hk
  · intro all slot mem hk
    rcases (mem_kernelMask maskSlots_length hk).mp mem with entry | hs
    · obtain ⟨name, hl, rfl⟩ := List.mem_map.mp entry
      exact ⟨kind_small name, all.1 name hl⟩
    · exact all.2 slot hs hk

theorem mask_kinds {caps : CapTable} {kind : Nat} (hk : kind ≠ capKindNull)
    (hm : applyMask shell.caps (computedCaps policy shell cmd)
      (kernelMask ((allow.take maskSize).map slot) beyond).slots emptyCaps = .ok caps) :
    HoldsKind caps kind ↔ Passed policy shell allow cmd beyond kind := by
  have room : (kernelMask ((allow.take maskSize).map slot) beyond).slots.length ≤
      vacancies emptyCaps.slots := by
    rw [CapTable.size]
    decide
  rw [applyMask_kinds hm room hk, or_iff_right (emptyCaps_holdsKind hk)]
  constructor
  · intro ht
    obtain ⟨slot, mem, rfl, check⟩ := ht
    rcases (mem_kernelMask maskSlots_length hk).mp mem with entry | hs
    · obtain ⟨name, hl, rfl⟩ := List.mem_map.mp entry
      exact .inl ⟨name, hl, rfl, check⟩
    · exact .inr ⟨slot, hs, rfl, check⟩
  · intro hp
    rcases hp with ⟨name, hl, rfl, check⟩ | ⟨slot, hs, rfl, check⟩
    · exact ⟨name.slot, (mem_kernelMask maskSlots_length hk).mpr
        (.inl (List.mem_map_of_mem hl)), rfl, check⟩
    · exact ⟨slot, (mem_kernelMask maskSlots_length hk).mpr (.inr hs), rfl, check⟩

theorem works_iff_passed : Works policy shell hasDelegate allow cmd args beyond ↔
    hasDelegate = true ∧ capCheck shell.caps capKindCapDelegate capRightsRead = true ∧
      ((∀ name ∈ allow.take maskSize, capCheck shell.caps name.kind allRights = true) ∧
        ∀ slot ∈ beyond.toList, Acceptable shell.caps slot) ∧
      ∀ kind, kind ≠ capKindNull → (Passed policy shell allow cmd beyond kind ↔
        HoldsKind (computedCaps policy shell cmd) kind ∧ kind ∈ allow.map CapName.kind) := by
  simp only [Works, sandboxBuiltin_ok_iff, and_assoc, exists_and_left]
  rw [sysSpawn_masked_iff, ← and_assoc (b := ∀ slot ∈ beyond.toList, _), ← mask_acceptable_iff]
  refine and_congr_right fun _ => and_congr_right fun _ => ⟨fun hm => ?_, fun both => ?_⟩
  · obtain ⟨caps, hm, hn⟩ := hm
    refine ⟨applyMask_ok_iff.mp ⟨caps, hm⟩, fun kind hk => ?_⟩
    rw [← mask_kinds hk hm, hn kind hk]
  · obtain ⟨caps, hm⟩ := applyMask_ok_iff.mpr both.1
    refine ⟨caps, hm, fun kind hk => ?_⟩
    rw [mask_kinds hk hm, both.2 kind hk]

theorem sandbox_builtin_iff : Works policy shell hasDelegate allow cmd args beyond ↔
    Fits policy shell hasDelegate allow cmd beyond := by
  rw [works_iff_passed]
  constructor
  · intro works
    obtain ⟨cached, delegate, ⟨rights, stack⟩, kinds⟩ := works
    refine ⟨cached, delegate, rights, stack, fun slot member known check => ?_,
      fun name listed holds => ?_⟩
    · exact ((kinds slot.kind known).mp (.inr ⟨slot, member, rfl, check⟩)).2
    have passed := (kinds name.kind (kind_known name)).mpr ⟨holds, List.mem_map_of_mem listed⟩
    refine passed.imp_left fun entry => ?_
    obtain ⟨other, inMask, same, check⟩ := entry
    have eq : other = name := Fin.ext (Nat.succ_injective same)
    exact ⟨eq ▸ inMask, eq ▸ check⟩
  · intro fits
    refine ⟨fits.cached, fits.delegate, ⟨fits.rights, fits.stack⟩, fun kind known => ⟨?_, ?_⟩⟩
    · intro passed
      rcases passed with ⟨name, inMask, rfl, check⟩ | ⟨slot, stray, rfl, check⟩
      · exact ⟨holdsKind_of_check check, List.mem_map_of_mem (List.mem_of_mem_take inMask)⟩
      · exact ⟨holdsKind_of_check check, fits.confined slot stray known check⟩
    · intro both
      obtain ⟨name, listed, rfl⟩ := List.mem_map.mp both.2
      exact (fits.kept name listed both.1).imp_left fun entry => ⟨name, entry.1, rfl, entry.2⟩

def openingShell (rights : Rights) : CapProc :=
  ⟨grantAll emptyCaps [⟨capKindCapDelegate, allRights⟩, ⟨capKindVfsOpen, rights⟩], false,
    ⟨none, []⟩⟩

def emptyStack : Vector CapSlot (capTableSize - maskSize) := Vector.replicate _ nullSlot

def textStack : Vector CapSlot (capTableSize - maskSize) :=
  emptyStack.set 0 ⟨0x5F534656, 0x4E45504F⟩ (by decide)

def sandboxLs (rights : Rights) (beyond : Vector CapSlot (capTableSize - maskSize)) :
    Except SandboxError CapProc :=
  sandboxBuiltin [] (openingShell rights) true (commandLine [0] (ascii "ls") []) beyond

/-- `sandbox -allow VFS_OPEN -- ls` in three shells: one that holds VFS_OPEN for reading, one
with other data behind the mask, and one where the command then lacks VFS_OPEN. -/
theorem sandbox_allow_fails : (HoldsKind (openingShell capRightsRead).caps (CapName.kind 0) ∧
        sandboxLs capRightsRead emptyStack = .error (.spawnFailed 130)) ∧
      (HoldsKind (openingShell allRights).caps (CapName.kind 0) ∧
        sandboxLs allRights textStack = .error (.spawnFailed 22)) ∧
      ∃ child, sandboxLs allRights emptyStack = .ok child ∧
        ¬ HoldsKind child.caps (CapName.kind 0) ∧
        HoldsKind (computedCaps [] (openingShell allRights) (ascii "ls")) (CapName.kind 0) := by
  refine ⟨⟨by decide +kernel, rfl⟩, ⟨by decide +kernel, rfl⟩,
    ⟨emptyCaps, false, ⟨some (ascii "/bin/ls", false), []⟩⟩, rfl, ?_, ?_⟩
  · decide +kernel
  · decide +kernel

end Aegis.Shell
