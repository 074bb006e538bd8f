import Aegis.Capability

/-! `kernel/cap/cap_policy.c`: the parser of a policy file and the lookup of the entry
for an executable. The cursor `pos` is modelled by the bytes from `pos` on. Every
iteration of a loop moves the cursor, so the number of bytes bounds the iterations. -/

namespace Aegis.CapPolicy
open Capability

abbrev Byte := UInt8

def ascii (s : String) : List Byte := s.toList.map fun c => UInt8.ofNat c.toNat

inductive CapTier
  | service
  | admin
  deriving DecidableEq

structure PolicyCap where
  kind : Nat
  rights : Rights
  tier : CapTier
  deriving DecidableEq

def capPolicyMaxCaps : Nat := 16

/-- The end of a list stands for the NUL the source writes after it. -/
def streq : List Byte → List Byte → Bool
  | [], [] => true
  | [], b :: _ => b == 0
  | a :: _, [] => a == 0
  | a :: as, b :: bs => if a ≠ 0 ∧ b ≠ 0 ∧ a = b then streq as bs else a == 0 && b == 0

def capNames : List (String × Nat) :=
  [("VFS_OPEN", capKindVfsOpen), ("VFS_WRITE", capKindVfsWrite), ("VFS_READ", capKindVfsRead),
    ("AUTH", capKindAuth), ("CAP_GRANT", capKindCapGrant), ("SETUID", capKindSetuid),
    ("NET_SOCKET", capKindNetSocket), ("NET_ADMIN", capKindNetAdmin),
    ("THREAD_CREATE", capKindThreadCreate), ("PROC_READ", capKindProcRead),
    ("DISK_ADMIN", capKindDiskAdmin), ("FB", capKindFb), ("CAP_DELEGATE", capKindCapDelegate),
    ("CAP_QUERY", capKindCapQuery), ("IPC", capKindIpc), ("POWER", capKindPower)]

def capNameToKind (name : List Byte) : Nat :=
  match capNames.find? fun entry => streq (ascii entry.1) name with
  | some entry => entry.2
  | none => capKindNull

def isBlank (b : Byte) : Bool := b == 0x20 || b == 0x09
def isEol (b : Byte) : Bool := b == 0x0A || b == 0x0D

/-- The copy loops into `tier_buf` and `cap_buf`: up to a separator, or until the
buffer holds `room` bytes. -/
def readWord : Nat → List Byte → List Byte × List Byte
  | 0, data => ([], data)
  | _ + 1, [] => ([], [])
  | room + 1, b :: data =>
    if isBlank b || isEol b then ([], b :: data)
    else (b :: (readWord room data).1, (readWord room data).2)

def tierOfWord (word : List Byte) : Option CapTier :=
  if streq word (ascii "service") then some .service
  else if streq word (ascii "admin") then some .admin
  else none

def storeCap (caps : List PolicyCap) (cap : PolicyCap) : List PolicyCap :=
  if caps.length < capPolicyMaxCaps then caps ++ [cap] else caps

def readNames (tier : CapTier) : Nat → List Byte → List PolicyCap → List Byte × List PolicyCap
  | 0, data, caps => (data, caps)
  | _ + 1, [], caps => ([], caps)
  | room + 1, b :: data, caps =>
    if isEol b then (b :: data, caps)
    else
      match (b :: data).dropWhile isBlank with
      | [] => ([], caps)
      | c :: rest =>
        if isEol c then (c :: rest, caps)
        else
          let (name, after) := readWord 31 (c :: rest)
          let kind := capNameToKind name
          if kind = capKindNull then readNames tier room after caps
          else
            readNames tier room after
              (storeCap caps ⟨kind, capRightsRead ||| capRightsWrite ||| capRightsExec, tier⟩)

def readTiers : Nat → List Byte → List PolicyCap → List PolicyCap
  | 0, _, caps => caps
  | room + 1, data, caps =>
    if data = [] ∨ capPolicyMaxCaps ≤ caps.length then caps
    else
      match data.dropWhile fun b => isBlank b || isEol b with
      | [] => caps
      | b :: rest =>
        if b = 0x23 then readTiers room ((b :: rest).dropWhile (· != 0x0A)) caps
        else
          let (word, after) := readWord 15 (b :: rest)
          match tierOfWord word with
          | none => readTiers room after caps
          | some tier =>
            let (after', caps') := readNames tier after.length after caps
            readTiers room after' caps'

def parsePolicy (data : List Byte) : List PolicyCap := readTiers data.length data []

structure PolicyEntry where
  name : List Byte
  caps : List PolicyCap

def basename (path : List Byte) : List Byte :=
  path.foldl (fun base b => if b = 0x2F then [] else base ++ [b]) []

def capPolicyLookup (policy : List PolicyEntry) (path : List Byte) : Option PolicyEntry :=
  if basename path = [] then none
  else policy.find? fun entry => streq entry.name (basename path)

example : parsePolicy (ascii "service FB IPC\n# x\nadmin POWER\n") =
    [⟨12, 7, .service⟩, ⟨15, 7, .service⟩, ⟨16, 7, .admin⟩] := by decide

end Aegis.CapPolicy
