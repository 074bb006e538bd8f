import Aegis.LabelledRun
import Aegis.CapPolicy

/-! Every operation that writes a capability table or the `authenticated` flag, as
steps of a system of processes, and where the authority of a process comes from.
`lineage` is a history variable: no operation reads it. It follows the table, so
fork copies it and exec starts a new one. -/

namespace Aegis.CapAuthority
open Capability CapPolicy LabelledRun List Option

/-- A capability put into the table by `sys_cap_grant_runtime`, with the table its
caller had at that moment. -/
structure GrantRecord where
  kind : Nat
  rights : Rights
  caller : CapTable

/-- `exec` is the path last exec'd and the flag at that exec; `none` is init's table
from boot. -/
structure Lineage where
  exec : Option (List Byte × Bool)
  grants : List GrantRecord

structure CapProc where
  caps : CapTable
  authenticated : Bool
  lineage : Lineage

def grantAll (table : CapTable) (pairs : List CapSlot) : CapTable :=
  pairs.foldl (fun t pair => capGrant t pair.kind pair.rights) table

def execBaseline : List CapSlot :=
  [⟨capKindVfsOpen, capRightsRead⟩, ⟨capKindVfsWrite, capRightsWrite⟩,
    ⟨capKindVfsRead, capRightsRead⟩, ⟨capKindIpc, capRightsRead⟩,
    ⟨capKindProcRead, capRightsRead⟩, ⟨capKindThreadCreate, capRightsRead⟩]

def initGrants : List CapSlot :=
  [⟨capKindVfsOpen, capRightsRead⟩, ⟨capKindVfsWrite, capRightsWrite⟩,
    ⟨capKindVfsRead, capRightsRead⟩, ⟨capKindIpc, capRightsRead⟩,
    ⟨capKindProcRead, capRightsRead ||| capRightsWrite⟩, ⟨capKindThreadCreate, capRightsRead⟩,
    ⟨capKindPower, capRightsRead⟩]

def initProc : CapProc := ⟨grantAll emptyCaps initGrants, false, ⟨none, []⟩⟩

def policyPairs (authenticated : Bool) (entry : PolicyEntry) : List CapSlot :=
  (entry.caps.filter fun cap => cap.tier = .service ∨ (cap.tier = .admin ∧ authenticated)).map
    fun cap => ⟨cap.kind, cap.rights⟩

variable (policy : List PolicyEntry)

/-- The reset, the baseline and the policy grants of `sys_execve` and `sys_spawn`. -/
def execCaps (path : List Byte) (authenticated : Bool) : CapTable :=
  grantAll (grantAll emptyCaps execBaseline)
    (match capPolicyLookup policy path with
      | none => []
      | some entry => policyPairs authenticated entry)

def sysExecve (p : CapProc) (path : List Byte) : CapProc :=
  { p with
    caps := execCaps policy path p.authenticated
    lineage := ⟨some (path, p.authenticated), []⟩ }

def applyMask (parent computed : CapTable) : List CapSlot → CapTable → Except Nat CapTable
  | [], child => .ok child
  | slot :: mask, child =>
    if slot.kind = capKindNull then applyMask parent computed mask child
    else if capTableSize ≤ slot.kind then .error 22
    else if !capCheck parent slot.kind slot.rights then .error 130
    else if capCheck computed slot.kind slot.rights then
      applyMask parent computed mask (capGrant child slot.kind slot.rights)
    else applyMask parent computed mask child

/-- The child's capabilities; `mask` is what `copy_from_user` reads, if a mask is given. -/
def sysSpawn (parent : CapProc) (path : List Byte) (mask : Option CapTable) :
    Except Nat CapProc := do
  let computed := execCaps policy path parent.authenticated
  let caps ←
    match mask with
    | none => .ok computed
    | some mask =>
      if !capCheck parent.caps capKindCapDelegate capRightsRead then .error 130
      else applyMask parent.caps computed mask.slots emptyCaps
  return ⟨caps, parent.authenticated, ⟨some (path, parent.authenticated), []⟩⟩

def sysCapGrantRuntime (caller target : CapProc) (kind : Nat) (rights : Rights) :
    Except Nat CapProc :=
  if !capCheck caller.caps capKindCapDelegate capRightsRead then .error 130
  else if kind = capKindNull ∨ capTableSize ≤ kind then .error 22
  else if !capCheck caller.caps kind rights then .error 130
  else if capGrantResult target.caps < 0 then .error 28
  else
    .ok
      { target with
        caps := capGrant target.caps kind rights
        lineage :=
          { target.lineage with grants := ⟨kind, rights, caller.caps⟩ :: target.lineage.grants } }

def sysAuthSession (p : CapProc) : Except Nat CapProc :=
  if !capCheck p.caps capKindAuth capRightsRead then .error 130
  else .ok { p with authenticated := true }

inductive CapCall
  | fork (i : Nat)
  | clone (i : Nat)
  | execve (i : Nat) (path : List Byte)
  | spawn (i : Nat) (path : List Byte) (mask : Option CapTable)
  | grantRuntime (i j : Nat) (kind : Nat) (rights : Rights)
  | authSession (i : Nat)

/-- A call that fails leaves every table as it is. -/
def capStep (s : List CapProc) : CapCall → Option (List CapProc)
  | .fork i => s[i]?.map fun p => s ++ [p]
  | .clone i => s[i]?.map fun p =>
      if capCheck p.caps capKindThreadCreate capRightsRead then s ++ [p] else s
  | .execve i path => s[i]?.map fun p => s.set i (sysExecve policy p path)
  | .spawn i path mask => s[i]?.map fun p =>
      match sysSpawn policy p path mask with
      | .ok child => s ++ [child]
      | .error _ => s
  | .grantRuntime i j kind rights => do
      let caller ← s[i]?
      let target ← s[j]?
      match sysCapGrantRuntime caller target kind rights with
      | .ok target' => return s.set j target'
      | .error _ => return s
  | .authSession i => s[i]?.map fun p =>
      match sysAuthSession p with
      | .ok p' => s.set i p'
      | .error _ => s

inductive StepOrigin (s : List CapProc) (a : CapCall) (j : Nat) (q : CapProc) : Prop
  | same : s[j]? = some q → StepOrigin s a j q
  | copied (i : Nat) : s[i]? = some q → j = s.length → (a = .fork i ∨ a = .clone i) →
      StepOrigin s a j q
  | execd (p : CapProc) (path : List Byte) : s[j]? = some p → a = .execve j path →
      q = sysExecve policy p path → StepOrigin s a j q
  | spawned (i : Nat) (p : CapProc) (path : List Byte) (mask : Option CapTable) :
      s[i]? = some p → j = s.length → a = .spawn i path mask →
      sysSpawn policy p path mask = .ok q → StepOrigin s a j q
  | granted (i : Nat) (caller target : CapProc) (kind : Nat) (rights : Rights) :
      s[i]? = some caller → s[j]? = some target → a = .grantRuntime i j kind rights →
      sysCapGrantRuntime caller target kind rights = .ok q → StepOrigin s a j q
  | authenticated (p : CapProc) : s[j]? = some p → a = .authSession j →
      sysAuthSession p = .ok q → StepOrigin s a j q

variable {policy} {s s' : List CapProc} {a : CapCall} {j : Nat} {q : CapProc}

theorem append_origin {child : CapProc} (hf : (s ++ [child])[j]? = some q) :
    s[j]? = some q ∨ (j = s.length ∧ q = child) := by
  rw [getElem?_append] at hf
  split_ifs at hf with old
  · exact .inl hf
  have last : j - s.length = 0 := by
    by_contra beyond
    rw [getElem?_eq_none (by simp; omega)] at hf
    simp at hf
  rw [last] at hf
  exact .inr ⟨by omega, (some.inj hf).symm⟩

theorem set_origin {i : Nat} {p' : CapProc}
    (hf : (s.set i p')[j]? = some q) : s[j]? = some q ∨ (j = i ∧ q = p') := by
  rw [getElem?_set] at hf
  split_ifs at hf with here inside
  · exact .inr ⟨here.symm, (some.inj hf).symm⟩
  · exact .inl hf

theorem capStep_origin (step : capStep policy s a = some s') (hf : s'[j]? = some q) :
    StepOrigin policy s a j q := by
  cases a with
  | fork i =>
    obtain ⟨p, ht, rfl⟩ := map_eq_some_iff.mp step
    rcases append_origin hf with old | ⟨new, rfl⟩
    · exact .same old
    · exact .copied i ht new (.inl rfl)
  | clone i =>
    obtain ⟨p, ht, rfl⟩ := map_eq_some_iff.mp step
    split_ifs at hf
    · rcases append_origin hf with old | ⟨new, rfl⟩
      · exact .same old
      · exact .copied i ht new (.inr rfl)
    · exact .same hf
  | execve i path =>
    obtain ⟨p, ht, rfl⟩ := map_eq_some_iff.mp step
    rcases set_origin hf with old | ⟨rfl, rfl⟩
    · exact .same old
    · exact .execd p path ht rfl rfl
  | spawn i path mask =>
    obtain ⟨p, ht, rfl⟩ := map_eq_some_iff.mp step
    split at hf
    · rename_i child hs
      rcases append_origin hf with old | ⟨new, rfl⟩
      · exact .same old
      · exact .spawned i p path mask ht new rfl hs
    · exact .same hf
  | grantRuntime i k kind rights =>
    obtain ⟨caller, hc, rest⟩ := bind_eq_some_iff.mp step
    obtain ⟨target, hr, rest⟩ := bind_eq_some_iff.mp rest
    split at rest
    · rename_i target' hg
      cases rest
      rcases set_origin hf with old | ⟨rfl, rfl⟩
      · exact .same old
      · exact .granted i caller target kind rights hc hr rfl hg
    · cases rest
      exact .same hf
  | authSession i =>
    obtain ⟨p, ht, rfl⟩ := map_eq_some_iff.mp step
    split at hf
    · rename_i p' hm
      rcases set_origin hf with old | ⟨rfl, rfl⟩
      · exact .same old
      · exact .authenticated p ht rfl hm
    · exact .same hf

def Covered (pairs : List CapSlot) (kind : Nat) (rights : Rights) : Prop :=
  ∃ pair ∈ pairs, pair.kind = kind ∧ pair.rights &&& rights = rights
  deriving Decidable

variable (policy)

/-- A single pair of the policy entry for the exec'd path covers the capability. -/
def PolicyCovered (path : List Byte) (authenticated : Bool) (kind : Nat) (rights : Rights) : Prop :=
  ∃ entry, capPolicyLookup policy path = some entry ∧
    ∃ cap ∈ entry.caps, cap.kind = kind ∧ cap.rights &&& rights = rights ∧
      (cap.tier = .admin → authenticated = true)

/-- The capability was granted at run time by a caller that held it and CAP_DELEGATE. -/
def Delegated (grants : List GrantRecord) (kind : Nat) (rights : Rights) : Prop :=
  ∃ g ∈ grants, g.kind = kind ∧ g.rights &&& rights = rights ∧
    capCheck g.caller capKindCapDelegate capRightsRead = true ∧
    capCheck g.caller kind rights = true

def Authorized (p : CapProc) (kind : Nat) (rights : Rights) : Prop :=
  (p.lineage.exec = none ∧ Covered initGrants kind rights) ∨
    (∃ path authenticated, p.lineage.exec = some (path, authenticated) ∧
      (Covered execBaseline kind rights ∨ PolicyCovered policy path authenticated kind rights)) ∨
    Delegated p.lineage.grants kind rights

/-- In the run of the calls from `u` on, the table of a process goes back, by `fork` and `clone`,
to that of process `k` in `u`. -/
inductive CopyOf (u : List CapProc) (k : Nat) : List CapCall → List CapProc → Nat → Prop
  | self : CopyOf u k [] u k
  | later {calls : List CapCall} {s s' : List CapProc} {j : Nat} {a : CapCall} :
      CopyOf u k calls s j → capStep policy s a = some s' → CopyOf u k (calls ++ [a]) s' j
  | copy {calls : List CapCall} {s s' : List CapProc} {j : Nat} {a : CapCall} :
      CopyOf u k calls s j → capStep policy s a = some s' → (a = .fork j ∨ a = .clone j) →
      CopyOf u k (calls ++ [a]) s' s.length

/-- One of the calls that led to `s` did this to process `j` or to the one it is a copy of. -/
def Happened (labels : List CapCall) (s : List CapProc) (j : Nat)
    (did : List CapProc → CapCall → Nat → Prop) : Prop :=
  ∃ before a after t u k, labels = before ++ a :: after ∧ Run (capStep policy) [initProc] before t ∧
    capStep policy t a = some u ∧ did t a k ∧ CopyOf policy u k after s j

/-- Process `k` execs the path, or is spawned with it, and the flag had the value. -/
def Execs (path : List Byte) (authenticated : Bool) (t : List CapProc) (a : CapCall) (k : Nat) :
    Prop :=
  ∃ i p, t[i]? = some p ∧ p.authenticated = authenticated ∧
    (a = .execve i path ∧ k = i ∨ (∃ mask, a = .spawn i path mask) ∧ k = t.length)

/-- Process `k` is the target of the grant. -/
def Grants (g : GrantRecord) (t : List CapProc) (a : CapCall) (k : Nat) : Prop :=
  ∃ i p, a = .grantRuntime i k g.kind g.rights ∧ t[i]? = some p ∧ p.caps = g.caller

structure LineageTrue (labels : List CapCall) (s : List CapProc) (j : Nat) (l : Lineage) : Prop where
  exec : ∀ path authenticated, l.exec = some (path, authenticated) →
    Happened policy labels s j (Execs path authenticated)
  grants : ∀ g ∈ l.grants, Happened policy labels s j (Grants g)

structure ProcAuthorized (labels : List CapCall) (s : List CapProc) (j : Nat) (p : CapProc) :
    Prop where
  lineage : LineageTrue policy labels s j p.lineage
  slots : ∀ slot ∈ p.caps.slots, slot.kind ≠ capKindNull →
    Authorized policy p slot.kind slot.rights

variable {policy} {labels : List CapCall} {p : CapProc} {kind : Nat} {rights : Rights}
  {path : List Byte} {authenticated : Bool} {more : Rights} {slot : CapSlot}

theorem Happened.step {did : List CapProc → CapCall → Nat → Prop} {i : Nat}
    (h : Happened policy labels s i did) (step : capStep policy s a = some s')
    (origin : j = i ∨ j = s.length ∧ (a = .fork i ∨ a = .clone i)) :
    Happened policy (labels ++ [a]) s' j did := by
  obtain ⟨pre, b, after, t, u, k, split, run, call, happens, copy⟩ := h
  refine ⟨pre, b, after ++ [a], t, u, k, by simp [split], run, call, happens, ?_⟩
  rcases origin with rfl | ⟨rfl, copies⟩
  · exact copy.later step
  · exact copy.copy step copies

theorem LineageTrue.step {l : Lineage} {i : Nat} (h : LineageTrue policy labels s i l)
    (step : capStep policy s a = some s')
    (origin : j = i ∨ j = s.length ∧ (a = .fork i ∨ a = .clone i)) :
    LineageTrue policy (labels ++ [a]) s' j l :=
  ⟨fun path authenticated eq => (h.exec path authenticated eq).step step origin,
    fun g mem => (h.grants g mem).step step origin⟩

theorem Covered.fewer {pairs : List CapSlot} (h : Covered pairs kind more)
    (sub : more &&& rights = rights) : Covered pairs kind rights := by
  obtain ⟨pair, mem, eq, hh⟩ := h
  exact ⟨pair, mem, eq, rights_trans hh sub⟩

theorem PolicyCovered.fewer (h : PolicyCovered policy path authenticated kind more)
    (sub : more &&& rights = rights) : PolicyCovered policy path authenticated kind rights := by
  obtain ⟨entry, hf, cap, mem, eq, hh, tier⟩ := h
  exact ⟨entry, hf, cap, mem, eq, rights_trans hh sub, tier⟩

theorem Delegated.fewer {b : List GrantRecord} (h : Delegated b kind more)
    (sub : more &&& rights = rights) : Delegated b kind rights := by
  obtain ⟨g, mem, eq, hh, delegate, caller⟩ := h
  exact ⟨g, mem, eq, rights_trans hh sub, delegate, capCheck_of_fewer caller sub⟩

theorem Authorized.fewer (h : Authorized policy p kind more) (sub : more &&& rights = rights) :
    Authorized policy p kind rights := by
  rcases h with ⟨boot, hc⟩ | ⟨path, authenticated, exec, hb | entry⟩ | delegated
  · exact .inl ⟨boot, hc.fewer sub⟩
  · exact .inr (.inl ⟨path, authenticated, exec, .inl (hb.fewer sub)⟩)
  · exact .inr (.inl ⟨path, authenticated, exec, .inr (entry.fewer sub)⟩)
  · exact .inr (.inr (delegated.fewer sub))

theorem ProcAuthorized.of_check (h : ProcAuthorized policy labels s j p) (hk : kind ≠ capKindNull)
    (check : capCheck p.caps kind rights = true) : Authorized policy p kind rights := by
  obtain ⟨slot, mem, rfl, hh⟩ := capCheck_iff.mp check
  exact (h.slots slot mem hk).fewer hh

theorem mem_grantAll {table : CapTable} {pairs : List CapSlot}
    (mem : slot ∈ (grantAll table pairs).slots) : slot ∈ table.slots ∨ slot ∈ pairs := by
  induction pairs generalizing table with
  | nil => exact .inl mem
  | cons pair pairs ih =>
    rcases ih mem with hg | hl
    · rcases mem_grantSlots hg with rfl | old
      · exact .inr (.head _)
      · exact .inl old
    · exact .inr (.tail _ hl)

theorem emptyCaps_kind (mem : slot ∈ emptyCaps.slots) : slot.kind = capKindNull := by
  rw [eq_of_mem_replicate mem]

theorem execCaps_covered (mem : slot ∈ (execCaps policy path authenticated).slots)
    (hk : slot.kind ≠ capKindNull) :
    Covered execBaseline slot.kind slot.rights ∨
      PolicyCovered policy path authenticated slot.kind slot.rights := by
  have self : slot.rights &&& slot.rights = slot.rights := BitVec.and_self
  rcases mem_grantAll mem with he | hg
  · rcases mem_grantAll he with hm | hb
    · exact (hk (emptyCaps_kind hm)).elim
    · exact .inl ⟨slot, hb, rfl, self⟩
  · cases hf : capPolicyLookup policy path with
    | none => simp [hf] at hg
    | some entry =>
      simp only [hf, policyPairs, List.mem_map, List.mem_filter] at hg
      obtain ⟨cap, ⟨inEntry, tier⟩, rfl⟩ := hg
      refine .inr ⟨entry, hf, cap, inEntry, rfl, self, fun ha => ?_⟩
      simpa [ha] using tier

theorem applyMask_mem {parent hc child hr : CapTable} {mask : List CapSlot}
    (ok : applyMask parent hc mask child = .ok hr) (mem : slot ∈ hr.slots) :
    slot ∈ child.slots ∨ (slot ∈ mask ∧ capCheck parent slot.kind slot.rights = true ∧
      capCheck hc slot.kind slot.rights = true) := by
  induction mask generalizing child with
  | nil =>
    obtain rfl := Except.ok.inj ok
    exact .inl mem
  | cons pair mask ih =>
    rw [applyMask] at ok
    split_ifs at ok with empty unknown denied computed'
    · exact (ih ok).imp_right (.imp_left (mem_cons_of_mem pair))
    · rcases ih ok with hg | ⟨hl, checks⟩
      · rcases mem_grantSlots hg with rfl | old
        · exact .inr ⟨mem_cons_self, by simpa using denied, computed'⟩
        · exact .inl old
      · exact .inr ⟨.tail _ hl, checks⟩
    · exact (ih ok).imp_right (.imp_left (mem_cons_of_mem pair))

theorem execCaps_check_covered
    (check : capCheck (execCaps policy path authenticated) kind rights = true)
    (hk : kind ≠ capKindNull) :
    Covered execBaseline kind rights ∨ PolicyCovered policy path authenticated kind rights := by
  obtain ⟨slot, mem, rfl, hh⟩ := capCheck_iff.mp check
  exact (execCaps_covered mem hk).imp (·.fewer hh) (·.fewer hh)

theorem sysSpawn_spec {mask : Option CapTable} (ok : sysSpawn policy p path mask = .ok q) :
    q.authenticated = p.authenticated ∧ q.lineage = ⟨some (path, p.authenticated), []⟩ ∧
      ∀ slot ∈ q.caps.slots, slot.kind ≠ capKindNull → Covered execBaseline slot.kind slot.rights ∨
          PolicyCovered policy path p.authenticated slot.kind slot.rights := by
  cases mask with
  | none =>
    obtain rfl := Except.ok.inj ok
    exact ⟨rfl, rfl, fun slot => execCaps_covered⟩
  | some mask =>
    simp only [sysSpawn, bind, Except.bind] at ok
    split_ifs at ok
    split at ok
    · simp at ok
    rename_i caps hm
    obtain rfl := Except.ok.inj ok
    refine ⟨rfl, rfl, fun slot mem hk => ?_⟩
    rcases applyMask_mem hm mem with he | ⟨-, -, check⟩
    · exact (hk (emptyCaps_kind he)).elim
    · exact execCaps_check_covered check hk

theorem sysCapGrantRuntime_spec {caller target : CapProc}
    (ok : sysCapGrantRuntime caller target kind rights = .ok q) :
    capCheck caller.caps capKindCapDelegate capRightsRead = true ∧
      capCheck caller.caps kind rights = true ∧
      q = { target with
        caps := capGrant target.caps kind rights
        lineage :=
          { target.lineage with grants := ⟨kind, rights, caller.caps⟩ :: target.lineage.grants } } := by
  unfold sysCapGrantRuntime at ok
  split_ifs at ok with delegate invalid held full
  exact ⟨by simpa using delegate, by simpa using held, (Except.ok.inj ok).symm⟩

theorem sysAuthSession_spec (ok : sysAuthSession p = .ok q) :
    capCheck p.caps capKindAuth capRightsRead = true ∧ q = { p with authenticated := true } := by
  unfold sysAuthSession at ok
  split_ifs at ok with held
  exact ⟨by simpa using held, (Except.ok.inj ok).symm⟩

theorem execLineage_true {i : Nat} (run : Run (capStep policy) [initProc] labels s)
    (step : capStep policy s a = some s') (ht : s[i]? = some p)
    (exec : a = .execve i path ∧ j = i ∨ (∃ mask, a = .spawn i path mask) ∧ j = s.length) :
    LineageTrue policy (labels ++ [a]) s' j ⟨some (path, p.authenticated), []⟩ := by
  refine ⟨fun path' authenticated eq => ?_, by simp⟩
  cases eq
  exact ⟨labels, a, [], s, s', j, rfl, run, step, ⟨i, p, ht, rfl, exec⟩, .self⟩

theorem Authorized.granted {g : GrantRecord} (h : Authorized policy p kind rights) :
    Authorized policy
      { p with lineage := { p.lineage with grants := g :: p.lineage.grants } } kind rights := by
  rcases h with boot | exec | ⟨record, mem, rest⟩
  · exact .inl boot
  · exact .inr (.inl exec)
  · exact .inr (.inr ⟨record, .tail _ mem, rest⟩)

theorem stepOrigin_authorized (run : Run (capStep policy) [initProc] labels s)
    (step : capStep policy s a = some s')
    (all : ∀ i p, s[i]? = some p → ProcAuthorized policy labels s i p)
    (origin : StepOrigin policy s a j q) : ProcAuthorized policy (labels ++ [a]) s' j q := by
  cases origin with
  | same there =>
    have before := all j q there
    exact ⟨before.lineage.step step (.inl rfl), before.slots⟩
  | copied i there new copies =>
    have before := all i q there
    exact ⟨before.lineage.step step (.inr ⟨new, copies⟩), before.slots⟩
  | execd p path there isExec result =>
    subst result
    exact ⟨execLineage_true run step there (.inl ⟨isExec, rfl⟩), fun slot mem known =>
      .inr (.inl ⟨path, p.authenticated, rfl, execCaps_covered mem known⟩)⟩
  | spawned i p path mask there new isSpawn ok =>
    obtain ⟨-, lineage, slots⟩ := sysSpawn_spec ok
    refine ⟨?_, fun slot mem known => ?_⟩
    · rw [lineage]
      exact execLineage_true run step there (.inr ⟨⟨mask, isSpawn⟩, new⟩)
    · exact .inr (.inl ⟨path, p.authenticated, by rw [lineage], slots slot mem known⟩)
  | granted i caller target kind rights callerThere targetThere isGrant ok =>
    obtain ⟨delegate, held, rfl⟩ := sysCapGrantRuntime_spec ok
    have before := all j target targetThere
    have older := before.lineage.step step (.inl rfl)
    refine ⟨⟨older.exec, fun g mem => ?_⟩, fun slot mem known => ?_⟩
    · rcases mem_cons.mp mem with rfl | old
      · exact ⟨labels, a, [], s, s', j, rfl, run, step, ⟨i, caller, isGrant, callerThere, rfl⟩,
          .self⟩
      · exact older.grants g old
    · rcases mem_grantSlots mem with rfl | old
      · exact .inr (.inr ⟨_, .head _, rfl, BitVec.and_self, delegate, held⟩)
      · exact (before.slots slot old known).granted
  | authenticated p there _ ok =>
    obtain ⟨-, rfl⟩ := sysAuthSession_spec ok
    have before := all j p there
    exact ⟨before.lineage.step step (.inl rfl), before.slots⟩

theorem initProc_authorized : ProcAuthorized policy [] [initProc] j initProc := by
  refine ⟨⟨by simp [initProc], by simp [initProc]⟩, fun slot mem hk => ?_⟩
  rcases mem_grantAll mem with he | hg
  · exact (hk (emptyCaps_kind he)).elim
  · exact .inl ⟨rfl, slot, hg, rfl, BitVec.and_self⟩

theorem run_authorized (run : Run (capStep policy) [initProc] labels s) :
    ∀ j p, s[j]? = some p → ProcAuthorized policy labels s j p := by
  induction run with
  | nil =>
    intro j p there
    obtain rfl : p = initProc := by simpa using mem_of_getElem? there
    exact initProc_authorized
  | snoc pre _ step ih =>
    exact fun j q found => stepOrigin_authorized pre step ih (capStep_origin step found)

/-- Where the flag of the process at position `j` after a step comes from: it was
set, its process holds AUTH(READ) and sets it, or a new process inherits it. -/
def FlagOrigin (s : List CapProc) (a : CapCall) (j : Nat) : Prop :=
  (∃ p, s[j]? = some p ∧ p.authenticated = true) ∨
    (a = .authSession j ∧
      ∃ p, s[j]? = some p ∧ capCheck p.caps capKindAuth capRightsRead = true) ∨
    (j = s.length ∧ ∃ i p, s[i]? = some p ∧ p.authenticated = true ∧
      (a = .fork i ∨ a = .clone i ∨ ∃ path mask, a = .spawn i path mask))

theorem flagOrigin_of_step (step : capStep policy s a = some s') (found : s'[j]? = some q)
    (flag : q.authenticated = true) : FlagOrigin s a j := by
  cases capStep_origin step found with
  | same there => exact .inl ⟨q, there, flag⟩
  | copied i there new isCopy =>
    exact .inr (.inr ⟨new, i, q, there, flag, isCopy.imp_right .inl⟩)
  | execd p path there _ result =>
    subst result
    exact .inl ⟨p, there, flag⟩
  | spawned i p path mask there new isSpawn ok =>
    obtain ⟨inherited, -, -⟩ := sysSpawn_spec ok
    exact .inr (.inr ⟨new, i, p, there, inherited ▸ flag, .inr (.inr ⟨path, mask, isSpawn⟩)⟩)
  | granted i caller target kind rights _ targetThere _ ok =>
    obtain ⟨-, -, rfl⟩ := sysCapGrantRuntime_spec ok
    exact .inl ⟨target, targetThere, flag⟩
  | authenticated p there isAuth ok =>
    obtain ⟨held, -⟩ := sysAuthSession_spec ok
    exact .inr (.inl ⟨isAuth, p, there, held⟩)

/-- In every run from boot, each capability a process can use comes from init's boot
grant, from its last exec or from a run-time grant by a caller that held it, and the
record of these is true of the process itself or of the one that it was forked from; and no
step sets the flag without AUTH(READ) or inheritance. -/
theorem authority_of_run (run : Run (capStep policy) [initProc] labels s) :
    (∀ j p, s[j]? = some p → LineageTrue policy labels s j p.lineage ∧
      ∀ kind rights, kind ≠ capKindNull → capCheck p.caps kind rights = true →
        Authorized policy p kind rights) ∧
    ∀ a s' j q, capStep policy s a = some s' → s'[j]? = some q → q.authenticated = true →
      FlagOrigin s a j := by
  refine ⟨fun j p member => ?_, fun a s' j q step found flag => flagOrigin_of_step step found flag⟩
  have authorized := run_authorized run j p member
  exact ⟨authorized.lineage, fun kind rights known check => authorized.of_check known check⟩

def loginPolicy : List PolicyEntry :=
  [⟨ascii "login", [⟨capKindAuth, 7, .service⟩, ⟨capKindPower, 7, .admin⟩]⟩]

theorem authority_of_run_login : ∃ s p, Run (capStep loginPolicy) [initProc]
        [.execve 0 (ascii "/login"), .authSession 0, .execve 0 (ascii "/login")] s ∧ p ∈ s ∧
      capCheck p.caps capKindPower capRightsExec = true ∧
      Authorized loginPolicy p capKindPower capRightsExec := by
  have run : Run (capStep loginPolicy) [initProc]
      [.execve 0 (ascii "/login"), .authSession 0, .execve 0 (ascii "/login")] _ := run_of_exec rfl
  exact ⟨_, _, run, .head _, by decide,
    ((authority_of_run run).1 0 _ rfl).2 _ _ (by decide) (by decide)⟩

end Aegis.CapAuthority
