import Aegis.CapAuthority

/-! The sandbox of `sys_spawn` with a `cap_mask` (kernel/syscall/sys_exec.c): the family of the
process it creates, and what processes outside the family give to it with
`sys_cap_grant_runtime`. Both are history variables. The mask is applied once, and a later
exec computes the table from the policy alone. -/

namespace Aegis.CapAuthority
open Capability CapPolicy LabelledRun List Option

/-- `family` holds the positions of the confined process and its descendants, `gifts` what was
granted to one of them from outside. -/
structure Sandbox where
  procs : List CapProc
  family : List Nat
  gifts : List CapSlot

def callParent : CapCall → Option Nat
  | .fork i => some i
  | .clone i => some i
  | .spawn i _ _ => some i
  | _ => none

def newborn (t : Sandbox) (procs : List CapProc) (a : CapCall) : List Nat :=
  if t.procs.length < procs.length ∧ (callParent a).any (· ∈ t.family) then [t.procs.length]
  else []

def gift (t : Sandbox) : CapCall → List CapSlot
  | .grantRuntime i j kind rights =>
    match t.procs[i]?, t.procs[j]? with
    | some caller, some target =>
      match sysCapGrantRuntime caller target kind rights with
      | .ok _ => if i ∉ t.family ∧ j ∈ t.family then [⟨kind, rights⟩] else []
      | .error _ => []
    | _, _ => []
  | _ => []

variable (policy : List PolicyEntry)

def sandboxStep (t : Sandbox) (a : CapCall) : Option Sandbox :=
  (capStep policy t.procs a).map fun procs =>
    ⟨procs, newborn t procs a ++ t.family, gift t a ++ t.gifts⟩

def programPairs (path : List Byte) (authenticated : Bool) : List CapSlot :=
  execBaseline ++
    match capPolicyLookup policy path with
    | none => []
    | some entry => policyPairs authenticated entry

variable (mask : CapTable)

/-- If the process is in the family, the program is given nothing but what the mask or a gift
covers. -/
def MaskedProgram (t : Sandbox) (i : Nat) (path : List Byte) : Prop :=
  i ∈ t.family → ∀ p ∈ t.procs[i]?, ∀ pair ∈ programPairs policy path p.authenticated,
    pair.kind ≠ capKindNull → Covered (mask.slots ++ t.gifts) pair.kind pair.rights
  deriving Decidable

/-- The condition on the calls that compute a table from the policy alone. -/
def StaysMasked (t : Sandbox) : CapCall → Prop
  | .execve i path => MaskedProgram policy mask t i path
  | .spawn i path none => MaskedProgram policy mask t i path
  | _ => True

def Within (gifts : List CapSlot) (q : CapProc) : Prop :=
  ∀ slot ∈ q.caps.slots, slot.kind ≠ capKindNull →
    Covered (mask.slots ++ gifts) slot.kind slot.rights

structure Confined (t : Sandbox) : Prop where
  positions : ∀ j ∈ t.family, j < t.procs.length
  slots : ∀ j ∈ t.family, ∀ q, t.procs[j]? = some q → Within mask t.gifts q

variable {policy mask} {t u : Sandbox} {a : CapCall} {p q : CapProc} {i j kind : Nat}
  {rights : Rights} {path : List Byte} {gifts : List CapSlot}

theorem Covered.mono {pairs pairs' : List CapSlot} (hc : Covered pairs kind rights)
    (sub : pairs ⊆ pairs') : Covered pairs' kind rights := by
  obtain ⟨pair, mem, rest⟩ := hc
  exact ⟨pair, sub mem, rest⟩

theorem Within.covered (hw : Within mask gifts q) (hk : kind ≠ capKindNull)
    (check : capCheck q.caps kind rights = true) : Covered (mask.slots ++ gifts) kind rights := by
  obtain ⟨slot, mem, rfl, hh⟩ := capCheck_iff.mp check
  exact (hw slot mem hk).fewer hh

theorem Within.more {more : List CapSlot} (hw : Within mask gifts q) :
    Within mask (more ++ gifts) q := fun slot mem hk =>
  (hw slot mem hk).mono (by simp)

theorem execCaps_eq {b : Bool} : execCaps policy path b =
    grantAll emptyCaps (programPairs policy path b) :=
  foldl_append.symm

theorem MaskedProgram.within (hm : MaskedProgram policy mask t i path)
    (mem : i ∈ t.family) (ht : t.procs[i]? = some p)
    (table : q.caps = execCaps policy path p.authenticated) : Within mask t.gifts q := by
  intro slot hi hk
  rw [table, execCaps_eq] at hi
  rcases mem_grantAll hi with he | pair
  · exact absurd (emptyCaps_kind he) hk
  · exact hm mem p ht slot pair hk

theorem sysSpawn_masked {outer : CapTable} (ok : sysSpawn policy p path (some outer) = .ok q)
    {slot : CapSlot} (mem : slot ∈ q.caps.slots) (hk : slot.kind ≠ capKindNull) :
    slot ∈ outer.slots ∧ capCheck p.caps slot.kind slot.rights = true := by
  simp only [sysSpawn, bind, Except.bind] at ok
  split_ifs at ok
  split at ok
  · cases ok
  next caps hm =>
  obtain rfl := Except.ok.inj ok
  rcases applyMask_mem hm mem with he | ⟨hi, held, -⟩
  · exact absurd (emptyCaps_kind he) hk
  · exact ⟨hi, held⟩

theorem mem_newborn {procs : List CapProc} (mem : j ∈ newborn t procs a) :
    j = t.procs.length ∧ (callParent a).any (· ∈ t.family) = true ∧
      t.procs.length < procs.length := by
  unfold newborn at mem
  split_ifs at mem with born
  · exact ⟨mem_singleton.mp mem, by simpa using born.2, born.1⟩
  · cases mem

theorem capStep_length {s s' : List CapProc} (step : capStep policy s a = some s') :
    s.length ≤ s'.length := by
  cases a with
  | fork _ | execve _ _ =>
    obtain ⟨p, -, rfl⟩ := map_eq_some_iff.mp step
    simp
  | clone _ | spawn _ _ _ | authSession _ =>
    obtain ⟨p, -, rfl⟩ := map_eq_some_iff.mp step
    split <;> simp
  | grantRuntime i k kind rights =>
    obtain ⟨caller, -, rest⟩ := bind_eq_some_iff.mp step
    obtain ⟨target, -, rest⟩ := bind_eq_some_iff.mp rest
    split at rest <;> obtain rfl := some.inj rest <;> simp

theorem Confined.family (hc : Confined mask t) (step : sandboxStep policy t a = some u)
    (mem : j ∈ u.family) :
    (j < t.procs.length → j ∈ t.family) ∧
      (j = t.procs.length → (callParent a).any (· ∈ t.family) = true) := by
  obtain ⟨procs, -, rfl⟩ := map_eq_some_iff.mp step
  rcases mem_append.mp mem with new | old
  · obtain ⟨rfl, parent, -⟩ := mem_newborn new
    exact ⟨fun hi => absurd hi (Nat.lt_irrefl _), fun _ => parent⟩
  · refine ⟨fun _ => old, fun last => ?_⟩
    exact absurd (hc.positions j old) (last ▸ Nat.lt_irrefl _)

theorem Confined.step (hc : Confined mask t) (hm : StaysMasked policy mask t a)
    (step : sandboxStep policy t a = some u) : Confined mask u := by
  have family {j : Nat} (mem : j ∈ u.family) := hc.family step mem
  obtain ⟨procs, hs, rfl⟩ := map_eq_some_iff.mp step
  refine ⟨fun j mem => ?_, fun j mem q found => ?_⟩
  · rcases mem_append.mp mem with new | old
    · obtain ⟨rfl, -, hl⟩ := mem_newborn new
      exact hl
    · exact Nat.lt_of_lt_of_le (hc.positions j old) (capStep_length hs)
  · have hi {x : CapProc} (ht : t.procs[j]? = some x) : j ∈ t.family :=
      (family mem).1 (List.getElem?_eq_some_iff.mp ht).1
    cases capStep_origin hs found with
    | same ht => exact (hc.slots j (hi ht) q ht).more
    | copied i ht new ha =>
      have parent := (family mem).2 new
      have isParent : callParent a = some i := by rcases ha with rfl | rfl <;> rfl
      rw [isParent] at parent
      exact (hc.slots i (by simpa using parent) q ht).more
    | execd p path ht hx hr =>
      subst hx
      exact (hm.within (hi ht) ht (by rw [hr, sysExecve])).more
    | spawned i p path outer ht new hd ok =>
      subst hd
      have parent : i ∈ t.family := by simpa [callParent] using (family mem).2 new
      cases outer with
      | none =>
        obtain rfl := Except.ok.inj ok
        exact (hm.within parent ht rfl).more
      | some outer =>
        -- the child has only what its parent passes a check for
        have fromParent : Within mask t.gifts q := fun slot hn hk =>
          (hc.slots i parent p ht).covered hk (sysSpawn_masked ok hn hk).2
        exact fromParent.more
    | granted i caller target kind rights he hf hj ok =>
      subst hj
      have pre := hc.slots j (hi hf) target hf
      obtain ⟨-, held, hr⟩ := sysCapGrantRuntime_spec ok
      intro slot hn hk
      rw [hr] at hn
      rcases mem_grantSlots hn with rfl | old
      · by_cases mem : i ∈ t.family
        · have own := (hc.slots i mem caller he).covered hk held
          exact own.mono (by simp)
        have hg : gift t (.grantRuntime i j kind rights) = [⟨kind, rights⟩] := by
          simp [gift, he, hf, ok, mem, hi hf]
        exact ⟨⟨kind, rights⟩, by simp [hg], rfl, BitVec.and_self⟩
      · exact pre.more slot old hk
    | authenticated p ht hit ok =>
      obtain ⟨-, rfl⟩ := sysAuthSession_spec ok
      have pre : Within mask t.gifts { p with authenticated := true } :=
        hc.slots j (hi ht) p ht
      exact pre.more

/-- In every later state of a run in which the programs that the family runs get nothing but
what the mask or a gift covers, no process of the family passes a check outside the mask and
the gifts. -/
theorem sandbox_confines {s : List CapProc} {parent child : CapProc} {labels : List CapCall}
    (spawned : sysSpawn policy parent path (some mask) = .ok child)
    (run : RunWhere (sandboxStep policy) (StaysMasked policy mask)
      ⟨s ++ [child], [s.length], []⟩ labels t)
    (member : j ∈ t.family) (there : t.procs[j]? = some q) (known : kind ≠ capKindNull)
    (check : capCheck q.caps kind rights = true) :
    Covered mask.slots kind rights ∨ Covered t.gifts kind rights := by
  have start : Confined mask ⟨s ++ [child], [s.length], []⟩ := by
    refine ⟨by simp, fun k first x found slot inTable known => ?_⟩
    obtain rfl := mem_singleton.mp first
    obtain rfl : child = x := by simpa using found
    exact ⟨slot, by simpa using (sysSpawn_masked spawned inTable known).1, rfl, BitVec.and_self⟩
  have confined : Confined mask t :=
    run.invariant start fun _ _ _ before masked step => before.step masked step
  obtain ⟨pair, allowed, covers⟩ := (confined.slots j member q there).covered known check
  exact (mem_append.mp allowed).imp (⟨pair, ·, covers⟩) (⟨pair, ·, covers⟩)

instance : Decidable (StaysMasked policy mask t a) := by
  unfold StaysMasked
  split <;> infer_instance

def shellPolicy : List PolicyEntry :=
  [⟨ascii "shell", [⟨capKindCapDelegate, 7, .service⟩]⟩]

def shellProc : CapProc := sysExecve shellPolicy initProc (ascii "/shell")

def sandboxed (mask : CapTable) : CapProc :=
  (sysSpawn shellPolicy shellProc (ascii "/app") (some mask)).toOption.getD initProc

def baselineMask : CapTable := grantAll emptyCaps execBaseline

theorem sandbox_confines_fork : ∃ t q,
    RunWhere (sandboxStep shellPolicy) (StaysMasked shellPolicy baselineMask)
        ⟨[shellProc] ++ [sandboxed baselineMask], [1], []⟩ [.fork 1, .execve 2 (ascii "/app")] t ∧
      2 ∈ t.family ∧ t.procs[2]? = some q ∧
      capCheck q.caps capKindVfsOpen capRightsRead = true ∧
      (Covered baselineMask.slots capKindVfsOpen capRightsRead ∨
        Covered t.gifts capKindVfsOpen capRightsRead) := by
  have run := runWhere_of_exec (exec_eq_reached (by decide +kernel :
    (exec (guarded (sandboxStep shellPolicy) (StaysMasked shellPolicy baselineMask))
      ⟨[shellProc] ++ [sandboxed baselineMask], [1], []⟩
      [.fork 1, .execve 2 (ascii "/app")]).isSome))
  have check : capCheck (sysExecve shellPolicy (sandboxed baselineMask) (ascii "/app")).caps
      capKindVfsOpen capRightsRead = true := by
    decide +kernel
  have spawned : sysSpawn shellPolicy shellProc (ascii "/app") (some baselineMask) =
      .ok (sandboxed baselineMask) := rfl
  exact ⟨_, _, run, by decide +kernel, rfl, check,
    sandbox_confines (j := 2) spawned run (by decide +kernel) rfl (by decide) check⟩

/-- A process spawned under an empty mask has no capability; after it runs a program it has
the baseline, though nobody gave it anything. -/
theorem execve_leaves_sandbox : ∃ s t q,
    Run (capStep shellPolicy) [initProc] [.execve 0 (ascii "/shell")] s ∧
      (∃ parent child, s[0]? = some parent ∧
        sysSpawn shellPolicy parent (ascii "/app") (some emptyCaps) = .ok child ∧
        Run (sandboxStep shellPolicy) ⟨s ++ [child], [s.length], []⟩
          [.execve s.length (ascii "/app")] t) ∧
      s.length ∈ t.family ∧ t.procs[s.length]? = some q ∧ t.gifts = [] ∧
      capCheck q.caps capKindVfsOpen capRightsRead = true ∧
      ¬ Covered emptyCaps.slots capKindVfsOpen capRightsRead := by
  have run : Run (sandboxStep shellPolicy) ⟨[shellProc] ++ [sandboxed emptyCaps], [1], []⟩
      [.execve 1 (ascii "/app")] _ := run_of_exec rfl
  exact ⟨[shellProc], _, _, run_of_exec rfl, ⟨shellProc, sandboxed emptyCaps, rfl, rfl, run⟩,
    by decide +kernel, rfl, rfl, by decide +kernel, by decide +kernel⟩

end Aegis.CapAuthority
