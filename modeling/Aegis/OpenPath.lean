import Aegis.CapPolicy
import Aegis.TextFields
import Mathlib.Data.List.DropRight
import Mathlib.Algebra.GroupWithZero.Nat

/-! The path that `sys_open` hands to `vfs_open`: it is joined to the current directory and then
normalised in place. The output buffer is its bytes so far, so `ni` is their number. -/

namespace Aegis.OpenPath

open CapPolicy TextFields List List

abbrev Component := List Byte

def isSlash (c : Byte) : Bool := c == 47

def dot : Component := [46]

def dotDot : Component := [46, 46]

def pop (norm : List Byte) : List Byte :=
  if 1 < norm.length then norm.dropLast.rdropWhile fun c => !isSlash c else norm

def push (norm : List Byte) (seg : Component) : List Byte :=
  let norm := if 1 < norm.length then norm ++ [47] else norm
  norm ++ seg.take (254 - norm.length)

def normStep (norm : List Byte) (seg : Component) : List Byte :=
  if seg = dot then norm else if seg = dotDot then pop norm else push norm seg

/-- Every turn takes a byte of the path, so their number bounds the turns. -/
def normLoop : Nat → List Byte → List Byte → List Byte
  | 0, norm, _ => norm
  | turns + 1, norm, path =>
    let path := path.dropWhile isSlash
    if path = [] then norm
    else
      normLoop turns (normStep norm (path.takeWhile fun c => !isSlash c))
        (path.dropWhile fun c => !isSlash c)

def normalize (path : List Byte) : List Byte :=
  let start := if path.head? = some 47 then [47] else []
  let norm := normLoop path.length start (path.drop start.length)
  if norm = [] then [47] else norm

def joined (cwd path : List Byte) : List Byte :=
  if path.head? = some 47 then path
  else if path = dot then cwd
  else cwd ++ (if cwd.getLast? = some 47 then [] else [47]) ++ path

/-- The path for `vfs_open`; `none` is `ENAMETOOLONG`. -/
def sysOpenPath (cwd path : List Byte) : Option (List Byte) :=
  let kpath := path.take 255
  if kpath.head? ≠ some 47 ∧ kpath ≠ dot ∧ 256 ≤ (joined cwd kpath).length then none
  else some (normalize (joined cwd kpath))

/-! ### What a path means -/

/-- The last component comes first. -/
def cancelStep (stack : List Component) (c : Component) : List Component :=
  if c = dot then stack else if c = dotDot then stack.tail else c :: stack

def flat (stack : List Component) : List Byte := stack.reverse.flatMap (47 :: ·)

def spell (stack : List Component) : List Byte := if stack = [] then [47] else flat stack

def canonical (path : List Byte) : List Byte := spell ((fields isSlash path).foldl cancelStep [])

/-- How many `..` it takes to empty the buffer, whether it ends in a slash, and whether the last
`..` left something in it. -/
structure Height where
  up : Nat
  trailing : Bool
  left : Bool

def heightStep (h : Height) (c : Component) : Height :=
  if c = dot then h
  else if c = dotDot then ⟨h.up - 1, 1 < h.up, 1 < h.up⟩
  else ⟨h.up + 1 + h.trailing.toNat, false, h.left⟩

/-- Every name counts one, and one more right after a `..` that left something; every `..` takes
one away. The last `..` leaves nothing. -/
def UpsEmpty (cs : List Component) : Prop := (cs.foldl heightStep ⟨0, false, false⟩).left = false
  deriving Decidable

/-! ### The buffer as a stack of components -/

def leave (below : List Component) : List Component := if below = [] then [] else [] :: below

def stackPop : List Component → List Component
  | [] => []
  | [] :: below => leave below.tail
  | _ :: below => leave below

def stackStep (stack : List Component) (c : Component) : List Component :=
  if c = dot then stack else if c = dotDot then stackPop stack else c :: stack

def Free (c : Component) : Prop := ∀ b ∈ c, isSlash b = false

section
variable {cs stack below : List Component} {c : Component} {norm path : List Byte} {h : Height}

@[simp] theorem flat_cons : flat (c :: below) = flat below ++ 47 :: c := by
  simp [flat]

@[simp] theorem spell_cons : spell (c :: below) = flat below ++ 47 :: c := by
  simp [spell]

theorem normLoop_eq {turns : Nat} (he : path.length ≤ turns) :
    normLoop turns norm path = (fields isSlash path).foldl normStep norm := by
  induction turns generalizing norm path with
  | zero => rw [length_eq_zero_iff.mp (Nat.le_zero.mp he)]; rfl
  | succ turns ih =>
    have hs := (dropWhile_suffix isSlash (l := path)).length_le
    rw [normLoop, ← fields_dropWhile path]
    cases h1 : path.dropWhile isSlash with
    | nil => simp
    | cons a rest =>
      have name : isSlash a = false := by
        have stop := head?_dropWhile_not isSlash path
        simpa [h1] using stop
      rw [h1, length_cons] at hs
      have after := (dropWhile_suffix (fun c => !isSlash c) (l := rest)).length_le
      rw [if_neg (cons_ne_nil a rest), ih (by simp [name]; omega), ← foldl_cons,
        ← consField_of_ne_nil (by simp [name]), ← fields_append (fun b mem => by
          simpa using mem_takeWhile_imp mem) (stops_dropWhile_not _),
        takeWhile_append_dropWhile]

theorem rdrop_flat (free : Free c) :
    (flat below ++ 47 :: c).rdropWhile (fun b => !isSlash b) = spell (leave below) := by
  induction c using reverseRecOn with
  | nil =>
    rw [rdropWhile_concat_neg _ _ _ (by decide), leave]
    split
    · next none => simp [none, flat, spell]
    · simp
  | append_singleton c b ih =>
    rw [← cons_append, ← append_assoc, rdropWhile_concat_pos _ _ _ (by
      simp [free b (by simp)])]
    exact ih fun a mem => free a (by simp [mem])

structure Tracks (stack : List Component) (h : Height) (names : List Component) : Prop where
  free : ∀ c ∈ stack, Free c
  bottom : stack.getLast? ≠ some []
  trailing : h.trailing = decide (stack.head? = some [])
  up : stack.length = h.up + h.trailing.toNat
  below : names.length ≤ h.up
  clean : ∀ c ∈ names, c ≠ [] ∧ Free c
  left : h.left = decide ([] ∈ stack)
  same : h.left = false → stack = names

variable {names : List Component}

theorem tracks_leave (free : ∀ c ∈ below, Free c) (hb : below.getLast? ≠ some [])
    (hc : ∀ c ∈ names, c ≠ [] ∧ Free c) (hs : names.length ≤ below.length) :
    Tracks (leave below) ⟨below.length, 0 < below.length, 0 < below.length⟩ names := by
  cases below with
  | nil =>
    exact ⟨nofun, nofun, rfl, rfl, hs, hc, rfl, fun _ =>
      (length_eq_zero_iff.mp (Nat.le_zero.mp hs)).symm⟩
  | cons c below =>
    refine ⟨?_, ?_, ?_, ?_, hs, hc, ?_, ?_⟩
    · simpa [leave, Free] using free
    · simpa [leave, getLast?_cons] using hb
    all_goals simp [leave]

theorem Tracks.pop (ht : Tracks stack h names) :
    Tracks (stackPop stack) ⟨h.up - 1, 1 < h.up, 1 < h.up⟩ names.tail := by
  obtain ⟨free, hb, trailing, up, hs, hc, -, -⟩ := ht
  -- what is below a component of the buffer is left, with its slash
  have hl {below : List Component} (hi : below <:+ stack) (length : h.up - 1 = below.length) :
      Tracks (leave below) ⟨h.up - 1, 1 < h.up, 1 < h.up⟩ names.tail := by
    have left : decide (1 < h.up) = decide (0 < below.length) := decide_eq_decide.mpr (by omega)
    rw [length, left]
    refine tracks_leave (fun c mem => free c (hi.subset mem)) ?_
      (fun c mem => hc c (mem_of_mem_tail mem)) ?_
    · obtain ⟨ha, rfl⟩ := hi
      cases below <;> simp_all [getLast?_append]
    · rw [length_tail]
      omega
  match stack with
  | [] => exact hl (nil_suffix) (by simp at up ⊢; omega)
  | [[]] => simp at hb
  | [] :: d :: below => exact hl ⟨[[], d], rfl⟩ (by simp_all; omega)
  | (b :: c) :: below => exact hl ⟨[b :: c], rfl⟩ (by simp_all; omega)

theorem Tracks.step (ht : Tracks stack h names) (name : c ≠ []) (free : Free c) :
    Tracks (stackStep stack c) (heightStep h c) (cancelStep names c) := by
  unfold stackStep heightStep cancelStep
  split
  · exact ht
  split
  · exact ht.pop
  have hs := ht.below
  have hb := ht.bottom
  refine ⟨forall_mem_cons.mpr ⟨free, ht.free⟩, ?_, by simp [name], ?_, ?_,
    forall_mem_cons.mpr ⟨⟨name, free⟩, ht.clean⟩, ?_, fun hc => ?_⟩
  · cases stack <;> simp_all [getLast?_cons]
  · simp [ht.up]
    omega
  · simp
    omega
  · simp [ht.left, Ne.symm name]
  · rw [ht.same hc]

theorem spell_head (stack : List Component) : (spell stack).head? = some 47 := by
  cases stack using reverseRecOn <;> simp [spell, flat]

theorem pop_spell (ht : Tracks stack h names) : pop (spell stack) = spell (stackPop stack) := by
  match stack with
  | [] => rfl
  | [[]] => exact absurd rfl ht.bottom
  | [] :: c :: below =>
    rw [pop, spell_cons, if_pos (by simp; omega), dropLast_concat, flat_cons,
      rdrop_flat (ht.free c (by simp))]
    rfl
  | (b :: c) :: below =>
    have free := ht.free (b :: c) (by simp)
    have hs : Free (b :: c).dropLast := fun a mem => free a (dropLast_subset _ mem)
    rw [pop, spell_cons, if_pos (by simp; omega), dropLast_append_cons,
      dropLast_cons_of_ne_nil (by simp), rdrop_flat hs]
    rfl

theorem push_spell (ht : Tracks stack h names) (hs : (flat stack).length < 254) :
    push (spell stack) c = (spell (c :: stack)).take 254 := by
  have pre : (if 1 < (spell stack).length then spell stack ++ [47] else spell stack) =
      flat stack ++ [47] := by
    match stack with
    | [] => rfl
    | [[]] => exact absurd rfl ht.bottom
    | [] :: c :: below | (b :: c) :: below => simp; omega
  rw [push, pre, spell_cons, show flat stack ++ 47 :: c = flat stack ++ [47] ++ c by simp,
    take_append, take_of_length_le (l := flat stack ++ [47]) (by simp; omega)]

theorem stackPop_short (stack : List Component) :
    (flat (stackPop stack)).length ≤ (flat stack).length + 1 := by
  match stack with
  | [] => decide
  | [[]] => decide
  | [] :: _ :: below | (b :: c) :: below =>
    by_cases none : below = []
    · simp [stackPop, leave, none, flat]
    · simp [stackPop, leave, none]

theorem fields_flatMap (free : ∀ c ∈ cs, Free c) :
    fields isSlash (cs.flatMap (47 :: ·)) = cs.filter (· ≠ []) := by
  induction cs with
  | nil => rfl
  | cons c cs ih =>
    obtain ⟨h1, rest⟩ := forall_mem_cons.mp free
    have hs : Stops isSlash (cs.flatMap (47 :: ·)) := by
      cases cs <;> simp [Stops, isSlash]
    rw [flatMap_cons, cons_append, fields_cons_of_sep rfl, fields_append h1 hs, ih rest]
    cases c <;> simp [consField]

theorem fields_flat (free : ∀ c ∈ stack, Free c) :
    fields isSlash (flat stack) = (stack.filter (· ≠ [])).reverse := by
  rw [flat, fields_flatMap fun c mem => free c (mem_reverse.mp mem), filter_reverse]

theorem flat_filter (stack : List Component) :
    (flat (stack.filter (· ≠ []))).length + stack.count [] = (flat stack).length := by
  induction stack with
  | nil => rfl
  | cons c stack ih => cases c <;> simp_all <;> omega

theorem Tracks.spell_iff (ht : Tracks stack h names) :
    spell stack = spell names ↔ h.left = false := by
  refine ⟨fun eq => ?_, fun clean => by rw [ht.same clean]⟩
  rw [ht.left, decide_eq_false_iff_not]
  intro he
  have hw : names.filter (· ≠ []) = names :=
    filter_eq_self.mpr fun c mem => by simpa using (ht.clean c mem).1
  have count := count_pos_iff.mpr he
  have hl := flat_filter stack
  have hf := ne_nil_of_mem he
  rw [spell, if_neg hf, spell] at eq
  split at eq
  · have read := congrArg (fields isSlash) eq
    rw [fields_flat ht.free, show fields isSlash [47] = [] from rfl, reverse_eq_nil_iff,
      filter_eq_nil_iff] at read
    have last := read _ (getLast_mem hf)
    have hb := ht.bottom
    rw [getLast?_eq_some_getLast hf] at hb
    simp_all
  · have read := congrArg (fields isSlash) eq
    rw [fields_flat ht.free, fields_flat fun c mem => (ht.clean c mem).2, hw, reverse_inj] at read
    rw [read, eq] at hl
    omega

def weight (cs : List Component) : Nat := (cs.map fun c => c.length + 1).sum

/-- The induction is over the components to come. What the buffer and they take together only
shrinks, and after a `..` that left something there is a byte to spare: only a path without `..`
meets the end of the buffer, with its last component. -/
theorem foldl_normStep (hc : ∀ c ∈ cs, c ≠ [] ∧ Free c) (ht : Tracks stack h names)
    (hb : (flat stack).length + weight cs + h.left.toNat ≤ 255)
    (hh : (spell stack).length ≤ 254) :
    cs.foldl normStep (spell stack) ≠ [] ∧
      (cs.foldl normStep (spell stack) = spell (cs.foldl cancelStep names) ↔
        (cs.foldl heightStep h).left = false ∧
          (spell (cs.foldl cancelStep names)).length < 255) := by
  induction cs generalizing stack h names with
  | nil =>
    refine ⟨?_, ?_⟩
    · exact fun none => by simpa [show spell stack = [] from none] using spell_head stack
    rw [foldl_nil, foldl_nil, foldl_nil, ht.spell_iff, iff_self_and]
    intro hc
    rw [← ht.same hc]
    omega
  | cons c cs ih =>
    obtain ⟨⟨name, free⟩, rest⟩ := forall_mem_cons.mp hc
    have next := ht.step name free
    have long := length_pos_iff.mpr name
    simp only [weight, map_cons, sum_cons] at hb
    rw [← weight] at hb
    have hp := stackPop_short stack
    have hb' : (flat (stackStep stack c)).length + weight cs +
        (heightStep h c).left.toNat ≤ 255 := by
      unfold stackStep heightStep
      split
      · omega
      split
      · next up =>
        have two : c.length = 2 := by rw [up]; rfl
        have one := Bool.toNat_le (decide (1 < h.up))
        dsimp only
        omega
      · simp
        omega
    have step : normStep (spell stack) c = (spell (stackStep stack c)).take 254 := by
      unfold normStep stackStep
      split
      · rw [take_of_length_le hh]
      split
      · rw [pop_spell ht, take_of_length_le]
        unfold spell
        split
        · decide
        · omega
      · exact push_spell ht (by omega)
    rw [foldl_cons, foldl_cons, foldl_cons, step]
    by_cases fits : (spell (stackStep stack c)).length ≤ 254
    · rw [take_of_length_le fits]
      exact ih rest next hb' fits
    have full : (spell (stackStep stack c)).length ≤ 1 ∨
        (spell (stackStep stack c)).length = (flat (stackStep stack c)).length := by
      unfold spell
      split
      · exact .inl (by decide)
      · exact .inr rfl
    have exact : (spell (stackStep stack c)).length = 255 := by omega
    have last : cs = [] := by
      cases cs with
      | nil => rfl
      | cons d cs =>
        simp [weight] at hb'
        omega
    have hs : (heightStep h c).left = false := by
      cases left : (heightStep h c).left with
      | false => rfl
      | true =>
        rw [left, Bool.toNat_true] at hb'
        omega
    subst last
    rw [foldl_nil, foldl_nil, ← next.same hs, exact]
    refine ⟨fun none => ?_, iff_of_false (fun same => ?_) fun both => absurd both.2 (by decide)⟩
    · have length := congrArg length none
      simp [exact] at length
    · have length := congrArg length same
      simp [exact] at length

theorem weight_fields (path : List Byte) : weight (splitHead isSlash path).2 +
    (splitHead isSlash path).1.length ≤ path.length := by
  induction path with
  | nil => simp [splitHead, weight]
  | cons a path ih =>
    rw [splitHead]
    split
    · cases head : (splitHead isSlash path).1 with
      | nil => simp_all; omega
      | cons b w => simp_all [weight, consField]; omega
    · simp only [length_cons]
      omega

theorem normalize_iff (ha : path.head? = some 47) (fits : path.length < 256) :
    normalize path = canonical path ↔
      UpsEmpty (fields isSlash path) ∧ (canonical path).length < 255 := by
  obtain ⟨rest, rfl⟩ : ∃ rest, path = 47 :: rest := by
    cases path <;> simp_all
  have weighs := weight_fields (47 :: rest)
  have hc : ∀ c ∈ fields isSlash (47 :: rest), c ≠ [] ∧ Free c := fun c mem =>
    ⟨(mem_fields mem).1, free_of_mem_fields mem⟩
  have start : Tracks [] ⟨0, false, false⟩ [] :=
    ⟨nofun, nofun, rfl, rfl, le_refl _, nofun, rfl, fun _ => rfl⟩
  obtain ⟨hf, iff⟩ := foldl_normStep hc start (by
    rw [fields, show (splitHead isSlash (47 :: rest)).1 = [] from rfl, consField_nil]
    simp [flat]
    omega) (by decide)
  have loop : normLoop (rest.length + 1) [47] rest =
      (fields isSlash (47 :: rest)).foldl normStep (spell []) := by
    rw [normLoop_eq (by simp), fields_cons_of_sep rfl]
    rfl
  simpa [normalize, canonical, UpsEmpty, loop, hf] using iff

theorem mem_cancel (hf : ∀ c ∈ names, c ≠ dot ∧ c ≠ dotDot)
    (mem : c ∈ cs.foldl cancelStep names) : (c ∈ names ∨ c ∈ cs) ∧ c ≠ dot ∧ c ≠ dotDot := by
  induction cs generalizing names with
  | nil => exact ⟨.inl mem, hf c mem⟩
  | cons d cs ih =>
    have step : ∀ e ∈ cancelStep names d, (e ∈ names ∨ e = d) ∧ e ≠ dot ∧ e ≠ dotDot := by
      unfold cancelStep
      intro e
      split
      · exact fun old => ⟨.inl old, hf e old⟩
      split
      · exact fun old => ⟨.inl (mem_of_mem_tail old), hf e (mem_of_mem_tail old)⟩
      rintro (_ | ⟨_, old⟩)
      · exact ⟨.inr rfl, ‹_›, ‹_›⟩
      · exact ⟨.inl old, hf e old⟩
    obtain ⟨ha, hn⟩ := ih (fun e mem => (step e mem).2) mem
    rcases ha with he | late
    · rcases (step c he).1 with old | rfl
      · exact ⟨.inl old, hn⟩
      · exact ⟨.inr (.head _), hn⟩
    · exact ⟨.inr (.tail _ late), hn⟩

theorem foldl_names (named : ∀ c ∈ cs, c ≠ dot ∧ c ≠ dotDot) (names : List Component)
    (h : Height) : cs.foldl cancelStep names = cs.reverse ++ names ∧
      (cs.foldl heightStep h).left = h.left := by
  induction cs generalizing names h with
  | nil => exact ⟨rfl, rfl⟩
  | cons c cs ih =>
    obtain ⟨⟨other, up⟩, rest⟩ := forall_mem_cons.mp named
    obtain ⟨names', heights⟩ := ih rest (cancelStep names c) (heightStep h c)
    rw [foldl_cons, foldl_cons, names', heights]
    simp [cancelStep, heightStep, other, up]

theorem canonical_fixed (path : List Byte) : canonical (canonical path) = canonical path ∧
    UpsEmpty (fields isSlash (canonical path)) := by
  have hi {c} (mem : c ∈ (fields isSlash path).foldl cancelStep []) :=
    mem_cancel (forall_mem_nil _) mem
  have read : fields isSlash (canonical path) =
      ((fields isSlash path).foldl cancelStep []).reverse := by
    rw [canonical, spell]
    split
    · next none => rw [none]; rfl
    rw [fields_flat fun c mem => free_of_mem_fields ((hi mem).1.resolve_left nofun),
      filter_eq_self.mpr fun c mem => by
        simpa using (mem_fields ((hi mem).1.resolve_left nofun)).1]
  have hn := fun c mem => (@hi c (mem_reverse.mp mem)).2
  obtain ⟨ht, hs⟩ := foldl_names hn [] ⟨0, false, false⟩
  rw [canonical, UpsEmpty, read, ht, hs, reverse_reverse, append_nil]
  exact ⟨rfl, rfl⟩

/-- The path for `vfs_open` is the canonical one exactly if the last `..` leaves nothing and there
is room for it; a canonical path that has room stays as it is. -/
theorem open_path_canonical {cwd path : List Byte} (absolute : cwd.head? = some 47)
    (fits : (joined cwd path).length < 256) :
    (sysOpenPath cwd path = some (canonical (joined cwd path)) ↔
      UpsEmpty (fields isSlash (joined cwd path)) ∧ (canonical (joined cwd path)).length < 255) ∧
    ((canonical (joined cwd path)).length < 255 →
      sysOpenPath cwd (canonical (joined cwd path)) = some (canonical (joined cwd path))) := by
  have opens {path} (fits : (joined cwd path).length < 256) :
      sysOpenPath cwd path = some (normalize (joined cwd path)) := by
    have whole : path.take 255 = path := by
      refine take_of_length_le (Nat.le_of_lt_succ (lt_of_le_of_lt ?_ fits))
      unfold joined
      split
      · exact le_rfl
      split
      · next single =>
        rw [single]
        exact length_pos_of_mem (mem_of_head? absolute)
      · simp only [length_append]
        omega
    simp [sysOpenPath, whole, not_le.mpr fits]
  have starts {path} : (joined cwd path).head? = some 47 := by
    unfold joined
    split
    · assumption
    split
    · exact absolute
    · simp [absolute]
  refine ⟨?_, fun short => ?_⟩
  · rw [opens fits, Option.some.injEq]
    exact normalize_iff starts fits
  have head : (canonical (joined cwd path)).head? = some 47 := spell_head _
  have own : joined cwd (canonical (joined cwd path)) = canonical (joined cwd path) := if_pos head
  obtain ⟨fixed, settled⟩ := canonical_fixed (joined cwd path)
  rw [opens (by rw [own]; omega), own, (normalize_iff head (by omega)).mpr
    ⟨settled, by rw [fixed]; exact short⟩, fixed]

theorem open_path_canonical_dots : sysOpenPath (ascii "/usr") (ascii "./lib//../../etc/./shadow") =
        some (canonical (joined (ascii "/usr") (ascii "./lib//../../etc/./shadow"))) ∧
      canonical (joined (ascii "/usr") (ascii "./lib//../../etc/./shadow")) = ascii "/etc/shadow" :=
  ⟨(open_path_canonical (by decide) (by decide +kernel)).1.mpr
    ⟨by decide +kernel, by decide +kernel⟩, by decide +kernel⟩

/-- A `..` below another component leaves its slash: the path of the shadow file gets a second
one, and is no longer the one that `sys_open` guards. A path of 255 bytes loses its last byte. -/
theorem open_path_not_canonical :
    sysOpenPath (ascii "/") (ascii "/etc/x/../shadow") = some (ascii "/etc//shadow") ∧
      canonical (ascii "/etc/x/../shadow") = ascii "/etc/shadow" ∧
      sysOpenPath (ascii "/") (ascii "/a/b/../c/../..") = some (ascii "/a/") ∧
      canonical (ascii "/a/b/../c/../..") = ascii "/" ∧
      sysOpenPath (ascii "/") (47 :: .replicate 254 97) = some (47 :: .replicate 253 97) := by
  decide +kernel

end

end Aegis.OpenPath
