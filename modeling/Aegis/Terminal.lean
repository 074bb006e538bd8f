import Aegis.LabelledRun
import Mathlib.Tactic.Linarith

/-! The terminal window of the window server. `terminal_write` is a state machine on bytes whose
cursor and parameters are C ints; what a byte does to the cells is a list of `GridOp`s, carried out
by the ring of `rows + 500` lines and by the screen that it stands for. What the colour sequence
does to the pen is left open (`sgr`). -/

namespace Aegis.Terminal

open LabelledRun Function List

def scrollbackLines : Int := 500

/-- The int that a sum or a product wraps to. -/
def int32 (x : Int) : Int := x.bmod (2 ^ 32)

structure Pen where
  fg : Nat
  bg : Nat
  attrs : Nat
  deriving DecidableEq

def defaultPen : Pen := ⟨0xFFFFFFFF, 0xFFFFFFFF, 0⟩

structure Cell where
  ch : Nat
  pen : Pen
  deriving DecidableEq

def blank : Cell := ⟨0x20, defaultPen⟩

inductive EscState where
  | normal
  | esc
  | csi
  deriving DecidableEq

structure Ctl where
  cx : Int
  cy : Int
  savedCx : Int
  savedCy : Int
  esc : EscState
  params : Nat → Int
  nparam : Nat
  isPrivate : Bool
  pen : Pen

def termPrivAlloc : Ctl := ⟨0, 0, 0, 0, .normal, fun _ => 0, 0, false, defaultPen⟩

inductive GridOp where
  | put (r c : Int) (cell : Cell)
  | scroll

section

variable (rows cols : Int) (sgr : List Int → Pen → Pen)

def upTo (a b : Int) : List Int := (range (b - a).toNat).map fun k : Nat => a + k

def eraseRow (r a : Int) : List GridOp := (upTo a cols).map fun c => .put r c blank

def eraseRows (a : Int) : List GridOp := (upTo a rows).flatMap fun r => eraseRow cols r 0

/-- The line below, with `term_scroll` at the last one. -/
def lineFeed (t : Ctl) : Ctl × List GridOp :=
  let cy := int32 (t.cy + 1)
  if rows ≤ cy then ({ t with cy := rows - 1 }, [.scroll]) else ({ t with cy := cy }, [])

/-- The first parameter of a sequence, and how far a cursor movement goes. -/
def Ctl.param (t : Ctl) : Int := if 0 < t.nparam then t.params 0 else 0

def Ctl.distance (t : Ctl) : Int := max 1 t.param

def termCsi (t : Ctl) : Nat → Ctl × List GridOp
  | 0x41 => ({ t with cy := max 0 (int32 (t.cy - t.distance)) }, [])
  | 0x42 => ({ t with cy := min (rows - 1) (int32 (t.cy + t.distance)) }, [])
  | 0x43 => ({ t with cx := min (cols - 1) (int32 (t.cx + t.distance)) }, [])
  | 0x44 => ({ t with cx := max 0 (int32 (t.cx - t.distance)) }, [])
  | 0x48 | 0x66 =>
    let row := if 0 < t.nparam then t.params 0 else 1
    let col := if 1 < t.nparam then t.params 1 else 1
    ({ t with cy := min (rows - 1) (max 1 row - 1), cx := min (cols - 1) (max 1 col - 1) }, [])
  | 0x4A =>
    if t.param = 2 then ({ t with cx := 0, cy := 0 }, eraseRows rows cols 0)
    else if t.param = 0 then (t, eraseRow cols t.cy t.cx ++ eraseRows rows cols (t.cy + 1))
    else (t, [])
  | 0x4B =>
    if t.param = 0 then (t, eraseRow cols t.cy t.cx)
    else if t.param = 2 then (t, eraseRow cols t.cy 0)
    else (t, [])
  | 0x6D => ({ t with pen := sgr ((range t.nparam).map t.params) t.pen }, [])
  | 0x68 =>
    if t.isPrivate ∧ t.param = 1049 then
      ({ t with savedCx := t.cx, savedCy := t.cy, cx := 0, cy := 0 }, eraseRows rows cols 0)
    else (t, [])
  | 0x6C =>
    if t.isPrivate ∧ t.param = 1049 then
      ({ t with cx := t.savedCx, cy := t.savedCy }, eraseRows rows cols 0)
    else (t, [])
  | _ => (t, [])

def csiByte (t : Ctl) (ch : Nat) : Ctl × List GridOp :=
  let slot := t.nparam - 1
  if ch = 0x3F ∧ t.nparam = 0 then ({ t with isPrivate := true }, [])
  else if 0x30 ≤ ch ∧ ch ≤ 0x39 then
    ({ t with nparam := max 1 t.nparam
              params := update t.params slot (int32 (t.params slot * 10 + (ch - 0x30 : Nat))) }, [])
  else if ch = 0x3B then
    if t.nparam < 8 then
      ({ t with nparam := t.nparam + 1, params := update t.params t.nparam 0 }, [])
    else (t, [])
  else
    let (u, ops) := if 0x40 ≤ ch ∧ ch ≤ 0x7E then termCsi rows cols sgr t ch else (t, [])
    ({ u with esc := .normal, isPrivate := false }, ops)

def normalByte (t : Ctl) (ch : Nat) : Ctl × List GridOp :=
  if ch = 0x1B then ({ t with esc := .esc }, [])
  else if ch = 0x0A then lineFeed rows t
  else if ch = 0x0D then ({ t with cx := 0 }, [])
  else if ch = 0x08 ∨ ch = 0x7F then ({ t with cx := if 0 < t.cx then t.cx - 1 else t.cx }, [])
  else if ch = 0x09 then
    let cx := int32 (t.cx + 8) / 8 * 8
    if cols ≤ cx then lineFeed rows { t with cx := 0 } else ({ t with cx := cx }, [])
  else if 0x20 ≤ ch ∧ ch ≤ 0x7E then
    let cx := int32 (t.cx + 1)
    let (u, ops) :=
      if cols ≤ cx then lineFeed rows { t with cx := 0 } else ({ t with cx := cx }, [])
    (u, .put t.cy t.cx ⟨ch, t.pen⟩ :: ops)
  else (t, [])

/-- One turn of the loop of `terminal_write`. -/
def writeByte (t : Ctl) (ch : Nat) : Ctl × List GridOp :=
  match t.esc with
  | .normal => normalByte rows cols t ch
  | .esc =>
    if ch = 0x5B then
      ({ t with esc := .csi, nparam := 0, isPrivate := false
                params := update (update t.params 0 0) 1 0 }, [])
    else ({ t with esc := .normal }, [])
  | .csi => csiByte rows cols sgr t ch

/-- A cursor movement down or to the right stays in the range of an int. -/
def Kept (t : Ctl) (ch : Nat) : Prop :=
  t.esc = .csi → (ch = 0x42 → t.cy + t.distance < 2 ^ 31) ∧ (ch = 0x43 → t.cx + t.distance < 2 ^ 31)
  deriving Decidable

/-! ### The cursor -/

/-- The array has fewer than 2^31 cells, as the product that `term_priv_alloc` passes to calloc
needs, and the sums of rows stay in the range of an int. -/
structure Fits : Prop where
  height : 0 < rows
  width : 0 < cols
  cells : (rows + scrollbackLines) * cols < 2 ^ 31
  sums : 2 * rows + scrollbackLines ≤ 2 ^ 31

structure InGrid (t : Ctl) : Prop where
  cx : 0 ≤ t.cx ∧ t.cx < cols
  cy : 0 ≤ t.cy ∧ t.cy < rows
  savedCx : 0 ≤ t.savedCx ∧ t.savedCx < cols
  savedCy : 0 ≤ t.savedCy ∧ t.savedCy < rows
  params : ∀ k, - 2 ^ 31 ≤ t.params k ∧ t.params k < 2 ^ 31

def GridOp.Inside : GridOp → Prop
  | .put r c _ => (0 ≤ r ∧ r < rows) ∧ 0 ≤ c ∧ c < cols
  | .scroll => True

end

theorem int32_of_range {x : Int} (hl : - 2 ^ 31 ≤ x) (hu : x < 2 ^ 31) : int32 x = x :=
  Int.bmod_eq_of_le hl hu

theorem int32_range (x : Int) : - 2 ^ 31 ≤ int32 x ∧ int32 x < 2 ^ 31 :=
  ⟨Int.le_bmod (by decide), Int.bmod_lt (by decide)⟩

section

variable {rows cols : Int} {sgr : List Int → Pen → Pen} {t : Ctl} {ch : Nat}

theorem mem_upTo {a b x : Int} : x ∈ upTo a b ↔ a ≤ x ∧ x < b := by
  simp only [upTo, mem_map, mem_range]
  exact ⟨by rintro ⟨k, hk, rfl⟩; omega, fun h => ⟨(x - a).toNat, by omega, by omega⟩⟩

theorem eraseRow_inside {r a : Int} (hr : 0 ≤ r ∧ r < rows) (ha : 0 ≤ a) :
    ∀ op ∈ eraseRow cols r a, op.Inside rows cols := by
  intro op ho
  obtain ⟨c, hc, rfl⟩ := mem_map.mp ho
  have := mem_upTo.mp hc
  exact ⟨hr, by omega⟩

theorem eraseRows_inside {a : Int} (ha : 0 ≤ a) :
    ∀ op ∈ eraseRows rows cols a, op.Inside rows cols := by
  intro op ho
  obtain ⟨r, hr, ho⟩ := mem_flatMap.mp ho
  have := mem_upTo.mp hr
  exact eraseRow_inside (by omega) (by omega) op ho

theorem lineFeed_inside (t : Ctl) : ∀ op ∈ (lineFeed rows t).2, op.Inside rows cols := by
  rw [lineFeed]
  split_ifs <;> simp [GridOp.Inside]

variable (h : InGrid rows cols t)
include h

theorem termCsi_inside : ∀ op ∈ (termCsi rows cols sgr t ch).2, op.Inside rows cols := by
  have all : ∀ op ∈ eraseRows rows cols 0, op.Inside rows cols := eraseRows_inside (by omega)
  have row : ∀ op ∈ eraseRow cols t.cy 0, op.Inside rows cols := eraseRow_inside h.cy (by omega)
  have tail : ∀ op ∈ eraseRow cols t.cy t.cx, op.Inside rows cols := eraseRow_inside h.cy h.cx.1
  have below : ∀ op ∈ eraseRows rows cols (t.cy + 1), op.Inside rows cols :=
    eraseRows_inside (by have := h.cy; omega)
  unfold termCsi
  split <;> try split_ifs
  all_goals first
    | exact forall_mem_nil _
    | assumption
    | exact fun op ho => (mem_append.mp ho).elim (tail op) (below op)

theorem normalByte_inside : ∀ op ∈ (normalByte rows cols t ch).2, op.Inside rows cols := by
  have here : GridOp.Inside rows cols (.put t.cy t.cx ⟨ch, t.pen⟩) := ⟨h.cy, h.cx⟩
  unfold normalByte
  dsimp only
  split_ifs
  all_goals first
    | exact forall_mem_nil _
    | exact lineFeed_inside _
    | exact forall_mem_cons.mpr ⟨here, lineFeed_inside _⟩
    | exact forall_mem_cons.mpr ⟨here, forall_mem_nil _⟩

theorem writeByte_inside : ∀ op ∈ (writeByte rows cols sgr t ch).2, op.Inside rows cols := by
  unfold writeByte
  split
  · exact normalByte_inside h
  · split_ifs <;> exact forall_mem_nil _
  unfold csiByte
  dsimp only
  split_ifs
  all_goals first
    | exact forall_mem_nil _
    | exact termCsi_inside h

theorem InGrid.setParam {k n : Nat} {x : Int} (hx : - 2 ^ 31 ≤ x ∧ x < 2 ^ 31) :
    InGrid rows cols { t with nparam := n, params := update t.params k x } := by
  refine { h with params := ?_ }
  exact (forall_update_iff t.params fun _ y => - 2 ^ 31 ≤ y ∧ y < 2 ^ 31).mpr
    ⟨hx, fun j _ => h.params j⟩

variable (fits : Fits rows cols)
include fits

omit h in
theorem Fits.bounds : rows < 2 ^ 31 ∧ cols < 2 ^ 30 := by
  obtain ⟨hr, hc, cells, sums⟩ := fits
  rw [scrollbackLines] at *
  constructor <;> nlinarith

theorem InGrid.lineFeed : InGrid rows cols (lineFeed rows t).1 := by
  have := h.cy
  have := (fits.bounds).1
  rw [Terminal.lineFeed, int32_of_range (by omega) (by omega)]
  split_ifs <;> exact { h with cy := by dsimp only; omega }

theorem InGrid.termCsi (kept : Kept t ch) (csi : t.esc = .csi) :
    InGrid rows cols (termCsi rows cols sgr t ch).1 := by
  have hx := h.cx
  have hy := h.cy
  have := fits.bounds
  have hd : 1 ≤ t.distance ∧ t.distance < 2 ^ 31 := by
    have := h.params 0
    rw [Ctl.distance, Ctl.param]
    split_ifs <;> omega
  have zx : 0 ≤ (0 : Int) ∧ 0 < cols := by omega
  have zy : 0 ≤ (0 : Int) ∧ 0 < rows := by omega
  obtain ⟨down, right⟩ := kept csi
  unfold Terminal.termCsi
  split
  · rw [int32_of_range (by omega) (by omega)]
    exact { h with cy := by dsimp only; omega }
  · rw [int32_of_range (by omega) (down rfl)]
    exact { h with cy := by dsimp only; omega }
  · rw [int32_of_range (by omega) (right rfl)]
    exact { h with cx := by dsimp only; omega }
  · rw [int32_of_range (by omega) (by omega)]
    exact { h with cx := by dsimp only; omega }
  · exact { h with cx := by dsimp only; omega, cy := by dsimp only; omega }
  · exact { h with cx := by dsimp only; omega, cy := by dsimp only; omega }
  · split_ifs
    · exact { h with cx := zx, cy := zy }
    · exact h
    · exact h
  · split_ifs <;> exact h
  · exact { h with }
  · split_ifs
    · exact ⟨zx, zy, hx, hy, h.params⟩
    · exact h
  · split_ifs
    · exact { h with cx := h.savedCx, cy := h.savedCy }
    · exact h
  · exact h

theorem InGrid.normalByte : InGrid rows cols (normalByte rows cols t ch).1 := by
  have hx := h.cx
  have := fits.bounds
  have home : InGrid rows cols { t with cx := 0 } := { h with cx := by dsimp only; omega }
  unfold Terminal.normalByte
  rw [int32_of_range (by omega) (by omega), int32_of_range (by omega) (by omega)]
  dsimp only
  split_ifs
  all_goals first
    | exact h
    | exact h.lineFeed fits
    | exact home.lineFeed fits
    | exact { h with }
    | exact { h with cx := by dsimp only; omega }

theorem InGrid.writeByte (kept : Kept t ch) :
    InGrid rows cols (writeByte rows cols sgr t ch).1 := by
  unfold Terminal.writeByte
  split
  next => exact h.normalByte fits
  next =>
    split_ifs
    · exact { (h.setParam (n := 0) (int32_range 0)).setParam (n := 0) (int32_range 0) with }
    · exact { h with }
  next csi =>
    unfold csiByte
    dsimp only
    split_ifs
    · exact { h with }
    · exact h.setParam (int32_range _)
    · exact h.setParam (int32_range 0)
    · exact h
    · exact { h.termCsi fits kept csi with }
    · exact { h with }

end

/-! ### The ring and the screen -/

structure Ring where
  grid : Int → Cell
  scrollTop : Int

/-- The screen, and the lines that have scrolled off its top, the newest first. -/
structure Screen where
  cell : Int → Int → Cell
  off : List (Int → Cell)

section

variable (rows cols : Int)

/-- The C remainder, made positive, as in `grid_cell`. -/
def Ring.ringRow (g : Ring) (i : Int) : Int :=
  let row := (int32 (g.scrollTop + i)).tmod (rows + scrollbackLines)
  if row < 0 then row + (rows + scrollbackLines) else row

def Ring.index (g : Ring) (r c : Int) : Int := int32 (g.ringRow rows r * cols + c)

def gridCell (g : Ring) (scrollOffset r c : Int) : Cell :=
  g.grid (g.index rows cols (r - scrollOffset) c)

def Ring.nextTop (g : Ring) : Int := (int32 (g.scrollTop + 1)).tmod (rows + scrollbackLines)

def Ring.newBottom (g : Ring) : Int :=
  (int32 (g.nextTop rows + rows - 1)).tmod (rows + scrollbackLines)

/-- The cells of the array that an operation stores to. -/
def GridOp.Writes (g : Ring) (i : Int) : GridOp → Prop
  | .put r c _ => i = g.index rows cols r c
  | .scroll => int32 (g.newBottom rows * cols) ≤ i ∧ i < int32 (g.newBottom rows * cols) + cols

def termScroll (g : Ring) : Ring :=
  let row := int32 (g.newBottom rows * cols)
  ⟨fun i => if row ≤ i ∧ i < row + cols then blank else g.grid i, g.nextTop rows⟩

def Ring.apply (g : Ring) : GridOp → Ring
  | .put r c cell => { g with grid := update g.grid (g.index rows cols r c) cell }
  | .scroll => termScroll rows cols g

def Screen.apply (s : Screen) : GridOp → Screen
  | .put r c cell => { s with cell := fun i d => if i = r ∧ d = c then cell else s.cell i d }
  | .scroll => ⟨fun r => if r = rows - 1 then fun _ => blank else s.cell (r + 1), s.cell 0 :: s.off⟩

end

/-- A line of the screen, or above it (a negative number) one that has scrolled off. -/
def Screen.line (s : Screen) (i : Int) : Int → Cell :=
  if 0 ≤ i then s.cell i else s.off.getD (-i - 1).toNat fun _ => blank

structure Shows (rows cols : Int) (g : Ring) (s : Screen) : Prop where
  top : 0 ≤ g.scrollTop ∧ g.scrollTop < rows + scrollbackLines
  cells : ∀ i c, - scrollbackLines ≤ i → i < rows → 0 ≤ c → c < cols →
    g.grid (g.index rows cols i c) = s.line i c

section

variable {rows cols : Int} {g : Ring} {s : Screen}

theorem tmod_of_nonneg {a b : Int} (ha : 0 ≤ a) : a.tmod b = a % b := by
  rw [Int.tmod_eq_emod, if_pos (.inl ha)]
  simp

theorem flat_inj {p q c d : Int} (hc : 0 ≤ c ∧ c < cols) (hd : 0 ≤ d ∧ d < cols)
    (same : p * cols + c = q * cols + d) : p = q ∧ c = d := by
  have row : p = q := by
    rcases lt_trichotomy p q with lt | eq | gt
    · nlinarith
    · exact eq
    · nlinarith
  exact ⟨row, by rw [row] at same; omega⟩

theorem line_put {r c : Int} {cell : Cell} (hr : 0 ≤ r) (i d : Int) :
    (s.apply rows (.put r c cell)).line i d = if i = r ∧ d = c then cell else s.line i d := by
  simp only [Screen.apply, Screen.line]
  by_cases hi : 0 ≤ i
  · simp only [if_pos hi]
  · simp only [if_neg hi, show ¬ (i = r ∧ d = c) by omega, if_false]

theorem line_scroll {i : Int} (hi : i < rows - 1) :
    (s.apply rows .scroll).line i = s.line (i + 1) := by
  simp only [Screen.apply, Screen.line]
  rcases lt_trichotomy i (-1) with lt | rfl | gt
  · have next : (-i - 1).toNat = (-(i + 1) - 1).toNat + 1 := by omega
    rw [if_neg (by omega), if_neg (by omega), next, getD_cons_succ]
  · rfl
  · rw [if_pos (show 0 ≤ i by omega), if_neg (by omega), if_pos (by omega)]

theorem emod_range {x : Int} (pos : 0 < rows) : 0 ≤ x % rows ∧ x % rows < rows :=
  ⟨Int.emod_nonneg x pos.ne', Int.emod_lt_of_pos x pos⟩

/-- The rows that the view and the output reach, and the one below the screen. -/
def Near (rows i : Int) : Prop := - scrollbackLines ≤ i ∧ i ≤ rows

theorem near_of_nonneg {r : Int} (low : 0 ≤ r) (high : r ≤ rows) : Near rows r :=
  ⟨by rw [scrollbackLines]; omega, high⟩

variable (fits : Fits rows cols)
include fits

section
variable (top : 0 ≤ g.scrollTop ∧ g.scrollTop < rows + scrollbackLines) {i c : Int}
  (near : Near rows i)
include top

theorem nextTop_eq : g.nextTop rows = (g.scrollTop + 1) % (rows + scrollbackLines) := by
  have sums := fits.sums
  rw [scrollbackLines] at *
  rw [Ring.nextTop, int32_of_range (by omega) (by omega), tmod_of_nonneg (by omega), scrollbackLines]

include near

theorem ringRow_eq : g.ringRow rows i = (g.scrollTop + i) % (rows + scrollbackLines) := by
  have sums := fits.sums
  have range := @emod_range (rows + scrollbackLines) (g.scrollTop + i) (by omega)
  rw [Near, scrollbackLines] at *
  rw [Ring.ringRow, int32_of_range (by omega) (by omega), Int.tmod_eq_emod, scrollbackLines]
  split_ifs <;> omega

theorem ringRow_inj {j : Int} (other : Near rows j) (apart : |i - j| < rows + scrollbackLines)
    (same : g.ringRow rows i = g.ringRow rows j) : i = j := by
  rw [ringRow_eq fits top near, ringRow_eq fits top other, Int.emod_eq_emod_iff_emod_sub_eq_zero,
    add_sub_add_left_eq_sub] at same
  exact sub_eq_zero.mp (Int.eq_zero_of_abs_lt_dvd (Int.dvd_of_emod_eq_zero same) apart)

theorem index_range (hc : 0 ≤ c ∧ c < cols) : 0 ≤ g.ringRow rows i * cols + c ∧
    g.ringRow rows i * cols + c < (rows + scrollbackLines) * cols := by
  have range := @emod_range (rows + scrollbackLines) (g.scrollTop + i) (by omega)
  rw [ringRow_eq fits top near]
  constructor <;> nlinarith

theorem index_eq (hc : 0 ≤ c ∧ c < cols) :
    g.index rows cols i c = g.ringRow rows i * cols + c := by
  have range := index_range fits top near hc
  have cells := fits.cells
  exact int32_of_range (by omega) (by omega)

omit near

theorem newBottom_eq : int32 (g.newBottom rows * cols) = g.ringRow rows rows * cols := by
  have sums := fits.sums
  have height := fits.height
  have below : Near rows rows := near_of_nonneg height.le le_rfl
  have range := @emod_range (rows + scrollbackLines) (g.scrollTop + 1) (by omega)
  have eq : g.newBottom rows = g.ringRow rows rows := by
    rw [ringRow_eq fits top below, Ring.newBottom, nextTop_eq fits top,
      int32_of_range (by omega) (by omega), tmod_of_nonneg (by omega), add_sub_assoc,
      Int.emod_add_emod]
    congr 1
    omega
  have start := index_eq fits top below ⟨le_rfl, fits.width⟩
  rw [Ring.index, add_zero] at start
  rw [eq, start]

end

variable (h : Shows rows cols g s)
include h

theorem Shows.put {r c : Int} {cell : Cell} (inside : GridOp.Inside rows cols (.put r c cell)) :
    Shows rows cols (g.apply rows cols (.put r c cell)) (s.apply rows (.put r c cell)) := by
  obtain ⟨hr, hc⟩ := inside
  refine ⟨h.top, fun i d low high hd₀ hd => ?_⟩
  rw [line_put hr.1]
  split_ifs with here
  · rw [here.1, here.2]
    exact update_self ..
  rw [← h.cells i d low high hd₀ hd]
  refine update_of_ne (fun same : g.index rows cols i d = g.index rows cols r c => here ?_) ..
  have near : Near rows i := ⟨low, high.le⟩
  have other := near_of_nonneg hr.1 hr.2.le
  rw [index_eq fits h.top near ⟨hd₀, hd⟩, index_eq fits h.top other hc] at same
  obtain ⟨row, col⟩ := flat_inj ⟨hd₀, hd⟩ hc same
  refine ⟨ringRow_inj fits h.top near other ?_ row, col⟩
  rw [scrollbackLines] at *
  exact abs_lt.mpr (by omega)

theorem Shows.scroll : Shows rows cols (g.apply rows cols .scroll) (s.apply rows .scroll) := by
  have top := h.top
  have next : (g.apply rows cols .scroll).scrollTop = _ := nextTop_eq fits top
  have after : 0 ≤ (g.apply rows cols .scroll).scrollTop ∧
      (g.apply rows cols .scroll).scrollTop < rows + scrollbackLines := by
    rw [next]
    exact emod_range (by omega)
  refine ⟨after, fun i c low high hc₀ hc => ?_⟩
  have near : Near rows i := ⟨low, high.le⟩
  have above : Near rows (i + 1) := ⟨by omega, high⟩
  have moved : (g.apply rows cols .scroll).ringRow rows i = g.ringRow rows (i + 1) := by
    rw [ringRow_eq fits after near, ringRow_eq fits top above, next, Int.emod_add_emod, add_assoc,
      add_comm 1 i]
  rw [index_eq fits after near ⟨hc₀, hc⟩, moved]
  show (if _ ∧ _ then blank else g.grid (g.ringRow rows (i + 1) * cols + c)) = _
  rw [newBottom_eq fits top]
  by_cases last : i = rows - 1
  · rw [last, sub_add_cancel, if_pos (by omega)]
    simp [Screen.apply, Screen.line, show 1 ≤ rows from fits.height]
  rw [if_neg, line_scroll (by omega), ← index_eq fits top above ⟨hc₀, hc⟩]
  · exact h.cells (i + 1) c (by omega) (by omega) hc₀ hc
  intro within
  have row := (flat_inj (p := g.ringRow rows (i + 1)) (q := g.ringRow rows rows) ⟨hc₀, hc⟩
    (d := g.ringRow rows (i + 1) * cols + c - g.ringRow rows rows * cols) (by omega)
    (by omega)).1
  have := ringRow_inj fits top above (near_of_nonneg fits.height.le le_rfl)
    (by rw [scrollbackLines] at *; exact abs_lt.mpr (by omega)) row
  omega

theorem Shows.applyAll {ops : List GridOp} (inside : ∀ op ∈ ops, op.Inside rows cols) :
    Shows rows cols (ops.foldl (Ring.apply rows cols) g) (ops.foldl (Screen.apply rows) s) := by
  induction ops generalizing g s with
  | nil => exact h
  | cons op ops ih =>
    obtain ⟨here, later⟩ := forall_mem_cons.mp inside
    refine ih ?_ later
    cases op with
    | put => exact h.put fits here
    | scroll => exact h.scroll fits

theorem writes_inside {op : GridOp} (inside : op.Inside rows cols) {i : Int}
    (writes : op.Writes rows cols g i) : 0 ≤ i ∧ i < (rows + scrollbackLines) * cols := by
  cases op with
  | put r c =>
    obtain ⟨hr, hc⟩ := inside
    have near := near_of_nonneg hr.1 hr.2.le
    rw [GridOp.Writes, index_eq fits h.top near hc] at writes
    exact writes ▸ index_range fits h.top near hc
  | scroll =>
    rw [GridOp.Writes, newBottom_eq fits h.top] at writes
    have last := index_range fits h.top (near_of_nonneg fits.height.le le_rfl)
      (c := i - g.ringRow rows rows * cols) (by omega)
    omega

omit fits h in
theorem applyAll_off (ops : List GridOp) (s : Screen) :
    s.off <:+ (ops.foldl (Screen.apply rows) s).off := by
  induction ops generalizing s with
  | nil => exact suffix_rfl
  | cons op ops ih =>
    refine .trans ?_ (ih _)
    cases op with
    | put => exact suffix_rfl
    | scroll => exact suffix_cons ..

end

/-! ### Whole outputs -/

structure Emulator where
  ctl : Ctl
  ring : Ring
  screen : Screen

def created : Emulator := ⟨termPrivAlloc, ⟨fun _ => blank, 0⟩, ⟨fun _ _ => blank, []⟩⟩

def terminalWrite (rows cols : Int) (sgr : List Int → Pen → Pen) (e : Emulator) (ch : Nat) :
    Option Emulator :=
  let (ctl, ops) := writeByte rows cols sgr e.ctl ch
  some ⟨ctl, ops.foldl (Ring.apply rows cols) e.ring, ops.foldl (Screen.apply rows) e.screen⟩

section

variable {rows cols : Int} {sgr : List Int → Pen → Pen} {bytes : List Nat} {e : Emulator}

structure Sound (rows cols : Int) (e : Emulator) : Prop where
  cursor : InGrid rows cols e.ctl
  shows : Shows rows cols e.ring e.screen

theorem Sound.created (fits : Fits rows cols) : Sound rows cols created := by
  have hx : 0 ≤ (0 : Int) ∧ 0 < cols := ⟨le_rfl, fits.width⟩
  have hy : 0 ≤ (0 : Int) ∧ 0 < rows := ⟨le_rfl, fits.height⟩
  have top : 0 ≤ (0 : Int) ∧ 0 < rows + scrollbackLines := by rw [scrollbackLines]; omega
  refine ⟨⟨hx, hy, hx, hy, fun _ => int32_range 0⟩, top, fun i c _ _ _ _ => ?_⟩
  rw [Screen.line]
  split_ifs <;> rfl

theorem run_sound (fits : Fits rows cols)
    (run : RunWhere (terminalWrite rows cols sgr) (fun e => Kept e.ctl) created bytes e) :
    Sound rows cols e := by
  refine run.invariant (.created fits) fun e ch _ inv kept steps => ?_
  cases steps
  exact ⟨inv.cursor.writeByte fits kept,
    inv.shows.applyAll fits (writeByte_inside inv.cursor)⟩

theorem cursor_in_grid (fits : Fits rows cols)
    (run : RunWhere (terminalWrite rows cols sgr) (fun e => Kept e.ctl) created bytes e) :
    (0 ≤ e.ctl.cx ∧ e.ctl.cx < cols) ∧ (0 ≤ e.ctl.cy ∧ e.ctl.cy < rows) ∧
      ∀ ch, ∀ op ∈ (writeByte rows cols sgr e.ctl ch).2, ∀ i, op.Writes rows cols e.ring i →
        0 ≤ i ∧ i < (rows + scrollbackLines) * cols := by
  have inv := run_sound fits run
  refine ⟨inv.cursor.cx, inv.cursor.cy, fun ch op ho i => ?_⟩
  exact writes_inside fits inv.shows (writeByte_inside inv.cursor op ho)

def scrolls : List Nat := [0x61, 0x1B, 0x5B, 0x33, 0x42, 0x0A, 0x62]

theorem cursor_in_grid_scrolls : ∃ e, RunWhere (terminalWrite 2 3 fun _ => id)
      (fun e => Kept e.ctl) created scrolls e ∧ e.ctl.cx = 2 ∧ 0 ≤ e.ctl.cy ∧ e.ctl.cy < 2 :=
  exists_runWhere_of (fun e => e.ctl.cx = 2) fun _ run hx =>
    ⟨hx, (cursor_in_grid ⟨by decide, by decide, by decide, by decide⟩ run).2.1⟩

/-- The cursor is moved down by 2^31 - 1 lines, twice. -/
def farDown : List Nat :=
  let csi := [0x1B, 0x5B, 0x32, 0x31, 0x34, 0x37, 0x34, 0x38, 0x33, 0x36, 0x34, 0x37, 0x42]
  csi ++ csi

theorem cursor_leaves_grid : ∃ e, Run (terminalWrite 2 3 fun _ => id) created farDown e ∧
    e.ctl.cy = - 2 ^ 31 :=
  exists_run

theorem off_grows {start : Emulator}
    (run : RunWhere (terminalWrite rows cols sgr) (fun e => Kept e.ctl) start bytes e) :
    start.screen.off <:+ e.screen.off := by
  induction run with
  | nil => exact suffix_rfl
  | snoc _ _ steps grown =>
    cases steps
    exact grown.trans (applyAll_off ..)

theorem scrollback_shown (fits : Fits rows cols)
    (run : RunWhere (terminalWrite rows cols sgr) (fun e => Kept e.ctl) created bytes e) :
    (∀ o r c, 0 ≤ o → o ≤ scrollbackLines → 0 ≤ r → r < rows → 0 ≤ c → c < cols →
      gridCell rows cols e.ring o r c = e.screen.line (r - o) c) ∧
    ∀ more later, RunWhere (terminalWrite rows cols sgr) (fun e => Kept e.ctl) e more later →
      e.screen.off <:+ later.screen.off := by
  refine ⟨fun o r c ho ho' hr hr' hc hc' => ?_, fun _ _ => off_grows⟩
  have inv := run_sound fits run
  exact inv.shows.cells (r - o) c (by omega) (by omega) hc hc'

theorem scrollback_shown_scrolls : ∃ e, RunWhere (terminalWrite 2 3 fun _ => id)
      (fun e => Kept e.ctl) created scrolls e ∧ e.screen.line (-1) 0 = ⟨0x61, defaultPen⟩ ∧
      gridCell 2 3 e.ring 1 0 0 = e.screen.line (-1) 0 :=
  exists_runWhere_of (fun e => e.screen.line (-1) 0 = ⟨0x61, defaultPen⟩)
    fun _ run hl => ⟨hl, (scrollback_shown ⟨by decide, by decide, by decide, by decide⟩ run).1
      1 0 0 (by decide) (by decide) (by decide) (by decide) (by decide) (by decide)⟩

/-- With the cursor out of the screen a letter goes to a line above it. -/
theorem scrollback_altered :
    ∃ e, Run (terminalWrite 2 3 fun _ => id) created (farDown ++ [0x61]) e ∧
      gridCell 2 3 e.ring 438 0 0 ≠ e.screen.line (0 - 438) 0 :=
  exists_run

end

end Aegis.Terminal
