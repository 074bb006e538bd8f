import Aegis.Terminal
import Mathlib.Data.List.DropRight

/-! The selection of the terminal window: the cells that `cell_in_sel` highlights, and the text that
`terminal_copy_selection` takes from them. -/

namespace Aegis.Terminal

open List

structure Selection where
  active : Bool
  startRow : Int
  startCol : Int
  endRow : Int
  endCol : Int

/-- The rows and columns from the first to the last selected cell. -/
structure Span where
  sr : Int
  sc : Int
  er : Int
  ec : Int

def selNormalize (s : Selection) : Span :=
  if s.endRow < s.startRow ∨ s.startRow = s.endRow ∧ s.endCol < s.startCol then
    ⟨s.endRow, s.endCol, s.startRow, s.startCol⟩
  else ⟨s.startRow, s.startCol, s.endRow, s.endCol⟩

def Span.cellInSel (p : Span) (r c : Int) : Bool :=
  if r < p.sr ∨ p.er < r then false
  else if r = p.sr ∧ r = p.er then p.sc ≤ c ∧ c ≤ p.ec
  else if r = p.sr then p.sc ≤ c
  else if r = p.er then c ≤ p.ec
  else true

section

variable (cols : Int) (ch : Int → Int → Nat)

def store (room : Nat) (buf : List Nat) : List Nat → List Nat
  | [] => buf
  | x :: text => if buf.length < room then store room (buf ++ [x]) text else buf

def lastNonspace (r cStart cEnd : Int) : Int :=
  ((upTo cStart (cEnd + 1)).reverse.find? fun c => ch r c != 0x20).getD (cStart - 1)

def copyRow (p : Span) (room : Nat) (buf : List Nat) (r : Int) : List Nat :=
  let cStart := if r = p.sr then p.sc else 0
  let cEnd := if r = p.er then p.ec else cols - 1
  let buf := store room buf ((upTo cStart (lastNonspace ch r cStart cEnd + 1)).map (ch r))
  if r < p.er ∧ buf.length < room then buf ++ [0x0A] else buf

def copyRows (p : Span) (room : Nat) (buf : List Nat) : List Int → List Nat
  | [] => buf
  | r :: rest => if buf.length < room then copyRows p room (copyRow cols ch p room buf r) rest else buf

/-- The bytes written and the length returned. -/
def terminalCopySelection (s : Selection) (max : Int) : List Nat × Nat :=
  if max ≤ 0 ∨ ¬ s.active then ([], 0)
  else
    let p := selNormalize s
    let buf := copyRows cols ch p (max - 1).toNat [] (upTo p.sr (p.er + 1))
    (buf ++ [0], buf.length)

/-- What is highlighted of a row, and the text of all rows of which something is. -/
def highlighted (p : Span) (r : Int) : List Nat :=
  (((upTo 0 cols).filter (p.cellInSel r)).map (ch r)).rdropWhile (· == 0x20)

def highlightedText (rows : Int) (p : Span) : List Nat :=
  intercalate [0x0A] (((upTo 0 rows).filter fun r => (upTo 0 cols).any (p.cellInSel r)).map
    (highlighted cols ch p))

end

section

variable {rows cols : Int} {ch : Int → Int → Nat} {p : Span} {room : Nat} {buf : List Nat}

theorem store_eq (text : List Nat) (hb : buf.length ≤ room) :
    store room buf text = (buf ++ text).take room := by
  induction text generalizing buf with
  | nil => rw [store, append_nil, take_of_length_le hb]
  | cons x text ih =>
    rw [store]
    split_ifs with h
    · rw [ih (by simpa using Nat.succ_le_of_lt h), append_assoc, singleton_append]
    · rw [take_append_of_le_length (by omega), take_of_length_le hb]

theorem upTo_eq_append {a m b : Int} (ha : a ≤ m) (hb : m ≤ b) :
    upTo a b = upTo a m ++ upTo m b := by
  have split : (b - a).toNat = (m - a).toNat + (b - m).toNat := by omega
  rw [upTo, split, range_add, map_append, map_map]
  refine congrArg₂ _ rfl (map_congr_left fun k _ => ?_)
  simp only [Function.comp]
  omega

theorem upTo_nil {a b : Int} (h : b ≤ a) : upTo a b = [] := by
  rw [upTo, Int.toNat_of_nonpos (by omega)]
  rfl

theorem upTo_succ {a b : Int} (h : a ≤ b) : upTo a (b + 1) = upTo a b ++ [b] := by
  rw [upTo_eq_append h (by omega), upTo.eq_def b, show (b + 1 - b).toNat = 1 by omega]
  simp

theorem upTo_cons {a b : Int} (h : a < b) : upTo a b = a :: upTo (a + 1) b := by
  rw [upTo_eq_append (show a ≤ a + 1 by omega) (by omega), upTo_succ le_rfl, upTo_nil le_rfl]
  rfl

theorem trimmed_eq (ch : Int → Int → Nat) (r a : Int) (n : Nat) :
    (upTo a (lastNonspace ch r a (a + n - 1) + 1)).map (ch r) =
      ((upTo a (a + n)).map (ch r)).rdropWhile (· == 0x20) := by
  induction n with
  | zero => simp [lastNonspace, upTo_nil]
  | succ n ih =>
    have last : upTo a (a + (n + 1 : Nat)) = upTo a (a + n) ++ [a + n] := by
      rw [← upTo_succ (by omega), Nat.cast_succ, add_assoc]
    have cells : upTo a (a + (n + 1 : Nat) - 1 + 1) = upTo a (a + n) ++ [a + n] := by
      rw [sub_add_cancel, last]
    rw [lastNonspace, cells, last, reverse_append, map_append, map_singleton, rdropWhile_concat]
    rw [lastNonspace, sub_add_cancel] at ih
    by_cases space : ch r (a + n) = 0x20
    · simpa [space] using ih
    · simp [space, upTo_succ]

theorem filter_upTo {f : Int → Bool} {a b n : Int} (ha : 0 ≤ a) (hd : a ≤ b) (hb : b ≤ n)
    (hf : ∀ c, 0 ≤ c → c < n → (f c = true ↔ a ≤ c ∧ c < b)) : (upTo 0 n).filter f = upTo a b := by
  rw [upTo_eq_append ha (hd.trans hb), upTo_eq_append hd hb, filter_append, filter_append,
    filter_eq_nil_iff.mpr, filter_eq_self.mpr, filter_eq_nil_iff.mpr, nil_append, append_nil]
  all_goals
    intro c hc
    have := mem_upTo.mp hc
    rw [hf c (by omega) (by omega)]
    omega

/-- Both corners lie in the grid, and the first is not after the last. -/
structure Span.Inside (rows cols : Int) (p : Span) : Prop where
  first : 0 ≤ p.sr ∧ 0 ≤ p.sc ∧ p.sc < cols
  last : p.er < rows ∧ 0 ≤ p.ec ∧ p.ec < cols
  ordered : p.sr < p.er ∨ p.sr = p.er ∧ p.sc ≤ p.ec

theorem cellInSel_iff {r c : Int} (hr : p.sr ≤ r ∧ r ≤ p.er) (hc : 0 ≤ c ∧ c < cols) :
    p.cellInSel r c = true ↔
      (if r = p.sr then p.sc else 0) ≤ c ∧ c < (if r = p.er then p.ec else cols - 1) + 1 := by
  rw [Span.cellInSel, if_neg (by omega)]
  split_ifs <;> simp only [decide_eq_true_eq, true_iff] <;> omega

theorem take_take_append (a b : List Nat) (n : Nat) : (a.take n ++ b).take n = (a ++ b).take n := by
  rw [take_append, take_append, take_take, min_self, length_take]
  congr 2
  omega

section

variable (h : p.Inside rows cols)
include h

theorem highlighted_eq {r : Int} (hr : p.sr ≤ r ∧ r ≤ p.er) :
    (upTo (if r = p.sr then p.sc else 0) (lastNonspace ch r (if r = p.sr then p.sc else 0)
      (if r = p.er then p.ec else cols - 1) + 1)).map (ch r) = highlighted cols ch p r := by
  have := h.first
  have := h.last
  have := h.ordered
  rw [highlighted, filter_upTo (a := if r = p.sr then p.sc else 0) (by split_ifs <;> omega)
    (b := (if r = p.er then p.ec else cols - 1) + 1) (by split_ifs <;> omega)
    (by split_ifs <;> omega) fun c hc hn => cellInSel_iff hr ⟨hc, hn⟩]
  generalize ha : (if r = p.sr then p.sc else 0) = a
  generalize hb : (if r = p.er then p.ec else cols - 1) = b
  have row := trimmed_eq ch r a (b + 1 - a).toNat
  rwa [show a + ((b + 1 - a).toNat : Int) = b + 1 by split_ifs at ha hb <;> omega,
    add_sub_cancel_right] at row

theorem copyRow_eq {r : Int} (hr : p.sr ≤ r ∧ r ≤ p.er) (hb : buf.length ≤ room) :
    copyRow cols ch p room buf r =
      (buf ++ highlighted cols ch p r ++ if r < p.er then [0x0A] else []).take room := by
  rw [copyRow, highlighted_eq h hr, store_eq _ hb]
  generalize buf ++ highlighted cols ch p r = text
  by_cases hl : r < p.er
  · have line := store_eq [0x0A] (length_take_le room text)
    rw [take_take_append] at line
    simpa [hl, store] using line
  · simp [hl]

theorem copyRows_eq {n : Nat} {r : Int} (hr : p.sr ≤ r) (hn : r + n = p.er)
    (hb : buf.length ≤ room) :
    copyRows cols ch p room buf (upTo r (p.er + 1)) =
      (buf ++ intercalate [0x0A] ((upTo r (p.er + 1)).map (highlighted cols ch p))).take room := by
  induction n generalizing r buf with
  | zero =>
    rw [upTo_cons (by omega), upTo_nil (by omega), copyRows, copyRows]
    split_ifs with room
    · rw [copyRow_eq h ⟨hr, by omega⟩ hb, if_neg (by omega)]
      simp
    · rw [take_append_of_le_length (by omega), take_of_length_le hb]
  | succ n ih =>
    rw [upTo_cons (by omega), copyRows]
    split_ifs with room
    · rw [copyRow_eq h ⟨hr, by omega⟩ hb, if_pos (by omega), ih (by omega) (by omega)
        (length_take_le ..), take_take_append, upTo_cons (show r + 1 < p.er + 1 by omega)]
      simp
    · rw [take_append_of_le_length (by omega), take_of_length_le hb]

theorem highlightedText_eq : highlightedText cols ch rows p =
    intercalate [0x0A] ((upTo p.sr (p.er + 1)).map (highlighted cols ch p)) := by
  have := h.first
  have := h.last
  have := h.ordered
  rw [highlightedText, filter_upTo h.first.1 (show p.sr ≤ p.er + 1 by omega) (by omega)]
  intro r _ _
  rw [any_eq_true]
  constructor
  · rintro ⟨c, -, hc⟩
    by_contra out
    rw [Span.cellInSel, if_pos (by omega)] at hc
    cases hc
  · intro hr
    have hc : 0 ≤ (if r = p.sr then p.sc else 0) ∧ (if r = p.sr then p.sc else 0) < cols := by
      split_ifs <;> omega
    exact ⟨_, mem_upTo.mpr hc, (cellInSel_iff (by omega) hc).mpr (by split_ifs <;> omega)⟩

end

theorem selNormalize_inside {s : Selection}
    (hs : (0 ≤ s.startRow ∧ s.startRow < rows) ∧ 0 ≤ s.startCol ∧ s.startCol < cols)
    (he : (0 ≤ s.endRow ∧ s.endRow < rows) ∧ 0 ≤ s.endCol ∧ s.endCol < cols) :
    (selNormalize s).Inside rows cols := by
  rw [selNormalize]
  split_ifs <;> constructor <;> dsimp only <;> omega

theorem copied_text_highlighted {s : Selection} (active : s.active)
    (hs : (0 ≤ s.startRow ∧ s.startRow < rows) ∧ 0 ≤ s.startCol ∧ s.startCol < cols)
    (he : (0 ≤ s.endRow ∧ s.endRow < rows) ∧ 0 ≤ s.endCol ∧ s.endCol < cols)
    (g : Ring) (scrollOffset size : Int) :
    let ch r c := (gridCell rows cols g scrollOffset r c).ch
    let text := (highlightedText cols ch rows (selNormalize s)).take (size - 1).toNat
    terminalCopySelection cols ch s size =
        (if size ≤ 0 then ([], 0) else (text ++ [0], text.length)) ∧
      terminalCopySelection cols ch ⟨s.active, s.endRow, s.endCol, s.startRow, s.startCol⟩ size =
        terminalCopySelection cols ch s size := by
  have h := selNormalize_inside hs he
  have := h.ordered
  intro ch text
  constructor
  · rw [terminalCopySelection]
    simp only [active, not_true, or_false]
    refine if_congr Iff.rfl rfl ?_
    rw [copyRows_eq h le_rfl (n := ((selNormalize s).er - (selNormalize s).sr).toNat) (by omega)
      (Nat.zero_le _), nil_append, ← highlightedText_eq h]
  · have same : selNormalize ⟨s.active, s.endRow, s.endCol, s.startRow, s.startCol⟩ =
        selNormalize s := by
      rw [selNormalize, selNormalize]
      grind
    rw [terminalCopySelection, same]
    rfl

theorem copied_text_highlighted_two_rows :
    let g : Ring := ⟨fun i => if i = 0 then ⟨0x61, defaultPen⟩ else ⟨0x62, defaultPen⟩, 0⟩
    let ch r c := (gridCell 2 2 g 0 r c).ch
    let text := (highlightedText 2 ch 2 (selNormalize ⟨true, 1, 0, 0, 0⟩)).take 4
    terminalCopySelection 2 ch ⟨true, 1, 0, 0, 0⟩ 5 = (text ++ [0], text.length) :=
  (copied_text_highlighted rfl (by decide) (by decide) _ 0 5).1

end

end Aegis.Terminal
