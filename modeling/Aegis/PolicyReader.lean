import Aegis.CapPolicy
import Aegis.TextFields

/-! What `parse_policy` reads, line by line and word by word.
The parser sees a line as a series of reads of at most 15 bytes until one of them is
a tier word, and of at most 31 bytes from there on; a read that is no tier word only
moves the cursor, it does not end the line. -/

namespace Aegis.PolicyReader
open Capability CapPolicy TextFields List

def isLf (b : Byte) : Bool := b == 0x0A
def isCr (b : Byte) : Bool := b == 0x0D
def isSep (b : Byte) : Bool := isBlank b || isEol b

def policyCap (tier : CapTier) (kind : Nat) : PolicyCap :=
  ⟨kind, capRightsRead ||| capRightsWrite ||| capRightsExec, tier⟩

def stopsAt (u : List Byte) : Bool := u.head? == some 0x23 || (tierOfWord (u.take 15)).isSome

/-- The first read of a line that is a tier word or starts a comment. -/
def firstTier (ws : List (List Byte)) : Option (List Byte × List (List Byte)) :=
  (reads 15 ws).find? fun read => stopsAt read.1

def capRead (tier : CapTier) (u : List Byte) : Option PolicyCap :=
  if capNameToKind (u.take 31) = capKindNull then none
  else some (policyCap tier (capNameToKind (u.take 31)))

def namesRead (tier : CapTier) (ws : List (List Byte)) : List PolicyCap :=
  (reads 31 ws).filterMap fun read => capRead tier read.1

/-- What the parser stores for a line, followed by what it stores for the rest of
the text up to the line feed. -/
def lineRead (ws : List (List Byte)) (later : List PolicyCap) : List PolicyCap :=
  match firstTier ws with
  | none => later
  | some (u, after) =>
    match tierOfWord (u.take 15) with
    | none => []
    | some tier => namesRead tier (consField (u.drop 15) after) ++ later

def partsRead : List (List Byte) → List PolicyCap
  | [] => []
  | part :: parts => lineRead (fields isBlank part) (partsRead parts)

def textRead (text : List Byte) : List PolicyCap :=
  (fields isLf text).flatMap fun line => partsRead (fields isCr line)

variable {b : Byte} {room : Nat} {w tail rest line parts : List Byte} {caps : List PolicyCap}
  {tier : CapTier}

theorem isSep_eq_false : isSep b = false ↔ isBlank b = false ∧ isEol b = false := by
  simp [isSep]

theorem isEol_eq_false : isEol b = false ↔ isLf b = false ∧ isCr b = false := by
  simp [isEol, isLf, isCr]

theorem readWord_append (free : ∀ b ∈ w, isSep b = false) (hs : Stops isSep tail) :
    readWord room (w ++ tail) = (w.take room, w.drop room ++ tail) := by
  induction room generalizing w with
  | zero => rfl
  | succ room ih =>
    cases w with
    | nil =>
      cases tail with
      | nil => rfl
      | cons b tail =>
        have sep : (isBlank b || isEol b) = true := hs b rfl
        simp [readWord, sep]
    | cons b w =>
      have h1 : (isBlank b || isEol b) = false := free b (.head _)
      have rest := ih fun c mem => free c (.tail _ mem)
      simp [readWord, h1, rest]

theorem take_append_take (n : Nat) (a b : List PolicyCap) :
    (a.take n ++ b).take n = (a ++ b).take n := by
  by_cases long : n ≤ a.length
  · rw [take_append_of_le_length (by simp [long]), take_append_of_le_length long,
      take_take, min_self]
  · rw [take_of_length_le (l := a) (by omega)]

theorem storeCap_eq_take (room : caps.length ≤ capPolicyMaxCaps) (cap : PolicyCap) :
    storeCap caps cap = (caps ++ [cap]).take capPolicyMaxCaps := by
  rw [storeCap]
  split_ifs with free
  · rw [take_of_length_le (by rw [length_append, length_singleton]; omega)]
  · rw [take_append_of_le_length (by omega), take_of_length_le room]

theorem stops_append_of_stops {seg : List Byte} (inner : Stops isBlank seg)
    (outer : Stops isEol tail) : Stops isSep (seg ++ tail) := by
  cases seg with
  | nil =>
    intro b head
    simp [isSep, outer b head]
  | cons c seg =>
    intro b head
    obtain rfl : c = b := by simpa using head
    simp [isSep, inner c rfl]

theorem namesRead_consField {u : List Byte} (h : u ≠ []) (tier : CapTier) (ws : List (List Byte)) :
    namesRead tier (consField u ws) =
      (capRead tier u).toList ++ namesRead tier (consField (u.drop 31) ws) := by
  rw [namesRead, reads_consField (by omega) h, filterMap_cons]
  cases capRead tier u <;> rfl

theorem dropWhile_isBlank_append (line : List Byte) (hs : Stops isEol tail) :
    (line ++ tail).dropWhile isBlank = line.dropWhile isBlank ++ tail := by
  have outer : tail.dropWhile isBlank = tail := by
    cases tail with
    | nil => rfl
    | cons b tail =>
      have eol : isEol b = true := hs b rfl
      have notBlank : isBlank b = false := by
        simp only [isEol, Bool.or_eq_true, beq_iff_eq] at eol
        rcases eol with rfl | rfl <;> decide
      rw [dropWhile_cons, if_neg (by simp [notBlank])]
  rw [dropWhile_append]
  split_ifs with empty
  · rw [outer, isEmpty_iff.mp empty, nil_append]
  · rfl

theorem readNames_word {data : List Byte} (hi : isEol b = false)
    (skip : (b :: data).dropWhile isBlank = w ++ rest) (hn : w ≠ [])
    (free : ∀ c ∈ w, isSep c = false) (ht : Stops isSep rest)
    (hs : caps.length ≤ capPolicyMaxCaps) :
    readNames tier (room + 1) (b :: data) caps = readNames tier room (w.drop 31 ++ rest)
        ((caps ++ (capRead tier w).toList).take capPolicyMaxCaps) := by
  have word : readWord 31 (w ++ rest) = _ := readWord_append free ht
  rw [readNames, if_neg (by simp [hi]), skip]
  cases w with
  | nil => exact (hn rfl).elim
  | cons c w =>
    have notEol : isEol c = false := (isSep_eq_false.mp (free c (.head _))).2
    rw [cons_append] at word ⊢
    simp only [notEol, Bool.false_eq_true, if_false, word]
    by_cases hk : capNameToKind ((c :: w).take 31) = capKindNull
    · rw [if_pos hk, capRead, if_pos hk, Option.toList_none, append_nil, take_of_length_le hs]
    · rw [if_neg hk, capRead, if_neg hk, Option.toList_some, storeCap_eq_take hs]
      rfl

theorem readNames_blank {data : List Byte} (hi : isEol b = false)
    (hs : Stops isEol ((b :: data).dropWhile isBlank)) :
    readNames tier (room + 1) (b :: data) caps = ((b :: data).dropWhile isBlank, caps) := by
  rw [readNames, if_neg (by simp [hi])]
  cases skip : (b :: data).dropWhile isBlank with
  | nil => rfl
  | cons c rest => simp [hs c (by rw [skip]; rfl)]

theorem stored_nothing (hs : caps.length ≤ capPolicyMaxCaps) (tier : CapTier) :
    (caps ++ namesRead tier []).take capPolicyMaxCaps = caps := by
  rw [namesRead, reads, filterMap_nil, append_nil, take_of_length_le hs]

/-- The loop over the names of a line stops at the end of the line, with every read
that is a known name stored. -/
theorem readNames_append (free : ∀ b ∈ line, isEol b = false) (ht : Stops isEol tail)
    (hn : line.length ≤ room) (hs : caps.length ≤ capPolicyMaxCaps) :
    readNames tier room (line ++ tail) caps =
      (tail, (caps ++ namesRead tier (fields isBlank line)).take capPolicyMaxCaps) := by
  induction room generalizing line caps with
  | zero =>
    obtain rfl := eq_nil_of_length_eq_zero (Nat.le_zero.mp hn)
    rw [fields_nil, stored_nothing hs]
    rfl
  | succ room ih =>
    cases line with
    | nil =>
      rw [fields_nil, stored_nothing hs]
      cases tail with
      | nil => rfl
      | cons b tail => simp [readNames, ht b rfl]
    | cons b line =>
      have h1 : isEol b = false := free b (.head _)
      have skip := dropWhile_isBlank_append (b :: line) ht
      have hf := dropWhile_suffix isBlank (l := b :: line)
      have head := List.head?_dropWhile_not isBlank (b :: line)
      rw [← fields_dropWhile, cons_append]
      rw [cons_append] at skip
      obtain ⟨w, rest, split, hw, restStops⟩ := exists_split isBlank ((b :: line).dropWhile isBlank)
      rw [split] at skip hf head ⊢
      have hi : ∀ c ∈ w ++ rest, isEol c = false := fun c mem =>
        free c (hf.subset mem)
      by_cases he : w = []
      · have restEmpty : rest = [] := by
          subst he
          cases rest with
          | nil => rfl
          | cons c rest => simp [restStops c rfl] at head
        subst he restEmpty
        rw [nil_append, nil_append] at skip
        have ends : Stops isEol ((b :: (line ++ tail)).dropWhile isBlank) := by rwa [skip]
        rw [readNames_blank h1 ends, skip, append_nil, fields_nil, stored_nothing hs]
      · have wordSep : ∀ c ∈ w, isSep c = false := fun c mem => isSep_eq_false.mpr
          ⟨hw c mem, hi c (mem_append_left _ mem)⟩
        have restEol : ∀ c ∈ w.drop 31 ++ rest, isEol c = false := fun c mem =>
          hi c (((drop_sublist 31 w).append_right rest).subset mem)
        have hh : (w.drop 31 ++ rest).length ≤ room := by
          have long := length_pos_iff.mpr he
          have hr := hf.length_le
          simp only [length_append, length_drop, length_cons] at hr hn ⊢
          omega
        have dropFree : ∀ c ∈ w.drop 31, isBlank c = false := fun c mem =>
          hw c (mem_of_mem_drop mem)
        rw [append_assoc] at skip
        rw [readNames_word h1 skip he wordSep (stops_append_of_stops restStops ht) hs,
          ← append_assoc, ih restEol hh (length_take_le ..), take_append_take,
          fields_append hw restStops, namesRead_consField he, ← append_assoc,
          fields_append dropFree restStops]

theorem partsRead_consField (part : List Byte) (parts : List (List Byte)) :
    partsRead (consField part parts) = lineRead (fields isBlank part) (partsRead parts) := by
  cases part with
  | nil => rfl
  | cons b part => rfl

theorem textRead_line (free : ∀ b ∈ line, isLf b = false) (hs : Stops isLf rest) :
    textRead (line ++ rest) = partsRead (fields isCr line) ++ textRead rest := by
  rw [textRead, fields_append free hs]
  cases line with
  | nil => rfl
  | cons b line => rw [consField, flatMap_cons, textRead]

/-- The text from anywhere inside a line: `line` is what is left of it, `parts` the
rest up to the line feed. -/
theorem textRead_append (free : ∀ b ∈ line, isEol b = false) (hp : Stops isCr parts)
    (hr : ∀ b ∈ parts, isLf b = false) (restStops : Stops isLf rest) :
    textRead (line ++ (parts ++ rest)) =
      lineRead (fields isBlank line) (partsRead (fields isCr parts)) ++ textRead rest := by
  have hl : ∀ b ∈ line ++ parts, isLf b = false := by
    intro b mem
    rcases mem_append.mp mem with hn | hi
    · exact (isEol_eq_false.mp (free b hn)).1
    · exact hr b hi
  rw [← append_assoc, textRead_line hl restStops,
    fields_append (fun b mem => (isEol_eq_false.mp (free b mem)).2) hp,
    partsRead_consField]

theorem stops_isCr_of_append (hs : Stops isEol (parts ++ rest))
    (free : ∀ b ∈ parts, isLf b = false) : Stops isCr parts := by
  cases parts with
  | nil => simp [Stops]
  | cons b parts =>
    intro c head
    obtain rfl : b = c := by simpa using head
    have eol : isEol b = true := hs b rfl
    have notLf : isLf b = false := free b (.head _)
    simp only [isEol, isLf, isCr, Bool.or_eq_true, beq_iff_eq, beq_eq_false_iff_ne] at *
    exact eol.resolve_left notLf

theorem dropWhile_of_free (free : ∀ b ∈ line, isLf b = false) (hs : Stops isLf rest) :
    (line ++ rest).dropWhile (· != 0x0A) = rest := by
  rw [dropWhile_append_of_pos fun b mem => by simpa [isLf] using free b mem]
  cases rest with
  | nil => rfl
  | cons b rest =>
    have lf : b = 0x0A := by simpa [isLf] using hs b rfl
    simp [lf]

theorem firstTier_consField {u : List Byte} (h : u ≠ []) (ws : List (List Byte)) :
    firstTier (consField u ws) =
      if stopsAt u then some (u, ws) else firstTier (consField (u.drop 15) ws) := by
  rw [firstTier, reads_consField (by omega) h, find?_cons]
  cases stopsAt u <;> rfl

theorem textRead_sep (sep : isSep b = true) (text : List Byte) :
    textRead (b :: text) = textRead text := by
  obtain ⟨line, tail, rfl, free, stops⟩ := exists_split isEol text
  obtain ⟨parts, rest, rfl, partsFree, restStops⟩ := exists_split isLf tail
  have partsStop := stops_isCr_of_append stops partsFree
  have here := textRead_append free partsStop partsFree restStops
  by_cases lf : isLf b = true
  · rw [textRead, fields_cons_of_sep lf, textRead]
  by_cases cr : isCr b = true
  · have crFree : ∀ c ∈ b :: (line ++ parts), isLf c = false := by
      intro c mem
      rcases mem_cons.mp mem with rfl | inText
      · simpa using lf
      rcases mem_append.mp inText with inLine | inParts
      · exact (isEol_eq_false.mp (free c inLine)).1
      · exact partsFree c inParts
    have lineFree := fun c mem => crFree c (.tail _ mem)
    rw [← append_assoc, ← cons_append, textRead_line crFree restStops,
      textRead_line lineFree restStops, fields_cons_of_sep cr]
  · have inLine : isEol b = false := isEol_eq_false.mpr ⟨by simpa using lf, by simpa using cr⟩
    have blank : isBlank b = true := by simpa [isSep, inLine] using sep
    have lineFree : ∀ c ∈ b :: line, isEol c = false := by
      intro c mem
      rcases mem_cons.mp mem with rfl | later
      · exact inLine
      · exact free c later
    rw [here, ← cons_append, textRead_append lineFree partsStop partsFree restStops,
      fields_cons_of_sep blank]

theorem textRead_dropWhile (text : List Byte) :
    textRead (text.dropWhile isSep) = textRead text := by
  induction text with
  | nil => rfl
  | cons b text ih =>
    rw [dropWhile_cons]
    split_ifs with sep
    · rw [ih, textRead_sep sep]
    · rfl

structure AtWord (w line tail : List Byte) : Prop where
  nonempty : w ≠ []
  word : ∀ b ∈ w, isBlank b = false
  inLine : ∀ b ∈ w ++ line, isEol b = false
  lineStops : Stops isBlank line
  tailStops : Stops isEol tail

theorem exists_atWord (word : isSep b = false) (text : List Byte) :
    ∃ w line tail, b :: text = w ++ (line ++ tail) ∧ AtWord w line tail := by
  obtain ⟨line, tail, split, free, stops⟩ := exists_split isEol (b :: text)
  obtain ⟨w, rest, rfl, wordFree, restStops⟩ := exists_split isBlank line
  rw [append_assoc] at split
  refine ⟨w, rest, tail, split, ⟨?_, wordFree, free, restStops, stops⟩⟩
  rintro rfl
  have sep : isSep b = true :=
    stops_append_of_stops restStops stops b (by rw [← nil_append (rest ++ tail), ← split]; rfl)
  rw [word] at sep
  exact Bool.false_ne_true sep

theorem AtWord.readWord_eq (at_ : AtWord w line tail) (room : Nat) :
    readWord room (w ++ (line ++ tail)) = (w.take room, w.drop room ++ (line ++ tail)) :=
  readWord_append
    (fun b mem => isSep_eq_false.mpr ⟨at_.word b mem, at_.inLine b (mem_append_left _ mem)⟩)
    (stops_append_of_stops at_.lineStops at_.tailStops)

theorem AtWord.rest_free (at_ : AtWord w line tail) (n : Nat) :
    ∀ b ∈ w.drop n ++ line, isEol b = false := fun b mem =>
  at_.inLine b (((drop_sublist n w).append_right line).subset mem)

theorem AtWord.fields_drop (at_ : AtWord w line tail) (n : Nat) :
    fields isBlank (w.drop n ++ line) = consField (w.drop n) (fields isBlank line) :=
  fields_append (fun b mem => at_.word b (mem_of_mem_drop mem)) at_.lineStops

theorem AtWord.textRead_drop (at_ : AtWord w line (parts ++ rest))
    (hp : ∀ b ∈ parts, isLf b = false) (restStops : Stops isLf rest) (n : Nat) :
    textRead (w.drop n ++ (line ++ (parts ++ rest))) =
      lineRead (consField (w.drop n) (fields isBlank line)) (partsRead (fields isCr parts)) ++
        textRead rest := by
  have hr := stops_isCr_of_append at_.tailStops hp
  rw [← append_assoc (w.drop n),
    textRead_append (at_.rest_free n) hr hp restStops, at_.fields_drop]

theorem AtWord.textRead_unknown (at_ : AtWord w line tail) (hu : stopsAt w = false) :
    textRead (w ++ (line ++ tail)) = textRead (w.drop 15 ++ (line ++ tail)) := by
  obtain ⟨parts, rest, rfl, hp, restStops⟩ := exists_split isLf tail
  have hw := at_.textRead_drop hp restStops 0
  rw [drop_zero] at hw
  rw [hw, at_.textRead_drop hp restStops, lineRead, firstTier_consField at_.nonempty, hu]
  rfl

theorem AtWord.textRead_tier (at_ : AtWord w line tail) (hk : tierOfWord (w.take 15) = some tier) :
    textRead (w ++ (line ++ tail)) =
      namesRead tier (fields isBlank (w.drop 15 ++ line)) ++ textRead tail := by
  obtain ⟨parts, rest, rfl, hp, restStops⟩ := exists_split isLf tail
  have hw := at_.textRead_drop hp restStops 0
  have stop : stopsAt w = true := by simp [stopsAt, hk]
  rw [drop_zero] at hw
  rw [hw, textRead_line hp restStops, at_.fields_drop, lineRead,
    firstTier_consField at_.nonempty, stop]
  simp [hk]

theorem tierOfWord_comment (w : List Byte) : tierOfWord (0x23 :: w) = none := by
  have service : streq (0x23 :: w) (ascii "service") = false := rfl
  have admin : streq (0x23 :: w) (ascii "admin") = false := rfl
  rw [tierOfWord, service, admin]
  rfl

theorem textRead_comment (text : List Byte) :
    textRead (0x23 :: text) = textRead ((0x23 :: text).dropWhile (· != 0x0A)) := by
  obtain ⟨w, line, tail, split, at_⟩ := exists_atWord (b := 0x23) (by decide) text
  obtain ⟨parts, rest, rfl, hp, restStops⟩ := exists_split isLf tail
  have hw := at_.textRead_drop hp restStops 0
  have hl : ∀ b ∈ (w ++ line) ++ parts, isLf b = false := by
    intro b mem
    rcases mem_append.mp mem with hn | hi
    · exact (isEol_eq_false.mp (at_.inLine b hn)).1
    · exact hp b hi
  have hash : ∃ v, w = 0x23 :: v := by
    cases w with
    | nil => exact (at_.nonempty rfl).elim
    | cons b v => exact ⟨v, by rw [(List.cons.inj split).1]⟩
  obtain ⟨v, rfl⟩ := hash
  have stop : stopsAt (0x23 :: v) = true := rfl
  have drop : ((0x23 :: v) ++ (line ++ (parts ++ rest))).dropWhile (· != 0x0A) = rest := by
    rw [← append_assoc, ← append_assoc, dropWhile_of_free hl restStops]
  rw [drop_zero] at hw
  rw [split, drop, hw, lineRead, firstTier_consField at_.nonempty, stop]
  simp [tierOfWord_comment]

theorem stored_empty (hs : caps.length ≤ capPolicyMaxCaps) :
    (caps ++ textRead []).take capPolicyMaxCaps = caps := by
  rw [textRead, fields_nil, flatMap_nil, append_nil, take_of_length_le hs]

/-- The outer loop stores what `textRead` says, up to the bound on the number of
capabilities, and every iteration moves the cursor. -/
theorem readTiers_eq {text : List Byte} (he : text.length ≤ room)
    (hs : caps.length ≤ capPolicyMaxCaps) :
    readTiers room text caps = (caps ++ textRead text).take capPolicyMaxCaps := by
  induction room generalizing text caps with
  | zero =>
    obtain rfl := eq_nil_of_length_eq_zero (Nat.le_zero.mp he)
    rw [readTiers, stored_empty hs]
  | succ room ih =>
    rw [readTiers]
    split_ifs with finished
    · rcases finished with rfl | full
      · rw [stored_empty hs]
      · rw [take_append_of_le_length full, take_of_length_le hs]
    · have hh := (dropWhile_suffix isSep (l := text)).length_le
      have head := List.head?_dropWhile_not isSep text
      rw [← textRead_dropWhile text]
      have sep : (fun b => isBlank b || isEol b) = isSep := rfl
      rw [sep]
      generalize text.dropWhile isSep = data at hh head
      cases data with
      | nil => exact (stored_empty hs).symm
      | cons b rest =>
        have word : isSep b = false := by simpa using head
        have hb : rest.length ≤ room := by
          rw [length_cons] at hh
          omega
        dsimp only
        split_ifs with hash
        · subst hash
          have hf : ((0x23 :: rest).dropWhile (· != 0x0A)).length ≤ room := by
            rw [dropWhile_cons, if_pos (by decide)]
            exact (dropWhile_suffix _).length_le.trans hb
          rw [ih hf hs, textRead_comment]
        · obtain ⟨w, line, tail, split, at_⟩ := exists_atWord word rest
          have hf : (w.drop 15 ++ (line ++ tail)).length ≤ room := by
            have long := length_pos_iff.mpr at_.nonempty
            have total := congrArg List.length split
            simp only [length_cons, length_append, length_drop] at total ⊢
            omega
          have h1 : w.head? = some b := by
            cases w with
            | nil => exact (at_.nonempty rfl).elim
            | cons c w => rw [(List.cons.inj split).1]; rfl
          rw [split, at_.readWord_eq]
          cases hk : tierOfWord (w.take 15) with
          | none =>
            have hu : stopsAt w = false := by simp [stopsAt, hk, h1, hash]
            simp only
            rw [ih hf hs, at_.textRead_unknown hu]
          | some tier =>
            simp only [← append_assoc (w.drop 15)] at hf ⊢
            have tailFewer : tail.length ≤ room := by
              rw [length_append] at hf
              omega
            rw [readNames_append (at_.rest_free 15) at_.tailStops (by simp) hs,
              ih tailFewer (length_take_le ..), take_append_take, at_.textRead_tier hk,
              append_assoc]

theorem parsePolicy_eq_textRead (text : List Byte) :
    parsePolicy text = (textRead text).take capPolicyMaxCaps :=
  readTiers_eq (Nat.le_refl _) (Nat.zero_le _)

end Aegis.PolicyReader
