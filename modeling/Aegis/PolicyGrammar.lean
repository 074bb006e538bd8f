import Aegis.PolicyReader

/-! The documented grammar of a policy file, and on which texts `parse_policy` follows
it. A line whose first word is no tier must grant nothing, but the parser goes on
reading it in search of a tier word; and a word longer than its buffer, or one with a
NUL in it, is read as something else. -/

namespace Aegis.PolicyGrammar
open Capability CapPolicy TextFields PolicyReader List Option

def tierNamed (word : List Byte) : Option CapTier :=
  if word = ascii "service" then some .service
  else if word = ascii "admin" then some .admin
  else none

def kindNamed (word : List Byte) : Option Nat :=
  (capNames.find? fun entry => ascii entry.1 = word).map fun entry => entry.2

def lineCaps (line : List Byte) : List PolicyCap :=
  match fields isBlank line with
  | [] => []
  | first :: names =>
    match tierNamed first with
    | none => []
    | some tier => names.filterMap fun name => (kindNamed name).map (policyCap tier)

/-- What a policy file grants: the names on its `service` and `admin` lines. A line ends at a
line feed or a carriage return; the first word of a comment is no tier. -/
def policyCaps (text : List Byte) : List PolicyCap := (fields isEol text).flatMap lineCaps

def NoNameRead (ws : List (List Byte)) : Prop :=
  ∀ w ∈ ws, ∀ u ∈ suffixes 31 w, capNameToKind (u.take 31) = capKindNull

/-- After an exact tier word, a word that is no capability name must not be read as
one; on any other line, no capability name may be read behind the first read that
passes for a tier word. -/
def LineReadsRight (line : List Byte) : Prop :=
  match fields isBlank line with
  | [] => True
  | first :: names =>
    if (tierNamed first).isSome then NoNameRead (names.filter fun name => (kindNamed name).isNone)
    else
      ∀ u after, firstTier (first :: names) = some (u, after) → u.head? ≠ some 0x23 →
        NoNameRead (consField (u.drop 15) after)

/-- The parser takes a word of the line for the start of a comment, which runs to the line feed. -/
def CommentRead (line : List Byte) : Prop :=
  ∃ u after, firstTier (fields isBlank line) = some (u, after) ∧ u.head? = some 0x23

def PartsReadRight : List (List Byte) → Prop
  | [] => True
  | part :: parts => LineReadsRight part ∧ (CommentRead part → parts.flatMap lineCaps = []) ∧
      (¬ CommentRead part → PartsReadRight parts)

/-- Every line that the parser reaches with room for another capability is read right. -/
def ReadsRight (text : List Byte) : Prop :=
  ∀ before line after, fields isLf text = before ++ line :: after →
    (before.flatMap fun l => (fields isCr l).flatMap lineCaps).length < capPolicyMaxCaps →
    PartsReadRight (fields isCr line)

theorem policyCaps_eq (text : List Byte) :
    policyCaps text = (fields isLf text).flatMap fun line => (fields isCr line).flatMap lineCaps := by
  have lines : fields isEol text = (fields isLf text).flatMap (fields isCr) := fields_or isLf isCr text
  rw [policyCaps, lines, flatMap_assoc]

variable {tier : CapTier} {first line : List Byte} {names : List (List Byte)}

theorem tierNamed_read {w : List Byte} (hn : tierNamed w = some tier) :
    tierOfWord (w.take 15) = some tier ∧ w.drop 15 = [] ∧ w ≠ [] ∧ w.head? ≠ some 0x23 := by
  rw [tierNamed] at hn
  split_ifs at hn with service admin
  · subst service
    cases hn
    decide
  · subst admin
    cases hn
    decide

theorem capNames_read : ∀ entry ∈ capNames, capNameToKind ((ascii entry.1).take 31) = entry.2 ∧
    entry.2 ≠ capKindNull ∧ (ascii entry.1).length ≤ 31 ∧ ascii entry.1 ≠ [] := by
  decide

theorem kindNamed_read {w : List Byte} {kind : Nat} (hm : kindNamed w = some kind) :
    suffixes 31 w = [w] ∧ capNameToKind (w.take 31) = kind ∧ kind ≠ capKindNull := by
  rw [kindNamed, map_eq_some_iff] at hm
  obtain ⟨entry, hf, rfl⟩ := hm
  have eq : ascii entry.1 = w := by simpa using find?_some hf
  obtain ⟨kind, hk, hs, hn⟩ := capNames_read entry (mem_of_find?_eq_some hf)
  rw [eq] at kind hs hn
  exact ⟨suffixes_of_length_le hn hs, kind, hk⟩

def wordCaps (tier : CapTier) (name : List Byte) : List PolicyCap :=
  ((kindNamed name).map (policyCap tier)).toList

def wordRead (tier : CapTier) (name : List Byte) : List PolicyCap :=
  (suffixes 31 name).filterMap (capRead tier)

theorem namesRead_eq_flatMap (tier : CapTier) (ws : List (List Byte)) :
    namesRead tier ws = ws.flatMap (wordRead tier) :=
  reads_eq_flatMap 31 (capRead tier) ws

theorem wordRead_eq_nil_iff (tier : CapTier) (name : List Byte) : wordRead tier name = [] ↔
      ∀ u ∈ suffixes 31 name, capNameToKind (u.take 31) = capKindNull := by
  simp only [wordRead, filterMap_eq_nil_iff, capRead, ite_eq_left_iff, reduceCtorEq,
    imp_false, not_not]

theorem namesRead_eq_nil_iff (tier : CapTier) (ws : List (List Byte)) :
    namesRead tier ws = [] ↔ NoNameRead ws := by
  simp only [namesRead_eq_flatMap, flatMap_eq_nil_iff, wordRead_eq_nil_iff, NoNameRead]

theorem wordCaps_of_named {name : List Byte} {kind : Nat} (hn : kindNamed name = some kind) :
    wordCaps tier name = wordRead tier name := by
  obtain ⟨hw, read, hk⟩ := kindNamed_read hn
  rw [wordCaps, hn, wordRead, hw, filterMap_cons, capRead, read, if_neg hk]
  rfl

theorem wordCaps_of_unnamed {name : List Byte} (hu : kindNamed name = none) :
    wordCaps tier name = [] := by
  rw [wordCaps, hu]
  rfl

theorem wordCaps_sublist (tier : CapTier) (name : List Byte) :
    (wordCaps tier name).Sublist (wordRead tier name) := by
  cases hn : kindNamed name with
  | none => rw [wordCaps_of_unnamed hn]; exact nil_sublist _
  | some kind => rw [wordCaps_of_named hn]

theorem names_eq_iff (tier : CapTier) (names : List (List Byte)) :
    names.flatMap (wordCaps tier) = namesRead tier names ↔
      NoNameRead (names.filter fun name => (kindNamed name).isNone) := by
  rw [namesRead_eq_flatMap]
  constructor
  · intro eq name mem
    obtain ⟨mem, hu⟩ := mem_filter.mp mem
    have he := flatMap_eq_of_sublist (fun n _ => wordCaps_sublist tier n) eq name mem
    rw [wordCaps_of_unnamed (isNone_iff_eq_none.mp hu)] at he
    exact (wordRead_eq_nil_iff tier name).mp he.symm
  · intro unread
    refine flatMap_congr fun name mem => ?_
    cases hn : kindNamed name with
    | none =>
      have none_read := unread name (mem_filter.mpr ⟨mem, by rw [hn]; rfl⟩)
      rw [wordCaps_of_unnamed hn, (wordRead_eq_nil_iff tier name).mpr none_read]
    | some kind => exact wordCaps_of_named hn

theorem firstTier_named (hm : tierNamed first = some tier) (names : List (List Byte)) :
    firstTier (first :: names) = some (first, names) := by
  obtain ⟨read, -, hn, -⟩ := tierNamed_read hm
  have stop : stopsAt first = true := by simp [stopsAt, read]
  rw [← consField_of_ne_nil hn, firstTier_consField hn, if_pos stop]

theorem firstTier_cases {ws : List (List Byte)} {u : List Byte} {after : List (List Byte)}
    (hf : firstTier ws = some (u, after)) :
    (u.head? = some 0x23 ∧ tierOfWord (u.take 15) = none) ∨
      (u.head? ≠ some 0x23 ∧ ∃ tier, tierOfWord (u.take 15) = some tier) := by
  rw [firstTier] at hf
  have stop := find?_some hf
  by_cases hash : u.head? = some 0x23
  · refine .inl ⟨hash, ?_⟩
    cases u with
    | nil => simp at hash
    | cons b u =>
      obtain rfl : b = 0x23 := by simpa using hash
      exact tierOfWord_comment _
  · refine .inr ⟨hash, isSome_iff_exists.mp ?_⟩
    simpa [stopsAt, hash] using stop

theorem lineCaps_named (split : fields isBlank line = first :: names)
    (hn : tierNamed first = some tier) : lineCaps line = names.flatMap (wordCaps tier) := by
  rw [lineCaps, split]
  simp only [hn]
  exact filterMap_eq_flatMap_toList _ _

theorem lineCaps_unnamed (split : fields isBlank line = first :: names)
    (hu : tierNamed first = none) : lineCaps line = [] := by
  rw [lineCaps, split]
  simp only [hu]

theorem lineRead_named (named : tierNamed first = some tier) (names : List (List Byte))
    (later : List PolicyCap) : lineRead (first :: names) later = namesRead tier names ++ later := by
  obtain ⟨read, rest, -⟩ := tierNamed_read named
  rw [lineRead, firstTier_named named]
  simp only [read, rest, consField_nil]

theorem lineCaps_sublist (line : List Byte) :
    (lineCaps line).Sublist (lineRead (fields isBlank line) []) := by
  cases split : fields isBlank line with
  | nil => rw [lineCaps, split]; exact nil_sublist _
  | cons first names =>
    cases hn : tierNamed first with
    | none => rw [lineCaps_unnamed split hn]; exact nil_sublist _
    | some tier =>
      rw [lineCaps_named split hn, lineRead_named hn, append_nil, namesRead_eq_flatMap]
      exact List.Sublist.flatMap_right names fun name _ => wordCaps_sublist tier name

theorem lineReadsRight_iff (line : List Byte) :
    LineReadsRight line ↔ lineCaps line = lineRead (fields isBlank line) [] := by
  cases split : fields isBlank line with
  | nil =>
    simp only [LineReadsRight, lineCaps, split]
    exact iff_of_true trivial rfl
  | cons first names =>
    simp only [LineReadsRight, split]
    cases hn : tierNamed first with
    | some tier =>
      rw [lineCaps_named split hn, lineRead_named hn, append_nil, names_eq_iff]
      rfl
    | none =>
      rw [lineCaps_unnamed split hn, lineRead]
      simp only [isSome_none, Bool.false_eq_true, if_false]
      cases hf : firstTier (first :: names) with
      | none => simp
      | some read =>
        obtain ⟨u, after⟩ := read
        rcases firstTier_cases hf with ⟨hash, hu⟩ | ⟨ht, tier, hk⟩
        · simp [hash, hu]
        · simp [hk, ht, namesRead_eq_nil_iff]

theorem lineRead_of_not_comment (plain : ¬ CommentRead line) (later : List PolicyCap) :
    lineRead (fields isBlank line) later = lineRead (fields isBlank line) [] ++ later := by
  cases found : firstTier (fields isBlank line) with
  | none => simp [lineRead, found]
  | some read =>
    obtain ⟨u, after⟩ := read
    rcases firstTier_cases found with ⟨hash, -⟩ | ⟨-, tier, known⟩
    · exact (plain ⟨u, after, found, hash⟩).elim
    · simp [lineRead, found, known]

theorem lineRead_of_comment (comment : CommentRead line) (l : List PolicyCap) :
    lineRead (fields isBlank line) l = [] := by
  obtain ⟨u, after, hf, hash⟩ := comment
  rcases firstTier_cases hf with ⟨-, hu⟩ | ⟨hn, -⟩
  · simp [lineRead, hf, hu]
  · exact (hn hash).elim

theorem partsRead_of_readsRight {parts : List (List Byte)} (right : PartsReadRight parts) :
    partsRead parts = parts.flatMap lineCaps := by
  induction parts with
  | nil => rfl
  | cons part parts ih =>
    obtain ⟨line, hidden, rest⟩ := right
    rw [partsRead, flatMap_cons, (lineReadsRight_iff part).mp line]
    by_cases comment : CommentRead part
    · rw [lineRead_of_comment comment, lineRead_of_comment comment, hidden comment]
      rfl
    · rw [ih (rest comment), lineRead_of_not_comment comment]

theorem fields_isCr_of_free {text : List Byte} (free : 0x0D ∉ text) (mem : line ∈ fields isLf text) :
    fields isCr line = [line] := by
  obtain ⟨hn, sub⟩ := mem_fields mem
  have plain : ∀ b ∈ line, isCr b = false := by
    intro b hi
    refine beq_eq_false_iff_ne.mpr fun cr => free ?_
    rw [← cr]
    exact sub hi
  rw [fields_of_free plain, consField_of_ne_nil hn]

end Aegis.PolicyGrammar
