import LsLang.Core.Str
import Mathlib.Data.List.DropRight
import Mathlib.Data.List.TakeWhile

/-! `std.text.md`: the blocks of a document and the parser. The loops of `_parse_blocks` run over the lines that
are left, and the one of `_parse_inlines` over the bytes that are left. -/

namespace LsLang.Text.Md

open LsLang.Core

inductive MdInline
  | text (content : Str)
  | bold (content : Str)
  | italic (content : Str)
  | boldItalic (content : Str)
  | code (content : Str)
  | link (text url : Str)
  | image (alt url : Str)
  deriving DecidableEq

inductive MdBlock
  | heading (level : ℕ) (content : List MdInline)
  | paragraph (content : List MdInline)
  | codeBlock (lang code : Str)
  | unorderedList (items : List (List MdInline))
  | orderedList (items : List (List MdInline))
  | blockquote (children : List MdBlock)
  | table (headers : List Str) (rows : List (List Str))
  | horizontalRule

structure MdDoc where
  blocks : List MdBlock

/-! ### Strings -/

/-- `starts_with?` -/
def startsWith (s pat : Str) : Bool := pat.isPrefixOf s

/-- A line without the `\r` in front of its line feed. -/
def chop (s : Str) : Str := if s.getLast? = some 13 then s.dropLast else s

/-- The loop of `lines`, `cur` being the bytes from `start` to `i`. -/
def linesFrom (cur : Str) : Str → List Str
  | [] => if cur = [] then [] else [cur]
  | c :: s => if c = 10 then chop cur :: linesFrom [] s else linesFrom (cur ++ [c]) s

/-- `Str.lines` -/
def lines (s : Str) : List Str := linesFrom [] s

def joinLines (ls : List Str) : Str := [10].intercalate ls

/-! ### The tests on a line -/

/-- `_heading_level` -/
def headingLevel (line : Str) : ℕ :=
  let i := (line.takeWhile (· == ch '#')).length
  if 1 ≤ i ∧ i ≤ 6 ∧ (line)[i]? = some (ch ' ') then i else 0

/-- `_is_hr` -/
def isHr : Str → Bool
  | [] => false
  | c :: t =>
    decide (3 ≤ (c :: t).length) && [ch '-', ch '*', ch '_'].contains c && t.all (· == c)

def isDigit (c : UInt8) : Bool := ch '0' ≤ c && c ≤ ch '9'

/-- `_ordered_prefix_len` -/
def orderedPrefixLen (line : Str) : ℕ :=
  let i := (line.takeWhile isDigit).length
  if i = 0 then 0
  else if (line)[i]? = some (ch '.') ∧ (line)[i + 1]? = some (ch ' ') then i + 2 else 0

/-- `_is_table_sep` -/
def isTableSep (line : Str) : Bool :=
  let t := line.trim
  !t.isEmpty && t.all [ch '-', ch '|', ch ':', ch ' '].contains && t.contains (ch '-') &&
    t.contains (ch '|')

/-- `_split_table_row`: an empty first or last cell is left out. -/
def splitTableRow (line : Str) : List Str :=
  let raw := line.splitOn (ch '|')
  let cells := (raw.map Str.trim).zipIdx
  let skip (x : Str × ℕ) : Bool := x.1.isEmpty && (x.2 == 0 || x.2 == raw.length - 1)
  (cells.filter (!skip ·)).map Prod.fst

def isFence (line : Str) : Bool := startsWith line.trim (lit ['\x60', '\x60', '\x60'])

def isBullet (line : Str) : Bool :=
  startsWith line (lit ['-', ' ']) || startsWith line (lit ['*', ' '])

def isNumbered (line : Str) : Bool := 0 < orderedPrefixLen line

def isQuote (line : Str) : Bool :=
  startsWith line (lit ['>', ' ']) || line.trim == lit ['>']

def isBar (line : Str) : Bool := startsWith line.trim (lit ['|'])

def endsPara (line : Str) : Bool :=
  line.trim.isEmpty || 0 < headingLevel line || isFence line || isHr line.trim || isBullet line ||
    isNumbered line || startsWith line (lit ['>', ' ']) || isBar line

/-! ### Inline runs -/

/-- The first place of `pat`. -/
def findRun (pat : Str) : Str → Option ℕ
  | [] => none
  | c :: s => if startsWith (c :: s) pat then some 0 else (findRun pat s).map (· + 1)

/-- `_find_char` -/
def findChar (c : UInt8) : Str → Option ℕ := findRun [c]

/-- `_find_double` -/
def findDouble (c : UInt8) : Str → Option ℕ := findRun [c, c]

/-- `_find_triple` -/
def findTriple (c : UInt8) : Str → Option ℕ := findRun [c, c, c]

/-- `text](url)`: both parts and the bytes of all of it. -/
def linkAt (s : Str) : Option (Str × Str × ℕ) := do
  let rb ← findChar (ch ']') s
  if s[rb + 1]? = some (ch '(') then
    let rp ← findChar (ch ')') (s.drop (rb + 2))
    some (s.take rb, (s.drop (rb + 2)).take rp, rb + rp + 3)
  else none

/-- A run between two markers of `width` bytes: the run and the bytes of all of it. -/
def spanAt (width : ℕ) (find : Str → Option ℕ) (mk : Str → MdInline) (s : Str) : Option (MdInline × ℕ) := do
  let cl ← find (s.drop width)
  some (mk ((s.drop width).take cl), cl + 2 * width)

def inlineAt (s : Str) : Option (MdInline × ℕ) :=
  if startsWith s (lit ['!', '[']) then
    (linkAt (s.drop 2)).map fun x => (.image x.1 x.2.1, x.2.2 + 2)
  else if startsWith s (lit ['[']) then
    (linkAt (s.drop 1)).map fun x => (.link x.1 x.2.1, x.2.2 + 1)
  else if startsWith s (lit ['\x60']) then spanAt 1 (findChar (ch '\x60')) .code s
  else if startsWith s (lit ['*', '*', '*']) then spanAt 3 (findTriple (ch '*')) .boldItalic s
  else if startsWith s (lit ['*', '*']) then spanAt 2 (findDouble (ch '*')) .bold s
  else if startsWith s (lit ['*']) then spanAt 1 (findChar (ch '*')) .italic s
  else if startsWith s (lit ['_']) then spanAt 1 (findChar (ch '_')) .italic s
  else none

/-- `if buf.len() > 0 { out.push(Text(buf)) }` -/
def flush (buf : Str) : List MdInline := if buf = [] then [] else [.text buf]

/-- The loop of `_parse_inlines`. So many bytes belong to the run before. -/
def inlinesFrom (skip : ℕ) (buf : Str) : Str → List MdInline
  | [] => flush buf
  | c :: s =>
    if skip > 0 then inlinesFrom (skip - 1) buf s
    else
      match inlineAt (c :: s) with
      | some (x, n) => flush buf ++ x :: inlinesFrom (n - 1) [] s
      | none => inlinesFrom 0 (buf ++ [c]) s

/-- `_parse_inlines` -/
def parseInlines (text : Str) : List MdInline := inlinesFrom 0 [] text

/-! ### Blocks -/

inductive Push
  | block (b : MdBlock)
  | quote (inner : Str)

def headingOf (line : Str) : MdBlock :=
  .heading (headingLevel line) (parseInlines (Str.trim (line.drop (headingLevel line + 1))))

def langOf (line : Str) : Str := Str.trim (line.trim.drop 3)

def bulletOf (line : Str) : List MdInline := parseInlines (Str.trim (line.drop 2))

def numberedOf (line : Str) : List MdInline :=
  parseInlines (Str.trim (line.drop (orderedPrefixLen line)))

def unquote (line : Str) : Str := if startsWith line (lit ['>', ' ']) then line.drop 2 else []

def rowOf (ncols : ℕ) (line : Str) : List Str :=
  (List.range ncols).map fun k => (splitTableRow line).getD k []

def paraOf (ls : List Str) : Str := [ch ' '].intercalate (ls.map Str.trim)

/-- One turn of `while i < nl` of `_parse_blocks`: what it pushes, and the lines from the next `i` on. -/
def turn (line : Str) (rest : List Str) : Option Push × List Str :=
  let ls := line :: rest
  if line.trim = [] then (none, rest)
  else if 0 < headingLevel line then (some (.block (headingOf line)), rest)
  else if isFence line then
    (some (.block (.codeBlock (langOf line) (joinLines (rest.takeWhile (!isFence ·))))),
      (rest.dropWhile (!isFence ·)).drop 1)
  else if isHr line.trim then (some (.block .horizontalRule), rest)
  else if isBullet line then
    (some (.block (.unorderedList ((ls.takeWhile isBullet).map bulletOf))), ls.dropWhile isBullet)
  else if isNumbered line then
    (some (.block (.orderedList ((ls.takeWhile isNumbered).map numberedOf))),
      ls.dropWhile isNumbered)
  else if isQuote line then
    (some (.quote (joinLines ((ls.takeWhile isQuote).map unquote))), ls.dropWhile isQuote)
  else if isBar line && rest.head?.any isTableSep then
    let headers := splitTableRow line
    (some (.block (.table headers (((rest.drop 1).takeWhile isBar).map (rowOf headers.length)))),
      (rest.drop 1).dropWhile isBar)
  else
    let para := paraOf (ls.takeWhile (!endsPara ·))
    if 0 < para.length then
      (some (.block (.paragraph (parseInlines para))), ls.dropWhile (!endsPara ·))
    else (none, rest)

/-! ### What a turn does -/

/-- The lines become what is pushed: each of them as the part of the block that its form says. -/
inductive Made : List Str → Push → Prop
  | heading (line : Str) : 0 < headingLevel line → Made [line] (.block (headingOf line))
  | fence (line : Str) (body close : List Str) : isFence line → (∀ l ∈ body, ¬ isFence l) →
      (∀ l ∈ close, isFence l) → close.length ≤ 1 →
      Made (line :: (body ++ close)) (.block (.codeBlock (langOf line) (joinLines body)))
  | rule (line : Str) : isHr line.trim → Made [line] (.block .horizontalRule)
  | bullets (ls : List Str) : ls ≠ [] → (∀ l ∈ ls, isBullet l) →
      Made ls (.block (.unorderedList (ls.map bulletOf)))
  | numbers (ls : List Str) : ls ≠ [] → (∀ l ∈ ls, isNumbered l) →
      Made ls (.block (.orderedList (ls.map numberedOf)))
  | quote (ls : List Str) : ls ≠ [] → (∀ l ∈ ls, isQuote l) →
      Made ls (.quote (joinLines (ls.map unquote)))
  | table (header sep : Str) (rows : List Str) : isBar header → isTableSep sep →
      (∀ l ∈ rows, isBar l) →
      Made (header :: sep :: rows) (.block (.table (splitTableRow header)
        (rows.map (rowOf (splitTableRow header).length))))
  | para (ls : List Str) : ls ≠ [] → (∀ l ∈ ls, ¬ endsPara l) →
      Made ls (.block (.paragraph (parseInlines (paraOf ls))))

def Stray (line : Str) (rest : List Str) : Prop := isBar line ∧ ¬ rest.head?.any isTableSep

inductive Turned (line : Str) (rest : List Str) : Option Push → List Str → List Str → Prop
  | blank : line.trim = [] → Turned line rest none [line] rest
  | pushed {p : Push} {passed left : List Str} : line.trim ≠ [] → passed ≠ [] → Made passed p →
      line :: rest = passed ++ left → Turned line rest (some p) passed left
  | stray : line.trim ≠ [] → Stray line rest → Turned line rest none [line] rest

theorem takeWhile_all {p : Str → Bool} {ls : List Str} : ∀ l ∈ ls.takeWhile p, p l :=
  fun _ h => List.mem_takeWhile_imp h

theorem takeWhile_ne_nil {p : Str → Bool} {line : Str} {rest : List Str} (h : p line) :
    (line :: rest).takeWhile p ≠ [] := by
  rw [List.takeWhile_cons_of_pos h]
  exact List.cons_ne_nil _ _

theorem turned_run {p : Str → Bool} {line : Str} {rest : List Str} {f : List Str → Push}
    (ht : line.trim ≠ []) (h : p line)
    (hmade : ∀ ls, ls ≠ [] → (∀ l ∈ ls, p l) → Made ls (f ls)) :
    Turned line rest (some (f ((line :: rest).takeWhile p))) ((line :: rest).takeWhile p)
      ((line :: rest).dropWhile p) :=
  .pushed ht (takeWhile_ne_nil h) (hmade _ (takeWhile_ne_nil h) takeWhile_all)
    List.takeWhile_append_dropWhile.symm

theorem turned_fence {line : Str} {rest : List Str} (ht : line.trim ≠ []) (h : isFence line) :
    ∃ passed, Turned line rest
      (some (.block (.codeBlock (langOf line) (joinLines (rest.takeWhile (!isFence ·)))))) passed
      ((rest.dropWhile (!isFence ·)).drop 1) := by
  refine ⟨line :: (rest.takeWhile (!isFence ·) ++ (rest.dropWhile (!isFence ·)).take 1), ?_⟩
  apply Turned.pushed ht (List.cons_ne_nil _ _)
  · apply Made.fence _ _ _ h
    · intro l hl
      simpa using takeWhile_all l hl
    · intro l hl
      -- the loop stops at the end or at a fence
      rcases hd : rest.dropWhile (!isFence ·) with - | ⟨d, ds⟩
      · grind
      · rw [hd] at hl
        have hne : rest.dropWhile (!isFence ·) ≠ [] := by grind
        have hnot := List.head_dropWhile_not (!isFence ·) hne
        grind
    grind
  · rw [List.cons_append, List.append_assoc, List.take_append_drop, List.takeWhile_append_dropWhile]

theorem paraOf_ne_nil {line : Str} {ls : List Str} (h : line.trim ≠ []) : paraOf (line :: ls) ≠ [] := by
  unfold paraOf
  intro hnil
  rcases ls with - | ⟨l, ls⟩
  · exact h (by simpa using hnil)
  grind [List.map_cons, List.intercalate_cons_cons, List.append_eq_nil_iff]

theorem endsPara_iff {line : Str} (ht : line.trim ≠ []) (hh : ¬ 0 < headingLevel line)
    (hf : ¬ isFence line) (hr : ¬ isHr line.trim) (hb : ¬ isBullet line) (hn : ¬ isNumbered line)
    (hq : ¬ isQuote line) : endsPara line = isBar line := by
  have he : line.trim.isEmpty = false := Bool.eq_false_iff.2 fun h => ht (List.isEmpty_iff.1 h)
  have hq' : ¬ startsWith line (lit ['>', ' ']) := by
    intro h
    apply hq
    unfold isQuote
    rw [h, Bool.true_or]
  rw [Bool.not_eq_true] at hf hr hb hn hq'
  unfold endsPara
  grind

theorem turn_turned (line : Str) (rest : List Str) :
    ∃ passed, Turned line rest (turn line rest).1 passed (turn line rest).2 := by
  unfold turn
  by_cases ht : line.trim = []
  · rw [if_pos ht]
    exact ⟨_, .blank ht⟩
  rw [if_neg ht]
  by_cases hh : 0 < headingLevel line
  · rw [if_pos hh]
    exact ⟨_, .pushed ht (List.cons_ne_nil _ _) (.heading line hh) rfl⟩
  rw [if_neg hh]
  by_cases hf : isFence line
  · rw [if_pos hf]
    exact turned_fence ht hf
  rw [if_neg hf]
  by_cases hr : isHr line.trim
  · rw [if_pos hr]
    exact ⟨_, .pushed ht (List.cons_ne_nil _ _) (.rule line hr) rfl⟩
  rw [if_neg hr]
  by_cases hb : isBullet line
  · rw [if_pos hb]
    exact ⟨_, turned_run ht hb .bullets⟩
  rw [if_neg hb]
  by_cases hn : isNumbered line
  · rw [if_pos hn]
    exact ⟨_, turned_run ht hn .numbers⟩
  rw [if_neg hn]
  by_cases hq : isQuote line
  · rw [if_pos hq]
    exact ⟨_, turned_run ht hq .quote⟩
  rw [if_neg hq]
  -- a line of none of these forms is one of a table or of a paragraph
  have hpara := endsPara_iff ht hh hf hr hb hn hq
  by_cases hbar : isBar line
  · by_cases hsep : rest.head?.any isTableSep
    · rw [if_pos (by rw [hbar, hsep]; rfl)]
      obtain ⟨sep, hmem, hs⟩ := (Option.any_eq_true _ _).1 hsep
      obtain ⟨rest, rfl⟩ : ∃ rest', rest = sep :: rest' := ⟨_, (List.eq_cons_of_mem_head? hmem)⟩
      refine ⟨_, .pushed ht (List.cons_ne_nil _ _) (.table line sep (rest.takeWhile isBar) hbar hs
        takeWhile_all) ?_⟩
      rw [List.drop_one, List.tail_cons, List.cons_append, List.cons_append,
        List.takeWhile_append_dropWhile]
    · rw [if_neg (by grind)]
      -- a bar without a separator behind it ends a paragraph and starts none: the line is passed
      have hempty : (line :: rest).takeWhile (!endsPara ·) = [] := by
        rw [List.takeWhile_cons_of_neg (by rw [hpara, hbar]; decide)]
      simp only [hempty]
      rw [if_neg (by decide)]
      exact ⟨_, .stray ht ⟨hbar, hsep⟩⟩
  · rw [if_neg (by grind)]
    have hgo : (!endsPara line) = true := by grind
    have hlen : 0 < (paraOf ((line :: rest).takeWhile (!endsPara ·))).length := by
      rw [@List.takeWhile_cons_of_pos _ (!endsPara ·) _ _ hgo]
      exact List.length_pos_iff.2 (paraOf_ne_nil ht)
    simp only []
    rw [if_pos hlen]
    have hmade : ∀ ls, ls ≠ [] → (∀ l ∈ ls, (!endsPara l) = true) →
        Made ls (.block (.paragraph (parseInlines (paraOf ls)))) := by
      intro ls hne hall
      exact .para ls hne fun l hl => by simpa using hall l hl
    exact ⟨_, @turned_run (!endsPara ·) _ _ _ ht hgo hmade⟩

/-! ### Termination -/

def size (ls : List Str) : ℕ := (ls.map (·.length + 1)).sum

@[simp] theorem size_cons (l : Str) (ls : List Str) : size (l :: ls) = l.length + 1 + size ls := by
  unfold size
  grind

theorem size_append (xs ys : List Str) : size (xs ++ ys) = size xs + size ys := by
  unfold size
  grind

theorem size_suffix {xs ys : List Str} (h : xs <:+ ys) : size xs ≤ size ys := by
  obtain ⟨zs, rfl⟩ := h
  rw [size_append]
  exact Nat.le_add_left _ _

theorem length_chop_le (s : Str) : (chop s).length ≤ s.length := by
  unfold chop
  grind

theorem size_linesFrom (s : Str) : ∀ cur, size (linesFrom cur s) ≤ cur.length + s.length + 1 := by
  induction s with
  | nil =>
    intro cur
    unfold linesFrom
    split_ifs with h
    · exact Nat.zero_le _
    · exact le_of_eq (by simp [size])
  | cons c s ih =>
    intro cur
    unfold linesFrom
    split_ifs
    · grind [List.length_nil, size_cons, List.length_cons, length_chop_le]
    grind

theorem length_joinLines (l : Str) : ∀ ls, (joinLines (l :: ls)).length + 1 = size (l :: ls) := by
  intro ls
  induction ls generalizing l with
  | nil => simp [joinLines, size]
  | cons m ls ih =>
    have hm := ih m
    unfold joinLines at hm ⊢
    rw [List.intercalate_cons_cons, List.length_append, List.length_append, List.length_singleton,
      size_cons]
    omega

theorem length_unquote_lt {line : Str} (h : isQuote line) : (unquote line).length < line.length := by
  unfold unquote
  split_ifs with hs
  · have hlen : 2 ≤ line.length := (List.isPrefixOf_iff_prefix.1 hs).length_le
    grind
  · rcases line with - | ⟨c, line⟩
    · exact absurd h (by decide)
    · exact Nat.zero_lt_succ _

theorem size_unquote_le {ls : List Str} (h : ∀ l ∈ ls, isQuote l) :
    size (ls.map unquote) + ls.length ≤ size ls := by
  induction ls with
  | nil => exact le_rfl
  | cons l ls ih =>
    have hl := length_unquote_lt (h l List.mem_cons_self)
    grind [List.map_cons, size_cons, List.length_cons, List.mem_cons_of_mem]

theorem size_quote {passed : List Str} {inner : Str} (h : Made passed (.quote inner)) :
    size (lines inner) < size passed := by
  cases h with
  | quote _ hne hall =>
    obtain ⟨l, ls, rfl⟩ := List.exists_cons_of_ne_nil hne
    have hinner := size_linesFrom (joinLines ((l :: ls).map unquote)) []
    have hjoin := length_joinLines (unquote l) (ls.map unquote)
    have hless := size_unquote_le hall
    rw [List.map_cons] at hinner hless
    rw [List.length_nil] at hinner
    rw [List.length_cons] at hless
    rw [List.map_cons, lines]
    omega

theorem size_turn {line : Str} {rest : List Str} :
    size (turn line rest).2 < size (line :: rest) ∧
      ∀ inner, (turn line rest).1 = some (.quote inner) → size (lines inner) < size (line :: rest) := by
  obtain ⟨passed, h⟩ := turn_turned line rest
  generalize (turn line rest).1 = push at h
  generalize (turn line rest).2 = left at h
  cases h with
  | blank | stray =>
    grind [size_cons]
  | pushed _ hne hmade happ =>
    obtain ⟨l, ls, rfl⟩ := List.exists_cons_of_ne_nil hne
    rw [happ, size_append]
    constructor
    · rw [size_cons]
      omega
    · rintro inner ⟨⟩
      exact (size_quote hmade).trans_le (Nat.le_add_right _ _)

/-! ### The parser -/

/-- `while i < nl` of `_parse_blocks`, which calls itself for a quote. -/
def blocksFrom : List Str → List MdBlock
  | [] => []
  | line :: rest =>
    let later := blocksFrom (turn line rest).2
    match _hpush : (turn line rest).1 with
    | none => later
    | some (.block b) => b :: later
    | some (.quote inner) => .blockquote (blocksFrom (lines inner)) :: later
termination_by ls => size ls
decreasing_by
  · exact size_turn.1
  · exact size_turn.2 inner _hpush

/-- `_parse_blocks` -/
def parseBlocks (input : Str) : List MdBlock := blocksFrom (lines input)

def parse (input : Str) : MdDoc := ⟨parseBlocks input⟩

end LsLang.Text.Md
