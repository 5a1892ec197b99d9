import LsLang.Text.JsonReader

/-! What `stringify` prints is JSON. The trees are the values without their tables. -/

namespace LsLang.Text.Json

open LsLang.Core JsonText

/-- What a value stands for; its numbers are integers. -/
inductive Tree
  | null
  | bool (val : Bool)
  | int (val : Int)
  | text (val : Str)
  | array (items : List Tree)
  | object (fields : List (Str × Tree))

/-! Strings. -/

/-- A byte of a string as `_escape_string` writes it. -/
def pieceOf (b : UInt8) : Piece :=
  if b = ch '"' then .escape (ch '"')
  else if b = ch '\\' then .escape (ch '\\')
  else if b = ch '\n' then .escape (ch 'n')
  else if b = ch '\r' then .escape (ch 'r')
  else if b = ch '\t' then .escape (ch 't')
  else if b = 8 then .escape (ch 'b')
  else if b = 12 then .escape (ch 'f')
  else .plain b

theorem pieceOf_spec (b : UInt8) : loose.piece (pieceOf b) ∧ pieceText (pieceOf b) = [b] := by
  have hesc : ∀ e ∈ escapes, loose.piece (.escape e) := fun _ h => h
  unfold pieceOf
  split_ifs with h₁ h₂ h₃ h₄ h₅ h₆ h₇
  · rw [h₁]; exact ⟨hesc _ (by decide), by decide⟩
  · rw [h₂]; exact ⟨hesc _ (by decide), by decide⟩
  · rw [h₃]; exact ⟨hesc _ (by decide), by decide⟩
  · rw [h₄]; exact ⟨hesc _ (by decide), by decide⟩
  · rw [h₅]; exact ⟨hesc _ (by decide), by decide⟩
  · rw [h₆]; exact ⟨hesc _ (by decide), by decide⟩
  · rw [h₇]; exact ⟨hesc _ (by decide), by decide⟩
  · exact ⟨⟨h₁, h₂⟩, rfl⟩

theorem pieces_loose (s : Str) : ∀ q ∈ s.map pieceOf, loose.piece q := by grind [pieceOf_spec]

theorem textOf_pieces (s : Str) : textOf (s.map pieceOf) = s := by
  induction s with
  | nil => rfl
  | cons b s ih =>
    rw [List.map_cons, show textOf (pieceOf b :: s.map pieceOf) =
      pieceText (pieceOf b) ++ textOf (s.map pieceOf) from rfl, (pieceOf_spec b).2, ih]
    rfl

theorem escapeString_eq (s : Str) : escapeString s = body (s.map pieceOf) := by
  unfold escapeString body
  rw [List.flatMap_map]
  congr 1
  funext b
  unfold pieceOf
  split_ifs <;> rfl

theorem quoted_pieces (s x : Str) :
    ch '"' :: (escapeString s ++ ch '"' :: x) = quoted (s.map pieceOf) ++ x := by
  rw [escapeString_eq, quoted, List.cons_append, List.append_assoc]
  rfl

/-! Numbers. -/

theorem showInt_number (i : Int) : IsNumber Digits (showInt i) := by
  have hd : Digits (showNat i.natAbs) := ⟨showNat_ne_nil _, showNat_digits _⟩
  unfold showInt
  split
  · exact ⟨[45], _, [], [], Or.inr rfl, hd, Or.inl rfl, Or.inl rfl, by simp⟩
  · exact ⟨[], _, [], [], Or.inl rfl, hd, Or.inl rfl, Or.inl rfl, by simp⟩

/-! Trees. -/

namespace Tree

mutual

/-- How deep the values are nested; the value itself is at depth 0. -/
def depth : Tree → Nat
  | array ts => depthItems ts
  | object fs => depthFields fs
  | _ => 0

def depthItems : List Tree → Nat
  | [] => 0
  | t :: ts => max (t.depth + 1) (depthItems ts)

def depthFields : List (Str × Tree) → Nat
  | [] => 0
  | (_, t) :: fs => max (t.depth + 1) (depthFields fs)

end

mutual

def raw : Tree → Raw
  | null => .null
  | bool b => .bool b
  | int i => .number (showInt i)
  | text s => .string (s.map pieceOf)
  | array ts => .array (rawItems ts)
  | object fs => .object (rawFields fs)

def rawItems : List Tree → List Raw
  | [] => []
  | t :: ts => t.raw :: rawItems ts

def rawFields : List (Str × Tree) → List (List Piece × Raw)
  | [] => []
  | (k, t) :: fs => (k.map pieceOf, t.raw) :: rawFields fs

end

/-- The arguments with which `_stringify_impl` goes down to a child. -/
def childDepth (depth indent : Int) : Int := if indent ≤ 0 then depth else depth + 1

def childIndent (indent : Int) : Int := if indent ≤ 0 then 0 else indent

theorem childIndent_le (indent : Int) : childIndent indent ≤ 0 ↔ indent ≤ 0 := by
  unfold childIndent
  split <;> omega

theorem childDepth_nonneg {depth : Int} (h : 0 ≤ depth) (indent : Int) : 0 ≤ childDepth depth indent := by
  unfold childDepth
  split <;> omega

def keyText (key : Str) (indent : Int) : Str :=
  ch '"' :: (escapeString key ++ (if indent ≤ 0 then lit ['"', ':'] else lit ['"', ':', ' ']))

def spaces (depth indent : Int) : Str := List.replicate (depth * indent).toNat (ch ' ')

/-- What `layout` writes where there is room for it. -/
def frame (depth indent : Int) (opening closing : Char) (parts : List Str) : Str :=
  if indent ≤ 0 then oneLine opening closing parts
  else lines (spaces (depth + 1) indent) (spaces depth indent) opening closing parts

mutual

/-- The text `_stringify_impl` returns for a value that stands for the tree. -/
def print : Tree → Int → Int → Str
  | null, _, _ => lit ['n', 'u', 'l', 'l']
  | bool b, _, _ => if b then lit ['t', 'r', 'u', 'e'] else lit ['f', 'a', 'l', 's', 'e']
  | int i, _, _ => showInt i
  | text s, _, _ => ch '"' :: (escapeString s ++ [ch '"'])
  | array ts, depth, indent =>
    if ts.length = 0 then lit ['[', ']']
    else frame depth indent '[' ']' (printItems ts (childDepth depth indent) (childIndent indent))
  | object fs, depth, indent =>
    if fs.length = 0 then lit ['\x7b', '\x7d']
    else frame depth indent '\x7b' '\x7d'
      (printFields fs (childDepth depth indent) (childIndent indent))

def printItems : List Tree → Int → Int → List Str
  | [], _, _ => []
  | t :: ts, depth, indent => t.print depth indent :: printItems ts depth indent

def printFields : List (Str × Tree) → Int → Int → List Str
  | [], _, _ => []
  | (k, t) :: fs, depth, indent =>
    (keyText k indent ++ t.print depth indent) :: printFields fs depth indent

end

theorem ws_replicate (n : Nat) : Ws (List.replicate n (ch ' ')) := by
  intro b hb
  rw [List.eq_of_mem_replicate hb]
  decide

theorem ws_newline {w : Str} (hw : Ws w) : Ws (ch '\n' :: w) := by
  intro b hb
  rcases List.mem_cons.mp hb with rfl | hb
  · decide
  · exact hw b hb

theorem frame_cases (depth indent : Int) (opening closing : Char) (parts : List Str) :
    ∃ w sep pad post, Ws w ∧ Ws sep ∧ Ws pad ∧ Ws post ∧ frame depth indent opening closing parts =
      ch opening :: (w ++ (join (44 :: sep) (parts.map (pad ++ ·)) ++ post) ++ [ch closing]) := by
  unfold frame oneLine lines
  split
  · refine ⟨[], [], [], [], ws_nil, ws_nil, ws_nil, ws_nil, ?_⟩
    simp only [List.nil_append, List.map_id', List.append_nil]
    rfl
  · refine ⟨[ch '\n'], [ch '\n'], spaces (depth + 1) indent, ch '\n' :: spaces depth indent,
      ws_newline ws_nil, ws_newline ws_nil, ws_replicate _, ws_newline (ws_replicate _), ?_⟩
    grind

theorem join_cons (sep part : Str) {parts : List Str} (h : parts ≠ []) :
    join sep (part :: parts) = part ++ (sep ++ join sep parts) := by
  cases parts with
  | nil => exact absurd rfl h
  | cons => rfl

theorem keyText_eq (key : Str) (indent : Int) : ∃ w, Ws w ∧
    ∀ x, keyText key indent ++ x = quoted (key.map pieceOf) ++ ([] ++ 58 :: (w ++ x)) := by
  have h : ∀ w x : Str, ch '"' :: (escapeString key ++ (ch '"' :: ch ':' :: w)) ++ x =
      quoted (key.map pieceOf) ++ ([] ++ 58 :: (w ++ x)) := by
    intro w x
    rw [List.cons_append, List.append_assoc]
    exact quoted_pieces key _
  unfold keyText
  split
  · exact ⟨[], ws_nil, h []⟩
  · exact ⟨[32], fun b hb => by rw [List.mem_singleton.mp hb]; decide, h [32]⟩

mutual

theorem print_derives : ∀ (t : Tree) (d : Nat) (depth indent : Int), t.depth ≤ d →
    Derives loose d (.value t.raw) (t.print depth indent)
  | null, _, _, _, _ => .null
  | bool true, _, _, _, _ => .tru
  | bool false, _, _, _, _ => .fls
  | int i, _, _, _, _ => .number (showInt_number i)
  | text s, _, _, _, _ => by
    rw [print, quoted_pieces, List.append_nil]
    exact .string (pieces_loose s)
  | array [], _, _, _, _ => .emptyArray ws_nil
  | array (t :: ts), d, depth, indent, hd => by
    obtain ⟨d, rfl⟩ : ∃ m, d = m + 1 := ⟨d - 1, by rw [Tree.depth, depthItems] at hd; omega⟩
    obtain ⟨w, sep, pad, post, hw, hsep, hpad, hpost, h⟩ := frame_cases depth indent '[' ']'
      (printItems (t :: ts) (childDepth depth indent) (childIndent indent))
    rw [print, if_neg (by simp), h]
    exact .array (printItems_derives (t :: ts) (List.cons_ne_nil _ _) d _ _ hd w sep pad post hw hsep
      hpad hpost)
  | object [], _, _, _, _ => .emptyObject ws_nil
  | object ((k, t) :: fs), d, depth, indent, hd => by
    obtain ⟨d, rfl⟩ : ∃ m, d = m + 1 := ⟨d - 1, by rw [Tree.depth, depthFields] at hd; omega⟩
    obtain ⟨w, sep, pad, post, hw, hsep, hpad, hpost, h⟩ := frame_cases depth indent '\x7b' '\x7d'
      (printFields ((k, t) :: fs) (childDepth depth indent) (childIndent indent))
    rw [print, if_neg (by simp), h]
    exact .object (printFields_derives ((k, t) :: fs) (List.cons_ne_nil _ _) d _ _ hd w sep pad post hw
      hsep hpad hpost)

theorem printItems_derives : ∀ (ts : List Tree), ts ≠ [] → ∀ (d : Nat) (depth indent : Int),
    depthItems ts ≤ d + 1 → ∀ w sep pad post, Ws w → Ws sep → Ws pad → Ws post →
    Derives loose d (.items (rawItems ts))
      (w ++ (join (44 :: sep) ((printItems ts depth indent).map (pad ++ ·)) ++ post))
  | [], hne => absurd rfl hne
  | [t], _ => by
    intro d depth indent hd w sep pad post hw hsep hpad hpost
    rw [depthItems] at hd
    have h := Derives.lastItem (hw.append hpad) (print_derives t d depth indent (by omega)) hpost
    rw [List.append_assoc] at h
    rw [printItems, printItems, List.map_singleton, join, List.append_assoc]
    exact h
  | t :: t' :: ts, _ => by
    intro d depth indent hd w sep pad post hw hsep hpad hpost
    rw [depthItems] at hd
    have ih := printItems_derives (t' :: ts) (List.cons_ne_nil _ _) d depth indent (by omega) sep sep pad
      post hsep hsep hpad hpost
    have h := Derives.item (hw.append hpad) (print_derives t d depth indent (by omega)) ws_nil
      ih
    rw [printItems, List.map_cons, join_cons _ _ (by rw [printItems]; exact List.cons_ne_nil _ _)]
    simp only [List.append_assoc, List.cons_append, List.nil_append] at h ⊢
    exact h

theorem printFields_derives : ∀ (fs : List (Str × Tree)), fs ≠ [] → ∀ (d : Nat) (depth indent : Int),
    depthFields fs ≤ d + 1 → ∀ w sep pad post, Ws w → Ws sep → Ws pad → Ws post →
    Derives loose d (.fields (rawFields fs))
      (w ++ (join (44 :: sep) ((printFields fs depth indent).map (pad ++ ·)) ++ post))
  | [], hne => absurd rfl hne
  | [(k, t)], _ => by
    intro d depth indent hd w sep pad post hw hsep hpad hpost
    rw [depthFields] at hd
    obtain ⟨w₂, hw₂, hkey⟩ := keyText_eq k indent
    have h := Derives.lastField (hw.append hpad) (pieces_loose k) ws_nil hw₂
      (print_derives t d depth indent (by omega)) hpost
    rw [← hkey] at h
    rw [printFields, printFields, List.map_singleton, join]
    simp only [List.append_assoc] at h ⊢
    exact h
  | (k, t) :: f :: fs, _ => by
    intro d depth indent hd w sep pad post hw hsep hpad hpost
    rw [depthFields] at hd
    obtain ⟨w₂, hw₂, hkey⟩ := keyText_eq k indent
    have ih := printFields_derives (f :: fs) (List.cons_ne_nil _ _) d depth indent (by omega) sep sep pad
      post hsep hsep hpad hpost
    have h := Derives.field (hw.append hpad) (pieces_loose k) ws_nil hw₂
      (print_derives t d depth indent (by omega)) ws_nil ih
    rw [← hkey] at h
    rw [printFields, List.map_cons, join_cons _ _ (by rw [printFields]; exact List.cons_ne_nil _ _)]
    simp only [List.append_assoc, List.cons_append, List.nil_append] at h ⊢
    exact h

end

end Tree

end LsLang.Text.Json
