import Mathlib.Algebra.Order.BigOperators.Group.List
import LsLang.Text.JsonPrint

/-! How long the printed forms of a value are. With room for the whole text every `Str` on the way has room. -/

namespace LsLang.Text.Json

open LsLang.Core

namespace Tree

def escapedLength (s : Str) : Nat := (s.map fun b => (pieceOf b).bytes.length).sum

/-- The brackets, the separators and the indents around `n` parts of `length` bytes in all. -/
def frameLength (depth indent : Int) (n length : Nat) : Nat :=
  if indent ≤ 0 then length + n + 1
  else length + n * (((depth + 1) * indent).toNat + 2) + (depth * indent).toNat + 2

def keyLength (key : Str) (indent : Int) : Nat := escapedLength key + if indent ≤ 0 then 3 else 4

mutual

/-- How many bytes the text of a value takes. -/
def length : Tree → Int → Int → Nat
  | null, _, _ => 4
  | bool b, _, _ => if b then 4 else 5
  | int i, _, _ => (showInt i).length
  | text s, _, _ => escapedLength s + 2
  | array ts, depth, indent =>
    if ts.length = 0 then 2
    else frameLength depth indent ts.length (lengthItems ts (childDepth depth indent) (childIndent indent))
  | object fs, depth, indent =>
    if fs.length = 0 then 2
    else frameLength depth indent fs.length (lengthFields fs (childDepth depth indent) (childIndent indent))

def lengthItems : List Tree → Int → Int → Nat
  | [], _, _ => 0
  | t :: ts, depth, indent => t.length depth indent + lengthItems ts depth indent

def lengthFields : List (Str × Tree) → Int → Int → Nat
  | [], _, _ => 0
  | (k, t) :: fs, depth, indent => keyLength k indent + t.length depth indent + lengthFields fs depth indent

end

theorem length_escapeString (s : Str) : (escapeString s).length = escapedLength s := by
  rw [escapeString_eq, JsonText.body, List.length_flatMap, List.map_map]
  rfl

theorem length_join (sep : Str) {parts : List Str} (h : parts ≠ []) :
    (join sep parts).length + sep.length = (parts.map List.length).sum + parts.length * sep.length := by
  induction parts with
  | nil => exact absurd rfl h
  | cons part parts ih =>
    cases parts with
    | nil => simp [join]
    | cons part' parts =>
      have hrest := ih (List.cons_ne_nil _ _)
      rw [join_cons sep part (List.cons_ne_nil _ _), List.length_append, List.length_append, List.map_cons,
        List.sum_cons, List.length_cons, Nat.add_mul, Nat.one_mul]
      omega

theorem length_padded (pad : Str) (parts : List Str) :
    ((parts.map (pad ++ ·)).map List.length).sum = parts.length * pad.length + (parts.map List.length).sum := by
  induction parts with
  | nil => simp
  | cons part parts ih =>
    rw [List.map_cons, List.map_cons, List.sum_cons, ih, List.length_append, List.map_cons, List.sum_cons,
      List.length_cons, Nat.add_mul, Nat.one_mul]
    omega

theorem length_spaces (depth indent : Int) : (spaces depth indent).length = (depth * indent).toNat :=
  List.length_replicate

theorem length_frame (depth indent : Int) (opening closing : Char) {parts : List Str} (h : parts ≠ []) :
    (frame depth indent opening closing parts).length =
      frameLength depth indent parts.length (parts.map List.length).sum := by
  unfold frame frameLength
  split
  · have hjoin := length_join (lit [',']) h
    have hsep : (lit [',']).length = 1 := rfl
    rw [hsep] at hjoin
    rw [oneLine, List.length_cons, List.length_append, List.length_singleton]
    omega
  · have hjoin := @length_join (lit [',', '\n']) (parts.map (spaces (depth + 1) indent ++ ·))
      (fun hnil => h (List.map_eq_nil_iff.mp hnil))
    have hsep : (lit [',', '\n']).length = 2 := rfl
    rw [hsep, length_padded, length_spaces, List.length_map] at hjoin
    rw [lines, List.length_cons, List.length_cons, List.length_append, List.length_cons, List.length_append,
      length_spaces, List.length_singleton, Nat.mul_add]
    omega

theorem length_printItems (ts : List Tree) (depth indent : Int) : (printItems ts depth indent).length = ts.length := by
  induction ts with
  | nil => rfl
  | cons t ts ih => rw [printItems, List.length_cons, ih, List.length_cons]

theorem length_printFields (fs : List (Str × Tree)) (depth indent : Int) :
    (printFields fs depth indent).length = fs.length := by
  induction fs with
  | nil => rfl
  | cons f fs ih => rw [printFields, List.length_cons, ih, List.length_cons]

theorem length_keyText (k : Str) (indent : Int) : (keyText k indent).length = keyLength k indent := by
  unfold keyText keyLength
  rw [List.length_cons, List.length_append, length_escapeString]
  split
  · rfl
  · rfl

mutual

theorem length_print : ∀ (t : Tree) (depth indent : Int), (t.print depth indent).length = t.length depth indent
  | null, _, _ => rfl
  | bool true, _, _ => rfl
  | bool false, _, _ => rfl
  | int _, _, _ => rfl
  | text s, _, _ => by
    rw [print, length, List.length_cons, List.length_append, length_escapeString]
    rfl
  | array [], _, _ => rfl
  | array (t :: ts), depth, indent => by
    rw [print, length, if_neg (by simp), if_neg (by simp), length_frame _ _ _ _ (by simp [printItems]),
      length_printItems, sum_printItems]
  | object [], _, _ => rfl
  | object (f :: fs), depth, indent => by
    rw [print, length, if_neg (by simp), if_neg (by simp), length_frame _ _ _ _ (by simp [printFields]),
      length_printFields, sum_printFields]

theorem sum_printItems : ∀ (ts : List Tree) (depth indent : Int),
    ((printItems ts depth indent).map List.length).sum = lengthItems ts depth indent
  | [], _, _ => rfl
  | t :: ts, depth, indent => by
    rw [printItems, List.map_cons, List.sum_cons, length_print t, sum_printItems ts, lengthItems]

theorem sum_printFields : ∀ (fs : List (Str × Tree)) (depth indent : Int),
    ((printFields fs depth indent).map List.length).sum = lengthFields fs depth indent
  | [], _, _ => rfl
  | (k, t) :: fs, depth, indent => by
    rw [printFields, List.map_cons, List.sum_cons, List.length_append, length_keyText, length_print t,
      sum_printFields fs, lengthFields]

end

end Tree

/-! A text that fits into a `Str` is written. -/

theorem pushed_eq {s : Str} (h : s.length ≤ 2 ^ 30) : pushed s = some s := if_pos (decide_eq_true h)

theorem pushed_some {s r : Str} (h : pushed s = some r) : r = s := by
  unfold pushed at h
  split at h
  · exact (Option.some.inj h).symm
  · cases h

theorem indentStr_eq {depth indent : Int} (hdepth : 0 ≤ depth) (hindent : 0 ≤ indent)
    (h : (Tree.spaces depth indent).length ≤ 2 ^ 30) : indentStr depth indent = some (Tree.spaces depth indent) := by
  have hpos := Int.mul_nonneg hdepth hindent
  have hlen := h
  rw [Tree.length_spaces] at hlen
  unfold indentStr
  dsimp only
  rw [if_pos (by omega)]
  exact pushed_eq h

theorem layout_eq {depth indent : Int} {opening closing : Char} {parts : List Str} (hdepth : 0 ≤ depth) (hne : parts ≠ [])
    (h : (Tree.frame depth indent opening closing parts).length ≤ 2 ^ 30) :
    layout depth indent opening closing parts = some (Tree.frame depth indent opening closing parts) := by
  have hlen := h
  rw [Tree.length_frame _ _ _ _ hne] at hlen
  unfold layout
  unfold Tree.frame at h ⊢
  unfold Tree.frameLength at hlen
  split
  · next hind =>
    rw [if_pos hind] at h
    exact pushed_eq h
  · next hind =>
    rw [if_neg hind] at h hlen
    have hone : 1 ≤ parts.length := List.length_pos_iff.mpr hne
    have hpad : (((depth + 1) * indent).toNat + 2) ≤ parts.length * (((depth + 1) * indent).toNat + 2) :=
      Nat.le_mul_of_pos_left _ hone
    have hchild := Tree.length_spaces (depth + 1) indent
    have hclose := Tree.length_spaces depth indent
    rw [indentStr_eq (by omega) (by omega) (by omega), indentStr_eq hdepth (by omega) (by omega)]
    exact pushed_eq h

theorem indentStr_some {depth indent : Int} {pad : Str} (h : indentStr depth indent = some pad) :
    pad = Tree.spaces depth indent := by
  unfold indentStr at h
  dsimp only at h
  split at h
  · exact pushed_some h
  · cases h

theorem layout_some {depth indent : Int} {opening closing : Char} {parts : List Str} {s : Str}
    (h : layout depth indent opening closing parts = some s) : s = Tree.frame depth indent opening closing parts := by
  unfold layout at h
  unfold Tree.frame
  split
  · next hind =>
    rw [if_pos hind] at h
    exact pushed_some h
  · next hind =>
    rw [if_neg hind] at h
    obtain ⟨childPad, hchild, h⟩ := Option.bind_eq_some_iff.mp h
    obtain ⟨closePad, hclose, h⟩ := Option.bind_eq_some_iff.mp h
    rw [pushed_some h, indentStr_some hchild, indentStr_some hclose]

/-- The parts are no longer than the whole. -/
theorem part_le {depth indent : Int} {opening closing : Char} {parts : List Str} {part : Str} (hpart : part ∈ parts) :
    part.length ≤ (Tree.frame depth indent opening closing parts).length := by
  have hle : part.length ≤ (parts.map List.length).sum := List.le_sum_of_mem (List.mem_map_of_mem hpart)
  rw [Tree.length_frame _ _ _ _ (List.ne_nil_of_mem hpart)]
  unfold Tree.frameLength
  split <;> omega

end LsLang.Text.Json
