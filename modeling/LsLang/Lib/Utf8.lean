import Mathlib.Data.List.Basic
import Mathlib.Tactic.Common

/-! Texts of bytes in UTF-8, and where they may be cut. -/

namespace LsLang.Lib

abbrev encode (l : List Char) : List UInt8 := l.flatMap String.utf8EncodeChar

/-- The text encodes some characters. -/
def Utf8 (s : List UInt8) : Prop := ∃ l, s = encode l

namespace Utf8

variable {s t w : List UInt8} {b : UInt8} {c : Char}

theorem nil : Utf8 [] := ⟨[], rfl⟩

theorem append (hs : Utf8 s) (ht : Utf8 t) : Utf8 (s ++ t) := by
  obtain ⟨l, rfl⟩ := hs
  obtain ⟨m, rfl⟩ := ht
  exact ⟨l ++ m, List.flatMap_append.symm⟩

theorem char (c : Char) : Utf8 (String.utf8EncodeChar c) := ⟨[c], (List.flatMap_singleton _ c).symm⟩

theorem encode_cases (c : Char) :
    (c.val.toNat < 128 ∧ String.utf8EncodeChar c = [UInt8.ofNat c.val.toNat]) ∨
      (String.utf8EncodeChar c ≠ [] ∧ ∀ b ∈ String.utf8EncodeChar c, ¬ b < 128) := by
  have hhigh : ∀ n : Nat, 128 ≤ n → n < 256 → ¬ UInt8.ofNat n < 128 := by
    grind [Nat.not_le, UInt8.toNat_ofNat', Nat.mod_eq_of_lt, UInt8.lt_iff_toNat_lt]
  unfold String.utf8EncodeChar
  dsimp only
  split
  · grind
  refine .inr ?_
  split
  · grind
  split
  · grind
  · grind

theorem val_ofNat {n : Nat} (h : n.isValidChar) : (Char.ofNat n).val.toNat = n := by
  unfold Char.ofNat
  rw [dif_pos h]
  rfl

theorem ascii (hb : b < 128) : Utf8 [b] := by
  have hlt : b.toNat < 128 := UInt8.lt_iff_toNat_lt.1 hb
  have hval : (Char.ofNat b.toNat).val.toNat = b.toNat := val_ofNat (.inl (by omega))
  have henc : String.utf8EncodeChar (Char.ofNat b.toNat) = [b] := by
    unfold String.utf8EncodeChar
    dsimp only
    rw [hval, if_pos (Nat.le_of_lt_succ hlt), UInt8.ofNat_toNat]
  exact henc ▸ char _

theorem split (hb : b < 128) (h : Utf8 (s ++ b :: t)) : Utf8 s ∧ Utf8 t := by
  obtain ⟨l, hl⟩ := h
  induction l generalizing s with
  | nil => simp at hl
  | cons c l ih =>
    rw [encode, List.flatMap_cons] at hl
    rcases encode_cases c with ⟨-, hc⟩ | ⟨hne, hc⟩
    · rw [hc, List.singleton_append] at hl
      cases s with
      | nil =>
        obtain ⟨-, rfl⟩ := List.cons.inj hl
        exact ⟨.nil, l, rfl⟩
      | cons a s =>
        obtain ⟨rfl, hrest⟩ := List.cons.inj hl
        obtain ⟨hs, ht⟩ := ih hrest
        refine ⟨?_, ht⟩
        rw [← List.singleton_append, ← hc]
        exact (char c).append hs
    · rcases List.append_eq_append_iff.1 hl with ⟨x, hx, hrest⟩ | ⟨x, rfl, hrest⟩
      · cases x with
        | nil =>
          grind [char, List.append_nil]
        | cons a x =>
          grind
      grind [char, append]

theorem cons_iff (hb : b < 128) : Utf8 (b :: s) ↔ Utf8 s :=
  ⟨fun h => (split (s := []) hb h).2, fun h => (ascii hb).append h⟩

theorem of_append_left (hw : ∀ b ∈ w, b < 128) (h : Utf8 (w ++ s)) : Utf8 s := by
  induction w with
  | nil => exact h
  | cons b w ih =>
    grind [cons_iff, List.mem_cons_self, List.mem_cons_of_mem]

theorem of_append_right (hw : ∀ b ∈ w, b < 128) (h : Utf8 (s ++ w)) : Utf8 s := by
  cases w with
  | nil => rwa [List.append_nil] at h
  | cons b w => exact (split (hw b List.mem_cons_self) h).1

theorem cases (h : Utf8 s) : s = [] ∨ (∃ b t, b < 128 ∧ s = b :: t ∧ Utf8 t) ∨
    ∃ c t, String.utf8EncodeChar c ≠ [] ∧ (∀ b ∈ String.utf8EncodeChar c, ¬ b < 128) ∧
      s = String.utf8EncodeChar c ++ t ∧ Utf8 t := by
  obtain ⟨l, rfl⟩ := h
  cases l with
  | nil => exact .inl rfl
  | cons c l =>
    rw [encode, List.flatMap_cons]
    rcases encode_cases c with ⟨hlt, hc⟩ | ⟨hne, hc⟩
    · refine .inr (.inl ⟨UInt8.ofNat c.val.toNat, _, ?_, ?_, l, rfl⟩)
      · rw [UInt8.lt_iff_toNat_lt, UInt8.toNat_ofNat', Nat.mod_eq_of_lt (by omega)]
        exact hlt
      · rw [hc]
        rfl
    · exact .inr (.inr ⟨c, _, hne, hc, rfl, l, rfl⟩)

end Utf8

end LsLang.Lib
