import LsLang.Core.Str
import LsLang.Lib.JsonText

/-! A text that is read from the left, and how a reading can end. -/

namespace LsLang.Core

/-- `pos` and the bytes of the text from there on. -/
@[ext]
structure Cursor where
  rest : Str
  pos : Nat
  deriving DecidableEq

namespace Cursor

/-- `p.pos = p.pos + n` -/
def advance (p : Cursor) (n : Nat) : Cursor := ⟨p.rest.drop n, p.pos + n⟩

def skipWs : Str → Nat → Cursor
  | [], pos => ⟨[], pos⟩
  | c :: rest, pos =>
    if c = 32 ∨ c = 9 ∨ c = 10 ∨ c = 13 then skipWs rest (pos + 1) else ⟨c :: rest, pos⟩

/-- `_vp_ws`, and `_skip_ws` of the other reader. -/
def ws (p : Cursor) : Cursor := skipWs p.rest p.pos

open JsonText

theorem skipWs_rest (s : Str) (pos : Nat) : (skipWs s pos).rest = skip s := by
  induction s generalizing pos with
  | nil => rfl
  | cons c s ih =>
    unfold skipWs
    by_cases hc : c = 32 ∨ c = 9 ∨ c = 10 ∨ c = 13
    · rw [if_pos hc, ih]
      have : isWs c = true := by
        unfold isWs
        grind
      unfold skip
      rw [List.dropWhile_cons, if_pos this]
    · rw [if_neg hc, skip_cons]
      simp only [not_or] at hc
      simp only [isWs, Bool.or_eq_false_iff, beq_eq_false_iff_ne]
      grind

@[simp] theorem ws_rest (p : Cursor) : p.ws.rest = skip p.rest := skipWs_rest _ _

@[simp] theorem advance_rest (p : Cursor) (n : Nat) : (p.advance n).rest = p.rest.drop n := rfl

theorem ws_eq (p : Cursor) : ∃ pos, p.ws = ⟨skip p.rest, pos⟩ :=
  ⟨p.ws.pos, Cursor.ext (ws_rest p) rfl⟩

theorem ws_cases (p : Cursor) : p.ws.rest = [] ∨ ∃ w c r pos, Ws w ∧ isWs c = false ∧
    p.rest = w ++ c :: r ∧ p.ws = ⟨c :: r, pos⟩ := by
  obtain ⟨w, hw, hs⟩ := exists_skip p.rest
  obtain ⟨pos, hp⟩ := p.ws_eq
  cases hk : skip p.rest with
  | nil => grind
  | cons c r =>
    grind [isWs_of_skip]

theorem skipWs_skipWs (s : Str) (pos : Nat) :
    skipWs (skipWs s pos).rest (skipWs s pos).pos = skipWs s pos := by
  induction s generalizing pos with
  | nil => rfl
  | cons c s ih =>
    rw [skipWs]
    split
    · exact ih (pos + 1)
    · next hc => rw [skipWs, if_neg hc]

theorem ws_ws (p : Cursor) : p.ws.ws = p.ws := skipWs_skipWs p.rest p.pos

/-- `q` is where `p` stands once it has passed `s`. -/
def Eats (p : Cursor) (s : Str) (q : Cursor) : Prop :=
  p.rest = s ++ q.rest ∧ q.pos = p.pos + s.length

theorem Eats.refl (p : Cursor) : p.Eats [] p := ⟨rfl, rfl⟩

theorem Eats.trans {p q r : Cursor} {s t : Str} (h : p.Eats s q) (h' : q.Eats t r) :
    p.Eats (s ++ t) r := by
  refine ⟨by rw [h.1, h'.1, List.append_assoc], ?_⟩
  rw [h'.2, h.2, List.length_append, Nat.add_assoc]

theorem Eats.advance {p : Cursor} {s t : Str} (h : p.rest = s ++ t) :
    p.Eats s (p.advance s.length) := by
  refine ⟨?_, rfl⟩
  rw [advance_rest, h, List.drop_left]

theorem skipWs_eats (s : Str) (pos : Nat) :
    ∃ w, Ws w ∧ Eats ⟨s, pos⟩ w (skipWs s pos) := by
  induction s generalizing pos with
  | nil => exact ⟨[], ws_nil, .refl _⟩
  | cons c s ih =>
    rw [skipWs]
    split
    · next hc =>
      obtain ⟨w, hw, he⟩ := ih (pos + 1)
      refine ⟨c :: w, ?_, Eats.trans (s := [c]) (q := ⟨s, pos + 1⟩) ⟨rfl, rfl⟩ he⟩
      intro b hb
      rcases List.mem_cons.mp hb with rfl | hb
      · unfold isWs
        grind
      · exact hw b hb
    · exact ⟨[], ws_nil, .refl _⟩

theorem ws_eats (p : Cursor) : ∃ w, Ws w ∧ p.Eats w p.ws := skipWs_eats p.rest p.pos

end Cursor

/-- A parsing function returns a `Result` and leaves the cursor behind; `diverges` stands for a
call that ran out of fuel. -/
inductive Outcome (α : Type)
  | ok (a : α) (p : Cursor)
  | err (message : String) (p : Cursor)
  | diverges

def Outcome.Ended {α : Type} (p : Cursor) : Outcome α → Prop
  | .ok _ q => ∃ s, p.Eats s q
  | .err _ q => ∃ s, p.Eats s q
  | .diverges => False

theorem Outcome.Ended.of_eats {α : Type} {p q : Cursor} {o : Outcome α} {s : Str} (h : o.Ended q)
    (he : p.Eats s q) : o.Ended p := by
  cases o with
  | ok a r =>
    obtain ⟨t, ht⟩ := h
    exact ⟨s ++ t, he.trans ht⟩
  | err e r =>
    obtain ⟨t, ht⟩ := h
    exact ⟨s ++ t, he.trans ht⟩
  | diverges => exact h

end LsLang.Core
