import Mathlib
import LsLang.Text.MatchLoop

/-! `replace_all` leaves the text between the matches as it is. -/

namespace LsLang.Text

open LsLang.Core LsLang.Core.Buffer LsLang.Undefined LsLang.Undefined.Res

variable {exec : ℕ → Option (ℕ × ℕ)} {tlen pos stop e : ℕ} {ms : List (ℕ × ℕ)} {text replacement : List UInt8}

/-- A gap, and then each match with the gap behind it. -/
def weave (g : List UInt8) : List (List UInt8 × List UInt8) → List UInt8
  | [] => g
  | (m, g') :: rest => g ++ m ++ weave g' rest

/-- Where the matches of a woven text stand, which begins at `o`. -/
def places (o : ℕ) (g : List UInt8) : List (List UInt8 × List UInt8) → List (ℕ × ℕ)
  | [] => []
  | (m, g') :: rest => (o + g.length, m.length) :: places (o + g.length + m.length) g' rest

/-- The first gap behind `e`. -/
def firstGap (text : List UInt8) (e : ℕ) : List (ℕ × ℕ) → List UInt8
  | [] => text.drop e
  | (s, _) :: _ => slice text e s

def matchGaps (text : List UInt8) : List (ℕ × ℕ) → List (List UInt8 × List UInt8)
  | [] => []
  | (s, l) :: ms => (slice text s (s + l), firstGap text (s + l) ms) :: matchGaps text ms

theorem Apart.weave_eq (h : Apart text.length e ms) :
    weave (firstGap text e ms) (matchGaps text ms) = text.drop e := by
  induction h with
  | nil _ => rfl
  | @cons e s l ms hle hrest ih =>
    unfold firstGap matchGaps weave
    rw [ih, slice_append hle (Nat.le_add_right s l), slice_drop (Nat.le_trans hle (Nat.le_add_right s l))]

theorem Apart.places_eq (h : Apart text.length e ms) :
    places e (firstGap text e ms) (matchGaps text ms) = ms := by
  induction h with
  | nil _ => rfl
  | @cons e s l ms hle hrest ih =>
    have hend := hrest.le
    unfold firstGap matchGaps places
    rw [length_slice hle (by omega), length_slice (Nat.le_add_right s l) hend, Nat.add_sub_cancel' hle,
      Nat.add_sub_cancel_left, ih]

theorem matchGaps_fst (text : List UInt8) (ms : List (ℕ × ℕ)) :
    (matchGaps text ms).map Prod.fst = ms.map fun m => slice text m.1 (m.1 + m.2) := by
  induction ms with
  | nil => rfl
  | cons m ms ih =>
    obtain ⟨s, l⟩ := m
    unfold matchGaps
    rw [List.map_cons, List.map_cons, ih]

/-- The replaced text is as long as the text without the matches, and one replacement for each. -/
theorem Apart.length_weave (replacement : List UInt8) (h : Apart text.length e ms) :
    (weave (firstGap text e ms) ((matchGaps text ms).map fun p => (replacement, p.2))).length + matchedLength ms + e =
      text.length + ms.length * replacement.length := by
  induction h with
  | @nil e hle =>
    have hdrop : (text.drop e).length = text.length - e := List.length_drop
    show (text.drop e).length + 0 + e = text.length + 0 * replacement.length
    omega
  | @cons e s l ms hle hrest ih =>
    have hend := hrest.le
    have hgap := length_slice hle (show s ≤ text.length by omega)
    show (slice text e s ++ replacement ++ weave (firstGap text (s + l) ms)
      ((matchGaps text ms).map fun p => (replacement, p.2))).length + (l + matchedLength ms) + e = _
    rw [List.length_append, List.length_append, hgap, List.length_cons, Nat.succ_mul]
    omega

/-- What a turn of `replace_all` adds. -/
def pasted (text replacement : List UInt8) (pos s l : ℕ) (result : List UInt8) : List UInt8 :=
  result ++ slice text pos s ++ replacement ++ slice text (s + l) (nextPos s l)

theorem pasted_eq {s l : ℕ} (hep : e ≤ pos) (hps : pos ≤ s) (acc : List UInt8) :
    pasted text replacement pos s l (acc ++ slice text e pos) =
      (acc ++ slice text e s ++ replacement) ++ slice text (s + l) (nextPos s l) := by
  unfold pasted
  rw [List.append_assoc acc, slice_append hep hps]

variable (replacement) in
theorem Rounds.pasted_weave (hin : Inside exec text.length) (h : Rounds exec text.length pos ms stop) (he : e ≤ pos)
    (acc : List UInt8) :
    turns (pasted text replacement) pos ms (acc ++ slice text e pos) ++ text.drop stop =
      acc ++ weave (firstGap text e ms) ((matchGaps text ms).map fun p => (replacement, p.2)) := by
  induction h generalizing e acc with
  | none _ _ =>
    unfold turns
    rw [List.append_assoc, slice_drop he]
    rfl
  | past _ =>
    unfold turns
    rw [List.append_assoc, slice_drop he]
    rfl
  | @turn pos s l stop ms hle hsome _ ih =>
    unfold turns
    rw [pasted_eq he (hin _ _ _ hle hsome).1, ih (le_nextPos s l)]
    show acc ++ slice text e s ++ replacement ++ weave (firstGap text (s + l) ms) _ =
      acc ++ (slice text e s ++ replacement ++ weave (firstGap text (s + l) ms) _)
    grind

theorem copyEmpty_exactly (text : StrBytes) {s l : ℕ} {b : List UInt8} (hsl : s + l ≤ text.bytes.length)
    (hb : b.length ≤ 2 ^ 30) :
    Exactly (if l = 0 then text.substr (Int32.ofNat s) 1 >>= fun byte => strAdd b byte else .ok b)
      (nextPos s l < 2 ^ 31 ∧ (b ++ slice text.bytes (s + l) (nextPos s l)).length ≤ 2 ^ 30)
      (· = b ++ slice text.bytes (s + l) (nextPos s l)) := by
  have hfits := text.fits
  unfold nextPos
  by_cases hl : l = 0
  · subst hl
    rw [if_pos rfl, if_pos rfl, Nat.add_zero]
    refine (substr_byte hsl).bind fun byte hbyte => ?_
    rw [hbyte]
    exact strAdd_exactly _ _
  · rw [if_neg hl, if_neg hl, slice_self, List.append_nil]
    exact (Exactly.of_eq rfl).congr (iff_of_true trivial ⟨by omega, hb⟩)

theorem replaceTurn_exactly (text rep : StrBytes) {pos s l : ℕ} {a t : List UInt8} (hps : pos ≤ s)
    (hsl : s + l ≤ text.bytes.length) (hat : a = t) :
    Exactly (replaceTurn text rep pos s l a)
      (nextPos s l < 2 ^ 31 ∧ (pasted text.bytes rep.bytes pos s l t).length ≤ 2 ^ 30)
      (· = pasted text.bytes rep.bytes pos s l t) := by
  subst hat
  have hgap := length_slice hps (show s ≤ text.bytes.length by omega)
  unfold replaceTurn pasted
  -- what is there at the end holds what was there before
  have hparts : (a ++ slice text.bytes pos s ++ rep.bytes ++ slice text.bytes (s + l) (nextPos s l)).length ≤ 2 ^ 30 →
      (a ++ slice text.bytes pos s).length ≤ 2 ^ 30 ∧ (a ++ slice text.bytes pos s ++ rep.bytes).length ≤ 2 ^ 30 ∧
        s - pos ≤ 2 ^ 30 := by
    rw [List.length_append, List.length_append, List.length_append, hgap]
    omega
  refine ((substrTo_exactly hps (by omega)).bind fun gap hg => ?_).congr
    (and_iff_right_of_imp fun h => (hparts h.2).2.2)
  rw [hg]
  refine ((strAdd_exactly a _).bind fun b hb => ?_).congr (and_iff_right_of_imp fun h => (hparts h.2).1)
  rw [hb]
  refine ((strAdd_exactly _ rep.bytes).and_cond.bind fun c hc => ?_).congr
    (and_iff_right_of_imp fun h => (hparts h.2).2.1)
  rw [hc.1]
  exact copyEmpty_exactly text hsl hc.2

theorem length_pasted_le (text rep : List UInt8) (pos s l : ℕ) (t : List UInt8) :
    t.length ≤ (pasted text rep pos s l t).length := by
  unfold pasted
  rw [List.append_assoc, List.append_assoc, List.length_append]
  exact Nat.le_add_right _ _

theorem length_turns_pasted_le (text rep : List UInt8) (pos : ℕ) (ms : List (ℕ × ℕ)) (t : List UInt8) :
    t.length ≤ (turns (pasted text rep) pos ms t).length := by
  induction ms generalizing pos t with
  | nil => exact Nat.le_refl _
  | cons m ms ih => exact (length_pasted_le text rep pos m.1 m.2 t).trans (ih _ _)

theorem within_pasted (text rep : List UInt8) (pos : ℕ) (ms : List (ℕ × ℕ)) (t tail : List UInt8) :
    Within (fun pos s l t => nextPos s l < 2 ^ 31 ∧ (pasted text rep pos s l t).length ≤ 2 ^ 30) (pasted text rep) pos ms t ∧
        (turns (pasted text rep) pos ms t ++ tail).length ≤ 2 ^ 30 ↔
      (∀ m ∈ ms, nextPos m.1 m.2 < 2 ^ 31) ∧ (turns (pasted text rep) pos ms t ++ tail).length ≤ 2 ^ 30 := by
  refine and_congr_left fun htotal => ?_
  rw [List.length_append] at htotal
  have hturns : (turns (pasted text rep) pos ms t).length ≤ 2 ^ 30 := by omega
  clear htotal
  induction ms generalizing pos t with
  | nil => exact iff_of_true trivial (List.forall_mem_nil _)
  | cons m ms ih =>
    obtain ⟨s, l⟩ := m
    have hle := length_turns_pasted_le text rep (nextPos s l) ms (pasted text rep pos s l t)
    unfold Within
    rw [List.forall_mem_cons]
    constructor
    · exact fun hw => ⟨hw.1.2, (ih _ _ hturns).1 hw.2⟩
    · exact fun hm => ⟨⟨⟨hm.1, hle.trans hturns⟩, hm.1⟩, (ih _ _ hturns).2 hm.2⟩

/-- What `replace_all` returns, and that it does so exactly if the result and the cursors fit. -/
theorem replaceAll_exactly {text : StrVar} (rep : StrBytes) (hin : Inside exec text.bytes.length)
    (h : Rounds exec text.bytes.length 0 ms stop) :
    Exactly (replaceAll (some exec) text rep)
      (text.HasRoom ∧ (∀ m ∈ ms, nextPos m.1 m.2 < 2 ^ 31) ∧
        text.bytes.length + ms.length * rep.bytes.length ≤ 2 ^ 30 + matchedLength ms)
      (· = weave (firstGap text.bytes 0 ms) ((matchGaps text.bytes ms).map fun p => (rep.bytes, p.2))) := by
  have hwhole := h.pasted_weave rep.bytes hin (Nat.le_refl 0) []
  rw [slice_self, List.append_nil, List.nil_append] at hwhole
  have hlength := (h.apart hin (Nat.le_refl 0) (Nat.zero_le _)).length_weave rep.bytes
  have hloop := h.loop (replaceTurn text.toStrBytes rep) (pasted text.bytes rep.bytes) (· = ·)
    (fun pos s l t => nextPos s l < 2 ^ 31 ∧ (pasted text.bytes rep.bytes pos s l t).length ≤ 2 ^ 30)
    (fun pos s l a t hps hsl hat => replaceTurn_exactly text.toStrBytes rep hps hsl hat) hin (a := []) (t := []) rfl
    (Nat.lt_succ_self _) (Nat.succ_pos _)
  unfold replaceAll
  refine text.cStr_exactly.bind fun _ _ => ?_
  refine (hloop.and_cond.bind (d := (turns (pasted text.bytes rep.bytes) 0 ms [] ++ text.bytes.drop stop).length ≤ 2 ^ 30)
    fun x hx => ?_).congr ?_
  · obtain ⟨⟨hstop, hresult⟩, hwithin⟩ := hx
    have hlt := h.stop_lt (by norm_num) hwithin.ints
    dsimp only
    rw [hstop, hresult, ← hwhole]
    refine ((substrTo_end (h.stop_le hin (Nat.zero_le _)) hlt).bind fun tail htail => ?_).congr
      (and_iff_right_of_imp fun hle => ?_)
    · rw [htail]
      exact strAdd_exactly _ _
    · rw [List.length_append, List.length_drop] at hle
      omega
  · rw [within_pasted, hwhole]
    refine and_congr_right fun _ => ?_
    omega

/-- `replace_all` puts the replacement in the place of each match that `find_all` collects, and leaves the text between
them as it is, exactly as long as the result fits into a `Str`. -/
theorem replace_all_exact_iff (exec : ℕ → Option (ℕ × ℕ)) (text : StrVar) (replacement : StrBytes)
    (hin : Inside exec text.bytes.length) :
    ∃ ms stop g gs, Rounds exec text.bytes.length 0 ms stop ∧ places 0 g gs = ms ∧ weave g gs = text.bytes ∧
      (findAll (some exec) text = .ok (gs.map Prod.fst) ↔
        text.HasRoom ∧ (∀ m ∈ ms, m.2 ≤ 2 ^ 30) ∧ ms.length ≤ 2 ^ 30 ∧ ∀ m ∈ ms, nextPos m.1 m.2 < 2 ^ 31) ∧
      (replaceAll (some exec) text replacement = .ok (weave g (gs.map fun p => (replacement.bytes, p.2))) ↔
        text.HasRoom ∧ (∀ m ∈ ms, nextPos m.1 m.2 < 2 ^ 31) ∧
          text.bytes.length + ms.length * replacement.bytes.length ≤ 2 ^ 30 + matchedLength ms) := by
  obtain ⟨ms, stop, h⟩ := exists_rounds hin 0
  have happ := h.apart hin (Nat.le_refl 0) (Nat.zero_le _)
  refine ⟨ms, stop, firstGap text.bytes 0 ms, matchGaps text.bytes ms, h, happ.places_eq, happ.weave_eq, ?_, ?_⟩
  · rw [matchGaps_fst]
    exact (findAll_exactly hin h).eq_iff
  · exact (replaceAll_exactly replacement hin h).eq_iff

theorem replace_all_exact_iff_star : ∃ ms stop g gs, Rounds starMatches 3 0 ms stop ∧ places 0 g gs = ms ∧
    weave g gs = [97, 120, 98] ∧
    (findAll (some starMatches) ⟨⟨[97, 120, 98], by decide⟩, 0, by decide⟩ = .ok (gs.map Prod.fst) ↔
      StrVar.HasRoom ⟨⟨[97, 120, 98], by decide⟩, 0, by decide⟩ ∧ (∀ m ∈ ms, m.2 ≤ 2 ^ 30) ∧ ms.length ≤ 2 ^ 30 ∧
        ∀ m ∈ ms, nextPos m.1 m.2 < 2 ^ 31) ∧
    (replaceAll (some starMatches) ⟨⟨[97, 120, 98], by decide⟩, 0, by decide⟩ ⟨[45], by decide⟩ =
        .ok (weave g (gs.map fun p => ([45], p.2))) ↔
      StrVar.HasRoom ⟨⟨[97, 120, 98], by decide⟩, 0, by decide⟩ ∧ (∀ m ∈ ms, nextPos m.1 m.2 < 2 ^ 31) ∧
        3 + ms.length * 1 ≤ 2 ^ 30 + matchedLength ms) :=
  replace_all_exact_iff starMatches ⟨⟨[97, 120, 98], by decide⟩, 0, by decide⟩ ⟨[45], by decide⟩ starMatches_inside

/-- `a` in a text of as many of them. -/
def singles (tlen pos : ℕ) : Option (ℕ × ℕ) := if pos < tlen then some (pos, 1) else none

theorem singles_inside (tlen : ℕ) : Inside (singles tlen) tlen := by
  intro pos s l _ h
  unfold singles at h
  grind

theorem Rounds.singles (h : Rounds (singles tlen) tlen pos ms stop) : ms.length = tlen - pos ∧ matchedLength ms = tlen - pos := by
  induction h with
  | none hle hnone =>
    unfold Text.singles at hnone
    show 0 = _ ∧ 0 = _
    grind
  | past hlt =>
    show 0 = _ ∧ 0 = _
    omega
  | @turn pos s l stop ms hle hsome _ ih =>
    unfold Text.singles at hsome
    have hone : pos < tlen ∧ s = pos ∧ l = 1 := by grind
    obtain ⟨hlt, rfl, rfl⟩ := hone
    show ms.length + 1 = _ ∧ 1 + matchedLength ms = _
    have hnext : nextPos s 1 = s + 1 := rfl
    omega

/-- 1025 matches of one byte, each replaced by 2^20 bytes. -/
theorem replace_all_outgrows : Inside (singles 1025) 1025 ∧
    ∀ out, replaceAll (some (singles 1025)) ⟨⟨List.replicate 1025 97, by rw [List.length_replicate]; decide⟩, 0, by decide⟩
      ⟨List.replicate (2 ^ 20) 98, by rw [List.length_replicate]; decide⟩ ≠ .ok out := by
  have htext : (List.replicate 1025 (97 : UInt8)).length = 1025 := List.length_replicate
  have hrep : (List.replicate (2 ^ 20) (98 : UInt8)).length = 2 ^ 20 := List.length_replicate
  refine ⟨singles_inside 1025, fun out hout => ?_⟩
  obtain ⟨ms, stop, h⟩ := exists_rounds (singles_inside 1025) 0
  have hcount := h.singles
  have hin : Inside (singles 1025) (List.replicate 1025 (97 : UInt8)).length := by
    rw [htext]
    exact singles_inside 1025
  have hfits := (replaceAll_exactly _ hin (by rw [htext]; exact h)).only out hout
  have hle := hfits.2.2
  dsimp only at hle
  rw [htext, hrep] at hle
  omega

end LsLang.Text
