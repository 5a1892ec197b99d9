import Mathlib
import LsLang.Core.Buffer
import LsLang.Lib.FirstFrom
import LsLang.Text.StrFind

/-! `Str.split`, `Str.split_view`, `Str.count` and `Str.replace`: four loops over the places of a separator. A place
and the separator behind it are inside the string, so that no sum of theirs overflows. -/

namespace LsLang.Text.StrSearch

open LsLang.Core LsLang.Core.Buffer LsLang.Lib LsLang.Undefined LsLang.Undefined.Res

/-- `Vec(Str)` and `Vec(StrSlice)`: the elements have 16 bytes. -/
abbrev vecPush {α : Type} (out : Buffer α) (x : α) : Res (Buffer α) := push (Growth.vecReserve 16) out x

/-- `while true` of `split`; the cursors `i` and `start` of the source are the same there. -/
def splitLoop (s sep : StrBytes) : ℕ → ℕ → Buffer (List UInt8) → Res (ℕ × Buffer (List UInt8))
  | 0, _, _ => .stuck
  | fuel + 1, start, out =>
    match strFind s.bytes sep.bytes start with
    | none => .ok (start, out)
    | some p => do
      let piece ← s.substr (Int32.ofNat start) (Int32.ofNat (p - start))
      let out ← vecPush out piece
      splitLoop s sep fuel (p + sep.bytes.length) out

/-- What `split` pushes behind the loop. -/
def splitTail (s : StrBytes) (st : ℕ × Buffer (List UInt8)) : Res (Buffer (List UInt8)) := do
  let piece ← s.substr (Int32.ofNat st.1) (Int32.ofNat (s.bytes.length - st.1))
  vecPush st.2 piece

/-- `Str.split` -/
def split (s sep : StrBytes) : Res (Buffer (List UInt8)) :=
  if sep.bytes.length = 0 then splitTail s (0, Buffer.empty)
  else splitLoop s sep (s.bytes.length + 1) 0 Buffer.empty >>= splitTail s

def splitViewLoop (s sep : StrBytes) : ℕ → ℕ → Buffer StrSlice → Res (ℕ × Buffer StrSlice)
  | 0, _, _ => .stuck
  | fuel + 1, start, out =>
    match strFind s.bytes sep.bytes start with
    | none => .ok (start, out)
    | some p => do
      let out ← vecPush out ⟨start, (p : ℤ) - start⟩
      splitViewLoop s sep fuel (p + sep.bytes.length) out

def splitViewTail (s : StrBytes) (st : ℕ × Buffer StrSlice) : Res (Buffer StrSlice) :=
  vecPush st.2 ⟨st.1, s.len - st.1⟩

/-- `Str.split_view`; a view's `ptr` counts from `self.data`. -/
def splitView (s sep : StrBytes) : Res (Buffer StrSlice) :=
  if sep.bytes.length = 0 then splitViewTail s (0, Buffer.empty)
  else splitViewLoop s sep (s.bytes.length + 1) 0 Buffer.empty >>= splitViewTail s

def countLoop (s needle : StrBytes) : ℕ → ℕ → ℕ → Res ℕ
  | 0, _, _ => .stuck
  | fuel + 1, i, total =>
    match strFind s.bytes needle.bytes i with
    | none => .ok total
    | some p => countLoop s needle fuel (p + needle.bytes.length) (total + 1)

/-- `Str.count` -/
def count (s needle : StrBytes) : Res ℕ :=
  if needle.bytes.length = 0 then .ok 0 else countLoop s needle (s.bytes.length + 1) 0 0

/-- The loop of the fast path of `replace`: the search runs over the copy that it overwrites. -/
def overwriteLoop (old : StrBytes) (rb : UInt8) : ℕ → ℕ → List UInt8 → Res (List UInt8)
  | 0, _, _ => .stuck
  | fuel + 1, i, out =>
    match strFind out old.bytes i with
    | none => .ok out
    | some p => overwriteLoop old rb fuel (p + 1) (out.set p rb)

/-- `while i < n` of `replace`. -/
def replaceLoop (s old rep : StrBytes) : ℕ → ℕ → Buffer UInt8 → Res (Buffer UInt8)
  | 0, _, _ => .stuck
  | fuel + 1, i, out =>
    if i < s.bytes.length then
      match strFind s.bytes old.bytes i with
      | none => pushAll Growth.strReserve out (s.bytes.drop i)
      | some p => do
        let out ← pushAll Growth.strReserve out ((s.bytes.drop i).take (p - i))
        let out ← pushAll Growth.strReserve out rep.bytes
        replaceLoop s old rep fuel (p + old.bytes.length) out
    else .ok out

/-- `Str.replace` -/
def replace (s old rep : StrBytes) : Res (List UInt8) := do
  if old.bytes.length = 0 then s.substr 0 (Int32.ofNat s.bytes.length)
  else if old.bytes.length = 1 ∧ rep.bytes.length = 1 then
    let out ← s.substr 0 (Int32.ofNat s.bytes.length)
    overwriteLoop old (rep.bytes.getD 0 0) (s.bytes.length + 1) 0 out
  else
    let out ← replaceLoop s old rep (s.bytes.length + 1) 0 Buffer.empty
    .ok out.items

def viewed (s : StrBytes) (v : StrSlice) : List UInt8 := bytesAt s.bytes v.ptr v.len

/-! ### One turn -/

section Turn

variable {text sep : List UInt8} {i p : ℕ} {pieces : List (List UInt8)}

theorem strFind_none (hne : sep ≠ []) (hi : i ≤ text.length) (h : ∀ j, ¬ StandsAt sep (text.drop i) j) :
    strFind text sep i = none := by
  have hno : FirstFrom (OccursAt text sep) i none := by
    intro j hj hstands
    obtain ⟨k, rfl⟩ := Nat.exists_eq_add_of_le hj
    exact h k (standsAt_drop.2 hstands)
  exact (strFind_first hne hi).unique hno

theorem strFind_some (hne : sep ≠ []) (hi : i ≤ text.length)
    (h : FirstFrom (StandsAt sep (text.drop i)) 0 (some p)) : strFind text sep i = some (i + p) := by
  obtain ⟨-, hp, hfirst⟩ := h
  have hthere : FirstFrom (OccursAt text sep) i (some (i + p)) := by
    refine ⟨Nat.le_add_right i p, standsAt_drop.1 hp, fun j hj hlt hstands => ?_⟩
    obtain ⟨k, rfl⟩ := Nat.exists_eq_add_of_le hj
    exact hfirst k (Nat.zero_le k) (by omega) (standsAt_drop.2 hstands)
  exact (strFind_first hne hi).unique hthere

theorem found_le (hne : sep ≠ []) (hi : i ≤ text.length) (h : FirstFrom (StandsAt sep (text.drop i)) 0 (some p)) :
    i + p + sep.length ≤ text.length := by
  have hle := h.2.1.le hne
  grind

end Turn

section Loops

variable {s sep rep : StrBytes} {fuel i total : ℕ} {pieces : List (List UInt8)}

theorem countLoop_exactly (hne : sep.bytes ≠ []) (hi : i ≤ s.bytes.length) (hfuel : s.bytes.length < fuel + i)
    (h : Separated sep.bytes (s.bytes.drop i) pieces) : countLoop s sep fuel i total = .ok (total + (pieces.length - 1)) := by
  induction fuel generalizing i total pieces with
  | zero => omega
  | succ fuel ih =>
    unfold countLoop
    generalize htail : s.bytes.drop i = tail at h
    cases h with
    | last hno =>
      rw [strFind_none hne hi (by rw [htail]; exact hno)]
      rfl
    | @cut _ p pieces hp hrest =>
      subst htail
      have hle := found_le hne hi hp
      have hpos := List.length_pos_iff.2 hne
      have hcount := List.length_pos_iff.2 hrest.ne_nil
      rw [List.drop_drop, ← Nat.add_assoc] at hrest
      rw [strFind_some hne hi hp]
      grind

theorem splitLoop_exactly (hne : sep.bytes ≠ []) (hi : i ≤ s.bytes.length) (hfuel : s.bytes.length < fuel + i)
    {out : Buffer (List UInt8)} (hout : Roomy out) (h : Separated sep.bytes (s.bytes.drop i) pieces) :
    Exactly (splitLoop s sep fuel i out >>= splitTail s)
      ((∀ piece ∈ pieces, piece.length ≤ 2 ^ 30) ∧ (out.items ++ pieces).length ≤ 2 ^ 30)
      fun b => b.items = out.items ++ pieces := by
  induction fuel generalizing i out pieces with
  | zero => omega
  | succ fuel ih =>
    unfold splitLoop
    generalize htail : s.bytes.drop i = tail at h
    cases h with
    -- no separator is left, and the rest is the last piece
    | last hno =>
      have hall : (s.bytes.drop i).take (s.bytes.length - i) = tail := by
        rw [List.take_of_length_le (by rw [List.length_drop]), htail]
      have hlen : tail.length = s.bytes.length - i := by grind
      have hpush : ∀ piece, piece = (s.bytes.drop i).take (s.bytes.length - i) →
          Exactly (vecPush out piece) ((out.items ++ [tail]).length ≤ 2 ^ 30)
            fun b => b.items = out.items ++ [tail] := by
        rintro _ rfl
        rw [hall]
        exact (push_exactly vecReserve_reserves hout tail).mono fun b hb => hb.1
      rw [strFind_none hne hi (by rw [htail]; exact hno)]
      refine ((s.substr_exactly i _ (by omega)).bind hpush).congr ?_
      grind
    | @cut _ p pieces hp hrest =>
      subst htail
      have hle := found_le hne hi hp
      have hpos := List.length_pos_iff.2 hne
      have hlen : ((s.bytes.drop i).take p).length = p := by grind
      rw [List.drop_drop, ← Nat.add_assoc] at hrest
      -- the rounds that follow, whatever buffer the push leaves
      have hcont : ∀ b : Buffer (List UInt8),
          b.items = out.items ++ [(s.bytes.drop i).take p] ∧ Roomy b →
          Exactly (splitLoop s sep fuel (i + p + sep.bytes.length) b >>= splitTail s)
            ((∀ piece ∈ pieces, piece.length ≤ 2 ^ 30) ∧
              (out.items ++ (s.bytes.drop i).take p :: pieces).length ≤ 2 ^ 30)
            fun b => b.items = out.items ++ (s.bytes.drop i).take p :: pieces := by grind
      have hpush : ∀ piece, piece = (s.bytes.drop i).take p →
          Exactly (vecPush out piece >>= fun b => splitLoop s sep fuel (i + p + sep.bytes.length) b >>= splitTail s)
            ((out.items ++ [(s.bytes.drop i).take p]).length ≤ 2 ^ 30 ∧
              (∀ piece ∈ pieces, piece.length ≤ 2 ^ 30) ∧
                (out.items ++ (s.bytes.drop i).take p :: pieces).length ≤ 2 ^ 30)
            fun b => b.items = out.items ++ (s.bytes.drop i).take p :: pieces := by
        rintro _ rfl
        exact (push_exactly vecReserve_reserves hout _).bind hcont
      rw [strFind_some hne hi hp]
      dsimp only
      rw [Nat.add_sub_cancel_left, Res.bind_assoc]
      simp only [Res.bind_assoc]
      refine ((s.substr_exactly i p (by omega)).bind hpush).congr ?_
      grind

theorem splitViewLoop_exactly (hne : sep.bytes ≠ []) (hi : i ≤ s.bytes.length) (hfuel : s.bytes.length < fuel + i)
    {out : Buffer StrSlice} (hout : Roomy out) (h : Separated sep.bytes (s.bytes.drop i) pieces) :
    Exactly (splitViewLoop s sep fuel i out >>= splitViewTail s)
      ((out.items.map (viewed s) ++ pieces).length ≤ 2 ^ 30)
      fun b => b.items.map (viewed s) = out.items.map (viewed s) ++ pieces := by
  induction fuel generalizing i out pieces with
  | zero => omega
  | succ fuel ih =>
    -- the view from the cursor on shows as many bytes of the rest
    have hshow : ∀ k : ℕ, viewed s ⟨i, k⟩ = (s.bytes.drop i).take k := fun k => rfl
    unfold splitViewLoop
    generalize htail : s.bytes.drop i = tail at h
    cases h with
    | last hno =>
      have hall : (s.bytes.drop i).take (s.bytes.length - i) = tail := by grind
      have hlen : s.len - (i : ℤ) = ((s.bytes.length - i : ℕ) : ℤ) := (Int.ofNat_sub hi).symm
      rw [strFind_none hne hi (by rw [htail]; exact hno)]
      dsimp only
      rw [Res.ok_bind]
      unfold splitViewTail
      rw [hlen]
      refine ((push_exactly vecReserve_reserves hout _).congr ?_).mono fun b hb => ?_
      · grind
      grind
    | @cut _ p pieces hp hrest =>
      subst htail
      have hle := found_le hne hi hp
      have hpos := List.length_pos_iff.2 hne
      have hlen : ((i + p : ℕ) : ℤ) - i = (p : ℤ) := by omega
      rw [List.drop_drop, ← Nat.add_assoc] at hrest
      rw [strFind_some hne hi hp]
      dsimp only
      rw [hlen, Res.bind_assoc]
      refine ((push_exactly vecReserve_reserves hout _).bind
        (d := (out.items.map (viewed s) ++ (s.bytes.drop i).take p :: pieces).length ≤ 2 ^ 30)
        fun b hb => ?_).congr ?_
      · grind
      grind

theorem replaceLoop_exactly (hne : sep.bytes ≠ []) (hi : i ≤ s.bytes.length) (hfuel : s.bytes.length < fuel + i)
    {out : Buffer UInt8} (hout : Roomy out) (h : Separated sep.bytes (s.bytes.drop i) pieces) :
    Exactly (replaceLoop s sep rep fuel i out)
      ((out.items ++ rep.bytes.intercalate pieces).length ≤ 2 ^ 30)
      fun b => b.items = out.items ++ rep.bytes.intercalate pieces := by
  induction fuel generalizing i out pieces with
  | zero => omega
  | succ fuel ih =>
    unfold replaceLoop
    by_cases hlt : i < s.bytes.length
    · rw [if_pos hlt]
      generalize htail : s.bytes.drop i = tail at h
      cases h with
      | last hno =>
        rw [strFind_none hne hi (by rw [htail]; exact hno), List.intercalate_singleton]
        exact (pushAll_exactly strReserve_reserves hout tail).mono fun b hb => hb.1
      | @cut _ p pieces hp hrest =>
        subst htail
        have hle := found_le hne hi hp
        have hpos := List.length_pos_iff.2 hne
        rw [List.drop_drop, ← Nat.add_assoc] at hrest
        rw [strFind_some hne hi hp, List.intercalate_cons_of_ne_nil hrest.ne_nil]
        dsimp only
        rw [Nat.add_sub_cancel_left]
        generalize (s.bytes.drop i).take p = run
        generalize hend : rep.bytes.intercalate pieces = rest at ih ⊢
        refine ((pushAll_exactly strReserve_reserves hout run).bind
          (d := (out.items ++ (run ++ rep.bytes)).length ≤ 2 ^ 30 ∧
            (out.items ++ (run ++ rep.bytes ++ rest)).length ≤ 2 ^ 30) fun b hb => ?_).congr ?_
        · have hrep := pushAll_exactly strReserve_reserves hb.2 rep.bytes
          rw [hb.1, List.append_assoc] at hrep
          refine hrep.bind fun b' hb' => ?_
          grind
        grind
    · rw [if_neg hlt]
      have hnil : s.bytes.drop i = [] := List.drop_eq_nil_of_le (Nat.not_lt.1 hlt)
      rw [hnil] at h
      have hempty : rep.bytes.intercalate pieces = [] := by
        cases h with
        | last _ => exact List.intercalate_singleton
        | cut hp _ =>
          have := hp.2.1.le hne
          grind [List.length_nil, List.length_pos_iff]
      rw [hempty, List.append_nil]
      exact (Exactly.ok (P := fun b : Buffer UInt8 => b.items = out.items) rfl).congr
        (iff_of_true trivial hout.length)

end Loops

theorem overwriteLoop_eq {old : StrBytes} {c rb : UInt8} (hold : old.bytes = [c]) {fuel : ℕ}
    (done : List UInt8) {rest : List UInt8} {pieces : List (List UInt8)} (hfuel : rest.length < fuel)
    (h : Separated old.bytes rest pieces) :
    overwriteLoop old rb fuel done.length (done ++ rest) = .ok (done ++ [rb].intercalate pieces) := by
  have hne : old.bytes ≠ [] := by grind
  have hi : done.length ≤ (done ++ rest).length := by grind
  induction fuel generalizing done rest pieces with
  | zero => omega
  | succ fuel ih =>
    have hdrop : (done ++ rest).drop done.length = rest := List.drop_left
    unfold overwriteLoop
    cases h with
    | last hno =>
      rw [strFind_none hne hi (by rw [hdrop]; exact hno), List.intercalate_singleton]
    | @cut _ p pieces hp hrest =>
      have hone : old.bytes.length = 1 := by rw [hold]; rfl
      have hlt := hp.2.1.le hne
      rw [hone] at hlt hrest
      have hset : (done ++ rest).set (done.length + p) rb = (done ++ rest.take p ++ [rb]) ++ rest.drop (p + 1) := by
        rw [List.set_append_right _ _ (Nat.le_add_right _ _), Nat.add_sub_cancel_left,
          List.set_eq_take_append_cons_drop, if_pos (by omega)]
        grind
      have hcursor : done.length + p + 1 = (done ++ rest.take p ++ [rb]).length := by grind
      rw [strFind_some hne hi (by rw [hdrop]; exact hp)]
      dsimp only
      rw [hset, hcursor, ih _ (by grind) hrest
        (by grind), List.intercalate_cons_of_ne_nil hrest.ne_nil]
      grind

/-! ### The four functions -/

/-- What the four functions say about a string, a separator and what replaces it. -/
structure Agree (s sep rep : StrBytes) (out : Buffer (List UInt8)) (views : Buffer StrSlice) (total : ℕ)
    (replaced : List UInt8) : Prop where
  split : split s sep = .ok out
  view : splitView s sep = .ok views
  count : count s sep = .ok total
  replace : replace s sep rep = .ok replaced
  join : sep.bytes.intercalate out.items = s.bytes
  free : ∀ piece ∈ out.items, ∀ j, ¬ StandsAt sep.bytes piece j
  same : views.items.map (viewed s) = out.items
  pieces : total + 1 = out.items.length
  joined : replaced = rep.bytes.intercalate out.items

section Whole

variable {s sep rep : StrBytes} {pieces : List (List UInt8)}

theorem split_exactly (hne : sep.bytes ≠ []) (h : Separated sep.bytes s.bytes pieces) :
    Exactly (split s sep) ((∀ piece ∈ pieces, piece.length ≤ 2 ^ 30) ∧ pieces.length ≤ 2 ^ 30)
      fun b => b.items = pieces := by
  unfold split
  rw [if_neg (mt List.length_eq_zero_iff.1 hne)]
  exact splitLoop_exactly hne (Nat.zero_le _) (Nat.lt_succ_self _) roomy_empty h

/-- What `split` returns are the pieces of the text, whichever text it is. -/
theorem split_pieces {out : Buffer (List UInt8)} (hne : sep.bytes ≠ []) (h : split s sep = .ok out) :
    Separated sep.bytes s.bytes out.items := by
  obtain ⟨pieces, hpieces⟩ := Separated.exists_pieces hne s.bytes
  rwa [(split_exactly hne hpieces).result h]

theorem splitView_exactly (hne : sep.bytes ≠ []) (h : Separated sep.bytes s.bytes pieces) :
    Exactly (splitView s sep) (pieces.length ≤ 2 ^ 30) fun b => b.items.map (viewed s) = pieces := by
  unfold splitView
  rw [if_neg (mt List.length_eq_zero_iff.1 hne)]
  exact splitViewLoop_exactly hne (Nat.zero_le _) (Nat.lt_succ_self _) roomy_empty h

theorem count_eq (hne : sep.bytes ≠ []) (h : Separated sep.bytes s.bytes pieces) :
    count s sep = .ok (pieces.length - 1) := by
  unfold count
  rw [if_neg (mt List.length_eq_zero_iff.1 hne), countLoop_exactly hne (Nat.zero_le _) (Nat.lt_succ_self _) h,
    Nat.zero_add]

theorem length_intercalate_one {a b : UInt8} (pieces : List (List UInt8)) :
    ([a].intercalate pieces).length = ([b].intercalate pieces).length := by
  induction pieces with
  | nil => rfl
  | cons piece pieces ih =>
    cases pieces with
    | nil => rw [List.intercalate_singleton, List.intercalate_singleton]
    | cons next pieces =>
      rw [List.intercalate_cons_of_ne_nil (List.cons_ne_nil _ _), List.intercalate_cons_of_ne_nil (List.cons_ne_nil _ _)]
      grind

theorem replace_exactly (hne : sep.bytes ≠ []) (h : Separated sep.bytes s.bytes pieces) :
    Exactly (replace s sep rep) ((rep.bytes.intercalate pieces).length ≤ 2 ^ 30)
      fun replaced => replaced = rep.bytes.intercalate pieces := by
  unfold replace
  rw [if_neg (mt List.length_eq_zero_iff.1 hne)]
  by_cases hone : sep.bytes.length = 1 ∧ rep.bytes.length = 1
  · rw [if_pos hone]
    obtain ⟨c, hc⟩ := List.length_eq_one_iff.1 hone.1
    obtain ⟨r, hr⟩ := List.length_eq_one_iff.1 hone.2
    have hcopy := s.substr_exactly 0 s.bytes.length (by omega)
    refine (hcopy.bind (d := True) fun out hout => ?_).congr ?_
    · have hall : out = s.bytes := by grind
      have hover : overwriteLoop sep r (s.bytes.length + 1) 0 s.bytes = .ok ([r].intercalate pieces) :=
        overwriteLoop_eq hc [] (Nat.lt_succ_self _) h
      rw [hall, hr]
      change Exactly (overwriteLoop sep r (s.bytes.length + 1) 0 s.bytes) True _
      rw [hover]
      exact .ok rfl
    · have hjoin := h.join
      rw [hc] at hjoin
      have hsame : (rep.bytes.intercalate pieces).length = s.bytes.length := by
        rw [hr, length_intercalate_one (b := c), hjoin]
      rw [and_true, hsame]
  · rw [if_neg hone]
    have hloop : Exactly (replaceLoop s sep rep (s.bytes.length + 1) 0 Buffer.empty)
        ((rep.bytes.intercalate pieces).length ≤ 2 ^ 30) fun b => b.items = rep.bytes.intercalate pieces :=
      replaceLoop_exactly hne (Nat.zero_le _) (Nat.lt_succ_self _) roomy_empty h
    refine (hloop.bind (d := True) fun b hb => ?_).congr (and_iff_left trivial)
    exact .ok hb

end Whole

/-- The four agree exactly where neither a piece, the pieces nor the replaced text outgrow 2^30 elements. -/
theorem split_replace_agree_iff (s sep rep : StrBytes) (pieces : List (List UInt8)) (hne : sep.bytes ≠ [])
    (h : Separated sep.bytes s.bytes pieces) :
    (∃ out views total replaced, Agree s sep rep out views total replaced) ↔
      (∀ piece ∈ pieces, piece.length ≤ 2 ^ 30) ∧ pieces.length ≤ 2 ^ 30 ∧
        (rep.bytes.intercalate pieces).length ≤ 2 ^ 30 := by
  constructor
  · rintro ⟨out, views, total, replaced, hagree⟩
    obtain ⟨hall, hcount⟩ := (split_exactly hne h).only out hagree.split
    exact ⟨hall, hcount, (replace_exactly hne h).only replaced hagree.replace⟩
  · rintro ⟨hall, hcount, hreplaced⟩
    obtain ⟨out, hsplit, hout⟩ := (split_exactly hne h).returns ⟨hall, hcount⟩
    obtain ⟨views, hview, hviews⟩ := (splitView_exactly hne h).returns hcount
    obtain ⟨replaced, hreplace, rfl⟩ := (replace_exactly hne h).returns hreplaced
    have hpos := List.length_pos_iff.2 h.ne_nil
    refine ⟨out, views, pieces.length - 1, _, hsplit, hview, count_eq hne h, hreplace, ?_, ?_, ?_, ?_, ?_⟩
    · rw [hout, h.join]
    · rw [hout]
      exact h.free hne
    · rw [hout, hviews]
    · rw [hout]
      omega
    · rw [hout]

/-- A separator that overlaps itself, and one at the end. -/
theorem split_replace_agree_iff_overlap :
    (∃ out views total replaced, Agree ⟨[97, 97, 97, 97], by decide⟩ ⟨[97, 97], by decide⟩ ⟨[98], by decide⟩ out
      views total replaced) ↔
      (∀ piece ∈ ([[], [], []] : List (List UInt8)), piece.length ≤ 2 ^ 30) ∧
        ([[], [], []] : List (List UInt8)).length ≤ 2 ^ 30 ∧
          (([98] : List UInt8).intercalate [[], [], []]).length ≤ 2 ^ 30 := by
  have hzero : ∀ s : List UInt8, StandsAt [97, 97] s 0 → FirstFrom (StandsAt [97, 97] s) 0 (some 0) :=
    fun s hs => ⟨le_rfl, hs, fun j _ hlt => absurd hlt (Nat.not_lt_zero j)⟩
  have hnone : ∀ j, ¬ StandsAt ([97, 97] : List UInt8) [] j := fun j hj => by
    have := hj.le (List.cons_ne_nil _ _)
    simp at this
  refine split_replace_agree_iff _ _ _ _ (List.cons_ne_nil _ _) (.cut (hzero _ ⟨[97, 97], rfl⟩) ?_)
  exact .cut (hzero _ ⟨[], rfl⟩) (.last hnone)

/-- A string of 2^30 and one bytes without a separator cannot be copied into its one piece. -/
theorem split_replace_outgrows :
    ¬ ∃ out views total replaced, Agree ⟨List.replicate (2 ^ 30 + 1) 97, by rw [List.length_replicate]; norm_num⟩
      ⟨[44], by decide⟩ ⟨[59], by decide⟩ out views total replaced := by
  rintro ⟨out, views, total, replaced, hagree⟩
  have hnone : ∀ j, ¬ StandsAt [44] (List.replicate (2 ^ 30 + 1) (97 : UInt8)) j := by
    rintro j ⟨t, ht⟩
    have hmem : (44 : UInt8) ∈ (List.replicate (2 ^ 30 + 1) (97 : UInt8)).drop j := by
      rw [← ht]
      exact List.mem_cons_self
    have heq := List.eq_of_mem_replicate (List.mem_of_mem_drop hmem)
    exact absurd heq (by decide)
  have hlast := Separated.last hnone
  have hlen := ((split_exactly (List.cons_ne_nil _ _) hlast).only out hagree.split).1 _ (List.mem_singleton.2 rfl)
  rw [List.length_replicate] at hlen
  omega

end LsLang.Text.StrSearch
