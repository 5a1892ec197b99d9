import LsLang.Lib.FirstFrom
import LsLang.Lib.Total
import Mathlib.Logic.Function.Basic
import Mathlib.Data.List.Infix

/-! `__ls_str_find` of `builtins.c`: `memchr` and a comparison, over long texts with the skips of a Sunday table. -/

namespace LsLang.Text

open LsLang.Lib (FirstFrom)

/-- `memchr` over the `n` bytes from `i` on. -/
def memchr (hay : List UInt8) (c : UInt8) (i n : Nat) : Option Nat :=
  (((hay.take (i + n)).drop i).findIdx? (· == c)).map (i + ·)

/-- `LS_STRFIND_SHORT_HAY` -/
abbrev shortHay : Nat := 256

/-- The loop of `__ls_str_find`; `skip i` is where it goes on when the comparison at `i` fails, and `none` is a return
of -1. Each turn goes on behind the last, so the length of the text and one is fuel enough. -/
def findLoop (hay needle : List UInt8) (skip : Nat → Option Nat) : Nat → Nat → Option Nat
  | 0, _ => none
  | fuel + 1, i =>
    let last := hay.length - needle.length
    if i ≤ last then
      (memchr hay (needle.getD 0 0) i (last - i + 1)).bind fun i =>
        if (hay.drop (i + 1)).take (needle.length - 1) = needle.drop 1 then some i
        else (skip i).bind (findLoop hay needle skip fuel)
    else none

/-- The table `qs` after the first `n` bytes of the needle. -/
def sundayTable (needle : List UInt8) (n : Nat) : UInt8 → Nat :=
  (List.range n).foldl (fun qs k => Function.update qs (needle.getD k 0) (needle.length - k))
    fun _ => needle.length + 1

def sundaySkip (hay needle : List UInt8) (i : Nat) : Option Nat :=
  let nxt := i + needle.length
  if hay.length ≤ nxt then none else some (i + sundayTable needle needle.length (hay.getD nxt 0))

/-- `__ls_str_find`, from a start inside the text. -/
def strFind (hay needle : List UInt8) (start : Nat) : Option Nat :=
  if needle.length = 0 then if start ≤ hay.length then some start else none
  else if hay.length < needle.length then none
  else if needle.length = 1 then memchr hay (needle.getD 0 0) start (hay.length - start)
  else if hay.length < shortHay then findLoop hay needle (fun i => some (i + 1)) (hay.length + 1) start
  else findLoop hay needle (sundaySkip hay needle) (hay.length + 1) start

/-- The needle stands in the text at `i`. -/
def OccursAt (hay needle : List UInt8) (i : Nat) : Prop := needle <+: hay.drop i

variable {hay needle : List UInt8} {i j : Nat}

theorem memchr_first (hay : List UInt8) (c : UInt8) (i n : Nat) :
    FirstFrom (fun j => (hay.take (i + n))[j]? = some c) i (memchr hay c i n) := by
  refine (Lib.firstFrom_findIdx? (· == c) (hay.take (i + n)) i).congr fun j _ => ?_
  grind

theorem occursAt_iff_getElem? : OccursAt hay needle i ↔ ∀ k < needle.length, hay[i + k]? = needle[k]? := by
  unfold OccursAt
  grind [List.getElem?_drop, List.getElem?_eq_getElem, List.prefix_iff_getElem?]

theorem OccursAt.le (h : OccursAt hay needle i) (hne : 0 < needle.length) : i + needle.length ≤ hay.length := by
  have := h.length_le
  grind

theorem occursAt_iff_memcmp (hne : 0 < needle.length) : OccursAt hay needle i ↔
    hay[i]? = some (needle.getD 0 0) ∧ (hay.drop (i + 1)).take (needle.length - 1) = needle.drop 1 := by
  cases needle with
  | nil => cases hne
  | cons c cs =>
    unfold OccursAt
    rw [List.getD_cons_zero, List.length_cons, Nat.add_sub_cancel, List.drop_one, List.tail_cons,
      ← List.prefix_iff_eq_take.trans eq_comm]
    cases hi : hay[i]? with
    | none =>
      grind
    | some a =>
      obtain ⟨hlt, rfl⟩ := List.getElem?_eq_some_iff.1 hi
      rw [List.drop_eq_getElem_cons hlt, List.cons_prefix_cons, Option.some.injEq, eq_comm]

theorem memchr_passes (hne : 0 < needle.length) (hay : List UInt8) (i : Nat) :
    match memchr hay (needle.getD 0 0) i (hay.length - needle.length - i + 1) with
    | some k => i ≤ k ∧ hay[k]? = some (needle.getD 0 0) ∧ ∀ j, i ≤ j → j < k → ¬ OccursAt hay needle j
    | none => ∀ j, i ≤ j → ¬ OccursAt hay needle j := by
  have hfirst := memchr_first hay (needle.getD 0 0) i (hay.length - needle.length - i + 1)
  have hfound : ∀ j, OccursAt hay needle j →
      (hay.take (i + (hay.length - needle.length - i + 1)))[j]? = some (needle.getD 0 0) := by
    intro j hj
    have := hj.le hne
    rw [List.getElem?_take_of_lt (by omega)]
    exact ((occursAt_iff_memcmp hne).1 hj).1
  cases h : memchr hay (needle.getD 0 0) i (hay.length - needle.length - i + 1) with
  | some k =>
    rw [h] at hfirst
    obtain ⟨hk, hc, hno⟩ := hfirst
    grind
  | none =>
    rw [h] at hfirst
    exact fun j hj ho => hfirst j hj (hfound j ho)

theorem findLoop_first {skip : Nat → Option Nat} (hne : 0 < needle.length)
    (hskip : ∀ i i', skip i = some i' → i < i' ∧ ∀ j, i < j → j < i' → ¬ OccursAt hay needle j)
    (hstop : ∀ i, skip i = none → ∀ j, i < j → ¬ OccursAt hay needle j) {fuel : Nat}
    (hfuel : hay.length < fuel + i) (hpos : 0 < fuel) :
    FirstFrom (OccursAt hay needle) i (findLoop hay needle skip fuel i) := by
  induction fuel generalizing i with
  | zero => cases hpos
  | succ fuel ih =>
    unfold findLoop
    dsimp only
    split
    · have hpass := memchr_passes hne hay i
      cases h : memchr hay (needle.getD 0 0) i (hay.length - needle.length - i + 1) with
      | none =>
        rw [h] at hpass
        exact hpass
      | some k =>
        rw [h] at hpass
        obtain ⟨hk, hc, hno⟩ := hpass
        rw [Option.bind_some]
        split
        · next hcmp => exact (FirstFrom.here ((occursAt_iff_memcmp hne).2 ⟨hc, hcmp⟩)).skip hk hno
        · next hcmp =>
          -- the first byte is there, but not the others
          have hmiss : ¬ OccursAt hay needle k := fun ho => hcmp ((occursAt_iff_memcmp hne).1 ho).2
          have hupto : ∀ j, i ≤ j → j ≤ k → ¬ OccursAt hay needle j := by grind
          cases hs : skip k with
          | none =>
            intro j hj
            rcases Nat.lt_or_ge k j with hlt | hge
            · exact hstop k hs j hlt
            · exact hupto j hj hge
          | some i' =>
            obtain ⟨hlt, hnone⟩ := hskip k i' hs
            rw [Option.bind_some]
            have hklt : k < hay.length := (List.getElem?_eq_some_iff.1 hc).1
            refine (ih (by omega) (by omega)).skip (by omega) fun j hj hji => ?_
            grind
    · next hgt =>
      intro j hj ho
      have := ho.le hne
      omega

/-! The Sunday table. -/

theorem sundayTable_succ (needle : List UInt8) (n : Nat) : sundayTable needle (n + 1) =
    Function.update (sundayTable needle n) (needle.getD n 0) (needle.length - n) := by
  unfold sundayTable
  rw [List.range_succ, List.foldl_append]
  rfl

theorem sundayTable_pos {n : Nat} (hn : n ≤ needle.length) (c : UInt8) : 0 < sundayTable needle n c := by
  induction n with
  | zero => exact Nat.succ_pos _
  | succ n ih =>
    rw [sundayTable_succ, Function.update_apply]
    grind

theorem sundayTable_le {n k : Nat} (hk : k < n) : sundayTable needle n (needle.getD k 0) ≤ needle.length - k := by
  induction n with
  | zero => cases hk
  | succ n ih =>
    rw [sundayTable_succ, Function.update_apply]
    grind

theorem sundayTable_le_succ (needle : List UInt8) (n : Nat) (c : UInt8) : sundayTable needle n c ≤ needle.length + 1 := by
  induction n with
  | zero => exact Nat.le_refl _
  | succ n ih =>
    rw [sundayTable_succ, Function.update_apply]
    grind

theorem sundaySkip_passes {i' : Nat} (h : sundaySkip hay needle i = some i') :
    i < i' ∧ ∀ j, i < j → j < i' → ¬ OccursAt hay needle j := by
  unfold sundaySkip at h
  dsimp only at h
  split at h
  · cases h
  · next hlt =>
    cases h
    rw [Nat.not_le] at hlt
    have hpos := sundayTable_pos (Nat.le_refl needle.length) (hay.getD (i + needle.length) 0)
    refine ⟨by omega, fun j hij hj ho => ?_⟩
    have hmax := sundayTable_le_succ needle needle.length (hay.getD (i + needle.length) 0)
    have hk : i + needle.length - j < needle.length := by omega
    have hbyte := occursAt_iff_getElem?.1 ho (i + needle.length - j) hk
    rw [Nat.add_sub_of_le (by omega)] at hbyte
    have hsame : hay.getD (i + needle.length) 0 = needle.getD (i + needle.length - j) 0 := by grind
    grind [sundayTable_le]

theorem sundaySkip_stops (hne : 0 < needle.length) (h : sundaySkip hay needle i = none) (hij : i < j) :
    ¬ OccursAt hay needle j := by
  unfold sundaySkip at h
  dsimp only at h
  split at h
  · next hle =>
    intro ho
    have := ho.le hne
    omega
  · cases h

theorem strFind_first (hne : needle ≠ []) {start : Nat} (hstart : start ≤ hay.length) :
    FirstFrom (OccursAt hay needle) start (strFind hay needle start) := by
  have hpos : 0 < needle.length := List.length_pos_iff.2 hne
  unfold strFind
  rw [if_neg (Nat.ne_of_gt hpos)]
  split
  · next hlt =>
    intro j _ ho
    have := ho.le hpos
    omega
  · split
    · next hone =>
      refine (memchr_first hay (needle.getD 0 0) start (hay.length - start)).congr fun j _ => ?_
      have hrest : (hay.drop (j + 1)).take (needle.length - 1) = needle.drop 1 := by
        rw [hone, Nat.sub_self, List.take_zero, List.drop_eq_nil_of_le (Nat.le_of_eq hone)]
      rw [Nat.add_sub_of_le hstart, List.take_length, occursAt_iff_memcmp hpos]
      grind
    · have hfuel : hay.length < hay.length + 1 + start := by omega
      split
      · refine findLoop_first hpos (fun i i' h => ?_) (fun i h => by cases h) hfuel (Nat.succ_pos _)
        grind
      · exact findLoop_first hpos (fun i i' h => sundaySkip_passes h) (fun i h j hij => sundaySkip_stops hpos h hij)
          hfuel (Nat.succ_pos _)

end LsLang.Text

/-! What `__ls_str_find` reads: every byte that a comparison or a scan may look at is inside its buffer. -/

namespace LsLang.Text

open LsLang.Lib (FirstFrom)
open LsLang.Undefined LsLang.Undefined.Res

def byteAt (s : List UInt8) (i : Nat) : Res UInt8 :=
  match s[i]? with
  | some b => .ok b
  | none => .stuck

/-- `memchr` over `n` bytes, all of which have to be there. -/
def memchrIn (hay : List UInt8) (c : UInt8) (i n : Nat) : Res (Option Nat) :=
  if i + n ≤ hay.length then .ok (memchr hay c i n) else .stuck

/-- `memcmp(hay + i, needle + j, n) == 0`, with `n` bytes in both. -/
def memcmpIn (hay needle : List UInt8) (i j n : Nat) : Res Bool :=
  if i + n ≤ hay.length ∧ j + n ≤ needle.length then
    .ok (decide ((hay.drop i).take n = (needle.drop j).take n))
  else .stuck

def findLoopIn (hay needle : List UInt8) (first : UInt8) (skip : Nat → Res (Option Nat)) :
    Nat → Nat → Res (Option Nat)
  | 0, _ => .stuck
  | fuel + 1, i =>
    let last := hay.length - needle.length
    if i ≤ last then do
      let p ← memchrIn hay first i (last - i + 1)
      match p with
      | none => .ok none
      | some i => do
        -- the first byte is there already
        let same ← memcmpIn hay needle (i + 1) 1 (needle.length - 1)
        if same then .ok (some i)
        else do
          let next ← skip i
          match next with
          | none => .ok none
          | some i => findLoopIn hay needle first skip fuel i
    else .ok none

/-- One turn of the loop that fills `qs`. -/
def tableTurn (needle : List UInt8) (k : Nat) (qs : UInt8 → Nat) : Res (UInt8 → Nat) := do
  let c ← byteAt needle k
  pure (Function.update qs c (needle.length - k))

def sundaySkipIn (hay needle : List UInt8) (qs : UInt8 → Nat) (i : Nat) : Res (Option Nat) :=
  let nxt := i + needle.length
  if hay.length ≤ nxt then .ok none
  else do
    let c ← byteAt hay nxt
    pure (some (i + qs c))

/-- `__ls_str_find`, from a start inside the text, with its reads. -/
def strFindIn (hay needle : List UInt8) (start : Nat) : Res (Option Nat) :=
  if needle.length = 0 then .ok (if start ≤ hay.length then some start else none)
  else if hay.length < needle.length then .ok none
  else do
    let first ← byteAt needle 0
    if needle.length = 1 then memchrIn hay first start (hay.length - start)
    else if hay.length < shortHay then findLoopIn hay needle first (fun i => .ok (some (i + 1))) (hay.length + 1) start
    else do
      let qs ← Res.forFrom (tableTurn needle) 0 needle.length fun _ => needle.length + 1
      findLoopIn hay needle first (sundaySkipIn hay needle qs) (hay.length + 1) start

variable {hay needle : List UInt8} {i k n start : Nat}

theorem byteAt_eq (h : i < needle.length) : byteAt needle i = .ok (needle.getD i 0) := by
  unfold byteAt
  grind

theorem memchrIn_eq (hlen : needle.length ≤ hay.length) (hne : 0 < needle.length) (c : UInt8)
    (hi : i ≤ hay.length - needle.length) :
    memchrIn hay c i (hay.length - needle.length - i + 1) =
      .ok (memchr hay c i (hay.length - needle.length - i + 1)) :=
  if_pos (by omega)

theorem memchr_le {c : UInt8} (h : memchr hay c i n = some k) : i ≤ k ∧ k < i + n ∧ k < hay.length := by
  have hfirst := memchr_first hay c i n
  rw [h] at hfirst
  obtain ⟨hle, hget, -⟩ := hfirst
  grind

theorem memcmpIn_eq (hne : 0 < needle.length) (h : k + needle.length ≤ hay.length) :
    memcmpIn hay needle (k + 1) 1 (needle.length - 1) =
      .ok (decide ((hay.drop (k + 1)).take (needle.length - 1) = needle.drop 1)) := by
  unfold memcmpIn
  rw [if_pos (by omega), List.take_of_length_le (l := needle.drop 1) (by rw [List.length_drop])]

theorem findLoopIn_eq {skip : Nat → Res (Option Nat)} {skip' : Nat → Option Nat} (hne : 0 < needle.length)
    (hlen : needle.length ≤ hay.length)
    (hskip : ∀ i, i + needle.length ≤ hay.length → skip i = .ok (skip' i))
    (hon : ∀ i i', skip' i = some i' → i < i') {fuel : Nat} (hfuel : hay.length < fuel + i) (hpos : 0 < fuel) :
    findLoopIn hay needle (needle.getD 0 0) skip fuel i = .ok (findLoop hay needle skip' fuel i) := by
  induction fuel generalizing i with
  | zero => cases hpos
  | succ fuel ih =>
    unfold findLoopIn findLoop
    dsimp only
    split
    · next hi =>
      rw [memchrIn_eq hlen hne _ hi, ok_bind]
      cases h : memchr hay (needle.getD 0 0) i (hay.length - needle.length - i + 1) with
      | none => rfl
      | some k =>
        obtain ⟨hik, hkn, hk⟩ := memchr_le h
        have hfit : k + needle.length ≤ hay.length := by omega
        dsimp only
        rw [memcmpIn_eq hne hfit, ok_bind, Option.bind_some]
        by_cases hcmp : (hay.drop (k + 1)).take (needle.length - 1) = needle.drop 1
        · grind
        · rw [if_neg (by simpa using hcmp), if_neg hcmp, hskip k hfit, ok_bind]
          grind
    · rfl

theorem tableTurns_eq (h : n + k ≤ needle.length) :
    forFrom (tableTurn needle) k n (sundayTable needle k) = .ok (sundayTable needle (k + n)) := by
  induction n generalizing k with
  | zero => rfl
  | succ n ih =>
    have hturn : tableTurn needle k (sundayTable needle k) = .ok (sundayTable needle (k + 1)) := by
      unfold tableTurn
      rw [byteAt_eq (by omega), sundayTable_succ]
      rfl
    rw [forFrom_succ, hturn, ok_bind, ih (by omega), Nat.add_assoc, Nat.add_comm 1 n]

theorem sundaySkipIn_eq (i : Nat) :
    sundaySkipIn hay needle (sundayTable needle needle.length) i = .ok (sundaySkip hay needle i) := by
  unfold sundaySkipIn sundaySkip
  dsimp only
  split
  · rfl
  · next hlt =>
    rw [byteAt_eq (Nat.not_le.1 hlt)]
    rfl

theorem strFindIn_eq (hstart : start ≤ hay.length) : strFindIn hay needle start = .ok (strFind hay needle start) := by
  unfold strFindIn strFind
  split
  · rfl
  · next hne =>
    have hpos := Nat.pos_of_ne_zero hne
    split
    · rfl
    · next hlen =>
      have hlen := Nat.not_lt.1 hlen
      rw [byteAt_eq hpos, ok_bind]
      split
      · exact if_pos (by omega)
      · split
        · exact findLoopIn_eq hpos hlen (fun i _ => rfl) (fun i i' h => by grind) (by omega)
            (Nat.succ_pos _)
        · have htable := tableTurns_eq (n := needle.length) (k := 0) (Nat.le_refl needle.length)
          rw [Nat.zero_add] at htable
          have hstartTable : sundayTable needle 0 = fun _ => needle.length + 1 := rfl
          rw [hstartTable] at htable
          rw [htable, ok_bind]
          exact findLoopIn_eq hpos hlen (fun i _ => sundaySkipIn_eq i) (fun i i' h => (sundaySkip_passes h).1) (by omega)
            (Nat.succ_pos _)

/-- On each of its paths `__ls_str_find` reads inside the text and the needle only, comes to an end, and returns the first
place at or behind the start where the needle stands: the start itself when the needle is empty. -/
theorem str_find_exact (hay needle : List UInt8) (start : Nat) (hstart : start ≤ hay.length) :
    (strFindIn hay needle start).Yields fun r =>
      FirstFrom (OccursAt hay needle) start r ∧ (needle = [] → r = some start) := by
  refine ⟨_, strFindIn_eq hstart, ?_, ?_⟩
  · by_cases hne : needle = []
    · subst hne
      have hres : strFind hay [] start = some start := if_pos hstart
      rw [hres]
      exact FirstFrom.here List.nil_prefix
    · exact strFind_first hne hstart
  · rintro rfl
    exact if_pos hstart

theorem str_find_exact_ana : (strFindIn "banana".toUTF8.data.toList "ana".toUTF8.data.toList 2).Yields fun r =>
    FirstFrom (OccursAt "banana".toUTF8.data.toList "ana".toUTF8.data.toList) 2 r ∧
      ("ana".toUTF8.data.toList = [] → r = some 2) :=
  str_find_exact _ _ 2 (by decide)

end LsLang.Text
