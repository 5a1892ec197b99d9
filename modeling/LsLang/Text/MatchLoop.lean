import Mathlib
import LsLang.Core.Buffer

/-! `find_all`, `replace_all` and `split` of `regex.lls`: loops over the matches of a pattern. The search of
`__ls_regex_exec_dfa` is a function from the place where it begins to the start and the length of a match. -/

namespace LsLang.Text

open LsLang.Core LsLang.Core.Buffer LsLang.Undefined LsLang.Undefined.Res

/-- The place from which the search goes on. -/
def nextPos (s l : ℕ) : ℕ := if l = 0 then s + 1 else s + l

/-- `while pos <= tlen`, with what a turn does at a match. -/
def matchLoop {σ : Type} (exec : ℕ → Option (ℕ × ℕ)) (tlen : ℕ) (turn : ℕ → ℕ → ℕ → σ → Res σ) :
    ℕ → ℕ → σ → Res (ℕ × σ)
  | 0, _, _ => .stuck
  | fuel + 1, pos, result =>
    if pos ≤ tlen then
      match exec pos with
      | none => .ok (pos, result)
      | some (s, l) => do
        let result ← turn pos s l result
        let _ ← asInt (nextPos s l)
        matchLoop exec tlen turn fuel (nextPos s l) result
    else .ok (pos, result)

/-- `text.substr(from, to - from)` -/
def substrTo (text : StrBytes) (start stop : ℕ) : Res (List UInt8) :=
  text.substr (Int32.ofNat start) (Int32.ofInt ((stop : ℤ) - start))

/-- `push` onto a `Vec(Str)`. -/
abbrev pushStr (result : Buffer (List UInt8)) (piece : List UInt8) : Res (Buffer (List UInt8)) :=
  push (Growth.vecReserve 16) result piece

/-- A turn of `find_all`. -/
def findTurn (text : StrBytes) (_pos s l : ℕ) (result : Buffer (List UInt8)) : Res (Buffer (List UInt8)) := do
  let piece ← text.substr (Int32.ofNat s) (Int32.ofNat l)
  pushStr result piece

/-- `find_all`, of a pattern that compiles or not. -/
def findAll (h : Option (ℕ → Option (ℕ × ℕ))) (text : StrVar) : Res (List (List UInt8)) :=
  match h with
  | none => .ok []
  | some exec => do
    let _ ← text.cStr
    let (_, result) ← matchLoop exec text.bytes.length (findTurn text.toStrBytes) (text.bytes.length + 2) 0 Buffer.empty
    .ok result.items

/-- A turn of `replace_all`. -/
def replaceTurn (text replacement : StrBytes) (pos s l : ℕ) (result : List UInt8) : Res (List UInt8) := do
  let gap ← substrTo text pos s
  let result ← strAdd result gap
  let result ← strAdd result replacement.bytes
  if l = 0 then do
    let byte ← text.substr (Int32.ofNat s) 1
    strAdd result byte
  else .ok result

/-- `replace_all`: without a handle it is `text.copy()`. -/
def replaceAll (h : Option (ℕ → Option (ℕ × ℕ))) (text : StrVar) (replacement : StrBytes) : Res (List UInt8) :=
  match h with
  | none => text.substr 0 (Int32.ofNat text.bytes.length)
  | some exec => do
    let _ ← text.cStr
    let (pos, result) ←
      matchLoop exec text.bytes.length (replaceTurn text.toStrBytes replacement) (text.bytes.length + 2) 0 []
    let tail ← substrTo text.toStrBytes pos text.bytes.length
    strAdd result tail

def pushPiece (result : Buffer (List UInt8)) (piece : List UInt8) : Res (Buffer (List UInt8)) :=
  if 0 < piece.length then pushStr result piece else .ok result

/-- A turn of `split`. -/
def splitTurn (text : StrBytes) (pos s _l : ℕ) (result : Buffer (List UInt8)) : Res (Buffer (List UInt8)) := do
  let piece ← substrTo text pos s
  pushPiece result piece

/-- What `split` pushes behind the loop. -/
def splitTail (text : StrBytes) (pos : ℕ) (result : Buffer (List UInt8)) : Res (Buffer (List UInt8)) :=
  if pos ≤ text.bytes.length then do
    let tail ← substrTo text pos text.bytes.length
    pushPiece result tail
  else .ok result

def split (h : Option (ℕ → Option (ℕ × ℕ))) (text : StrVar) : Res (List (List UInt8)) :=
  match h with
  | none => do
    let piece ← text.substr 0 (Int32.ofNat text.bytes.length)
    let result ← pushStr Buffer.empty piece
    .ok result.items
  | some exec => do
    let _ ← text.cStr
    let (pos, result) ←
      matchLoop exec text.bytes.length (splitTurn text.toStrBytes) (text.bytes.length + 2) 0 Buffer.empty
    let result ← splitTail text.toStrBytes pos result
    .ok result.items

/-- Each match that a search finds is behind the place where it began, and inside the text. -/
def Inside (exec : ℕ → Option (ℕ × ℕ)) (tlen : ℕ) : Prop :=
  ∀ pos s l, pos ≤ tlen → exec pos = some (s, l) → pos ≤ s ∧ s + l ≤ tlen

/-! Matches. -/

/-- The lengths of the matches together. -/
def matchedLength : List (ℕ × ℕ) → ℕ
  | [] => 0
  | m :: ms => m.2 + matchedLength ms

/-- The leftmost matches of `x*` in `axb`, from each place on. -/
def starMatches (pos : ℕ) : Option (ℕ × ℕ) :=
  if pos ≤ 3 then some (pos, if pos = 1 then 1 else 0) else none

theorem starMatches_inside : Inside starMatches 3 := by
  intro pos s l hle h
  unfold starMatches at h
  grind

/-! Parts of the text. -/

/-- The bytes from `a` to `b`. -/
def slice (text : List UInt8) (a b : ℕ) : List UInt8 := (text.drop a).take (b - a)

section Slices

variable {text : List UInt8} {a b c : ℕ}

theorem slice_append (hab : a ≤ b) (hbc : b ≤ c) : slice text a b ++ slice text b c = slice text a c := by
  unfold slice
  have hdrop : text.drop b = (text.drop a).drop (b - a) := by
    rw [List.drop_drop, Nat.add_sub_cancel' hab]
  have hlen : c - a = (b - a) + (c - b) := by omega
  grind

theorem slice_self (a : ℕ) : slice text a a = [] := by
  unfold slice
  grind

theorem slice_end (a : ℕ) : slice text a text.length = text.drop a := by
  unfold slice
  exact List.take_of_length_le (by rw [List.length_drop])

theorem slice_drop (hab : a ≤ b) : slice text a b ++ text.drop b = text.drop a := by
  unfold slice
  grind [List.take_append_drop, List.drop_drop, Nat.add_sub_cancel']

theorem length_slice (hab : a ≤ b) (hb : b ≤ text.length) : (slice text a b).length = b - a := by
  unfold slice
  grind

end Slices

section Substr

variable {text : StrBytes} {start stop : ℕ}

theorem substr_slice (h : start ≤ stop) (hstop : stop ≤ text.bytes.length) :
    Exactly (text.substr (Int32.ofNat start) (Int32.ofNat (stop - start))) (stop - start ≤ 2 ^ 30)
      (· = slice text.bytes start stop) :=
  text.substr_exactly start (stop - start) (by omega)

theorem substrTo_exactly (h : start ≤ stop) (hstop : stop ≤ text.bytes.length) :
    Exactly (substrTo text start stop) (stop - start ≤ 2 ^ 30) (· = slice text.bytes start stop) := by
  have hsub : (stop : ℤ) - start = ((stop - start : ℕ) : ℤ) := (Int.ofNat_sub h).symm
  unfold substrTo
  rw [hsub]
  exact substr_slice h hstop

/-- The rest of the text, from the end of the last match or the byte behind it on. -/
theorem substrTo_end (hpos : start ≤ text.bytes.length + 1) (hint : start < 2 ^ 31) :
    Exactly (substrTo text start text.bytes.length) (text.bytes.length - start ≤ 2 ^ 30) (· = text.bytes.drop start) := by
  rcases Nat.lt_or_ge text.bytes.length start with hlt | hle
  · have hone : (text.bytes.length : ℤ) - start = -1 := by omega
    have hfits := text.fits
    have hlen : text.len = text.bytes.length := rfl
    have hneg : (Int32.ofInt (-1)).toInt = -1 := rfl
    unfold substrTo
    rw [hone, List.drop_eq_nil_of_le (Nat.le_of_lt hlt)]
    refine (text.substr_end start _ (Nat.le_of_lt hlt) hint).congr (iff_of_true ?_ (by omega))
    rw [hneg]
    omega
  · rw [← slice_end]
    exact substrTo_exactly hle (Nat.le_refl _)

/-- The byte at the start of an empty match, if there is one. -/
theorem substr_byte (h : start ≤ text.bytes.length) :
    Exactly (text.substr (Int32.ofNat start) 1) (start + 1 < 2 ^ 31) (· = slice text.bytes start (start + 1)) := by
  have hfits := text.fits
  rcases Nat.lt_or_ge start text.bytes.length with hlt | hge
  · refine (text.substr_exactly start 1 hlt).congr (iff_of_true (by norm_num) (by omega)) |>.mono fun piece hp => ?_
    rw [hp]
    unfold slice
    rw [Nat.add_sub_cancel_left]
  · have hlen : text.len = text.bytes.length := rfl
    have hone : (1 : Int32).toInt = 1 := rfl
    have hnil : slice text.bytes start (start + 1) = [] := by
      unfold slice
      rw [List.drop_eq_nil_of_le hge, List.take_nil]
    rw [hnil]
    refine (text.substr_end start 1 hge (by omega)).congr ?_
    rw [hone]
    omega

end Substr

/-! The turns of a loop. -/

/-- From `pos` on the loop comes to these matches, and stops at `stop`. -/
inductive Rounds (exec : ℕ → Option (ℕ × ℕ)) (tlen : ℕ) : ℕ → List (ℕ × ℕ) → ℕ → Prop
  | none {pos : ℕ} : pos ≤ tlen → exec pos = Option.none → Rounds exec tlen pos [] pos
  | past {pos : ℕ} : tlen < pos → Rounds exec tlen pos [] pos
  | turn {pos s l stop : ℕ} {ms : List (ℕ × ℕ)} : pos ≤ tlen → exec pos = some (s, l) →
      Rounds exec tlen (nextPos s l) ms stop → Rounds exec tlen pos ((s, l) :: ms) stop

section Runs

variable {σ τ : Type}

def turns (turn : ℕ → ℕ → ℕ → τ → τ) : ℕ → List (ℕ × ℕ) → τ → τ
  | _, [], result => result
  | pos, (s, l) :: ms, result => turns turn (nextPos s l) ms (turn pos s l result)

/-- Every turn keeps to its limit, and every cursor is an `int`. -/
def Within (limit : ℕ → ℕ → ℕ → τ → Prop) (turn : ℕ → ℕ → ℕ → τ → τ) : ℕ → List (ℕ × ℕ) → τ → Prop
  | _, [], _ => True
  | pos, (s, l) :: ms, result =>
    (limit pos s l result ∧ nextPos s l < 2 ^ 31) ∧ Within limit turn (nextPos s l) ms (turn pos s l result)

variable {exec : ℕ → Option (ℕ × ℕ)} {tlen pos stop fuel : ℕ} {ms : List (ℕ × ℕ)}

theorem Within.ints {limit : ℕ → ℕ → ℕ → τ → Prop} {turn : ℕ → ℕ → ℕ → τ → τ} {t : τ}
    (h : Within limit turn pos ms t) : ∀ m ∈ ms, nextPos m.1 m.2 < 2 ^ 31 := by
  induction ms generalizing pos t with
  | nil => exact List.forall_mem_nil _
  | cons m ms ih => exact List.forall_mem_cons.2 ⟨h.1.2, ih h.2⟩

theorem lt_nextPos {s l : ℕ} (h : pos ≤ s) : pos < nextPos s l := by
  unfold nextPos
  split <;> omega

theorem le_nextPos (s l : ℕ) : s + l ≤ nextPos s l := by
  unfold nextPos
  split <;> omega

theorem nextPos_le {s l : ℕ} (h : s + l ≤ tlen) : nextPos s l ≤ tlen + 1 := by
  unfold nextPos
  split <;> omega

theorem exists_rounds (hin : Inside exec tlen) (pos : ℕ) : ∃ ms stop, Rounds exec tlen pos ms stop := by
  induction hn : tlen + 1 - pos using Nat.strongRecOn generalizing pos with
  | ind n ih =>
    rcases Nat.lt_or_ge tlen pos with hpast | hle
    · exact ⟨[], pos, .past hpast⟩
    · cases h : exec pos with
      | none => exact ⟨[], pos, .none hle h⟩
      | some p =>
        obtain ⟨s, l⟩ := p
        have hlt := lt_nextPos (l := l) (hin pos s l hle h).1
        obtain ⟨ms, stop, hr⟩ := ih (tlen + 1 - nextPos s l) (by omega) (nextPos s l) rfl
        exact ⟨(s, l) :: ms, stop, .turn hle h hr⟩

theorem Rounds.stop_le (hin : Inside exec tlen) (h : Rounds exec tlen pos ms stop) (hpos : pos ≤ tlen + 1) :
    stop ≤ tlen + 1 := by
  induction h with
  | none _ _ => exact hpos
  | past _ => exact hpos
  | turn hle hsome _ ih => exact ih (nextPos_le (hin _ _ _ hle hsome).2)

theorem Rounds.stop_lt (h : Rounds exec tlen pos ms stop) (hpos : pos < 2 ^ 31)
    (hints : ∀ m ∈ ms, nextPos m.1 m.2 < 2 ^ 31) : stop < 2 ^ 31 := by
  induction h with
  | none _ _ => exact hpos
  | past _ => exact hpos
  | turn _ _ _ ih => exact ih (hints _ List.mem_cons_self) fun m hm => hints m (List.mem_cons_of_mem _ hm)

theorem matchLoop_turn {turn : ℕ → ℕ → ℕ → σ → Res σ} {s l : ℕ} (hle : pos ≤ tlen) (hsome : exec pos = some (s, l))
    (result : σ) :
    matchLoop exec tlen turn (fuel + 1) pos result =
      turn pos s l result >>= fun result =>
        asInt (nextPos s l) >>= fun _ => matchLoop exec tlen turn fuel (nextPos s l) result := by
  conv_lhs => unfold matchLoop
  rw [if_pos hle, hsome]

theorem asInt_exactly (n : ℕ) : Exactly (asInt n) (n < 2 ^ 31) fun _ => True := by
  refine ⟨fun h => ⟨n, asInt_eq (by omega) (by omega), trivial⟩, fun a ha => ?_⟩
  have := (asInt_ok ha).2
  omega

/-- The loop returns exactly as long as every turn keeps to its limit, and does to the result what the turns do to what
they stand for. -/
theorem Rounds.loop (turn : ℕ → ℕ → ℕ → σ → Res σ) (turn' : ℕ → ℕ → ℕ → τ → τ) (R : σ → τ → Prop)
    (limit : ℕ → ℕ → ℕ → τ → Prop)
    (hturn : ∀ pos s l a t, pos ≤ s → s + l ≤ tlen → R a t →
      Exactly (turn pos s l a) (limit pos s l t) fun b => R b (turn' pos s l t))
    (hin : Inside exec tlen) (h : Rounds exec tlen pos ms stop) {a : σ} {t : τ} (hR : R a t)
    (hfuel : tlen + 1 < fuel + pos) (hpos : 0 < fuel) :
    Exactly (matchLoop exec tlen turn fuel pos a) (Within limit turn' pos ms t)
      fun x => x.1 = stop ∧ R x.2 (turns turn' pos ms t) := by
  induction h generalizing fuel a t with
  | none hle hnone =>
    obtain ⟨fuel, rfl⟩ := Nat.exists_eq_add_of_lt hpos
    unfold matchLoop
    rw [if_pos hle, hnone]
    exact .ok ⟨rfl, hR⟩
  | past hlt =>
    obtain ⟨fuel, rfl⟩ := Nat.exists_eq_add_of_lt hpos
    unfold matchLoop
    rw [if_neg (Nat.not_le.2 hlt)]
    exact .ok ⟨rfl, hR⟩
  | @turn pos s l stop ms hle hsome _ ih =>
    obtain ⟨fuel, rfl⟩ := Nat.exists_eq_add_of_lt hpos
    obtain ⟨hps, hsl⟩ := hin _ _ _ hle hsome
    have hlt := lt_nextPos (l := l) hps
    rw [matchLoop_turn hle hsome]
    refine ((hturn _ _ _ _ _ hps hsl hR).bind fun b hb => ?_).congr and_assoc.symm
    exact (asInt_exactly _).bind fun _ _ => ih hb (by omega) (by omega)

/-- The matches do not overlap, and each is behind `e`. -/
inductive Apart (tlen : ℕ) : ℕ → List (ℕ × ℕ) → Prop
  | nil {e : ℕ} : e ≤ tlen → Apart tlen e []
  | cons {e s l : ℕ} {ms : List (ℕ × ℕ)} : e ≤ s → Apart tlen (s + l) ms → Apart tlen e ((s, l) :: ms)

theorem Apart.le {e : ℕ} (h : Apart tlen e ms) : e ≤ tlen := by
  induction h with
  | nil hle => exact hle
  | cons hle _ ih => omega

theorem Apart.start_le {e : ℕ} (h : Apart tlen e ms) : ∀ m ∈ ms, m.1 ≤ tlen := by
  induction h with
  | nil _ => grind
  | cons _ hrest ih =>
    intro m hm
    rcases List.mem_cons.1 hm with rfl | hm
    · exact Nat.le_trans (Nat.le_add_right ..) hrest.le
    · exact ih m hm

theorem Rounds.apart (hin : Inside exec tlen) (h : Rounds exec tlen pos ms stop) {e : ℕ} (he : e ≤ pos)
    (hle : e ≤ tlen) : Apart tlen e ms := by
  induction h generalizing e with
  | none _ _ => exact .nil hle
  | past _ => exact .nil hle
  | @turn pos s l stop ms hp hsome _ ih =>
    obtain ⟨hps, hsl⟩ := hin _ _ _ hp hsome
    exact .cons (Nat.le_trans he hps) (ih (le_nextPos s l) hsl)

end Runs

/-! `find_all` -/

section Find

variable {exec : ℕ → Option (ℕ × ℕ)} {pos stop : ℕ} {ms : List (ℕ × ℕ)} {text : StrVar}

/-- What a turn of `find_all` adds. -/
def found (text : List UInt8) (_pos s l : ℕ) (result : List (List UInt8)) : List (List UInt8) :=
  result ++ [slice text s (s + l)]

/-- A `Vec(Str)` with these elements. -/
def Holds (b : Buffer (List UInt8)) (items : List (List UInt8)) : Prop := b.items = items ∧ Roomy b

theorem pushStr_exactly {b : Buffer (List UInt8)} {items : List (List UInt8)} (hb : Holds b items) (piece : List UInt8) :
    Exactly (pushStr b piece) ((items ++ [piece]).length ≤ 2 ^ 30) fun b => Holds b (items ++ [piece]) := by
  obtain ⟨rfl, hroomy⟩ := hb
  exact push_exactly vecReserve_reserves hroomy piece

theorem findTurn_exactly (text : StrBytes) {s l : ℕ} (pos : ℕ) {b : Buffer (List UInt8)} {items : List (List UInt8)}
    (hsl : s + l ≤ text.bytes.length) (hb : Holds b items) :
    Exactly (findTurn text pos s l b) (l ≤ 2 ^ 30 ∧ items.length + 1 ≤ 2 ^ 30)
      fun b => Holds b (found text.bytes pos s l items) := by
  unfold findTurn found
  have hpiece := text.substr_exactly s l hsl
  have hslice : slice text.bytes s (s + l) = (text.bytes.drop s).take l := by
    unfold slice
    rw [Nat.add_sub_cancel_left]
  refine hpiece.bind fun piece hp => ?_
  rw [hp, ← hslice]
  refine (pushStr_exactly hb _).congr ?_
  rw [List.length_append, List.length_singleton]

theorem turns_found (text : List UInt8) (pos : ℕ) (ms : List (ℕ × ℕ)) (result : List (List UInt8)) :
    turns (found text) pos ms result = result ++ ms.map fun m => slice text m.1 (m.1 + m.2) := by
  induction ms generalizing pos result with
  | nil => exact (List.append_nil result).symm
  | cons m ms ih =>
    obtain ⟨s, l⟩ := m
    unfold turns
    rw [ih]
    exact List.append_assoc ..

theorem within_found (text : List UInt8) (pos : ℕ) (ms : List (ℕ × ℕ)) (result : List (List UInt8))
    (h : result.length ≤ 2 ^ 30) :
    Within (fun _ _ l t => l ≤ 2 ^ 30 ∧ t.length + 1 ≤ 2 ^ 30) (found text) pos ms result ↔
      (∀ m ∈ ms, m.2 ≤ 2 ^ 30) ∧ result.length + ms.length ≤ 2 ^ 30 ∧ ∀ m ∈ ms, nextPos m.1 m.2 < 2 ^ 31 := by
  induction ms generalizing pos result with
  | nil => exact iff_of_true trivial ⟨List.forall_mem_nil _, h, List.forall_mem_nil _⟩
  | cons m ms ih =>
    obtain ⟨s, l⟩ := m
    have hlen : (found text pos s l result).length = result.length + 1 := by
      unfold found
      rw [List.length_append, List.length_singleton]
    unfold Within
    rw [List.forall_mem_cons, List.forall_mem_cons, List.length_cons]
    by_cases hroom : result.length + 1 ≤ 2 ^ 30
    · rw [ih _ _ (by omega), hlen]
      grind
    · exact iff_of_false (fun hw => hroom hw.1.1.2) (fun hw => hroom (by omega))

/-- The places of the matches are `int`s with room for their copies. -/
theorem findAll_exactly (hin : Inside exec text.bytes.length) (h : Rounds exec text.bytes.length 0 ms stop) :
    Exactly (findAll (some exec) text)
      (text.HasRoom ∧ (∀ m ∈ ms, m.2 ≤ 2 ^ 30) ∧ ms.length ≤ 2 ^ 30 ∧ ∀ m ∈ ms, nextPos m.1 m.2 < 2 ^ 31)
      (· = ms.map fun m => slice text.bytes m.1 (m.1 + m.2)) := by
  have hloop := h.loop (findTurn text.toStrBytes) (found text.bytes) Holds
    (fun _ _ l t => l ≤ 2 ^ 30 ∧ t.length + 1 ≤ 2 ^ 30) (fun pos s l b items _ hsl hb =>
      findTurn_exactly text.toStrBytes pos hsl hb) hin (a := Buffer.empty) (t := []) ⟨rfl, roomy_empty⟩
      (Nat.lt_succ_self _) (Nat.succ_pos _)
  have hlimit := within_found text.bytes 0 ms [] (Nat.zero_le _)
  rw [List.length_nil, Nat.zero_add] at hlimit
  unfold findAll
  refine text.cStr_exactly.bind fun _ _ => ?_
  refine ((hloop.congr hlimit).bind (d := True) fun x hx => ?_).congr (and_iff_left trivial)
  rw [turns_found, List.nil_append] at hx
  exact .ok hx.2.1

end Find

end LsLang.Text
