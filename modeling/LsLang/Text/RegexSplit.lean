import Mathlib
import LsLang.Text.MatchLoop

/-! `split` loses the bytes behind empty matches. -/

namespace LsLang.Text

open LsLang.Core LsLang.Core.Buffer LsLang.Undefined LsLang.Undefined.Res

variable {exec : ℕ → Option (ℕ × ℕ)} {pos stop : ℕ} {ms : List (ℕ × ℕ)} {text : List UInt8}

/-- A part of the text: a piece that `split` returns, or a match. -/
inductive Part
  | piece (bytes : List UInt8)
  | separator (bytes : List UInt8)

def Part.bytes : Part → List UInt8
  | piece b => b
  | separator b => b

def piecesOf : List Part → List (List UInt8)
  | [] => []
  | .piece b :: ps => b :: piecesOf ps
  | .separator _ :: ps => piecesOf ps

/-- Where the separators stand among parts that begin at `o`. -/
def separatorsOf (o : ℕ) : List Part → List (ℕ × ℕ)
  | [] => []
  | .piece b :: ps => separatorsOf (o + b.length) ps
  | .separator b :: ps => (o, b.length) :: separatorsOf (o + b.length) ps

/-- The text is a row of parts: the pieces in their order, and the matches at their places. Each byte is then in exactly
one of them. -/
def Tiled (text : List UInt8) (pieces : List (List UInt8)) (ms : List (ℕ × ℕ)) : Prop :=
  ∃ parts : List Part, parts.flatMap Part.bytes = text ∧ piecesOf parts = pieces ∧ separatorsOf 0 parts = ms

def totalLength (pieces : List (List UInt8)) : ℕ := pieces.flatten.length

theorem length_parts (o : ℕ) (parts : List Part) :
    (parts.flatMap Part.bytes).length = totalLength (piecesOf parts) + matchedLength (separatorsOf o parts) := by
  induction parts generalizing o with
  | nil => rfl
  | cons p ps ih =>
    rw [List.flatMap_cons, List.length_append]
    cases p with
    | piece b =>
      have hpiece : totalLength (b :: piecesOf ps) = b.length + totalLength (piecesOf ps) := List.length_append
      rw [ih (o + b.length)]
      show b.length + _ = totalLength (b :: piecesOf ps) + _
      rw [hpiece]
      exact (Nat.add_assoc ..).symm
    | separator b =>
      rw [ih (o + b.length)]
      show b.length + _ = totalLength (piecesOf ps) + (b.length + _)
      exact Nat.add_left_comm ..

theorem piecesOf_append (ps qs : List Part) : piecesOf (ps ++ qs) = piecesOf ps ++ piecesOf qs := by
  induction ps with
  | nil => rfl
  | cons p ps ih =>
    cases p with
    | piece b => exact congrArg (b :: ·) ih
    | separator b => exact ih

/-- What a turn of `split` adds. -/
def cutOff (text : List UInt8) (pos s _l : ℕ) (result : List (List UInt8)) : List (List UInt8) :=
  if pos < s then result ++ [slice text pos s] else result

/-- What `split` returns after its loop. -/
def withTail (text : List UInt8) (stop : ℕ) (result : List (List UInt8)) : List (List UInt8) :=
  if stop < text.length then result ++ [text.drop stop] else result

/-- The lengths of the stretches that `split` copies: in front of each match, and behind the last. -/
def stretches (tlen : ℕ) : ℕ → List (ℕ × ℕ) → List ℕ
  | pos, [] => [tlen - pos]
  | pos, (s, l) :: ms => (s - pos) :: stretches tlen (nextPos s l) ms

theorem pushPiece_exactly {b : Buffer (List UInt8)} {items : List (List UInt8)} (hb : Holds b items)
    (piece : List UInt8) :
    Exactly (pushPiece b piece) ((if 0 < piece.length then items ++ [piece] else items).length ≤ 2 ^ 30)
      fun b => Holds b (if 0 < piece.length then items ++ [piece] else items) := by
  unfold pushPiece
  by_cases hpos : 0 < piece.length
  · rw [if_pos hpos, if_pos hpos]
    exact pushStr_exactly hb piece
  · rw [if_neg hpos, if_neg hpos]
    refine (Exactly.ok (P := fun b => Holds b items) hb).congr (iff_of_true trivial ?_)
    rw [← hb.1]
    exact hb.2.length

theorem splitTurn_exactly (text : StrBytes) {pos s : ℕ} (l : ℕ) {b : Buffer (List UInt8)} {items : List (List UInt8)}
    (hps : pos ≤ s) (hs : s ≤ text.bytes.length) (hb : Holds b items) :
    Exactly (splitTurn text pos s l b) (s - pos ≤ 2 ^ 30 ∧ (cutOff text.bytes pos s l items).length ≤ 2 ^ 30)
      fun b => Holds b (cutOff text.bytes pos s l items) := by
  have hlen := length_slice hps hs
  unfold splitTurn cutOff
  refine (substrTo_exactly hps hs).bind fun piece hp => ?_
  have hpush := pushPiece_exactly hb piece
  have hiff : 0 < piece.length ↔ pos < s := by
    rw [hp, hlen]
    omega
  simp only [hiff] at hpush
  rw [hp] at hpush
  rw [hp]
  exact hpush

theorem splitTail_exactly (text : StrBytes) {b : Buffer (List UInt8)} {items : List (List UInt8)}
    (hstop : stop ≤ text.bytes.length + 1) (hint : stop < 2 ^ 31) (hb : Holds b items) :
    Exactly (splitTail text stop b)
      (text.bytes.length - stop ≤ 2 ^ 30 ∧ (withTail text.bytes stop items).length ≤ 2 ^ 30)
      fun b => Holds b (withTail text.bytes stop items) := by
  unfold splitTail withTail
  by_cases hle : stop ≤ text.bytes.length
  · rw [if_pos hle]
    refine (substrTo_end hstop hint).bind fun tail ht => ?_
    have hpush := pushPiece_exactly hb tail
    have hiff : 0 < tail.length ↔ stop < text.bytes.length := by
      rw [ht, List.length_drop]
      omega
    simp only [hiff] at hpush
    rw [ht] at hpush
    rw [ht]
    exact hpush
  · rw [if_neg hle, if_neg (by omega)]
    refine (Exactly.ok (P := fun b => Holds b items) hb).congr (iff_of_true trivial ⟨by omega, ?_⟩)
    rw [← hb.1]
    exact hb.2.length

/-! The pieces are fewer than the bytes. -/

theorem length_cutOff_le (text : List UInt8) (pos s l : ℕ) (t : List (List UInt8)) :
    t.length ≤ (cutOff text pos s l t).length := by
  unfold cutOff
  grind

theorem length_turns_cutOff_le (text : List UInt8) (pos : ℕ) (ms : List (ℕ × ℕ)) (t : List (List UInt8)) :
    t.length ≤ (turns (cutOff text) pos ms t).length := by
  induction ms generalizing pos t with
  | nil => exact Nat.le_refl _
  | cons m ms ih => exact (length_cutOff_le text pos m.1 m.2 t).trans (ih _ _)

theorem length_withTail_le (text : List UInt8) (stop : ℕ) (t : List (List UInt8)) :
    t.length ≤ (withTail text stop t).length := by
  unfold withTail
  grind

/-- Between two pieces there is a byte at least, that of a match or the one that an empty match steps over. -/
theorem Rounds.pieces_le (hin : Inside exec text.length) (h : Rounds exec text.length pos ms stop)
    (hpos : pos ≤ text.length + 1) (t : List (List UInt8)) :
    2 * (withTail text stop (turns (cutOff text) pos ms t)).length + pos ≤ 2 * t.length + text.length + 1 := by
  induction h generalizing t with
  | none hle _ =>
    unfold turns withTail
    grind
  | past hlt =>
    unfold turns withTail
    grind
  | @turn pos s l stop ms hle hsome _ ih =>
    obtain ⟨hps, hsl⟩ := hin _ _ _ hle hsome
    have hnext := lt_nextPos (l := l) (Nat.le_refl s)
    have hrest := ih (nextPos_le hsl) (cutOff text pos s l t)
    have hcut : 2 * (cutOff text pos s l t).length + pos ≤ 2 * t.length + s + 1 := by
      unfold cutOff
      grind
    unfold turns
    omega

theorem Rounds.within_cutOff (h : Rounds exec text.length pos ms stop) {t : List (List UInt8)}
    (hroom : (turns (cutOff text) pos ms t).length ≤ 2 ^ 30) :
    Within (fun pos s l t => s - pos ≤ 2 ^ 30 ∧ (cutOff text pos s l t).length ≤ 2 ^ 30) (cutOff text) pos ms t ∧
        text.length - stop ≤ 2 ^ 30 ↔
      (∀ n ∈ stretches text.length pos ms, n ≤ 2 ^ 30) ∧ ∀ m ∈ ms, nextPos m.1 m.2 < 2 ^ 31 := by
  induction h generalizing t with
  | none _ _ =>
    unfold Within stretches
    grind
  | past _ =>
    unfold Within stretches
    grind
  | @turn pos s l stop ms _ _ _ ih =>
    have hle := length_turns_cutOff_le text (nextPos s l) ms (cutOff text pos s l t)
    have hrest := ih hroom
    have hfits : (cutOff text pos s l t).length ≤ 2 ^ 30 := hle.trans hroom
    unfold Within stretches
    rw [List.forall_mem_cons, List.forall_mem_cons]
    constructor
    · rintro ⟨hw, htail⟩
      obtain ⟨hstretch, hints⟩ := hrest.1 ⟨hw.2, htail⟩
      exact ⟨⟨hw.1.1.1, hstretch⟩, hw.1.2, hints⟩
    · rintro ⟨⟨hs, hstretch⟩, hint, hints⟩
      obtain ⟨hw, htail⟩ := hrest.2 ⟨hstretch, hints⟩
      exact ⟨⟨⟨⟨hs, hfits⟩, hint⟩, hw⟩, htail⟩

/-- What `split` returns, and that it does so exactly if the stretches and the cursors fit. -/
theorem split_exactly (text : StrVar) (hin : Inside exec text.bytes.length)
    (h : Rounds exec text.bytes.length 0 ms stop) :
    Exactly (split (some exec) text)
      (text.HasRoom ∧ (∀ n ∈ stretches text.bytes.length 0 ms, n ≤ 2 ^ 30) ∧ ∀ m ∈ ms, nextPos m.1 m.2 < 2 ^ 31)
      (· = withTail text.bytes stop (turns (cutOff text.bytes) 0 ms [])) := by
  have hfits := text.fits
  have hpieces := h.pieces_le hin (Nat.zero_le _) []
  have hle := length_withTail_le text.bytes stop (turns (cutOff text.bytes) 0 ms [])
  have hroom : (withTail text.bytes stop (turns (cutOff text.bytes) 0 ms [])).length ≤ 2 ^ 30 := by
    rw [List.length_nil] at hpieces
    omega
  have hloop := h.loop (splitTurn text.toStrBytes) (cutOff text.bytes) Holds
    (fun pos s l t => s - pos ≤ 2 ^ 30 ∧ (cutOff text.bytes pos s l t).length ≤ 2 ^ 30)
    (fun pos s l b items hps hsl hb => splitTurn_exactly text.toStrBytes l hps (Nat.le_of_add_right_le hsl) hb) hin
    (a := Buffer.empty) (t := []) ⟨rfl, roomy_empty⟩ (Nat.lt_succ_self _) (Nat.succ_pos _)
  unfold split
  refine text.cStr_exactly.bind fun _ _ => ?_
  refine (hloop.and_cond.bind (d := text.bytes.length - stop ≤ 2 ^ 30) fun x hx => ?_).congr
    (h.within_cutOff (hle.trans hroom))
  obtain ⟨⟨hstop, hresult⟩, hwithin⟩ := hx
  have hlt := h.stop_lt (by norm_num) hwithin.ints
  dsimp only
  rw [hstop]
  refine ((splitTail_exactly text.toStrBytes (h.stop_le hin (Nat.zero_le _)) hlt hresult).bind (d := True)
    fun b hb => ?_).congr ?_
  · rw [← hb.1]
    exact .of_eq rfl
  · rw [and_true]
    exact and_iff_left hroom

/-! The bytes that are lost. -/

def lost (tlen : ℕ) (m : ℕ × ℕ) : Bool := decide (m.2 = 0) && decide (m.1 < tlen)

theorem totalLength_snoc (pieces : List (List UInt8)) (b : List UInt8) :
    totalLength (pieces ++ [b]) = totalLength pieces + b.length := by
  unfold totalLength
  grind

theorem totalLength_cutOff {s : ℕ} (l : ℕ) (hps : pos ≤ s) (hs : s ≤ text.length) (result : List (List UInt8)) :
    totalLength (cutOff text pos s l result) = totalLength result + (s - pos) := by
  unfold cutOff
  grind [length_slice, totalLength_snoc]

theorem totalLength_withTail (stop : ℕ) (result : List (List UInt8)) :
    totalLength (withTail text stop result) = totalLength result + (text.length - stop) := by
  unfold withTail
  grind [List.length_drop, totalLength_snoc]

theorem Rounds.count (hin : Inside exec text.length) (h : Rounds exec text.length pos ms stop)
    (result : List (List UInt8)) :
    totalLength (withTail text stop (turns (cutOff text) pos ms result)) + matchedLength ms +
      ms.countP (lost text.length) = totalLength result + (text.length - pos) := by
  induction h generalizing result with
  | none _ _ => exact totalLength_withTail _ result
  | past _ => exact totalLength_withTail _ result
  | @turn pos s l stop ms hle hsome _ ih =>
    obtain ⟨hps, hsl⟩ := hin _ _ _ hle hsome
    have hrest := ih (cutOff text pos s l result)
    rw [totalLength_cutOff l hps (by omega)] at hrest
    unfold turns
    have hsum : matchedLength ((s, l) :: ms) = l + matchedLength ms := rfl
    rw [hsum, List.countP_cons]
    unfold nextPos at hrest ⊢
    unfold lost at hrest ⊢
    dsimp only at hrest ⊢
    by_cases hl : l = 0
    · grind
    · grind

def pieceOf (b : List UInt8) : List Part := if 0 < b.length then [.piece b] else []

theorem pieceOf_bytes (b : List UInt8) : (pieceOf b).flatMap Part.bytes = b := by
  unfold pieceOf
  split
  · exact List.append_nil b
  grind

theorem separatorsOf_pieceOf (o : ℕ) (b : List UInt8) (ps : List Part) :
    separatorsOf o (pieceOf b ++ ps) = separatorsOf (o + b.length) ps := by
  unfold pieceOf
  split
  · rfl
  grind

theorem cutOff_eq {s l : ℕ} (hps : pos ≤ s) (hs : s ≤ text.length) (result : List (List UInt8)) :
    cutOff text pos s l result = result ++ piecesOf (pieceOf (slice text pos s)) := by
  have hlen := length_slice hps hs
  unfold cutOff pieceOf
  rw [hlen]
  by_cases hlt : pos < s
  · rw [if_pos hlt, if_pos (by omega)]
    rfl
  · rw [if_neg hlt, if_neg (by omega)]
    exact (List.append_nil result).symm

theorem withTail_eq (stop : ℕ) (result : List (List UInt8)) :
    withTail text stop result = result ++ piecesOf (pieceOf (text.drop stop)) := by
  unfold withTail pieceOf
  rw [List.length_drop]
  by_cases hlt : stop < text.length
  · rw [if_pos hlt, if_pos (by omega)]
    rfl
  · rw [if_neg hlt, if_neg (by omega)]
    exact (List.append_nil result).symm

theorem Rounds.parts (hin : Inside exec text.length) (h : Rounds exec text.length pos ms stop)
    (hkeep : ∀ m ∈ ms, m.2 = 0 → m.1 = text.length) (result : List (List UInt8)) :
    ∃ parts : List Part, parts.flatMap Part.bytes = text.drop pos ∧ separatorsOf pos parts = ms ∧
      withTail text stop (turns (cutOff text) pos ms result) = result ++ piecesOf parts := by
  induction h generalizing result with
  -- no match, or the end passed: the rest of the text is the last piece
  | @none pos _ _ =>
    refine ⟨pieceOf (text.drop pos), pieceOf_bytes _, ?_, withTail_eq pos result⟩
    have hsep := separatorsOf_pieceOf pos (text.drop pos) []
    rwa [List.append_nil] at hsep
  | @past pos _ =>
    refine ⟨pieceOf (text.drop pos), pieceOf_bytes _, ?_, withTail_eq pos result⟩
    have hsep := separatorsOf_pieceOf pos (text.drop pos) []
    rwa [List.append_nil] at hsep
  | @turn pos s l stop ms hle hsome hrounds ih =>
    obtain ⟨hps, hsl⟩ := hin _ _ _ hle hsome
    obtain ⟨rest, hbytes, hseps, hpieces⟩ :=
      ih (fun m hm => hkeep m (List.mem_cons_of_mem _ hm)) (cutOff text pos s l result)
    have hgap : pos + (slice text pos s).length = s := by
      rw [length_slice hps (by omega)]
      omega
    by_cases hl : l = 0
    · -- an empty match at the end of the text is the last one
      subst hl
      have hs : s = text.length := hkeep _ (List.mem_cons_self ..) rfl
      subst hs
      have hlast : ms = [] ∧ stop = text.length + 1 := by
        cases hrounds with
        | none hle' _ => exact absurd hle' (Nat.not_succ_le_self _)
        | past _ => exact ⟨rfl, rfl⟩
        | turn hle' _ _ => exact absurd hle' (Nat.not_succ_le_self _)
      obtain ⟨rfl, rfl⟩ := hlast
      refine ⟨pieceOf (slice text pos text.length) ++ [.separator []], ?_, ?_, ?_⟩
      · rw [List.flatMap_append, pieceOf_bytes, slice_end]
        exact List.append_nil _
      · rw [separatorsOf_pieceOf, hgap]
        rfl
      · show withTail text (text.length + 1) (cutOff text pos text.length 0 result) = _
        rw [withTail_eq, List.drop_eq_nil_of_le (Nat.le_succ _), cutOff_eq hps (by omega), piecesOf_append, List.append_assoc]
        rfl
    · have hnext : nextPos s l = s + l := if_neg hl
      rw [hnext] at hbytes hseps
      refine ⟨pieceOf (slice text pos s) ++ .separator (slice text s (s + l)) :: rest, ?_, ?_, ?_⟩
      · rw [List.flatMap_append, pieceOf_bytes, List.flatMap_cons, hbytes]
        show slice text pos s ++ (slice text s (s + l) ++ text.drop (s + l)) = _
        rw [slice_drop (Nat.le_add_right s l), slice_drop hps]
      · rw [separatorsOf_pieceOf, hgap]
        unfold separatorsOf
        rw [length_slice (Nat.le_add_right s l) hsl, Nat.add_sub_cancel_left, hseps]
      · unfold turns
        rw [hpieces, cutOff_eq hps (by omega), piecesOf_append, List.append_assoc]
        rfl

theorem Tiled.keeps {pieces : List (List UInt8)} (h : Tiled text pieces ms) (happ : Apart text.length 0 ms)
    (hcount : totalLength pieces + matchedLength ms + ms.countP (lost text.length) = text.length) :
    ∀ m ∈ ms, m.2 = 0 → m.1 = text.length := by
  obtain ⟨parts, hbytes, rfl, rfl⟩ := h
  have hlength := length_parts 0 parts
  rw [hbytes] at hlength
  have hnone : (separatorsOf 0 parts).countP (lost text.length) = 0 := by omega
  intro m hm hzero
  have hle : m.1 ≤ text.length := happ.start_le m hm
  have hkept := List.countP_eq_zero.1 hnone m hm
  unfold lost at hkept
  grind

/-- The pieces of `split`, with the matches between them, are the text, if and only if no match is empty in front of the
end of the text, and the stretches that are copied fit: behind an empty match the search goes on one byte further, and
that byte is in no piece. -/
theorem split_tiles_iff (exec : ℕ → Option (ℕ × ℕ)) (text : StrVar) (hin : Inside exec text.bytes.length) :
    ∃ ms stop, Rounds exec text.bytes.length 0 ms stop ∧
      ((∃ pieces, split (some exec) text = .ok pieces ∧ Tiled text.bytes pieces ms) ↔
        (∀ m ∈ ms, m.2 = 0 → m.1 = text.bytes.length) ∧ text.HasRoom ∧
          (∀ n ∈ stretches text.bytes.length 0 ms, n ≤ 2 ^ 30) ∧ ∀ m ∈ ms, nextPos m.1 m.2 < 2 ^ 31) := by
  obtain ⟨ms, stop, h⟩ := exists_rounds hin 0
  have hsplit := split_exactly _ hin h
  refine ⟨ms, stop, h, ?_, ?_⟩
  · rintro ⟨pieces, hpieces, htiled⟩
    refine ⟨?_, hsplit.only pieces hpieces⟩
    rw [hsplit.result hpieces] at htiled
    have hcount := h.count hin []
    rw [Nat.sub_zero] at hcount
    exact htiled.keeps (h.apart hin (Nat.le_refl 0) (Nat.zero_le _)) (hcount.trans (Nat.zero_add _))
  · rintro ⟨hkeep, hfits⟩
    obtain ⟨parts, hbytes, hseps, hparts⟩ := h.parts hin hkeep []
    exact ⟨_, hsplit.eq_iff.2 hfits, parts, hbytes, hparts.symm, hseps⟩

theorem split_tiles_iff_star : ∃ ms stop, Rounds starMatches 3 0 ms stop ∧
    ((∃ pieces, split (some starMatches) ⟨⟨[97, 120, 98], by decide⟩, 0, by decide⟩ = .ok pieces ∧
        Tiled [97, 120, 98] pieces ms) ↔
      (∀ m ∈ ms, m.2 = 0 → m.1 = 3) ∧ StrVar.HasRoom ⟨⟨[97, 120, 98], by decide⟩, 0, by decide⟩ ∧
        (∀ n ∈ stretches 3 0 ms, n ≤ 2 ^ 30) ∧ ∀ m ∈ ms, nextPos m.1 m.2 < 2 ^ 31) :=
  split_tiles_iff starMatches ⟨⟨[97, 120, 98], by decide⟩, 0, by decide⟩ starMatches_inside

/-- `x*` on `abc`: every match is empty, and no piece is left. -/
def emptyMatches (pos : ℕ) : Option (ℕ × ℕ) := if pos ≤ 3 then some (pos, 0) else none

theorem emptyMatches_rounds : Rounds emptyMatches 3 0 [(0, 0), (1, 0), (2, 0), (3, 0)] 4 := by
  refine .turn (by decide) rfl (.turn (by decide) rfl (.turn (by decide) rfl (.turn (by decide) rfl ?_)))
  exact .past (by decide)

theorem split_loses_text : Inside emptyMatches 3 ∧ Rounds emptyMatches 3 0 [(0, 0), (1, 0), (2, 0), (3, 0)] 4 ∧
    split (some emptyMatches) ⟨⟨[97, 98, 99], by decide⟩, 0, by decide⟩ = .ok [] ∧
    ¬Tiled [97, 98, 99] [] [(0, 0), (1, 0), (2, 0), (3, 0)] := by
  have hin : Inside emptyMatches 3 := by
    intro pos s l hle h
    unfold emptyMatches at h
    rw [if_pos hle] at h
    cases h
    exact ⟨Nat.le_refl _, hle⟩
  refine ⟨hin, emptyMatches_rounds, ?_, ?_⟩
  · have hsplit := split_exactly ⟨⟨[97, 98, 99], by decide⟩, 0, by decide⟩ hin emptyMatches_rounds
    exact hsplit.eq_iff.2 ⟨.inl ⟨rfl, by decide⟩, by decide, by decide⟩
  · rintro ⟨parts, hbytes, hpieces, hseps⟩
    have hlength := length_parts 0 parts
    rw [hbytes, hpieces, hseps] at hlength
    exact absurd hlength (by decide)

end LsLang.Text
