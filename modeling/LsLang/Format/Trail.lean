import LsLang.Scan.Scanner
import Mathlib.Algebra.Order.BigOperators.Group.List

/-! The formatter's table of trailing comments (`format.c`). Of what `ls_format_source` emits, only the
entries of that table are kept. -/

namespace LsLang.Format

open LsLang.Core LsLang.Scan

structure DTok where
  type : TokenType
  start : ℕ
  length : ℤ

/-- The loop that collects the raw tokens: no list if one of them is an error. -/
def rawTokens (platform : Str) : ℕ → Scanner → Option (List Token)
  | 0, _ => none
  | n + 1, s =>
    match s.next platform with
    | none => none
    | some (t, s) =>
      if t.type = .eof then some [t]
      else if t.type = .error then none
      else (rawTokens platform n s).map (t :: ·)

def atom (first last : Token) : DTok :=
  ⟨.stringLit, first.start.pos, last.start.pos + last.length - first.start.pos⟩

/-- The tokens with every f-string as one. In an f-string its first token, the one passed last and the
depth are known; one that does not end takes all tokens. -/
def collapse : Option (Token × Token × ℕ) → List Token → List DTok
  | none, [] => []
  | some (first, last, _), [] => [atom first last]
  | none, t :: ts =>
    if t.type = .fstringStart then collapse (some (t, t, 1)) ts
    else ⟨t.type, t.start.pos, t.length⟩ :: collapse none ts
  | some (first, _, depth), t :: ts =>
    if t.type = .fstringStart then collapse (some (first, t, depth + 1)) ts
    else if t.type = .fstringEnd then
      if depth = 1 then atom first t :: collapse none ts
      else collapse (some (first, t, depth - 1)) ts
    else collapse (some (first, t, depth)) ts

/-- `started` and `ntrail` -/
structure Trail where
  started : Bool
  ntrail : ℕ

/-- A comment behind `pendingNl` newlines: an entry, or a line of its own. -/
def Trail.comment (s : Trail) (pendingNl : ℕ) : Trail :=
  if pendingNl = 0 ∧ s.started = true then { s with ntrail := s.ntrail + 1 }
  else { s with started := true }

mutual

def gapLoop : Str → ℕ → Trail → Trail
  | [], _, s => s
  | c :: r, nl, s =>
    if c = ch '\n' then gapLoop r (nl + 1) s
    else if c = ch ' ' ∨ c = ch '\t' ∨ c = ch '\r' then gapLoop r nl s
    else if c = ch '/' then
      match r with
      | [] => s
      | d :: r' =>
        if d = ch '/' then lineLoop r' (s.comment nl)
        else if d = ch '*' then blockLoop 0 r' (s.comment nl)
        else gapLoop (d :: r') nl s
    else gapLoop r nl s

def lineLoop : Str → Trail → Trail
  | [], s => s
  | c :: r, s => if c = ch '\n' then gapLoop r 1 s else lineLoop r s

/-- In a block comment with `n` others around it. -/
def blockLoop : ℕ → Str → Trail → Trail
  | _, [], s => s
  | n, c :: r, s =>
    match r with
    | [] => s
    | d :: r' =>
      if c = ch '/' ∧ d = ch '*' then blockLoop (n + 1) r' s
      else if c = ch '*' ∧ d = ch '/' then
        match n with
        | 0 => gapLoop r' 0 s
        | n + 1 => blockLoop n r' s
      else blockLoop n (d :: r') s

end

/-- The bytes from `gs` up to `ge`. -/
def gap (source : Str) (gs ge : ℕ) : Str := (source.drop gs).take (ge - gs)

def trailLoop (source : Str) : List DTok → ℕ → Trail → Trail
  | [], _, s => s
  | d :: ds, gs, s =>
    let s := gapLoop (gap source gs d.start) 0 s
    if d.type = .eof then s
    else trailLoop source ds (d.start + d.length).toNat { s with started := true }

/-- `ntrail`, at the end of `ls_format_source`. -/
def ntrail (source : Str) (raw : List Token) : ℕ :=
  (trailLoop source (collapse none raw) 0 ⟨false, 0⟩).ntrail

/-- The entries that `trail` has room for. -/
def trailCap (raw : List Token) : ℕ := raw.length + 8

/-! The comments of a source. -/

inductive GapItem
  | newline
  | comment
  deriving DecidableEq

mutual

def items : Str → List GapItem
  | [] => []
  | c :: r =>
    if c = ch '\n' then .newline :: items r
    else if c = ch '/' then
      match r with
      | [] => []
      | d :: r' =>
        if d = ch '/' then .comment :: behindLine r'
        else if d = ch '*' then .comment :: behindBlock 0 r'
        else items (d :: r')
    else items r

def behindLine : Str → List GapItem
  | [] => []
  | c :: r => if c = ch '\n' then .newline :: items r else behindLine r

def behindBlock : ℕ → Str → List GapItem
  | _, [] => []
  | n, c :: r =>
    match r with
    | [] => []
    | d :: r' =>
      if c = ch '/' ∧ d = ch '*' then behindBlock (n + 1) r'
      else if c = ch '*' ∧ d = ch '/' then
        match n with
        | 0 => items r'
        | n + 1 => behindBlock n r'
      else behindBlock n (d :: r')

end

def onLine : Bool → List GapItem → ℕ
  | _, [] => 0
  | _, .newline :: is => onLine false is
  | front, .comment :: is => (if front then 1 else 0) + onLine true is

def gaps (source : Str) : List DTok → ℕ → List Str
  | [], _ => []
  | d :: ds, gs =>
    gap source gs d.start ::
      if d.type = .eof then [] else gaps source ds (d.start + d.length).toNat

def behindCode (source : Str) (raw : List Token) : ℕ :=
  match gaps source (collapse none raw) 0 with
  | [] => 0
  | g :: gs => onLine false (items g) + (gs.map fun g => onLine true (items g)).sum

/-! The entries are these comments. -/

def atLineStart (nl : ℕ) (s : Trail) : Bool := decide (0 < nl) || !s.started

theorem Trail.comment_ntrail (s : Trail) (nl : ℕ) :
    (s.comment nl).ntrail = s.ntrail + if !atLineStart nl s then 1 else 0 := by
  unfold Trail.comment atLineStart
  grind

theorem Trail.comment_started (s : Trail) (nl : ℕ) : (s.comment nl).started = true := by
  unfold Trail.comment
  grind

mutual

theorem gapLoop_ntrail : ∀ (g : Str) (nl : ℕ) (s : Trail),
    (gapLoop g nl s).ntrail = s.ntrail + onLine (!atLineStart nl s) (items g)
  | [], nl, s => by
    rw [gapLoop, items, onLine]
    rfl
  | c :: r, nl, s => by
    rw [gapLoop.eq_def, items.eq_def]
    dsimp only
    by_cases hn : c = ch '\n'
    · rw [if_pos hn, if_pos hn, gapLoop_ntrail r, onLine]
      rfl
    rw [if_neg hn, if_neg hn]
    by_cases hb : c = ch ' ' ∨ c = ch '\t' ∨ c = ch '\r'
    · have hs : ¬ c = ch '/' := by grind
      rw [if_pos hb, if_neg hs, gapLoop_ntrail r]
    rw [if_neg hb]
    by_cases hs : c = ch '/'
    swap
    · rw [if_neg hs, if_neg hs, gapLoop_ntrail r]
    rw [if_pos hs, if_pos hs]
    match r with
    | [] => rfl
    | d :: r' =>
      dsimp only
      by_cases hd : d = ch '/'
      · rw [if_pos hd, if_pos hd, lineLoop_ntrail r' _ (s.comment_started nl), onLine,
          s.comment_ntrail nl, Nat.add_assoc]
      rw [if_neg hd, if_neg hd]
      by_cases hd' : d = ch '*'
      · rw [if_pos hd', if_pos hd', blockLoop_ntrail 0 r' _ (s.comment_started nl), onLine,
          s.comment_ntrail nl, Nat.add_assoc]
      · rw [if_neg hd', if_neg hd', gapLoop_ntrail (d :: r')]

theorem lineLoop_ntrail : ∀ (g : Str) (s : Trail), s.started = true →
    (lineLoop g s).ntrail = s.ntrail + onLine true (behindLine g)
  | [], s, _ => by
    rw [lineLoop, behindLine, onLine]
    rfl
  | c :: r, s, h => by
    rw [lineLoop, behindLine]
    by_cases hn : c = ch '\n'
    · rw [if_pos hn, if_pos hn, gapLoop_ntrail r, onLine]
      rfl
    · rw [if_neg hn, if_neg hn, lineLoop_ntrail r s h]

theorem blockLoop_ntrail : ∀ (n : ℕ) (g : Str) (s : Trail), s.started = true →
    (blockLoop n g s).ntrail = s.ntrail + onLine true (behindBlock n g)
  | n, [], s, _ => by
    rw [blockLoop, behindBlock, onLine]
    rfl
  | n, [c], s, _ => by
    rw [blockLoop.eq_def, behindBlock.eq_def]
    dsimp only
    rw [onLine]
    rfl
  | n, c :: d :: r, s, h => by
    rw [blockLoop.eq_def, behindBlock.eq_def]
    dsimp only
    by_cases ho : c = ch '/' ∧ d = ch '*'
    · rw [if_pos ho, if_pos ho, blockLoop_ntrail (n + 1) r s h]
    rw [if_neg ho, if_neg ho]
    by_cases hc : c = ch '*' ∧ d = ch '/'
    · rw [if_pos hc, if_pos hc]
      match n with
      | 0 =>
        dsimp only
        rw [gapLoop_ntrail r, show atLineStart 0 s = false by simp [atLineStart, h]]
        rfl
      | n + 1 =>
        dsimp only
        rw [blockLoop_ntrail n r s h]
    · rw [if_neg hc, if_neg hc, blockLoop_ntrail n (d :: r) s h]

end

theorem trailLoop_ntrail (source : Str) (ds : List DTok) (gs : ℕ) (s : Trail) (h : s.started = true) :
    (trailLoop source ds gs s).ntrail =
      s.ntrail + ((gaps source ds gs).map fun g => onLine true (items g)).sum := by
  induction ds generalizing gs s with
  | nil => rfl
  | cons d ds ih =>
    have hfront : atLineStart 0 s = false := by simp [atLineStart, h]
    rw [trailLoop, gaps, List.map_cons, List.sum_cons]
    by_cases he : d.type = .eof
    · rw [if_pos he, if_pos he, gapLoop_ntrail, hfront]
      rfl
    · rw [if_neg he, if_neg he, ih _ _ rfl, gapLoop_ntrail, hfront, Nat.add_assoc]
      rfl

theorem ntrail_eq (source : Str) (raw : List Token) : ntrail source raw = behindCode source raw := by
  unfold ntrail behindCode
  cases collapse none raw with
  | nil => rfl
  | cons d ds =>
    rw [trailLoop, gaps]
    by_cases he : d.type = .eof
    · rw [if_pos he, if_pos he, gapLoop_ntrail]
      simp [atLineStart]
    · rw [if_neg he, if_neg he, trailLoop_ntrail _ _ _ _ rfl, gapLoop_ntrail]
      simp [atLineStart]

/-- The table is large enough if and only if the comments that share a line with what is in front of
them are at most eight more than the tokens. -/
theorem trail_fits_iff (source : Str) (raw : List Token) :
    ntrail source raw ≤ trailCap raw ↔ behindCode source raw ≤ raw.length + 8 := by
  rw [ntrail_eq]
  rfl

def crowdedLine : Source where
  bytes := ch 'x' :: (List.replicate 11 (lit ['/', '*', '*', '/'])).flatten
  noNul := by decide

theorem trail_overflows : ∃ raw, rawTokens [] 3 (init crowdedLine) = some raw ∧ raw.length = 2 ∧
    ntrail crowdedLine.bytes raw = 11 ∧ ¬ ntrail crowdedLine.bytes raw ≤ trailCap raw :=
  ⟨_, rfl, rfl, rfl, by decide⟩

/-! One comment behind each token leaves room. -/

theorem length_collapse (raw : List Token) (open? : Option (Token × Token × ℕ)) :
    (collapse open? raw).length ≤ raw.length + open?.toList.length := by
  induction raw generalizing open? with
  | nil =>
    rcases open? with _ | ⟨first, last, depth⟩
    · exact Nat.le_refl _
    · exact Nat.le_refl _
  | cons t ts ih =>
    have hnone := ih none
    have hsome : ∀ x, (collapse (some x) ts).length ≤ ts.length + 1 := fun x => ih (some x)
    rcases open? with _ | ⟨first, last, depth⟩
    · rw [collapse]
      split
      · exact hsome _
      · exact Nat.succ_le_succ hnone
    · rw [collapse]
      split
      · exact (hsome _).trans (Nat.le_succ _)
      split
      · split
        · exact (Nat.succ_le_succ hnone).trans (Nat.le_succ _)
        · exact (hsome _).trans (Nat.le_succ _)
      · exact (hsome _).trans (Nat.le_succ _)

theorem length_gaps (source : Str) (ds : List DTok) (gs : ℕ) : (gaps source ds gs).length ≤ ds.length := by
  induction ds generalizing gs with
  | nil => exact Nat.le_refl _
  | cons d ds ih =>
    rw [gaps, List.length_cons, List.length_cons]
    split
    · exact Nat.succ_le_succ (Nat.zero_le _)
    · exact Nat.succ_le_succ (ih _)

theorem onLine_false_le (is : List GapItem) : onLine false is ≤ onLine true is := by
  cases is with
  | nil => exact Nat.le_refl _
  | cons i is =>
    cases i with
    | newline => exact Nat.le_refl _
    | comment => exact Nat.add_le_add_right (Nat.zero_le 1) _

theorem ntrail_le {source : Str} {raw : List Token}
    (h : ∀ g ∈ gaps source (collapse none raw) 0, onLine true (items g) ≤ 1) : ntrail source raw ≤ trailCap raw := by
  have hgaps : (gaps source (collapse none raw) 0).length ≤ raw.length :=
    (length_gaps _ _ _).trans (length_collapse raw none)
  have hsum : ((gaps source (collapse none raw) 0).map fun g => onLine true (items g)).sum ≤ raw.length := by
    refine le_trans (List.sum_le_card_nsmul _ 1 fun n hn => ?_) (by simpa using hgaps)
    obtain ⟨g, hg, rfl⟩ := List.mem_map.1 hn
    exact h g hg
  have hbehind : behindCode source raw ≤ ((gaps source (collapse none raw) 0).map fun g => onLine true (items g)).sum := by
    unfold behindCode
    cases gaps source (collapse none raw) 0 with
    | nil => exact Nat.zero_le _
    | cons g gs => exact Nat.add_le_add_right (onLine_false_le _) _
  rw [ntrail_eq]
  exact (hbehind.trans hsum).trans (Nat.le_add_right _ 8)

end LsLang.Format
