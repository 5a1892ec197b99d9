import LsLang.Lib.Conditional
import LsLang.Scan.Contained

/-! The scanner as a selector: the source is a text with conditional blocks, and the calls of
`scanner_next` return the tokens of its active regions. -/

namespace LsLang.Scan

open LsLang.Core Conditional

namespace Lexer

/-- A directive, at its `#`. One that is incomplete or unknown is an error. -/
def directive (s : Lexer) : Item Token Str × Lexer :=
  let malformed (s : Lexer) := Item.piece (s.errorToken "malformed preprocessor directive")
  let (word, s) := (s.advance 1).readDirectiveWord
  if word = [] then (malformed s, s)
  else if word = lit ['i', 'f'] then
    let (arg, s) := s.skipInlineWs.readDirectiveWord
    (if arg = [] then malformed s else .cond arg, s)
  else if word = lit ['e', 'l', 's', 'e'] then (.other, s)
  else if word = lit ['e', 'n', 'd'] ∨ word = lit ['e', 'n', 'd', 'i', 'f'] then (.close, s)
  else
    let s := s.advanceWhile (· != ch '\n')
    (malformed s, s)

def item (s : Lexer) : Item Token Str × Lexer :=
  let (closed, s) := if s.inText then (true, s) else s.skipWhitespace
  if !closed then (.piece (s.errorToken "unterminated block comment"), s)
  else if !s.inFstring && s.peek == ch '#' then s.directive
  else
    let (t, s) := s.nextInner
    (.piece t, s)

inductive Reads : Lexer → List (Item Token Str) → Prop
  | eof {s u : Lexer} {t : Token} : s.item = (.piece t, u) → t.type = .eof → Reads s []
  | piece {s u : Lexer} {t : Token} {ps : List (Item Token Str)} : s.item = (.piece t, u) →
      t.type ≠ .eof → Reads u ps → Reads s (.piece t :: ps)
  | mark {s u : Lexer} {i : Item Token Str} {ps : List (Item Token Str)} : s.item = (i, u) →
      (∀ t, i ≠ .piece t) → Reads u ps → Reads s (i :: ps)

/-- The items, if at most `n` are in front of the end. -/
def readItems : Nat → Lexer → Option (List (Item Token Str))
  | 0, _ => none
  | n + 1, s =>
    match s.item with
    | (.piece t, u) =>
      if t.type = .eof then some [] else (readItems n u).map (.piece t :: ·)
    | (i, u) => (readItems n u).map (i :: ·)

theorem reads_of_readItems {n : Nat} {s : Lexer} {ps : List (Item Token Str)}
    (h : s.readItems n = some ps) : Reads s ps := by
  induction n generalizing s ps with
  | zero => cases h
  | succ n ih =>
    unfold readItems at h
    split at h
    · next t u hi =>
      split at h
      · next heof =>
        cases h
        exact .eof hi heof
      · next hne =>
        obtain ⟨qs, hq, rfl⟩ := Option.map_eq_some_iff.1 h
        exact .piece hi hne (ih hq)
    · next i u hm hi =>
      obtain ⟨qs, hq, rfl⟩ := Option.map_eq_some_iff.1 h
      exact .mark hi hm (ih hq)

end Lexer

namespace Scanner

def emitting : List CondFrame → Bool
  | [] => true
  | top :: _ => top.active

variable (platform : Str)

def mark : Item Token Str → List CondFrame → Option (List CondFrame)
  | .piece _, frames => some frames
  | .cond arg, frames =>
    if maxCond ≤ frames.length then none
    else
      let active := emitting frames && arg == platform
      some (⟨active, emitting frames, active⟩ :: frames)
  | .other, [] => none
  | .other, top :: frames =>
    let active := top.parentActive && !top.branchTaken
    some ({ top with active, branchTaken := top.branchTaken || active } :: frames)
  | .close, [] => none
  | .close, _ :: frames => some frames

open Lexer

variable {platform}

theorem openCond_eq {arg : Str} (h : arg ≠ []) (s : Scanner) : openCond platform arg s =
    ((mark platform (.cond arg) s.condStack).isNone,
      { s with condStack := (mark platform (.cond arg) s.condStack).getD s.condStack }) := by
  have hmark : mark platform (.cond arg) s.condStack =
      if maxCond ≤ s.condStack.length then none
      else some (⟨emitting s.condStack && arg == platform, emitting s.condStack,
        emitting s.condStack && arg == platform⟩ :: s.condStack) := rfl
  unfold openCond
  rw [if_neg h, hmark]
  split <;> rfl

theorem elseCond_eq (s : Scanner) : s.elseCond =
    ((mark platform .other s.condStack).isNone,
      { s with condStack := (mark platform .other s.condStack).getD s.condStack }) := by
  unfold elseCond mark
  obtain ⟨l, frames⟩ := s
  cases frames <;> rfl

theorem endCond_eq (s : Scanner) : s.endCond =
    ((mark platform .close s.condStack).isNone,
      { s with condStack := (mark platform .close s.condStack).getD s.condStack }) := by
  unfold endCond mark
  obtain ⟨l, frames⟩ := s
  cases frames <;> rfl

theorem processDirective_eq (s : Scanner) : s.processDirective platform =
    match s.toLexer.directive with
    | (.piece _, l) => (true, { s with toLexer := l })
    | (i, l) => ((mark platform i s.condStack).isNone,
        ⟨l, (mark platform i s.condStack).getD s.condStack⟩) := by
  unfold processDirective directive
  dsimp only
  split
  · rfl
  · split
    · by_cases ha : (s.advance 1).readDirectiveWord.2.skipInlineWs.readDirectiveWord.1 = []
      · rw [if_pos ha, openCond, if_pos ha]
      · rw [if_neg ha]
        exact openCond_eq ha _
    · split
      · exact elseCond_eq _
      · split
        · exact endCond_eq _
        · rfl

theorem directive_piece {s u : Lexer} {t : Token} (h : s.directive = (.piece t, u)) :
    t = u.errorToken "malformed preprocessor directive" := by
  unfold directive at h
  grind

theorem turn_piece (platform : Str) {s : Scanner} {t : Token} {u : Lexer}
    (h : s.toLexer.item = (.piece t, u)) : s.turn platform = (if emitting s.condStack || t.type = .eof || t.type = .error then some t
      else none, ⟨u, s.condStack⟩) := by
  unfold item at h
  unfold turn
  generalize (if s.inText then (true, s.toLexer) else s.skipWhitespace) = r at h ⊢
  dsimp only at h ⊢
  split
  · next hc =>
    rw [if_pos hc] at h
    cases h
    rw [if_pos (by simp [errorToken])]
  · next hc =>
    rw [if_neg hc] at h
    split
    · next hd =>
      rw [if_pos hd] at h
      rw [processDirective_eq, show (Scanner.toLexer ⟨r.2, s.condStack⟩).directive = _ from h]
      rw [directive_piece h, if_pos rfl, if_pos (by simp [errorToken])]
    · next hd =>
      rw [if_neg hd] at h
      cases h
      rfl

theorem turn_mark (platform : Str) {s : Scanner} {i : Item Token Str} {u : Lexer}
    (h : s.toLexer.item = (i, u)) (hi : ∀ t, i ≠ .piece t) : s.turn platform =
      (if (mark platform i s.condStack).isNone then
        some (u.errorToken "malformed preprocessor directive") else none,
        ⟨u, (mark platform i s.condStack).getD s.condStack⟩) := by
  unfold item at h
  unfold turn
  generalize (if s.inText then (true, s.toLexer) else s.skipWhitespace) = r at h ⊢
  dsimp only at h ⊢
  split
  · grind
  · next hc =>
    rw [if_neg hc] at h
    split
    · next hd =>
      rw [if_pos hd] at h
      grind [processDirective_eq]
    grind

variable (platform)

/-- The calls from `s` return the tokens `ts`, and then the end of file. -/
inductive Returns : Scanner → List Token → Prop
  | eof {s u : Scanner} {t : Token} : Call platform s t u → t.type = .eof → Returns s []
  | token {s u : Scanner} {t : Token} {ts : List Token} : Call platform s t u → t.type ≠ .eof →
      Returns u ts → Returns s (t :: ts)

inductive Outs : List CondFrame → List (Item Token Str) → List Token → Prop
  | nil {frames : List CondFrame} : Outs frames [] []
  | kept {frames : List CondFrame} {t : Token} {ps : List (Item Token Str)} {ts : List Token} :
      emitting frames = true ∨ t.type = .error → Outs frames ps ts →
      Outs frames (.piece t :: ps) (t :: ts)
  | dropped {frames : List CondFrame} {t : Token} {ps : List (Item Token Str)} {ts : List Token} :
      emitting frames = false → t.type ≠ .error → Outs frames ps ts →
      Outs frames (.piece t :: ps) ts
  | marked {frames frames' : List CondFrame} {i : Item Token Str} {ps : List (Item Token Str)}
      {ts : List Token} : (∀ t, i ≠ .piece t) → mark platform i frames = some frames' →
      Outs frames' ps ts → Outs frames (i :: ps) ts
  | malformed {frames : List CondFrame} {i : Item Token Str} {t : Token}
      {ps : List (Item Token Str)} {ts : List Token} : (∀ t, i ≠ .piece t) →
      mark platform i frames = none → t.type = .error → Outs frames ps ts →
      Outs frames (i :: ps) (t :: ts)

variable {platform}

theorem returns_none {s : Scanner} {ts : List Token} (h0 : 0 ∉ s.current.rest)
    (h : (s.turn platform).1 = none) (hr : Returns platform (s.turn platform).2 ts) :
    Returns platform s ts := by
  cases hr with
  | eof hc heof => exact .eof (call_none h0 h hc) heof
  | token hc hne hr => exact .token (call_none h0 h hc) hne hr

theorem returns_outs (platform : Str) {l : Lexer} {ps : List (Item Token Str)} (h : Reads l ps)
    (h0 : 0 ∉ l.current.rest) (frames : List CondFrame) :
    ∃ ts, Returns platform ⟨l, frames⟩ ts ∧ Outs platform frames ps ts := by
  induction h generalizing frames with
  | @eof l u t hi heof =>
    have ht := turn_piece platform (s := ⟨l, frames⟩) hi
    rw [if_pos (by simp [heof])] at ht
    exact ⟨[], .eof (call_ret (congrArg Prod.fst ht)) heof, .nil⟩
  | @piece l u t ps hi hne hr ih =>
    have ht := turn_piece platform (s := ⟨l, frames⟩) hi
    have h0' := turn_noNul platform (s := ⟨l, frames⟩) h0
    rw [ht] at h0'
    obtain ⟨ts, hts, ho⟩ := ih h0' frames
    by_cases hk : emitting frames = true ∨ t.type = .error
    · rw [if_pos (by simpa [hne] using hk)] at ht
      have hc := call_ret (congrArg Prod.fst ht)
      rw [ht] at hc
      exact ⟨t :: ts, .token hc hne hts, .kept hk ho⟩
    · rw [if_neg (by simpa [hne] using hk)] at ht
      rw [not_or, Bool.not_eq_true] at hk
      refine ⟨ts, returns_none h0 (congrArg Prod.fst ht) ?_, .dropped hk.1 hk.2 ho⟩
      rwa [ht]
  | @mark l u i ps hi hm hr ih =>
    have ht := turn_mark platform (s := ⟨l, frames⟩) hi hm
    have h0' := turn_noNul platform (s := ⟨l, frames⟩) h0
    rw [ht] at h0'
    obtain ⟨ts, hts, ho⟩ := ih h0' ((mark platform i frames).getD frames)
    cases hk : mark platform i frames with
    | none =>
      dsimp only at ht
      rw [hk, Option.isNone_none, if_pos rfl] at ht
      rw [hk] at hts ho
      have hc := call_ret (congrArg Prod.fst ht)
      rw [ht] at hc
      exact ⟨_ :: ts, .token hc (by simp [errorToken]) hts, .malformed hm hk rfl ho⟩
    | some frames' =>
      dsimp only at ht
      rw [hk, Option.isNone_some, if_neg Bool.false_ne_true] at ht
      rw [hk] at hts ho
      refine ⟨ts, returns_none h0 (congrArg Prod.fst ht) ?_, .marked hm hk ho⟩
      rwa [ht]

def ok (t : Token) : Bool := t.type != .error

theorem mark_cond {frames : List CondFrame} (arg : Str) (h : frames.length < maxCond) :
    mark platform (.cond arg) frames = some (⟨emitting frames && arg == platform,
      emitting frames, emitting frames && arg == platform⟩ :: frames) :=
  if_neg (Nat.not_le.2 h)

theorem Outs.cond_inv {frames : List CondFrame} {arg : Str} {ps : List (Item Token Str)}
    {ts : List Token} (h : Outs platform frames (.cond arg :: ps) ts)
    (hlen : frames.length < maxCond) :
    Outs platform (⟨emitting frames && arg == platform, emitting frames,
      emitting frames && arg == platform⟩ :: frames) ps ts := by
  cases h with
  | marked _ hm ho =>
    rw [mark_cond arg hlen] at hm
    cases hm
    exact ho
  | malformed _ hm =>
    rw [mark_cond arg hlen] at hm
    cases hm

theorem Outs.other_inv {top : CondFrame} {frames : List CondFrame} {ps : List (Item Token Str)}
    {ts : List Token} (h : Outs platform (top :: frames) (.other :: ps) ts) :
    Outs platform (⟨top.parentActive && !top.branchTaken, top.parentActive,
      top.branchTaken || (top.parentActive && !top.branchTaken)⟩ :: frames) ps ts := by
  cases h with
  | marked _ hm ho =>
    cases hm
    exact ho
  | malformed _ hm => cases hm

theorem Outs.close_inv {top : CondFrame} {frames : List CondFrame} {ps : List (Item Token Str)}
    {ts : List Token} (h : Outs platform (top :: frames) (.close :: ps) ts) :
    Outs platform frames ps ts := by
  cases h with
  | marked _ hm ho =>
    cases hm
    exact ho
  | malformed _ hm => cases hm

theorem outs_items (n : Text Token Str) {frames : List CondFrame} {ps : List (Item Token Str)}
    {ts : List Token} (hd : n.depth + frames.length ≤ maxCond)
    (h : Outs platform frames (n.items ++ ps) ts) :
    ∃ us vs, ts = us ++ vs ∧ Outs platform frames ps vs ∧
      us.filter ok = (n.choose (· == platform) (emitting frames)).filter ok := by
  induction n generalizing frames ps ts with
  | nil => exact ⟨[], ts, rfl, h, rfl⟩
  | piece t rest ih =>
    cases h with
    | kept hk ho =>
      obtain ⟨us, vs, rfl, hvs, hus⟩ := ih hd ho
      refine ⟨t :: us, vs, rfl, hvs, ?_⟩
      unfold Text.choose
      rw [List.filter_append, List.filter_cons, hus]
      -- an error is returned wherever it stands
      rcases hk with hk | hk
      · grind
      · have hok : ok t = false := by rw [ok, hk]; rfl
        grind
    | dropped hk _ ho =>
      obtain ⟨us, vs, rfl, hvs, hus⟩ := ih hd ho
      refine ⟨us, vs, rfl, hvs, ?_⟩
      unfold Text.choose
      grind
    | marked hi => exact absurd rfl (hi t)
    | malformed hi => exact absurd rfl (hi t)
  | block w body rest ihb ihr =>
    simp only [Text.depth] at hd
    have hlen : frames.length < maxCond := by omega
    simp only [Text.items, List.cons_append, List.append_assoc] at h
    obtain ⟨us, vs, rfl, hvs, hus⟩ := ihb (by grind) (h.cond_inv hlen)
    obtain ⟨us', vs', rfl, hvs', hus'⟩ := ihr (by omega) hvs.close_inv
    refine ⟨us ++ us', vs', (List.append_assoc _ _ _).symm, hvs', ?_⟩
    unfold Text.choose
    rw [List.filter_append, List.filter_append, hus, hus']
    rfl
  | branch w body other rest ihb iho ihr =>
    simp only [Text.depth] at hd
    have hlen : frames.length < maxCond := by omega
    simp only [Text.items, List.cons_append, List.append_assoc] at h
    obtain ⟨us, vs, rfl, hvs, hus⟩ := ihb (by grind) (h.cond_inv hlen)
    obtain ⟨us₁, vs₁, rfl, hvs₁, hus₁⟩ := iho (by grind) hvs.other_inv
    obtain ⟨us₂, vs₂, rfl, hvs₂, hus₂⟩ := ihr (by omega) hvs₁.close_inv
    refine ⟨us ++ (us₁ ++ us₂), vs₂, by grind, hvs₂, ?_⟩
    have hother : (emitting frames && !(emitting frames && w == platform)) =
        (emitting frames && !(w == platform)) := by grind
    unfold Text.choose
    rw [List.filter_append, List.filter_append, List.filter_append, List.filter_append, hus, hus₁,
      hus₂, ← hother]
    rfl

/-- Of the items, between `k` frames, one is an error or is made one. -/
def reported : Nat → List (Item Token Str) → Bool
  | _, [] => false
  | k, .piece t :: ps => t.type = .error || reported k ps
  | k, .cond _ :: ps => maxCond ≤ k || reported (k + 1) ps
  | k, .other :: ps => k == 0 || reported k ps
  | k, .close :: ps => k == 0 || reported (k - 1) ps

theorem outs_reported {frames : List CondFrame} {ps : List (Item Token Str)} {ts : List Token}
    (h : Outs platform frames ps ts) :
    reported frames.length ps = true ↔ ∃ t ∈ ts, t.type = .error := by
  induction h with
  | nil => simp [reported]
  | kept _ _ ih => simp [reported, ih]
  | dropped _ hne _ ih => simp [reported, hne, ih]
  | @marked frames frames' i ps ts hi hm _ ih =>
    rw [← ih]
    cases i with
    | piece t => exact absurd rfl (hi t)
    | cond arg =>
      have hlen : ¬ maxCond ≤ frames.length := by
        intro hle
        rw [show mark platform (.cond arg) frames = none from if_pos hle] at hm
        cases hm
      rw [mark_cond arg (Nat.not_le.1 hlen)] at hm
      cases hm
      simp [reported, hlen]
    | other =>
      cases frames with
      | nil => cases hm
      | cons top frames =>
        cases hm
        simp [reported]
    | close =>
      cases frames with
      | nil => cases hm
      | cons top frames =>
        cases hm
        simp [reported]
  -- a frame too many, or none to close
  | @malformed frames i t ps ts hi hm herr _ _ =>
    refine iff_of_true ?_ ⟨t, List.mem_cons_self, herr⟩
    cases i with
    | piece t => exact absurd rfl (hi t)
    | cond arg =>
      have hlen : maxCond ≤ frames.length := by grind [mark_cond, Nat.not_le]
      simp [reported, hlen]
    | other =>
      cases frames with
      | nil => rfl
      | cons top frames => cases hm
    | close =>
      cases frames with
      | nil => rfl
      | cons top frames => cases hm

end Scanner

open Lexer Scanner

section Source

variable {platform : Str} {source : Source}

theorem Reads.unique {l : Lexer} {ps qs : List (Item Token Str)} (h : Reads l ps)
    (h' : Reads l qs) : ps = qs := by
  induction h generalizing qs with
  | eof hi heof =>
    cases h' with
    | eof => rfl
    | piece hi' hne =>
      grind
    | mark hi' hm =>
      grind
  | piece hi hne _ ih =>
    cases h' with
    | eof hi' heof =>
      grind
    | piece hi' _ hr =>
      grind
    | mark hi' hm =>
      grind
  | mark hi hm _ ih =>
    cases h' with
    | eof hi' =>
      grind
    | piece hi' =>
      grind
    | mark hi' _ hr =>
      grind

theorem turn_item (platform : Str) {s : Scanner} {i : Item Token Str} {u : Lexer}
    (hi : s.toLexer.item = (i, u)) :
    (s.turn platform).2.toLexer = u ∧
      ∀ t, (s.turn platform).1 = some t → i = .piece t ∨ t.type = .error := by
  by_cases hp : ∃ t, i = .piece t
  · obtain ⟨t, rfl⟩ := hp
    rw [turn_piece _ hi]
    grind
  · rw [turn_mark _ hi fun t h => hp ⟨t, h⟩]
    refine ⟨rfl, fun t' ht => ?_⟩
    split at ht
    · cases ht
      exact .inr rfl
    · cases ht

theorem exists_reads (h : ∀ n, ¬ (turns platform source n).Cut) {k n : Nat}
    (hk : (turns platform source n).current.rest.length < k) :
    ∃ ps, Reads (turns platform source n).toLexer ps := by
  induction k generalizing n with
  | zero => grind
  | succ k ih =>
    cases hi : (turns platform source n).toLexer.item with
    | mk i u =>
      obtain ⟨hu, ht⟩ := turn_item platform hi
      by_cases heof : ∃ t, i = .piece t ∧ t.type = .eof
      · obtain ⟨t, rfl, heof⟩ := heof
        exact ⟨[], .eof hi heof⟩
      · have hnot : ¬ ∃ t, ((turns platform source n).turn platform).1 = some t ∧ t.type = .eof := by
          grind
        have hlt := (turn_turned platform (h n)).forward.resolve_left hnot
        rw [← turns_succ] at hlt hu
        have hn := turns_length h n
        have hn' := turns_length h (n + 1)
        obtain ⟨ps, hps⟩ := ih (n := n + 1) (by omega)
        rw [hu] at hps
        by_cases hp : ∃ t, i = .piece t
        · obtain ⟨t, rfl⟩ := hp
          exact ⟨_, .piece hi (fun he => heof ⟨t, rfl, he⟩) hps⟩
        · exact ⟨_, .mark hi (fun t h => hp ⟨t, h⟩) hps⟩

end Source

end LsLang.Scan
