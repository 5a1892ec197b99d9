import LsLang.Lib.Transition
import LsLang.Scan.Inside

/-! The calls of `scanner_next` on a source, and when all of them stay inside it. -/

namespace LsLang.Scan

open LsLang.Core Transition

namespace Scanner

variable {platform : Str}

open Lexer

/-- The scanner after `n` more turns. -/
def after (platform : Str) (n : Nat) (s : Scanner) : Scanner :=
  (fun s => (s.turn platform).2)^[n] s

theorem after_succ (n : Nat) (s : Scanner) :
    after platform (n + 1) s = after platform n (s.turn platform).2 :=
  Function.iterate_succ_apply _ n s

theorem after_succ' (n : Nat) (s : Scanner) :
    after platform (n + 1) s = ((after platform n s).turn platform).2 :=
  Function.iterate_succ_apply' _ n s

theorem after_add (m n : Nat) (s : Scanner) :
    after platform (m + n) s = after platform m (after platform n s) :=
  Function.iterate_add_apply _ m n s

theorem after_fixed {n : Nat} {s : Scanner} (h : after platform (n + 1) s = after platform n s)
    (m : Nat) : after platform (m + n) s = after platform n s := by
  induction m with
  | zero => rw [Nat.zero_add]
  | succ m ih =>
    rw [Nat.add_right_comm, after_succ', ih, ← after_succ', h]

theorem nextLoop_some {n : Nat} {s u : Scanner} {t : Token}
    (h : s.nextLoop platform n = some (t, u)) :
    ∃ j, ((after platform j s).turn platform).1 = some t ∧ u = after platform (j + 1) s := by
  induction n generalizing s with
  | zero => cases h
  | succ n ih =>
    unfold nextLoop at h
    split at h
    · next t' s' ht =>
      cases h
      exact ⟨0, by rw [after, Function.iterate_zero, id, ht], by rw [after_succ, ht]; rfl⟩
    · next s' ht =>
      obtain ⟨j, hj, hu⟩ := ih h
      refine ⟨j + 1, ?_, ?_⟩
      · rw [after_succ, ht]
        exact hj
      · rw [after_succ, ht]
        exact hu

theorem nextLoop_none {n : Nat} {s : Scanner} (h : (s.turn platform).1 = none) :
    s.nextLoop platform (n + 1) = (s.turn platform).2.nextLoop platform n := by
  rw [nextLoop]
  grind

theorem nextLoop_ret {n : Nat} {s : Scanner} {t : Token} (h : (s.turn platform).1 = some t) :
    s.nextLoop platform (n + 1) = some (t, (s.turn platform).2) := by
  rw [nextLoop]
  grind

theorem rest_of_isAtEnd {s : Lexer} (h : s.isAtEnd = true) (h0 : 0 ∉ s.current.rest) :
    s.current.rest = [] := by
  cases hr : s.current.rest with
  | nil => rfl
  | cons c r =>
    have hc : c = 0 := (peek_eq hr).symm.trans (beq_iff_eq.1 h)
    grind

theorem cut_turn (platform : Str) {s : Scanner} (h : s.Cut) (h0 : 0 ∉ s.current.rest) :
    (s.turn platform).2.current = s.current.advance 1 ∧ (s.turn platform).2.inText = false := by
  have hr := rest_of_isAtEnd h.2 h0
  have hf : s.inFstring = true := by
    have := h.1
    unfold inText at this
    grind
  have hpeek : s.peek ≠ ch '"' := by
    rw [show s.peek = 0 from beq_iff_eq.1 h.2]
    decide
  have htext : s.scanFstringText =
      ({ s.begin.advance 1 with fstringBraceDepth := 1 } : Lexer).token .lbrace := by
    have hloop : fstringLoop s.begin.current.rest s.begin = s.begin := by
      rw [show s.begin.current.rest = [] from hr]
      rfl
    unfold scanFstringText
    dsimp only
    rw [hloop]
    split
    · next hlt => exact absurd hlt (lt_irrefl _)
    · split
      · next hq => exact absurd (beq_iff_eq.1 hq) hpeek
      · rfl
  have hinner : s.nextInner = s.scanFstringText := by
    unfold nextInner
    exact if_pos h.1
  unfold turn
  rw [if_pos h.1]
  dsimp only
  rw [if_neg (by decide), if_neg (by grind), hinner, htext]
  exact ⟨rfl, Bool.and_false _⟩

theorem turn_end (platform : Str) {s : Scanner} (h : ¬ s.Cut) (hr : s.current.rest = []) :
    ∃ t, (s.turn platform).1 = some t ∧ t.type = .eof := by
  have k := turn_turned platform h
  refine k.forward.resolve_right fun hlt => ?_
  obtain ⟨w, hw⟩ := k.moves
  obtain rfl : w = [] := (List.append_eq_nil_iff.1 (hw.1.symm.trans hr)).1
  exact absurd hw.2 hlt.ne'

theorem Eats.notMem {p q : Cursor} {w : Str} (h : p.Eats w q) (h0 : 0 ∉ p.rest) : 0 ∉ q.rest := by
  rw [h.1] at h0
  grind

theorem nextLoop_isSome {n : Nat} {s : Scanner} (h0 : 0 ∉ s.current.rest)
    (hn : s.current.rest.length + 2 ≤ n) : (s.nextLoop platform n).isSome = true := by
  induction n generalizing s with
  | zero => omega
  | succ n ih =>
    cases ht : (s.turn platform).1 with
    | some t => rw [nextLoop_ret ht, Option.isSome_some]
    | none =>
      rw [nextLoop_none ht]
      by_cases hcut : s.Cut
      · -- behind the NUL the next turn stands at the end
        obtain ⟨hcur, hin⟩ := cut_turn platform hcut h0
        have hrest : (s.turn platform).2.current.rest = [] := by
          rw [hcur, Cursor.advance_rest, rest_of_isAtEnd hcut.2 h0]
          rfl
        have hnot : ¬ (s.turn platform).2.Cut := fun hc => Bool.false_ne_true (hin.symm.trans hc.1)
        obtain ⟨t, ht, -⟩ := turn_end platform hnot hrest
        obtain ⟨m, rfl⟩ : ∃ m, n = m + 1 := ⟨n - 1, by omega⟩
        rw [nextLoop_ret ht, Option.isSome_some]
      · have k := turn_turned platform hcut
        obtain ⟨w, hw⟩ := k.moves
        refine ih (Eats.notMem hw h0) ?_
        rcases k.forward with ⟨t, h, -⟩ | hlt
        · grind
        · have hlen := congrArg List.length hw.1
          rw [List.length_append] at hlen
          have hpos := hw.2
          omega

theorem next_isSome (platform : Str) {s : Scanner} (h0 : 0 ∉ s.current.rest) : (s.next platform).isSome = true :=
  nextLoop_isSome h0 le_rfl

theorem nextLoop_mono {m n : Nat} {s : Scanner} {r : Token × Scanner} (hmn : m ≤ n)
    (h : s.nextLoop platform m = some r) : s.nextLoop platform n = some r := by
  induction m generalizing n s with
  | zero => cases h
  | succ m ih =>
    obtain ⟨n, rfl⟩ : ∃ k, n = k + 1 := ⟨n - 1, by omega⟩
    cases ht : (s.turn platform).1 with
    | some t => rwa [nextLoop_ret ht] at h ⊢
    | none =>
      rw [nextLoop_none ht] at h ⊢
      grind

theorem turn_noNul (platform : Str) {s : Scanner} (h0 : 0 ∉ s.current.rest) :
    0 ∉ (s.turn platform).2.current.rest := by
  by_cases hcut : s.Cut
  · rw [(cut_turn _ hcut h0).1, Cursor.advance_rest]
    grind
  · obtain ⟨w, hw⟩ := (turn_turned platform hcut).moves
    exact Eats.notMem hw h0

/-- A call of `scanner_next`. -/
def Call (platform : Str) (s : Scanner) (t : Token) (u : Scanner) : Prop :=
  s.next platform = some (t, u)

theorem call_ret {s : Scanner} {t : Token} (h : (s.turn platform).1 = some t) :
    Call platform s t (s.turn platform).2 :=
  nextLoop_ret h

theorem call_none {s u : Scanner} {t : Token} (h0 : 0 ∉ s.current.rest)
    (h : (s.turn platform).1 = none) (hc : Call platform (s.turn platform).2 t u) :
    Call platform s t u := by
  obtain ⟨r, hr⟩ := Option.isSome_iff_exists.1 (next_isSome platform h0)
  have hr' := hr
  unfold next at hr'
  rw [nextLoop_none h] at hr'
  unfold Call next at hc
  -- both runs of the loop end, and more turns change nothing
  have hsame := nextLoop_mono (Nat.le_max_left _ (s.current.rest.length + 1)) hc
  rw [nextLoop_mono (Nat.le_max_right _ _) hr'] at hsame
  rw [Call, hr, hsame]

end Scanner

open Scanner

section Source

variable (platform : Str) (source : Source)

/-- The scanner after `n` turns on the source. -/
def turns (n : Nat) : Scanner := after platform n (init source)

/-- The calls on a source stay inside it and come to its end. -/
structure Contained : Prop where
  /-- Every call returns. -/
  returns : ∀ {ts s}, Run (Call platform) (init source) ts s → ∃ t u, Call platform s t u
  /-- `current` never moves past the terminating NUL. -/
  inside : ∀ n, ∃ w r, source.bytes = w ++ r ∧ (turns platform source n).current = ⟨r, w.length⟩
  /-- The lexeme of a token is a piece of the source. -/
  lexeme : ∀ {ts s t u}, Run (Call platform) (init source) ts s → Call platform s t u →
    t.type ≠ .error → ∃ w v r, source.bytes = w ++ (v ++ r) ∧ t.start = ⟨v ++ r, w.length⟩ ∧
      t.length = v.length
  /-- A call moves forward, or the end of file follows. -/
  forward : ∀ {ts s t u}, Run (Call platform) (init source) ts s → Call platform s t u →
    t.type ≠ .eof → s.current.pos < u.current.pos ∨ ∃ e v, Call platform u e v ∧ e.type = .eof
  /-- The end of file is reached. -/
  ends : ∃ ts t s, Run (Call platform) (init source) (ts ++ [t]) s ∧ t.type = .eof

variable {platform source}

theorem turns_succ (n : Nat) :
    turns platform source (n + 1) = ((turns platform source n).turn platform).2 :=
  after_succ' n _

theorem run_turns {ts : List Token} {s : Scanner}
    (h : Run (Call platform) (init source) ts s) : ∃ n, s = turns platform source n := by
  induction h with
  | refl => exact ⟨0, rfl⟩
  | snoc _ hs ih =>
    obtain ⟨n, rfl⟩ := ih
    obtain ⟨j, -, hu⟩ := nextLoop_some hs
    exact ⟨j + 1 + n, by rw [hu, turns, turns, ← after_add]⟩

section Uncut

variable (h : ∀ n, ¬ (turns platform source n).Cut)
include h

theorem turns_eats (n : Nat) :
    ∃ w, (⟨source.bytes, 0⟩ : Cursor).Eats w (turns platform source n).current := by
  induction n with
  | zero => exact ⟨[], .refl _⟩
  | succ n ih =>
    obtain ⟨w, hw⟩ := ih
    obtain ⟨v, hv⟩ := (turn_turned platform (h n)).moves
    rw [turns_succ]
    exact ⟨w ++ v, hw.trans hv⟩

theorem turns_noNul (n : Nat) : 0 ∉ (turns platform source n).current.rest := by
  obtain ⟨w, hw⟩ := turns_eats h n
  exact Eats.notMem hw source.noNul

theorem turns_length (n : Nat) : (turns platform source n).current.pos +
    (turns platform source n).current.rest.length = source.bytes.length := by
  obtain ⟨w, hw⟩ := turns_eats h n
  have hlen := congrArg List.length hw.1
  have hpos := hw.2
  grind

omit h in
theorem call_turn {n : Nat} {t : Token} {u : Scanner}
    (hc : Call platform (turns platform source n) t u) :
    ∃ m, n ≤ m ∧ ((turns platform source m).turn platform).1 = some t ∧
      u = turns platform source (m + 1) := by
  obtain ⟨j, ht, hu⟩ := nextLoop_some hc
  refine ⟨j + n, Nat.le_add_left _ _, ?_, ?_⟩
  · rw [turns, after_add]
    exact ht
  · rw [hu, turns, turns, ← after_add, Nat.add_right_comm]

theorem turns_pos_le {m n : Nat} (hmn : m ≤ n) :
    (turns platform source m).current.pos ≤ (turns platform source n).current.pos := by
  induction n, hmn using Nat.le_induction with
  | base => exact le_rfl
  | succ n _ ih =>
    obtain ⟨v, hv⟩ := (turn_turned platform (h n)).moves
    rw [turns_succ, hv.2]
    grind

theorem call_forward {n : Nat} {t : Token} {u : Scanner}
    (hc : Call platform (turns platform source n) t u) (heof : t.type ≠ .eof) :
    (turns platform source n).current.pos < u.current.pos := by
  obtain ⟨m, hm, ht, rfl⟩ := call_turn hc
  have k := turn_turned platform (h m)
  have hnot : ¬ ∃ t, ((turns platform source m).turn platform).1 = some t ∧ t.type = .eof := by
    grind
  have hlt := k.forward.resolve_left hnot
  rw [turns_succ]
  exact (turns_pos_le h hm).trans_lt hlt

theorem call_returns (n : Nat) : ∃ t u, Call platform (turns platform source n) t u := by
  obtain ⟨⟨t, u⟩, hr⟩ := Option.isSome_iff_exists.1 (next_isSome _ (turns_noNul h n))
  exact ⟨t, u, hr⟩

theorem run_ends {k n : Nat} {ts : List Token}
    (hr : Run (Call platform) (init source) ts (turns platform source n))
    (hk : (turns platform source n).current.rest.length ≤ k) :
    ∃ ts t s, Run (Call platform) (init source) (ts ++ [t]) s ∧ t.type = .eof := by
  induction k generalizing n ts with
  | zero =>
    obtain ⟨t, u, hc⟩ := call_returns h n
    refine ⟨ts, t, u, hr.snoc hc, ?_⟩
    by_contra heof
    have hlt := call_forward h hc heof
    grind [turns_length, call_turn]
  | succ k ih =>
    obtain ⟨t, u, hc⟩ := call_returns h n
    by_cases heof : t.type = .eof
    · exact ⟨ts, t, u, hr.snoc hc, heof⟩
    · have hlt := call_forward h hc heof
      obtain ⟨m, hm, -, rfl⟩ := call_turn hc
      refine ih (hr.snoc hc) ?_
      grind [turns_length]

end Uncut

/-- The calls stay inside the source exactly if it never ends in the literal text of an
f-string. -/
theorem contained_iff (hsize : source.bytes.length < 2 ^ 31) :
    Contained platform source ↔ ∀ n, ¬ (turns platform source n).Cut := by
  constructor
  · intro h n hcut
    obtain ⟨w, r, hb, hcur⟩ := h.inside n
    obtain ⟨w', r', hb', hcur'⟩ := h.inside (n + 1)
    have h0 : 0 ∉ (turns platform source n).current.rest := by
      rw [hcur]
      exact fun hr => source.noNul (hb ▸ List.mem_append_right _ hr)
    have hstep := (cut_turn platform hcut h0).1
    have hr : r = [] := by
      rw [← rest_of_isAtEnd hcut.2 h0, hcur]
    rw [turns_succ, hstep, hcur, hr] at hcur'
    have hlen := congrArg List.length (hb.symm.trans hb')
    have hpos := congrArg Cursor.pos hcur'
    simp only [Cursor.advance, List.length_append, hr, List.length_nil] at hlen hpos
    omega
  · intro h
    refine ⟨fun hr => ?_, fun n => ?_, fun hr hc herr => ?_, fun hr hc heof => ?_, ?_⟩
    · obtain ⟨n, rfl⟩ := run_turns hr
      exact call_returns h n
    · obtain ⟨w, hw⟩ := turns_eats h n
      exact ⟨w, _, hw.1, Cursor.ext rfl (hw.2.trans (Nat.zero_add _))⟩
    · obtain ⟨n, rfl⟩ := run_turns hr
      obtain ⟨m, -, ht, rfl⟩ := call_turn hc
      obtain ⟨u, v, x, q, hu, hv, hx, hl⟩ :=
        (turn_turned platform (h m)).lexeme _ ht herr
      obtain ⟨w, hw⟩ := turns_eats h m
      have hs := hw.trans hu
      have hb : source.bytes = (w ++ u) ++ (v ++ q.rest) := hv.1 ▸ hs.1
      refine ⟨w ++ u, v, q.rest, hb, Cursor.ext hv.1 (hs.2.trans (Nat.zero_add _)), ?_⟩
      have hlen := congrArg List.length hb
      simp only [List.length_append] at hlen
      rw [hl, i32_eq] <;> omega
    · obtain ⟨n, rfl⟩ := run_turns hr
      exact .inl (call_forward h hc heof)
    · exact run_ends h (n := 0) .refl le_rfl

end Source

/-- `f"{x}"` -/
def closedFstring : Source := ⟨lit ['f', '"', '{', 'x', '}', '"'], by decide⟩

/-- After the quote that closes the f-string every turn stands at the end of file. -/
theorem contained_iff_closedFstring : Contained [] closedFstring := by
  refine (contained_iff (by decide)).2 fun n hcut => ?_
  have hfixed : after [] (6 + 1) (init closedFstring) = after [] 6 (init closedFstring) := by decide
  by_cases hn : n < 6
  · have hsmall : ∀ n < 6, ¬ ((turns [] closedFstring n).inText = true ∧
        (turns [] closedFstring n).isAtEnd = true) := by decide
    exact hsmall n hn hcut
  · obtain ⟨m, rfl⟩ := Nat.exists_eq_add_of_le' (Nat.not_lt.1 hn)
    have hlast : turns [] closedFstring (m + 6) = turns [] closedFstring 6 := after_fixed hfixed m
    rw [hlast] at hcut
    exact absurd hcut.1 (by decide)

/-- `f"`: the second call passes the terminating NUL. -/
theorem contained_openFstring : ¬ Contained [] ⟨lit ['f', '"'], by decide⟩ := by
  intro h
  obtain ⟨w, r, hb, hcur⟩ := h.inside 2
  have hstep : (turns [] ⟨lit ['f', '"'], by decide⟩ 2).current = ⟨[], 3⟩ := by decide
  have hpos := congrArg Cursor.pos (hstep.symm.trans hcur)
  have hlen := congrArg List.length hb
  rw [List.length_append] at hlen
  change 3 = w.length at hpos
  change 2 = w.length + r.length at hlen
  omega

end LsLang.Scan
