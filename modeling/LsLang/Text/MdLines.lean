import LsLang.Text.Md
import Mathlib.Data.List.Lemmas

/-! Which lines `_parse_blocks` makes into blocks. A turn of its loop pushes a block for the lines that it passes,
or passes a blank line, or passes a line that it loses. -/

namespace LsLang.Text.Md

open LsLang.Core

/-! ### The turns of a run -/

structure Turn where
  push : Option Push
  /-- The lines from the old `i` to the new one. -/
  passed : List Str

def turns : List Str → List Turn
  | [] => []
  | line :: rest =>
    let ls := line :: rest
    let left := (turn line rest).2
    ⟨(turn line rest).1, ls.take (ls.length - left.length)⟩ :: turns left
termination_by ls => size ls
decreasing_by exact size_turn.1

def kept (ls : List Str) : List Str := ((turns ls).filter (·.push.isSome)).flatMap (·.passed)

def written (ls : List Str) : List Str := ls.filter (!·.trim.isEmpty)

def texts (ls : List Str) : List Str := (ls.map Str.trim).filter (!·.isEmpty)

/-- Each line that is not blank is passed by one turn that pushes a block, each of the lines of such a turn is the
part of the block that its form says, and in a quote it is so of the lines that are quoted. -/
inductive Keeps : List Str → Prop
  | intro (ls : List Str) : written (kept ls) = written ls →
      (∀ t ∈ turns ls, ∀ p, t.push = some p → Made t.passed p) →
      (∀ t ∈ turns ls, ∀ inner, t.push = some (.quote inner) →
        texts (lines inner) = texts (t.passed.map unquote)) →
      (∀ t ∈ turns ls, ∀ inner, t.push = some (.quote inner) → Keeps (lines inner)) →
      Keeps ls

/-- What a turn adds to the blocks. -/
def Push.blocks : Option Push → List MdBlock
  | none => []
  | some (.block b) => [b]
  | some (.quote inner) => [.blockquote (parseBlocks inner)]

theorem Turned.split {line : Str} {rest passed left : List Str} {p : Option Push}
    (h : Turned line rest p passed left) : line :: rest = passed ++ left := by
  cases h with
  | blank | stray => rfl
  | pushed _ _ _ happ => exact happ

theorem turns_cons {line : Str} {rest passed : List Str}
    (h : Turned line rest (turn line rest).1 passed (turn line rest).2) :
    turns (line :: rest) = ⟨(turn line rest).1, passed⟩ :: turns (turn line rest).2 := by
  have htake : (line :: rest).take ((line :: rest).length - (turn line rest).2.length) = passed := by
    rw [h.split, List.length_append, Nat.add_sub_cancel, List.take_left]
  rw [turns, htake]

theorem blocksFrom_eq (ls : List Str) : blocksFrom ls = (turns ls).flatMap fun t => Push.blocks t.push := by
  fun_induction turns ls with
  | case1 => rw [blocksFrom, List.flatMap_nil]
  | case2 line rest ls left ih =>
    rw [blocksFrom, List.flatMap_cons, ← ih]
    dsimp only
    split
    · next hpush =>
      rw [hpush]
      rfl
    · next b hpush =>
      rw [hpush]
      rfl
    · next inner hpush =>
      rw [hpush]
      rfl

theorem kept_cons {line : Str} {rest passed : List Str}
    (h : Turned line rest (turn line rest).1 passed (turn line rest).2) :
    kept (line :: rest) =
      (if (turn line rest).1.isSome then passed else []) ++ kept (turn line rest).2 := by
  unfold kept
  rw [turns_cons h, List.filter_cons]
  grind

theorem kept_sublist (ls : List Str) : (kept ls).Sublist ls := by
  fun_induction turns ls with
  | case1 =>
    unfold kept
    rw [turns]
    exact List.Sublist.refl []
  | case2 line rest ls left ih =>
    obtain ⟨passed, h⟩ := turn_turned line rest
    rw [kept_cons h, h.split]
    grind

theorem written_append (xs ys : List Str) : written (xs ++ ys) = written xs ++ written ys := by
  unfold written
  rw [List.filter_append]

/-! ### The lines of a quote -/

theorem trim_append_blank {s : Str} {c : UInt8} (hc : Str.isBlank c) : Str.trim (s ++ [c]) = Str.trim s := by
  unfold Str.trim
  by_cases hall : ∀ b ∈ s, Str.isBlank b
  · grind [List.dropWhile_eq_nil_iff, List.mem_append, List.mem_singleton]
  · have hne : s.dropWhile Str.isBlank ≠ [] := fun h => hall (List.dropWhile_eq_nil_iff.1 h)
    rw [List.dropWhile_append, if_neg (by rwa [List.isEmpty_iff]), List.reverse_append,
      List.reverse_singleton, List.singleton_append, List.dropWhile_cons_of_pos hc]

theorem trim_chop (s : Str) : Str.trim (chop s) = Str.trim s := by
  unfold chop
  split_ifs with h
  · obtain ⟨w, rfl⟩ := List.getLast?_eq_some_iff.1 h
    rw [List.dropLast_concat, trim_append_blank (by decide)]
  · rfl

theorem linesFrom_append {w : Str} (hw : 10 ∉ w) (s : Str) : ∀ cur,
    linesFrom cur (w ++ s) = linesFrom (cur ++ w) s := by
  induction w with
  | nil =>
    grind
  | cons c w ih =>
    rw [List.mem_cons, not_or] at hw
    intro cur
    rw [List.cons_append, linesFrom, if_neg (Ne.symm hw.1), ih hw.2, List.append_assoc,
      List.singleton_append]

theorem texts_cons (l : Str) (ls : List Str) :
    texts (l :: ls) = (if l.trim.isEmpty then [] else [l.trim]) ++ texts ls := by
  unfold texts
  grind

theorem texts_lines_joinLines {ls : List Str} (h : ∀ l ∈ ls, 10 ∉ l) :
    texts (lines (joinLines ls)) = texts ls := by
  induction ls with
  | nil => rfl
  | cons l ls ih =>
    have hl : 10 ∉ l := h l List.mem_cons_self
    have hls := ih fun m hm => h m (List.mem_cons_of_mem l hm)
    unfold lines at hls ⊢
    cases ls with
    | nil =>
      have hlast := linesFrom_append hl [] []
      rw [List.append_nil, List.nil_append, linesFrom] at hlast
      rw [show joinLines [l] = l by simp [joinLines], hlast]
      split_ifs with hnil
      · rw [hnil]
        rfl
      · rfl
    | cons m ls =>
      have hjoin : joinLines (l :: m :: ls) = l ++ 10 :: joinLines (m :: ls) := by
        unfold joinLines
        rw [List.intercalate_cons_cons, List.append_assoc, List.singleton_append]
      rw [hjoin, linesFrom_append hl, List.nil_append, linesFrom, if_pos rfl, texts_cons, texts_cons l,
        trim_chop, hls]

def Flat (ls : List Str) : Prop := ∀ l ∈ ls, 10 ∉ l

theorem flat_linesFrom (s : Str) : ∀ cur, 10 ∉ cur → Flat (linesFrom cur s) := by
  induction s with
  | nil =>
    intro cur hcur l hl
    unfold linesFrom at hl
    grind
  | cons c s ih =>
    intro cur hcur l hl
    unfold linesFrom at hl
    split_ifs at hl with hc
    · rcases List.mem_cons.1 hl with rfl | hl
      · unfold chop
        grind [List.dropLast_subset]
      · exact ih [] List.not_mem_nil l hl
    · apply ih (cur ++ [c]) _ l hl
      grind

theorem flat_lines (s : Str) : Flat (lines s) := flat_linesFrom s [] List.not_mem_nil

theorem flat_unquote {ls : List Str} (h : Flat ls) : Flat (ls.map unquote) := by
  intro l hl
  obtain ⟨m, hm, rfl⟩ := List.mem_map.1 hl
  unfold unquote
  split_ifs
  · exact fun hmem => h m hm (List.mem_of_mem_drop hmem)
  · exact List.not_mem_nil

/-! ### Where no line is lost -/

def quoted (ls : List Str) : List Str := (ls.takeWhile isQuote).map unquote

theorem isQuote_of_startsWith {line : Str} (h : startsWith line (lit ['>', ' '])) : isQuote line := by
  unfold isQuote
  rw [h, Bool.true_or]

theorem size_quoted {line : Str} {rest : List Str} (h : isQuote line) :
    size (lines (joinLines (quoted (line :: rest)))) < size (line :: rest) := by
  have hq := size_quote (.quote ((line :: rest).takeWhile isQuote) (takeWhile_ne_nil h) takeWhile_all)
  have hle := size_append ((line :: rest).takeWhile isQuote) ((line :: rest).dropWhile isQuote)
  rw [List.takeWhile_append_dropWhile] at hle
  unfold quoted
  omega

theorem size_dropWhile_lt {p : Str → Bool} {line : Str} {rest : List Str} (h : p line) :
    size ((line :: rest).dropWhile p) < size (line :: rest) := by
  rw [List.dropWhile_cons_of_pos h, size_cons]
  have hle := size_suffix (List.dropWhile_suffix p (l := rest))
  omega

/-- Outside fences each line with a bar in front is a row of the table above it, or a separator stands behind it;
and so it is in quotes. -/
def headed : List Str → Bool
  | [] => true
  | line :: rest =>
    if isFence line then headed ((rest.dropWhile (!isFence ·)).drop 1)
    else if _hq : startsWith line (lit ['>', ' ']) then
      headed (lines (joinLines (quoted (line :: rest)))) && headed ((line :: rest).dropWhile isQuote)
    else if isBar line then rest.head?.any isTableSep && headed ((rest.drop 1).dropWhile isBar)
    else headed rest
termination_by ls => size ls
decreasing_by
  all_goals try simp only [size_cons]
  · have hle := size_suffix ((List.drop_suffix 1 _).trans (List.dropWhile_suffix (!isFence ·) (l := rest)))
    omega
  · grind [size_cons, size_quoted, isQuote_of_startsWith]
  · have hlt := @size_dropWhile_lt isQuote line rest (isQuote_of_startsWith _hq)
    rw [size_cons] at hlt
    exact hlt
  · have hle := size_suffix ((List.dropWhile_suffix isBar).trans (List.drop_suffix 1 rest))
    omega
  · omega

/-! ### What a line begins with -/

def lead (line : Str) : Option UInt8 := line.trim.head?

theorem lead_cons {c : UInt8} (hc : ¬ Str.isBlank c) (s : Str) : lead (c :: s) = some c := by
  have hpre : Str.trim (c :: s) <+: c :: s := by
    unfold Str.trim
    rw [List.dropWhile_cons_of_neg hc]
    exact @List.rdropWhile_prefix _ Str.isBlank (c :: s)
  have hne : Str.trim (c :: s) ≠ [] := by
    unfold Str.trim
    rw [List.dropWhile_cons_of_neg hc]
    intro h
    exact hc (List.rdropWhile_eq_nil_iff.1 h c List.mem_cons_self)
  obtain ⟨d, w, hd⟩ := List.exists_cons_of_ne_nil hne
  unfold lead
  grind

theorem trim_ne_nil {line : Str} {c : UInt8} (h : lead line = some c) : line.trim ≠ [] := by
  intro h0
  unfold lead at h
  rw [h0] at h
  cases h

theorem lead_of_startsWith {line pat : Str} {c : UInt8} (hc : ¬ Str.isBlank c)
    (h : startsWith line (c :: pat)) : lead line = some c := by
  obtain ⟨s, rfl⟩ := List.isPrefixOf_iff_prefix.1 h
  exact lead_cons hc _

theorem lead_of_trim {line pat : Str} {c : UInt8} (h : startsWith line.trim (c :: pat)) :
    lead line = some c := by
  obtain ⟨s, hs⟩ := List.isPrefixOf_iff_prefix.1 h
  unfold lead
  rw [← hs]
  rfl

theorem exists_cons_of_takeWhile {p : UInt8 → Bool} {line : Str} (h : (line.takeWhile p).length ≠ 0) :
    ∃ c s, line = c :: s ∧ p c := by
  rcases line with - | ⟨c, s⟩
  · exact absurd rfl h
  grind [List.takeWhile_cons_of_neg]

theorem lead_heading {line : Str} (h : 0 < headingLevel line) : lead line = some (ch '#') := by
  unfold headingLevel at h
  have hlen : (line.takeWhile (· == ch '#')).length ≠ 0 := by grind
  obtain ⟨c, s, rfl, hc⟩ := exists_cons_of_takeWhile hlen
  rw [eq_of_beq hc]
  exact lead_cons (by decide) s

theorem not_isBlank_of_isDigit {c : UInt8} (h : isDigit c) : ¬ Str.isBlank c := by
  intro hb
  unfold Str.isBlank at hb
  simp only [Bool.or_eq_true, beq_iff_eq] at hb
  rcases hb with ((rfl | rfl) | rfl) | rfl <;> exact absurd h (by decide)

theorem lead_numbered {line : Str} (h : isNumbered line) : ∃ c, lead line = some c ∧ isDigit c := by
  unfold isNumbered orderedPrefixLen at h
  grind [lead_cons, not_isBlank_of_isDigit, exists_cons_of_takeWhile]

theorem lead_hr {line : Str} (h : isHr line.trim) :
    ∃ c, lead line = some c ∧ c ∈ [ch '-', ch '*', ch '_'] := by
  unfold lead
  rcases ht : line.trim with - | ⟨c, t⟩
  · rw [ht] at h
    cases h
  · rw [ht] at h
    unfold isHr at h
    grind

theorem lead_quote {line : Str} (h : isQuote line) : lead line = some (ch '>') := by
  rcases Bool.or_eq_true _ _ ▸ h with h | h
  · exact lead_of_startsWith (by decide) h
  · unfold lead
    rw [eq_of_beq h]
    rfl

structure Leads (line : Str) (c : UInt8) : Prop where
  heading : 0 < headingLevel line → c = ch '#'
  fence : isFence line → c = ch '\x60'
  rule : isHr line.trim → c ∈ [ch '-', ch '*', ch '_']
  bullet : isBullet line → c = ch '-' ∨ c = ch '*'
  numbered : isNumbered line → isDigit c
  quote : isQuote line → c = ch '>'
  bar : isBar line → c = ch '|'

theorem leads {line : Str} {c : UInt8} (h : lead line = some c) : Leads line c where
  heading hh := Option.some.inj (h.symm.trans (lead_heading hh))
  fence hf := Option.some.inj (h.symm.trans (lead_of_trim hf))
  rule hr := by grind [Option.some.inj, lead_hr]
  bullet hb := by
    rcases Bool.or_eq_true _ _ ▸ hb with hb | hb
    · exact .inl (Option.some.inj (h.symm.trans (lead_of_startsWith (by decide) hb)))
    · exact .inr (Option.some.inj (h.symm.trans (lead_of_startsWith (by decide) hb)))
  numbered hn := by grind [Option.some.inj, lead_numbered]
  quote hq := Option.some.inj (h.symm.trans (lead_quote hq))
  bar hbar := Option.some.inj (h.symm.trans (lead_of_trim hbar))

/-! ### The turns in the order of the condition -/

theorem turn_fence {line : Str} (rest : List Str) (h : isFence line) :
    turn line rest =
      (some (.block (.codeBlock (langOf line) (joinLines (rest.takeWhile (!isFence ·))))),
        (rest.dropWhile (!isFence ·)).drop 1) := by
  have hlead : lead line = some (ch '\x60') := lead_of_trim h
  have hh : ¬ 0 < headingLevel line := fun hh => absurd ((leads hlead).heading hh) (by decide)
  unfold turn
  rw [if_neg (trim_ne_nil hlead), if_neg hh, if_pos h]

theorem turn_quote {line : Str} (rest : List Str) (h : isQuote line) :
    turn line rest =
      (some (.quote (joinLines (quoted (line :: rest)))), (line :: rest).dropWhile isQuote) := by
  have hlead := lead_quote h
  have hleads := leads hlead
  unfold turn
  rw [if_neg (trim_ne_nil hlead), if_neg fun hh => absurd (hleads.heading hh) (by decide),
    if_neg fun hf => absurd (hleads.fence hf) (by decide),
    if_neg fun hr => absurd (hleads.rule hr) (by decide),
    if_neg fun hb => absurd (hleads.bullet hb) (by decide),
    if_neg fun hn => absurd (hleads.numbered hn) (by decide), if_pos h]
  rfl

theorem turn_bar {line : Str} (rest : List Str) (h : isBar line) :
    turn line rest =
      if rest.head?.any isTableSep then
        (some (.block (.table (splitTableRow line)
          (((rest.drop 1).takeWhile isBar).map (rowOf (splitTableRow line).length)))),
          (rest.drop 1).dropWhile isBar)
      else (none, rest) := by
  have hlead : lead line = some (ch '|') := lead_of_trim h
  have hleads := leads hlead
  have hends : (!endsPara line) = false := by
    unfold endsPara
    grind
  unfold turn
  rw [if_neg (trim_ne_nil hlead), if_neg fun hh => absurd (hleads.heading hh) (by decide),
    if_neg fun hf => absurd (hleads.fence hf) (by decide),
    if_neg fun hr => absurd (hleads.rule hr) (by decide),
    if_neg fun hb => absurd (hleads.bullet hb) (by decide),
    if_neg fun hn => absurd (hleads.numbered hn) (by decide),
    if_neg fun hq => absurd (hleads.quote hq) (by decide), h, Bool.true_and]
  split_ifs
  · rfl
  · rw [List.takeWhile_cons_of_neg (by rw [hends]; decide)]
    rfl

structure Plain (line : Str) : Prop where
  fence : ¬ isFence line
  quote : ¬ startsWith line (lit ['>', ' '])
  bar : ¬ isBar line

theorem plain_of_lead {line : Str} {c : UInt8} (h : lead line = some c)
    (hc : c ∉ [ch '\x60', ch '>', ch '|']) : Plain line := by
  simp only [List.mem_cons, List.not_mem_nil, or_false, not_or] at hc
  have hleads := leads h
  exact ⟨fun hf => hc.1 (hleads.fence hf),
    fun hq => hc.2.1 (hleads.quote (isQuote_of_startsWith hq)), fun hb => hc.2.2 (hleads.bar hb)⟩

theorem plain_of_blank {line : Str} (h : line.trim = []) : Plain line where
  fence hf := trim_ne_nil (lead_of_trim hf) h
  quote hq := trim_ne_nil (lead_quote (isQuote_of_startsWith hq)) h
  bar hb := trim_ne_nil (lead_of_trim hb) h

theorem headed_plain {line : Str} (h : Plain line) (rest : List Str) :
    headed (line :: rest) = headed rest := by
  rw [headed, if_neg h.fence, dif_neg h.quote, if_neg h.bar]

theorem headed_append {ls : List Str} (h : ∀ l ∈ ls, Plain l) (rest : List Str) :
    headed (ls ++ rest) = headed rest := by
  induction ls with
  | nil => rw [List.nil_append]
  | cons l ls ih =>
    rw [List.cons_append, headed_plain (h l List.mem_cons_self),
      ih fun m hm => h m (List.mem_cons_of_mem l hm)]

theorem headed_fence {line : Str} (h : isFence line) (rest : List Str) :
    headed (line :: rest) = headed ((rest.dropWhile (!isFence ·)).drop 1) := by
  rw [headed, if_pos h]

theorem headed_bar {line : Str} (h : isBar line) (rest : List Str) :
    headed (line :: rest) = (rest.head?.any isTableSep && headed ((rest.drop 1).dropWhile isBar)) := by
  have hleads := leads (@lead_of_trim line [] (ch '|') h)
  rw [headed, if_neg fun hf => absurd (hleads.fence hf) (by decide),
    dif_neg fun hq => absurd (hleads.quote (isQuote_of_startsWith hq)) (by decide), if_pos h]

theorem headed_marked {line : Str} (h : startsWith line (lit ['>', ' '])) (rest : List Str) :
    headed (line :: rest) =
      (headed (lines (joinLines (quoted (line :: rest)))) && headed ((line :: rest).dropWhile isQuote)) := by
  have hleads := leads (lead_quote (isQuote_of_startsWith h))
  rw [headed, if_neg fun hf => absurd (hleads.fence hf) (by decide), dif_pos h]

theorem headed_lines_joinLines (qs : List Str) :
    headed (lines (joinLines ([] :: qs))) = headed (lines (joinLines qs)) := by
  cases qs with
  | nil => rfl
  | cons q qs =>
    have hjoin : joinLines ([] :: q :: qs) = 10 :: joinLines (q :: qs) := by
      unfold joinLines
      rw [List.intercalate_cons_cons, List.nil_append, List.singleton_append]
    have hlines : lines (joinLines ([] :: q :: qs)) = [] :: lines (joinLines (q :: qs)) := by
      rw [hjoin]
      unfold lines
      rw [linesFrom, if_pos rfl]
      rfl
    rw [hlines, headed_plain (plain_of_blank rfl)]

theorem headed_quote (rest : List Str) : ∀ {line : Str}, isQuote line →
    headed (line :: rest) =
      (headed (lines (joinLines (quoted (line :: rest)))) && headed ((line :: rest).dropWhile isQuote)) := by
  induction rest with
  | nil =>
    intro line h
    by_cases hs : startsWith line (lit ['>', ' '])
    · exact headed_marked hs []
    · have hleads := leads (lead_quote h)
      have hplain : Plain line := ⟨fun hf => absurd (hleads.fence hf) (by decide), hs,
        fun hb => absurd (hleads.bar hb) (by decide)⟩
      have hquoted : quoted [line] = [[]] := by
        unfold quoted unquote
        rw [List.takeWhile_cons_of_pos h, List.map_cons, if_neg hs, List.takeWhile_nil, List.map_nil]
      rw [headed_plain hplain, hquoted, headed_lines_joinLines, List.dropWhile_cons_of_pos h,
        List.dropWhile_nil, show lines (joinLines []) = [] from rfl, headed.eq_1, Bool.true_and]
  | cons l ls ih =>
    intro line h
    by_cases hs : startsWith line (lit ['>', ' '])
    · exact headed_marked hs (l :: ls)
    have hleads := leads (lead_quote h)
    have hplain : Plain line := ⟨fun hf => absurd (hleads.fence hf) (by decide), hs,
      fun hb => absurd (hleads.bar hb) (by decide)⟩
    have hquoted : quoted (line :: l :: ls) = [] :: quoted (l :: ls) := by
      unfold quoted
      rw [List.takeWhile_cons_of_pos h, List.map_cons, unquote, if_neg hs]
    rw [headed_plain hplain, hquoted, headed_lines_joinLines, List.dropWhile_cons_of_pos h]
    by_cases hl : isQuote l
    · exact ih hl
    · have hnone : quoted (l :: ls) = [] := by
        unfold quoted
        rw [List.takeWhile_cons_of_neg hl, List.map_nil]
      rw [hnone, List.dropWhile_cons_of_neg hl, show lines (joinLines []) = [] from rfl, headed.eq_1,
        Bool.true_and]

theorem plain_of_made {line : Str} {rest passed left : List Str} {p : Push} (hplain : Plain line)
    (hq : ¬ isQuote line) (hmade : Made passed p) (happ : line :: rest = passed ++ left) :
    (∀ l ∈ passed, Plain l) ∧ ∀ inner, some p ≠ some (.quote inner) := by
  cases hmade with
  | heading l hl | rule l hl =>
    grind
  | fence l _ _ hl =>
    rw [← (List.cons.inj happ).1] at hl
    exact absurd hl hplain.fence
  | table l _ _ hl =>
    rw [← (List.cons.inj happ).1] at hl
    exact absurd hl hplain.bar
  | quote ls hne hall =>
    obtain ⟨l, ls, rfl⟩ := List.exists_cons_of_ne_nil hne
    grind
  | bullets ls _ hall =>
    refine ⟨fun m hm => ?_, fun _ hn => nomatch hn⟩
    rcases Bool.or_eq_true _ _ ▸ hall m hm with hm | hm
    · exact plain_of_lead (lead_of_startsWith (by decide) hm) (by decide)
    · exact plain_of_lead (lead_of_startsWith (by decide) hm) (by decide)
  | numbers ls _ hall =>
    refine ⟨fun m hm => ?_, fun _ hn => nomatch hn⟩
    obtain ⟨c, hc, hdigit⟩ := lead_numbered (hall m hm)
    apply plain_of_lead hc
    intro hmem
    have hmarks : ∀ c ∈ [ch '\x60', ch '>', ch '|'], ¬ isDigit c := by decide +kernel
    exact hmarks c hmem hdigit
  | para ls _ hall =>
    refine ⟨fun m hm => ?_, fun _ hn => nomatch hn⟩
    have hm := hall m hm
    unfold endsPara at hm
    simp only [Bool.or_eq_true, not_or] at hm
    exact ⟨hm.1.1.1.1.1.2, hm.1.2, hm.2⟩

theorem headed_turn (line : Str) (rest : List Str) :
    headed (line :: rest) ↔ ¬ Stray line rest ∧
      (∀ inner, (turn line rest).1 = some (.quote inner) → headed (lines inner)) ∧
      headed (turn line rest).2 := by
  by_cases hf : isFence line
  · have hstray : ¬ Stray line rest := fun h =>
      absurd ((leads (@lead_of_trim line _ _ hf)).bar h.1) (by decide)
    grind [headed_fence, turn_fence]
  by_cases hq : isQuote line
  · have hstray : ¬ Stray line rest := fun h => absurd ((leads (lead_quote hq)).bar h.1) (by decide)
    rw [headed_quote rest hq, turn_quote rest hq, Bool.and_eq_true]
    grind
  by_cases hb : isBar line
  · rw [headed_bar hb, turn_bar rest hb]
    by_cases hsep : rest.head?.any isTableSep
    · rw [hsep, Bool.true_and, if_pos rfl]
      exact ⟨fun h => ⟨fun hs => hs.2 hsep, by rintro inner ⟨⟩, h⟩, fun h => h.2.2⟩
    · rw [if_neg hsep, Bool.and_eq_true]
      exact ⟨fun h => absurd h.1 hsep, fun h => absurd ⟨hb, hsep⟩ h.1⟩
  · have hplain : Plain line := ⟨hf, fun h => hq (isQuote_of_startsWith h), hb⟩
    have hstray : ¬ Stray line rest := fun h => hb h.1
    obtain ⟨passed, h⟩ := turn_turned line rest
    have hpassed : (∀ l ∈ passed, Plain l) ∧ ∀ inner, (turn line rest).1 ≠ some (.quote inner) := by
      generalize (turn line rest).1 = push at h
      generalize (turn line rest).2 = left at h
      cases h with
      | blank | stray =>
        grind
      | pushed _ _ hmade happ => exact plain_of_made hplain hq hmade happ
    have hleft : headed (line :: rest) = headed (turn line rest).2 := by
      rw [h.split, headed_append hpassed.1]
    grind

/-! ### The lines that a turn keeps -/

theorem Turned.made {line : Str} {rest passed left : List Str} {p : Push}
    (h : Turned line rest (some p) passed left) : Made passed p := by
  cases h with
  | pushed _ _ hmade _ => exact hmade

theorem Turned.written_kept {line : Str} {rest passed left : List Str} {p : Option Push}
    (h : Turned line rest p passed left) (hstray : ¬ Stray line rest) :
    written (if p.isSome then passed else []) = written passed := by
  cases h with
  | blank ht =>
    unfold written
    grind
  | pushed => rfl
  | stray _ hs => exact absurd hs hstray

theorem lost_of_stray {line : Str} {rest : List Str} (h : Stray line rest) :
    written (kept (line :: rest)) ≠ written (line :: rest) := by
  obtain ⟨passed, hturned⟩ := turn_turned line rest
  have hturn : turn line rest = (none, rest) := by
    rw [turn_bar rest h.1, if_neg h.2]
  have hkept := kept_cons hturned
  rw [hturn] at hkept
  have hnonblank : (!line.trim.isEmpty) = true := by
    have hne := trim_ne_nil (lead_of_trim h.1)
    grind
  have hwritten : written (line :: rest) = line :: written rest := List.filter_cons_of_pos hnonblank
  have hle : (written (kept rest)).length ≤ (written rest).length :=
    ((kept_sublist rest).filter _).length_le
  grind

theorem keeps_turn {line : Str} {rest : List Str} (hflat : Flat (line :: rest)) :
    Keeps (line :: rest) ↔ ¬ Stray line rest ∧
      (∀ inner, (turn line rest).1 = some (.quote inner) → Keeps (lines inner)) ∧
      Keeps (turn line rest).2 := by
  obtain ⟨passed, h⟩ := turn_turned line rest
  have hturns := turns_cons h
  have hkept := kept_cons h
  have hwritten : written (line :: rest) = written passed ++ written (turn line rest).2 := by
    rw [h.split, written_append]
  constructor
  · rintro ⟨_, hall, hmade, htexts, hin⟩
    -- a stray line is passed by its turn and kept in no block
    have hstray : ¬ Stray line rest := fun hs => lost_of_stray hs hall
    rw [hturns] at hmade htexts hin
    refine ⟨hstray, hin _ List.mem_cons_self, .intro _ ?_ ?_ ?_ ?_⟩
    · rw [hkept, hwritten, written_append, h.written_kept hstray] at hall
      exact List.append_cancel_left hall
    · grind
    · grind
    grind
  · rintro ⟨hstray, hquote, ⟨_, hall, hmade, htexts, hin⟩⟩
    have hpassed : Flat passed := fun l hl => hflat l (by
      rw [h.split]
      grind)
    constructor
    · rw [hkept, hwritten, written_append, h.written_kept hstray, hall]
    · rw [hturns]
      intro t ht
      rcases List.mem_cons.1 ht with rfl | ht
      · intro p hp
        rw [show (turn line rest).1 = some p from hp] at h
        exact h.made
      · exact hmade t ht
    · rw [hturns]
      intro t ht
      rcases List.mem_cons.1 ht with rfl | ht
      · intro inner hp
        rw [show (turn line rest).1 = some (.quote inner) from hp] at h
        cases h.made with
        | quote _ _ _ => exact texts_lines_joinLines (flat_unquote hpassed)
      · exact htexts t ht
    grind

theorem keeps_nil : Keeps [] := by
  have hturns : turns [] = [] := by rw [turns]
  constructor
  · unfold kept
    rw [hturns]
    rfl
  all_goals
    grind

theorem Turned.flat {line : Str} {rest passed left : List Str} {p : Option Push}
    (h : Turned line rest p passed left) (hflat : Flat (line :: rest)) : Flat left := by
  intro l hl
  apply hflat l
  rw [h.split]
  grind

theorem keeps_iff_headed (ls : List Str) (hflat : Flat ls) : Keeps ls ↔ headed ls := by
  fun_induction blocksFrom ls with
  | case1 =>
    rw [headed.eq_1]
    exact ⟨fun _ => rfl, fun _ => keeps_nil⟩
  | case2 line rest later hpush ih =>
    obtain ⟨passed, h⟩ := turn_turned line rest
    rw [keeps_turn hflat, headed_turn, ih (h.flat hflat), hpush]
    grind
  | case3 line rest later b hpush ih =>
    obtain ⟨passed, h⟩ := turn_turned line rest
    rw [keeps_turn hflat, headed_turn, ih (h.flat hflat), hpush]
    grind
  | case4 line rest later inner hpush ih ihInner =>
    obtain ⟨passed, h⟩ := turn_turned line rest
    rw [keeps_turn hflat, headed_turn, ih (h.flat hflat), hpush]
    simp only [Option.some.injEq, Push.quote.injEq, forall_eq', ihInner (flat_lines inner)]

/-- The blocks are those of the turns, and each line that is not blank is a part of exactly one of them, at every depth
of quotes, if and only if each line that has a bar in front, outside fences, goes on with a table or has a separator
behind it. -/
theorem parseBlocks_keeps_iff (source : Str) :
    parseBlocks source = ((turns (lines source)).flatMap fun t => Push.blocks t.push) ∧
      (Keeps (lines source) ↔ headed (lines source)) :=
  ⟨blocksFrom_eq (lines source), keeps_iff_headed _ (flat_lines source)⟩

/-- `| a` alone is in no block. -/
theorem not_parseBlocks_keeps : ¬ Keeps (lines (lit ['|', ' ', 'a'])) := by
  intro h
  have hlines : lines (lit ['|', ' ', 'a']) = [lit ['|', ' ', 'a']] := by decide
  rw [hlines] at h
  obtain ⟨_, hall, -, -, -⟩ := h
  exact lost_of_stray ⟨by decide, by decide⟩ hall

end LsLang.Text.Md
