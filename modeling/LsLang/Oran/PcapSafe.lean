import LsLang.Oran.Guarded

/-! When the pcap reader stays inside its file and comes to an end. The packet parsers check their loads;
the link layer and the length of a record are taken as the file says them. -/

namespace LsLang.Oran

open LsLang.Core LsLang.Lib

/-- The big-endian number in the `n` bytes at an offset. -/
def beAt (data : Str) (off : ℤ) (n : ℕ) : ℤ := ofDigits ((data.drop off.toNat).take n)

/-- Whatever `pcap_ecpri_offset` looks at is in the file. -/
structure LinkWithin (data : Str) (off : ℤ) : Prop where
  ethernet : off + 14 ≤ data.length
  vlan : beAt data (off + 12) 2 = 0x8100 → off + 18 ≤ data.length
  vlan_ipv4 : beAt data (off + 12) 2 = 0x8100 → beAt data (off + 16) 2 = 0x0800 →
    off + 19 ≤ data.length
  ipv4 : beAt data (off + 12) 2 = 0x0800 → off + 15 ≤ data.length

def parseFrame (data : Str) (prof : Profile) (linktype off : ℤ) : Except Stop (Packet × Reader) := do
  let eoff ← if linktype = 1 then pcapEcpriOffset data off else .ok off
  parsePacket prof ⟨data, eoff⟩

section Link

variable {data : Str} {off : ℤ}

theorem loadBe_eq (n : ℕ) (h : 0 ≤ off) :
    loadBe data off n = if off + n ≤ data.length then .ok (beAt data off n) else .error .wild := by
  unfold loadBe loadAt beAt
  by_cases hn : off + n ≤ data.length
  · rw [if_pos hn, if_pos ⟨h, hn⟩]
    rfl
  · rw [if_neg hn, if_neg fun hc => hn hc.2]
    rfl

theorem ipv4_bounds (b p : ℤ) (hp : 0 ≤ p) (hl : p + 68 < 2 ^ 31) :
    p ≤ i32 (i32 (p + b % 16 * 4) + 8) ∧ i32 (i32 (p + b % 16 * 4) + 8) ≤ p + 68 := by
  grind [i32_eq, Int.emod_lt_of_pos, Int.emod_nonneg]

theorem skipIpv4_cases (et : ℤ) {p : ℤ} (hp : 0 ≤ p) (hl : p + 68 < 2 ^ 31) :
    (et = 0x0800 ∧ ¬ p + 1 ≤ data.length ∧ skipIpv4 data et p = .error .wild) ∨
      ((et = 0x0800 → p + 1 ≤ data.length) ∧
        ∃ q, skipIpv4 data et p = .ok q ∧ p ≤ q ∧ q ≤ p + 68) := by
  unfold skipIpv4 loadU8
  by_cases het : et = 0x0800
  · rw [if_pos het, loadBe_eq 1 hp]
    by_cases hlen : p + 1 ≤ data.length
    · rw [if_pos (by exact_mod_cast hlen)]
      exact .inr ⟨fun _ => hlen, _, rfl, ipv4_bounds _ p hp hl⟩
    · rw [if_neg (by exact_mod_cast hlen)]
      exact .inl ⟨het, hlen, rfl⟩
  grind

theorem skipVlan_cases (et : ℤ) (h0 : 0 ≤ off) (hl : off + 128 < 2 ^ 31) :
    (et = 0x8100 ∧ ¬ off + 18 ≤ data.length ∧ skipVlan data et (off + 14) = .error .wild) ∨
      (et = 0x8100 ∧ off + 18 ≤ data.length ∧
        skipVlan data et (off + 14) = .ok (beAt data (off + 16) 2, off + 18)) ∨
      (et ≠ 0x8100 ∧ skipVlan data et (off + 14) = .ok (et, off + 14)) := by
  have h16 : i32 (off + 14 + 2) = off + 16 := by rw [i32_eq (by omega) (by omega)]; omega
  have h18 : i32 (off + 14 + 4) = off + 18 := by rw [i32_eq (by omega) (by omega)]; omega
  unfold skipVlan loadBeU16
  by_cases hv : et = 0x8100
  · rw [if_pos hv, h16, h18, loadBe_eq 2 (by omega)]
    by_cases hvl : off + 18 ≤ data.length
    · rw [if_pos (by push_cast; omega)]
      exact .inr (.inl ⟨hv, hvl, rfl⟩)
    · rw [if_neg (by push_cast; omega)]
      exact .inl ⟨hv, hvl, rfl⟩
  grind

theorem pcapEcpriOffset_eq (h0 : 0 ≤ off) (hl : off + 128 < 2 ^ 31) :
    pcapEcpriOffset data off =
      if off + 14 ≤ data.length then
        skipVlan data (beAt data (off + 12) 2) (off + 14) >>= fun x => skipIpv4 data x.1 x.2
      else .error .wild := by
  have h12 : i32 (off + 12) = off + 12 := i32_eq (by omega) (by omega)
  have h14 : i32 (off + 14) = off + 14 := i32_eq (by omega) (by omega)
  unfold pcapEcpriOffset loadBeU16
  rw [h12, h14, loadBe_eq 2 (by omega)]
  by_cases he : off + 14 ≤ data.length
  · rw [if_pos he, if_pos (by push_cast; omega)]
    rfl
  · rw [if_neg he, if_neg (by push_cast; omega)]
    rfl

theorem pcapEcpriOffset_cases (h0 : 0 ≤ off) (hl : off + 128 < 2 ^ 31) :
    (¬ LinkWithin data off ∧ pcapEcpriOffset data off = .error .wild) ∨
      (LinkWithin data off ∧
        ∃ q, pcapEcpriOffset data off = .ok q ∧ off ≤ q ∧ q ≤ off + 86) := by
  rw [pcapEcpriOffset_eq h0 hl]
  by_cases he : off + 14 ≤ data.length
  swap
  · rw [if_neg he]
    exact .inl ⟨fun h => he h.ethernet, rfl⟩
  rw [if_pos he]
  rcases @skipVlan_cases data off (beAt data (off + 12) 2) h0 hl with
    ⟨hv, hn, hw⟩ | ⟨hv, hvl, hw⟩ | ⟨hv, hw⟩
  · rw [hw]
    exact .inl ⟨fun h => hn (h.vlan hv), rfl⟩
  -- an IPv4 header behind a VLAN tag
  · rw [hw]
    have hne : beAt data (off + 12) 2 ≠ 0x0800 := by rw [hv]; decide
    rcases @skipIpv4_cases data (beAt data (off + 16) 2) (off + 18) (by omega)
      (by omega) with ⟨het, hn, hs⟩ | ⟨hin, q, hq, h1, h2⟩
    · exact .inl ⟨fun h => hn (by have := h.vlan_ipv4 hv het; omega), hs⟩
    · exact .inr ⟨⟨he, fun _ => hvl, fun _ h => by have := hin h; omega, fun h => absurd h hne⟩,
        q, hq, by omega, by omega⟩
  · rw [hw]
    rcases @skipIpv4_cases data (beAt data (off + 12) 2) (off + 14) (by omega)
      (by omega) with ⟨het, hn, hs⟩ | ⟨hin, q, hq, h1, h2⟩
    · exact .inl ⟨fun h => hn (by have := h.ipv4 het; omega), hs⟩
    · exact .inr ⟨⟨he, fun h => absurd h hv, fun h => absurd h hv,
        fun h => by have := hin h; omega⟩, q, hq, by omega, by omega⟩

theorem parseFrame_cases (prof : Profile) (linktype : ℤ) (h0 : 0 ≤ off)
    (ho : off ≤ data.length) (hl : data.length + 160 < 2 ^ 31) :
    (¬ (linktype = 1 → LinkWithin data off) ∧
        parseFrame data prof linktype off = .error .wild) ∨
      ((linktype = 1 → LinkWithin data off) ∧
        Returns (parseFrame data prof linktype off) fun _ => True) := by
  unfold parseFrame
  by_cases h1 : linktype = 1
  · rw [if_pos h1]
    rcases @pcapEcpriOffset_cases data off h0 (by omega) with ⟨hn, hw⟩ | ⟨hin, q, hq, hle, hge⟩
    · rw [hw]
      exact .inl ⟨fun h => hn (h h1), rfl⟩
    · rw [hq]
      exact .inr ⟨fun _ => hin, returns_packet prof (r := ⟨data, q⟩) (by simp only; omega)
        (by simp only; omega) (by simp only; omega)⟩
  · rw [if_neg h1]
    exact .inr ⟨fun h => absurd h h1, returns_packet prof (r := ⟨data, off⟩) h0
      (by simp only; omega) (by simp only; omega)⟩

end Link

section Records

variable (data : Str) (prof : Profile) (le : Bool) (linktype : ℤ)

/-- What the reader needs of a record: it goes on behind the end of the file, with no overflow, or its
link layer is in the file and, if its frame parses, so is its end, further on than its start. -/
def RecordOk (pos : ℤ) : Prop :=
  ∃ incl, readU32e data (pos + 8) le = .ok incl ∧
    (data.length < pos + 16 + incl ∧ pos + 16 + incl < 2 ^ 31 ∨
      (linktype = 1 → LinkWithin data (pos + 16)) ∧
        (parseFrame data prof linktype (pos + 16) = .error .abort ∨
          pos < pos + 16 + incl ∧ pos + 16 + incl ≤ data.length))

/-- A run that has ended, with no load outside the file, and that came to later records only. -/
structure SafeRun (o : Outcome) : Prop where
  ended : o.result ≠ .error .running
  within : o.result ≠ .error .wild
  forward : o.visited.Pairwise (· < ·)

variable {data le} {pos : ℤ}

theorem readU32e_ok (h0 : 0 ≤ pos) (hlen : pos + 12 ≤ data.length) :
    ∃ incl, readU32e data (pos + 8) le = .ok incl ∧ -2 ^ 31 ≤ incl ∧ incl < 2 ^ 31 := by
  have hbounds : ∀ v, -2 ^ 31 ≤ i32 v ∧ i32 v < 2 ^ 31 := fun v =>
    ⟨Int.le_bmod (by decide), Int.bmod_lt (by decide)⟩
  obtain ⟨bs, hbs⟩ := @loadAt_ok data (pos + 8) 4 (by omega) (by push_cast; omega)
  unfold readU32e
  cases le with
  | true =>
    refine ⟨i32 (ofDigits bs.reverse), ?_, hbounds _⟩
    rw [if_pos rfl, loadLeU32, hbs]
    rfl
  | false =>
    refine ⟨i32 (ofDigits bs), ?_, hbounds _⟩
    rw [if_neg (by decide), loadBeU32, loadBe, hbs]
    rfl

theorem pcapRecord_eq (h0 : 0 ≤ pos) (hlen : pos + 16 ≤ data.length)
    (hl : data.length + 160 < 2 ^ 31) {incl : ℤ} (hincl : readU32e data (pos + 8) le = .ok incl) :
    pcapRecord data prof le linktype pos =
      if i32 (pos + 16 + incl) > data.length then .ok none
      else (fun x => some (x.1, i32 (pos + 16 + incl))) <$>
        parseFrame data prof linktype (pos + 16) := by
  have h8 : i32 (pos + 8) = pos + 8 := i32_eq (by omega) (by omega)
  have h16 : i32 (pos + 16) = pos + 16 := i32_eq (by omega) (by omega)
  unfold pcapRecord parseFrame
  rw [h8, h16, hincl]
  change (if _ then _ else _) = _
  congr 1
  by_cases hlink : linktype = 1
  · rw [if_pos hlink, if_pos hlink]
    cases pcapEcpriOffset data (pos + 16) with
    | error e => rfl
    | ok eoff =>
      change (parsePacket prof ⟨data, eoff⟩ >>= _) = _ <$> parsePacket prof ⟨data, eoff⟩
      cases parsePacket prof ⟨data, eoff⟩ with
      | error e => rfl
      | ok x => rfl
  · rw [if_neg hlink, if_neg hlink]
    change (parsePacket prof ⟨data, pos + 16⟩ >>= _) = _ <$> parsePacket prof ⟨data, pos + 16⟩
    cases parsePacket prof ⟨data, pos + 16⟩ with
    | error e => rfl
    | ok x => rfl

theorem i32_wrap {x : ℤ} (hl : 2 ^ 31 ≤ x) (hu : x < 3 * 2 ^ 31) : i32 x = x - 2 ^ 32 := by
  have h : i32 (x - 2 ^ 32 + (2 ^ 32 : ℕ)) = i32 (x - 2 ^ 32) := Int.add_bmod_right _ _
  grind [i32_eq]

theorem pcapRecord_of_ok (h0 : 0 ≤ pos) (hlen : pos + 16 ≤ data.length)
    (hl : data.length + 160 < 2 ^ 31) (hok : RecordOk data prof le linktype pos) :
    pcapRecord data prof le linktype pos = .error .abort ∨
      pcapRecord data prof le linktype pos = .ok none ∨
      ∃ packet next, pcapRecord data prof le linktype pos = .ok (some (packet, next)) ∧
        pos < next ∧ next ≤ data.length := by
  obtain ⟨incl, hincl, h⟩ := hok
  rw [pcapRecord_eq prof linktype h0 hlen hl hincl]
  rcases h with ⟨htrunc, hend⟩ | ⟨hlink, h⟩
  · rw [i32_eq (by omega) hend, if_pos htrunc]
    exact .inr (.inl rfl)
  by_cases htrunc : i32 (pos + 16 + incl) > data.length
  · grind
  rw [if_neg htrunc]
  have hframe : Returns (parseFrame data prof linktype (pos + 16)) fun _ => True := by
    grind [parseFrame_cases]
  rcases hframe with habort | ⟨x, hx, -⟩
  · rw [habort]
    exact .inl rfl
  · rw [hx] at h ⊢
    rcases h with habort | ⟨hfwd, hin⟩
    · grind
    · rw [i32_eq (by omega) (by omega)]
      exact .inr (.inr ⟨x.1, _, rfl, hfwd, hin⟩)

theorem recordOk_of_step (h0 : 0 ≤ pos) (hlen : pos + 16 ≤ data.length)
    (hl : data.length + 160 < 2 ^ 31)
    (hwild : pcapRecord data prof le linktype pos ≠ .error .wild)
    (hfwd : ∀ packet next, pcapRecord data prof le linktype pos = .ok (some (packet, next)) →
      pos < next) : RecordOk data prof le linktype pos := by
  obtain ⟨incl, hincl, hlo, hhi⟩ := @readU32e_ok data le pos h0 (by omega)
  rw [pcapRecord_eq prof linktype h0 hlen hl hincl] at hwild hfwd
  refine ⟨incl, hincl, ?_⟩
  by_cases htrunc : i32 (pos + 16 + incl) > data.length
  · grind [i32_wrap, i32_eq]
  rw [if_neg htrunc] at hwild hfwd
  rcases @parseFrame_cases data (pos + 16) prof linktype (by omega) (by omega) hl
    with ⟨-, hw⟩ | ⟨hlink, habort | ⟨x, hx, -⟩⟩
  · rw [hw] at hwild
    exact absurd rfl hwild
  · grind
  · rw [hx] at hfwd
    have hnext := hfwd _ _ rfl
    grind [i32_wrap, i32_eq]

theorem pcapLoop_stop (hpos : ¬ i32 (pos + 16) ≤ data.length) (fuel : ℕ) :
    pcapLoop data prof le linktype (fuel + 1) pos = ⟨[], .ok []⟩ := if_neg hpos

theorem pcapLoop_end {e : Stop} (hpos : i32 (pos + 16) ≤ data.length)
    (h : pcapRecord data prof le linktype pos = .error e) (fuel : ℕ) :
    pcapLoop data prof le linktype (fuel + 1) pos = ⟨[pos], .error e⟩ := by
  rw [pcapLoop, if_pos hpos, h]

theorem pcapLoop_truncated (hpos : i32 (pos + 16) ≤ data.length)
    (h : pcapRecord data prof le linktype pos = .ok none) (fuel : ℕ) :
    pcapLoop data prof le linktype (fuel + 1) pos = ⟨[pos], .ok []⟩ := by
  rw [pcapLoop, if_pos hpos, h]

theorem pcapLoop_next {packet : Packet} {next : ℤ} (hpos : i32 (pos + 16) ≤ data.length)
    (h : pcapRecord data prof le linktype pos = .ok (some (packet, next))) (fuel : ℕ) :
    pcapLoop data prof le linktype (fuel + 1) pos =
      ⟨pos :: (pcapLoop data prof le linktype fuel next).visited,
        (packet :: ·) <$> (pcapLoop data prof le linktype fuel next).result⟩ := by
  rw [pcapLoop, if_pos hpos, h]

theorem mem_visited (hpos : i32 (pos + 16) ≤ data.length) (fuel : ℕ) :
    pos ∈ (pcapLoop data prof le linktype (fuel + 1) pos).visited := by
  cases h : pcapRecord data prof le linktype pos with
  | error e => simp [pcapLoop_end prof linktype hpos h fuel]
  | ok x =>
    cases x with
    | none => simp [pcapLoop_truncated prof linktype hpos h fuel]
    | some y => simp [pcapLoop_next prof linktype hpos h fuel]

theorem next_bounds {packet : Packet} {next : ℤ} (h0 : 0 ≤ pos) (hlen : pos + 16 ≤ data.length)
    (hl : data.length + 160 < 2 ^ 31)
    (h : pcapRecord data prof le linktype pos = .ok (some (packet, next))) :
    next ≤ data.length ∧ -2 ^ 31 ≤ next := by
  obtain ⟨incl, hincl, -, -⟩ := @readU32e_ok data le pos h0 (by omega)
  rw [pcapRecord_eq prof linktype h0 hlen hl hincl] at h
  by_cases htrunc : i32 (pos + 16 + incl) > data.length
  · grind
  rw [if_neg htrunc] at h
  cases hframe : parseFrame data prof linktype (pos + 16) with
  | error e =>
    rw [hframe] at h
    exact absurd h (by simp [Functor.map, Except.map])
  | ok x =>
    rw [hframe] at h
    have hnext : i32 (pos + 16 + incl) = next := (Prod.mk.inj (Option.some.inj (Except.ok.inj h))).2
    rw [← hnext]
    exact ⟨by omega, Int.le_bmod (by decide)⟩

theorem map_ne_error {α β : Type} {e : Stop} {f : α → β} {x : Except Stop α} :
    f <$> x ≠ .error e ↔ x ≠ .error e := by
  cases x with
  | error e' => simp [Functor.map, Except.map]
  | ok a => simp [Functor.map, Except.map]

theorem safe_loop (hl : data.length + 160 < 2 ^ 31) (fuel : ℕ) : ∀ pos : ℤ, 0 ≤ pos →
    pos ≤ data.length → (data.length : ℤ) < pos + fuel →
    (∀ fuel, ∀ q ∈ (pcapLoop data prof le linktype fuel pos).visited,
      RecordOk data prof le linktype q) →
    SafeRun (pcapLoop data prof le linktype fuel pos) ∧
      ∀ q ∈ (pcapLoop data prof le linktype fuel pos).visited, pos ≤ q := by
  induction fuel with
  | zero =>
    grind
  | succ fuel ih =>
    intro pos h0 hin hfuel hok
    by_cases hpos : i32 (pos + 16) ≤ data.length
    swap
    · rw [pcapLoop_stop prof linktype hpos]
      exact ⟨⟨by simp, by simp, by simp⟩, by simp⟩
    have hlen : pos + 16 ≤ data.length := by
      rwa [i32_eq (by omega) (by omega)] at hpos
    have hrec := hok 1 pos (mem_visited prof linktype hpos 0)
    rcases pcapRecord_of_ok prof linktype h0 hlen hl hrec with h | h | ⟨packet, next, h, hfwd, hin'⟩
    · rw [pcapLoop_end prof linktype hpos h]
      exact ⟨⟨by simp, by simp, by simp⟩, by simp⟩
    · rw [pcapLoop_truncated prof linktype hpos h]
      exact ⟨⟨by simp, by simp, by simp⟩, by simp⟩
    have hrest := ih next (by omega) (by omega) (by omega) fun fuel q hq =>
      hok (fuel + 1) q (by rw [pcapLoop_next prof linktype hpos h]; grind)
    rw [pcapLoop_next prof linktype hpos h]
    obtain ⟨⟨hended, hwithin, hforward⟩, hlater⟩ := hrest
    refine ⟨⟨map_ne_error.2 hended, map_ne_error.2 hwithin, ?_⟩, ?_⟩
    · exact List.Pairwise.cons (fun q hq => lt_of_lt_of_le hfwd (hlater q hq)) hforward
    grind

theorem recordOk_of_safe (hl : data.length + 160 < 2 ^ 31) (fuel : ℕ) : ∀ pos : ℤ, 0 ≤ pos →
    pos ≤ data.length → (∃ n, ∀ m ≥ n, SafeRun (pcapLoop data prof le linktype m pos)) →
    ∀ q ∈ (pcapLoop data prof le linktype fuel pos).visited, RecordOk data prof le linktype q := by
  induction fuel with
  | zero =>
    intro pos _ _ _ q hq
    exact absurd hq List.not_mem_nil
  | succ fuel ih =>
    rintro pos h0 hin ⟨n, hsafe⟩
    by_cases hpos : i32 (pos + 16) ≤ data.length
    swap
    · grind [List.not_mem_nil, pcapLoop_stop]
    have hlen : pos + 16 ≤ data.length := by
      rwa [i32_eq (by omega) (by omega)] at hpos
    -- a wild read in this record would be one of the run
    have hwild : pcapRecord data prof le linktype pos ≠ .error .wild := by
      intro h
      have hrun := hsafe (n + 1) (by omega)
      rw [pcapLoop_end prof linktype hpos h] at hrun
      exact hrun.within rfl
    -- and the next record stands behind it, since the run goes forward
    have hfwd : ∀ packet next, pcapRecord data prof le linktype pos = .ok (some (packet, next)) →
        pos < next ∧ next ≤ data.length := by
      intro packet next h
      obtain ⟨hle, hge⟩ := next_bounds prof linktype h0 hlen hl h
      refine ⟨?_, hle⟩
      have hrun := hsafe (n + 2) (by omega)
      rw [pcapLoop_next prof linktype hpos h] at hrun
      by_cases hnext : i32 (next + 16) ≤ data.length
      · exact List.rel_of_pairwise_cons hrun.forward (mem_visited prof linktype hnext n)
      grind [i32_eq]
    have hself := recordOk_of_step prof linktype h0 hlen hl hwild fun packet next h =>
      (hfwd packet next h).1
    rcases pcapRecord_of_ok prof linktype h0 hlen hl hself with h | h | ⟨packet, next, h, -, -⟩
    · rw [pcapLoop_end prof linktype hpos h]
      grind
    · grind [List.mem_singleton, pcapLoop_truncated]
    · obtain ⟨hlt, hle⟩ := hfwd packet next h
      have hrest : ∀ m ≥ n, SafeRun (pcapLoop data prof le linktype m next) := by
        intro m hm
        have hrun := hsafe (m + 1) (by omega)
        rw [pcapLoop_next prof linktype hpos h] at hrun
        exact ⟨map_ne_error.1 hrun.ended, map_ne_error.1 hrun.within, hrun.forward.of_cons⟩
      rw [pcapLoop_next prof linktype hpos h]
      intro q hq
      rcases List.mem_cons.1 hq with rfl | hq
      · exact hself
      · exact ih next (by omega) hle ⟨n, hrest⟩ q hq

end Records

section File

variable (data : Str) (prof : Profile)

/-- With enough rounds, a run that ends and is safe. -/
def Safe : Prop := ∃ n, ∀ fuel ≥ n, SafeRun (fromPcap data prof fuel)

/-- Every record that the reader comes to is as it should be. -/
def RecordsOk : Prop :=
  ∀ le linktype, pcapOrder data = some le → readU32e data 20 le = .ok linktype →
    ∀ fuel, ∀ pos ∈ (pcapLoop data prof le linktype fuel 24).visited,
      RecordOk data prof le linktype pos

theorem readU32e_short {data : Str} (h : data.length < 24) (le : Bool) (linktype : ℤ) :
    readU32e data 20 le ≠ .ok linktype := by
  have hload : loadAt data 20 4 = .error .wild := if_neg (by push_cast; omega)
  unfold readU32e loadLeU32 loadBeU32 loadBe
  rw [hload]
  cases le <;> simp [Functor.map, Except.map]

variable {data prof} {le : Bool} {linktype pos next : ℤ}

theorem fromPcap_eq (hlen : ¬ data.length < 24) (hle : pcapOrder data = some le)
    (hlink : readU32e data 20 le = .ok linktype) (fuel : ℕ) :
    fromPcap data prof fuel = pcapLoop data prof le linktype fuel 24 := by
  rw [fromPcap, if_neg hlen, hle]
  simp only [hlink]

variable (data prof)

theorem from_pcap_safe_iff (hl : data.length + 160 < 2 ^ 31) :
    Safe data prof ↔ RecordsOk data prof := by
  -- no header, or no magic number: nothing is read
  by_cases hshort : data.length < 24
  · have hrun : ∀ fuel, fromPcap data prof fuel = ⟨[], .ok []⟩ := fun fuel => if_pos hshort
    constructor
    · intro _ le linktype _ hlink
      exact absurd hlink (readU32e_short hshort le linktype)
    · intro _
      refine ⟨0, fun fuel _ => ?_⟩
      rw [hrun]
      exact ⟨by simp, by simp, by simp⟩
  cases hle : pcapOrder data with
  | none =>
    have hrun : ∀ fuel, fromPcap data prof fuel = ⟨[], .ok []⟩ := fun fuel => by
      rw [fromPcap, if_neg hshort, hle]
    constructor
    · intro _ le linktype h
      rw [hle] at h
      simp at h
    · intro _
      refine ⟨0, fun fuel _ => ?_⟩
      rw [hrun]
      exact ⟨by simp, by simp, by simp⟩
  | some le =>
    obtain ⟨linktype, hlink, -, -⟩ := @readU32e_ok data le 12 (by omega)
      (by omega)
    have hrun := @fromPcap_eq _ prof _ _ hshort hle hlink
    constructor
    · rintro ⟨n, hsafe⟩ le' linktype' hle' hlink' fuel
      rw [hle] at hle'
      obtain rfl := Option.some.inj hle'
      obtain rfl : linktype = linktype' := Except.ok.inj (hlink.symm.trans hlink')
      exact recordOk_of_safe prof linktype hl fuel 24 (by decide) (by omega)
        ⟨n, fun m hm => by rw [← hrun]; exact hsafe m hm⟩
    · intro hok
      refine ⟨data.length, fun fuel hfuel => ?_⟩
      rw [hrun]
      exact (safe_loop prof linktype hl fuel 24 (by decide) (by omega) (by omega)
        (hok le linktype hle hlink)).1

theorem exists_packet
    (h : (fun x => x.map Prod.snd) <$> pcapRecord data prof le linktype pos = .ok (some next)) :
    ∃ packet, pcapRecord data prof le linktype pos = .ok (some (packet, next)) := by
  cases hrec : pcapRecord data prof le linktype pos with
  | error e => simp [hrec, Functor.map, Except.map] at h
  | ok x =>
    rw [hrec] at h
    obtain ⟨y, rfl, hy⟩ := Option.map_eq_some_iff.1 (Except.ok.inj h)
    grind

/-- A file of one Ethernet frame, as long as its record says, with a U-plane message that has no
section. -/
def oneFrame : Str :=
  [0xa1, 0xb2, 0xc3, 0xd4, 0, 2, 0, 4, 0, 0, 0, 0, 0, 0, 0, 0, 0, 0, 0xff, 0xff, 0, 0, 0, 1] ++
    [0, 0, 0, 0, 0, 0, 0, 0, 0, 0, 0, 26, 0, 0, 0, 26] ++
    [0, 0, 0, 0, 0, 0, 0, 0, 0, 0, 0, 0, 0xae, 0xfe] ++
    [0x10, 0, 0, 8, 0, 0, 0, 0, 0, 0, 0, 0]

def fixedWidth : Profile :=
  { carrierPrbs := 106, sinrIqWidth := 14, sinrCompMeth := 0, uIqWidth := 14, uCompMeth := 0
    uStatic := true }

theorem from_pcap_safe_oneFrame : Safe oneFrame fixedWidth := by
  apply (from_pcap_safe_iff oneFrame fixedWidth (by decide)).2
  intro le linktype hle hlink fuel
  obtain rfl : false = le := Option.some.inj hle
  obtain rfl : 1 = linktype := Except.ok.inj ((show readU32e oneFrame 20 false = .ok 1 by
    decide).symm.trans hlink)
  obtain ⟨packet, hrec⟩ := @exists_packet oneFrame fixedWidth false 1 24 66
    (by decide +kernel)
  have hvisited : ∀ pos ∈ (pcapLoop oneFrame fixedWidth false 1 fuel 24).visited, pos = 24 := by
    cases fuel with
    | zero => exact fun pos hpos => absurd hpos List.not_mem_nil
    | succ n =>
      rw [pcapLoop_next fixedWidth 1 (by decide) hrec]
      cases n with
      | zero => exact fun pos hpos => List.mem_singleton.1 hpos
      | succ n =>
        rw [pcapLoop_stop fixedWidth 1 (by decide)]
        exact fun pos hpos => List.mem_singleton.1 hpos
  intro pos hpos
  rw [hvisited pos hpos]
  exact ⟨26, by decide, .inr ⟨fun _ => ⟨by decide, fun h => absurd h (by decide),
    fun h => absurd h (by decide), fun h => absurd h (by decide)⟩,
    .inr ⟨by decide, by decide⟩⟩⟩

/-- The same header, and a record of no bytes: its Ethernet header is behind the end of the file. -/
def emptyFrame : Str :=
  [0xa1, 0xb2, 0xc3, 0xd4, 0, 2, 0, 4, 0, 0, 0, 0, 0, 0, 0, 0, 0, 0, 0xff, 0xff, 0, 0, 0, 1] ++
    [0, 0, 0, 0, 0, 0, 0, 0, 0, 0, 0, 0, 0, 0, 0, 0]

/-- No Ethernet header, and a record of −16 bytes: the reader comes to it again. -/
def backFrame : Str :=
  [0xa1, 0xb2, 0xc3, 0xd4, 0, 2, 0, 4, 0, 0, 0, 0, 0, 0, 0, 0, 0, 0, 0xff, 0xff, 0, 0, 0, 0] ++
    [0, 0, 0, 0, 0, 0, 0, 0, 0xff, 0xff, 0xff, 0xf0, 0, 0, 0, 12] ++
    [0x10, 0, 0, 8, 0, 0, 0, 0, 0, 0, 0, 0]

theorem from_pcap_not_safe : ¬ Safe emptyFrame fixedWidth ∧ ¬ Safe backFrame fixedWidth := by
  constructor
  · rintro ⟨n, h⟩
    exact (h (n + 1) (by omega)).within rfl
  · rintro ⟨n, h⟩
    obtain ⟨packet, hrec⟩ := @exists_packet backFrame fixedWidth false 0 24 24
      (by decide +kernel)
    have hrun : ∀ fuel, (pcapLoop backFrame fixedWidth false 0 fuel 24).result =
        .error .running := by
      intro fuel
      induction fuel with
      | zero => rfl
      | succ fuel ih =>
        rw [pcapLoop_next fixedWidth 0 (by decide) hrec]
        simp only [ih]
        rfl
    have hrounds := h n le_rfl
    rw [@fromPcap_eq _ _ false 0 (by decide) rfl (by decide)] at hrounds
    exact hrounds.ended (hrun n)

end File

end LsLang.Oran
