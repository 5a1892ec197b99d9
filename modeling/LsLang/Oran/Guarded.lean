import LsLang.Oran.Wire
import LsLang.Oran.Uplane

/-! The parsers check every load: from a position that is no overflow they return with the reader further
on, or they abort. -/

namespace LsLang.Oran

open LsLang.Core LsLang.Lib

section Rules

variable {α β : Type}

def Returns (x : Except Stop α) (P : α → Prop) : Prop := x = .error .abort ∨ ∃ a, x = .ok a ∧ P a

theorem Returns.ok {P : α → Prop} {a : α} (h : P a) : Returns (.ok a) P := .inr ⟨a, rfl, h⟩

theorem Returns.bind {P : α → Prop} {Q : β → Prop} {x : Except Stop α} {f : α → Except Stop β}
    (hx : Returns x P) (hf : ∀ a, P a → Returns (f a) Q) : Returns (x >>= f) Q := by
  rcases hx with rfl | ⟨a, rfl, ha⟩
  · exact .inl rfl
  · exact hf a ha

theorem Returns.mono {P Q : α → Prop} {x : Except Stop α} (hx : Returns x P) (h : ∀ a, P a → Q a) :
    Returns x Q := by
  rcases hx with rfl | ⟨a, rfl, ha⟩
  · exact .inl rfl
  · exact .inr ⟨a, rfl, h a ha⟩

structure InRange (r : Reader) : Prop where
  nonneg : 0 ≤ r.pos
  pos : r.pos + 32 < 2 ^ 31
  length : r.buf.length + 32 < 2 ^ 31

/-- Further on in the same buffer, by `k` bytes or more, and not behind its end if at all moved. -/
structure Ahead (k : ℤ) (r r' : Reader) : Prop where
  buf : r'.buf = r.buf
  le : r.pos + k ≤ r'.pos
  within : r'.pos ≤ r.pos ∨ r'.pos ≤ r.buf.length

def Guarded (p : Parse α) (r : Reader) : Prop := Returns (p r) fun x => Ahead 0 r x.2

variable {r r' : Reader} {p : Parse α}

theorem Ahead.inRange {k : ℤ} (hk : 0 ≤ k) (h : Ahead k r r') (hr : InRange r) : InRange r' := by
  obtain ⟨h0, hp, hl⟩ := hr
  have hle := h.le
  refine ⟨by omega, ?_, by rw [h.buf]; exact hl⟩
  rcases h.within with hw | hw <;> omega

theorem Ahead.refl (r : Reader) : Ahead 0 r r := ⟨rfl, by omega, .inl le_rfl⟩

theorem Ahead.trans {k j : ℤ} {r'' : Reader} (hk : 0 ≤ k) (h : Ahead k r r') (h' : Ahead j r' r'') :
    Ahead j r r'' := by
  have h1 := h.le
  have h2 := h'.le
  refine ⟨h'.buf.trans h.buf, by omega, ?_⟩
  have hw' := h'.within
  rw [h.buf] at hw'
  rcases h.within with hw | hw <;> rcases hw' with hw' | hw' <;> omega

theorem guarded_pure (a : α) (r : Reader) : Guarded (pure a) r := Returns.ok (Ahead.refl r)

theorem guarded_bind {f : α → Parse β} (hr : InRange r) (hp : Guarded p r)
    (hf : ∀ a r', InRange r' → Ahead 0 r r' → Guarded (f a) r') : Guarded (p >>= f) r := by
  refine Returns.bind hp fun x hx => ?_
  exact (hf x.1 x.2 (hx.inRange le_rfl hr) hx).mono fun y hy => hx.trans le_rfl hy

theorem guarded_collect (h : ∀ r, InRange r → Guarded p r) (n : ℕ) :
    ∀ r, InRange r → Guarded (collect p n) r := by
  induction n with
  | zero => exact fun r _ => guarded_pure [] r
  | succ n ih =>
    intro r hr
    exact guarded_bind hr (h r hr) fun x r1 hr1 _ =>
      guarded_bind hr1 (ih r1 hr1) fun xs r2 _ _ => guarded_pure _ r2

theorem loadAt_ok {buf : Str} {off : ℤ} {n : ℕ} (h0 : 0 ≤ off) (h : off + n ≤ buf.length) :
    ∃ bs, loadAt buf off n = .ok bs := by
  unfold loadAt
  rw [if_pos ⟨h0, h⟩]
  exact ⟨_, rfl⟩

theorem returns_beU {n : ℕ} (hn : n ≤ 8) (hr : InRange r) :
    Returns (beU n r) fun x => Ahead n r x.2 ∧ x.2.pos ≤ r.buf.length := by
  obtain ⟨h0, hp, hl⟩ := hr
  have hpos : i32 (r.pos + n) = r.pos + n := i32_eq (by omega) (by omega)
  unfold beU
  rw [hpos]
  split
  · exact .inl rfl
  · next hle =>
    obtain ⟨bs, hbs⟩ := @loadAt_ok r.buf _ n h0 (by omega)
    unfold loadBe
    rw [hbs]
    exact Returns.ok ⟨⟨rfl, le_rfl, .inr (by simp only; omega)⟩, by simp only; omega⟩

theorem guarded_beU {n : ℕ} (hn : n ≤ 8) (hr : InRange r) : Guarded (beU n) r := by
  refine (returns_beU hn hr).mono fun x hx => ?_
  exact ⟨hx.1.buf, by have := hx.1.le; omega, hx.1.within⟩

theorem guarded_beU8 (hr : InRange r) : Guarded beU8 r := guarded_beU (by decide) hr

theorem guarded_beU16 (hr : InRange r) : Guarded beU16 r := guarded_beU (by decide) hr

theorem guarded_beU32 (hr : InRange r) : Guarded beU32 r := guarded_beU (by decide) hr

theorem guarded_beU64 (hr : InRange r) : Guarded beU64 r := guarded_beU (by decide) hr

theorem guarded_ite {c : Prop} [Decidable c] {p q : Parse α} (hp : Guarded p r) (hq : Guarded q r) :
    Guarded (if c then p else q) r := by grind

end Rules

section Samples

/-- A bit cursor of a reader: it is behind it, and inside the buffer once it has moved. -/
structure CursorOk (r : Reader) (br : BitReader) : Prop where
  buf : br.buf = r.buf
  len : br.len = r.buf.length
  le : r.pos ≤ br.bytePos
  within : br.bytePos ≤ r.pos ∨ br.bytePos ≤ r.buf.length
  open_byte : br.bitPos = 0 ∨ br.bytePos < r.buf.length

variable {r : Reader} {br : BitReader}

theorem cursorOk_bitReader (r : Reader) : CursorOk r (bitReader r) :=
  ⟨rfl, rfl, le_rfl, .inl le_rfl, .inl rfl⟩

theorem returns_takeBit (hr : InRange r) (h : CursorOk r br) (v : ℤ) :
    Returns (br.takeBit v) fun x => CursorOk r x.2 := by
  obtain ⟨h0, hp, hl⟩ := hr
  obtain ⟨hbuf, hlen, hle, hw, -⟩ := h
  unfold BitReader.takeBit
  split
  · exact .inl rfl
  · next hlt =>
    rw [hlen] at hlt
    obtain ⟨bs, hbs⟩ := @loadAt_ok br.buf br.bytePos 1 (by omega)
      (by rw [hbuf]; omega)
    have hpos : i32 (br.bytePos + 1) = br.bytePos + 1 := i32_eq (by omega) (by omega)
    unfold loadU8 loadBe
    rw [hbs, hpos]
    refine Returns.bind (Returns.ok (P := fun _ => True) trivial) fun byte _ => ?_
    split
    · exact Returns.ok ⟨hbuf, hlen, by simp only; omega, .inr (by simp only; omega), .inl rfl⟩
    · exact Returns.ok ⟨hbuf, hlen, hle, hw, .inr (by simp only; omega)⟩

theorem returns_takeLoop (hr : InRange r) (n : ℕ) : ∀ v br, CursorOk r br →
    Returns (BitReader.takeLoop n v br) fun x => CursorOk r x.2 := by
  induction n with
  | zero => exact fun v br h => Returns.ok h
  | succ n ih => exact fun v br h => (returns_takeBit hr h v).bind fun x hx => ih x.1 x.2 hx

theorem returns_takeSigned (hr : InRange r) (h : CursorOk r br) (w : ℤ) :
    Returns (br.takeSigned w) fun x => CursorOk r x.2 :=
  (returns_takeLoop hr w.toNat 0 br h).bind fun _ hx => Returns.ok hx

theorem returns_takeMany (hr : InRange r) (w : ℤ) (n : ℕ) : ∀ br, CursorOk r br →
    Returns (BitReader.takeMany w n br) fun x => CursorOk r x.2 := by
  induction n with
  | zero => exact fun br h => Returns.ok h
  | succ n ih =>
    exact fun br h => (returns_takeSigned hr h w).bind fun x hx =>
      (ih x.2 hx).bind fun y hy => Returns.ok hy

theorem returns_takePairs (hr : InRange r) (w : ℤ) (n : ℕ) : ∀ br, CursorOk r br →
    Returns (takePairs w n br) fun x => CursorOk r x.2 := by
  induction n with
  | zero => exact fun br h => Returns.ok h
  | succ n ih =>
    exact fun br h => (returns_takeSigned hr h w).bind fun x hx =>
      (returns_takeSigned hr hx w).bind fun y hy =>
        (ih y.2 hy).bind fun z hz => Returns.ok hz

theorem CursorOk.seek (hr : InRange r) (h : CursorOk r br) :
    Ahead 0 r (r.seek br.align.bytePos) := by
  obtain ⟨h0, hp, hl⟩ := hr
  obtain ⟨hbuf, hlen, hle, hw, hopen⟩ := h
  unfold BitReader.align
  by_cases hb : br.bitPos ≠ 0
  · have hlt := hopen.resolve_left hb
    have hpos : i32 (br.bytePos + 1) = br.bytePos + 1 := i32_eq (by omega) (by omega)
    rw [if_pos hb, hpos]
    exact ⟨rfl, by simp only [Reader.seek]; omega, .inr (by simp only [Reader.seek]; omega)⟩
  · rw [if_neg hb]
    exact ⟨rfl, by simp only [Reader.seek]; omega, hw⟩

theorem guarded_takeSamples (n : ℕ) (w : ℤ) (hr : InRange r) : Guarded (takeSamples n w) r :=
  (returns_takeMany hr w n _ (cursorOk_bitReader r)).bind fun _ hx => Returns.ok (hx.seek hr)

theorem guarded_takeIq (w : ℤ) (hr : InRange r) : Guarded (takeIq w) r :=
  (returns_takePairs hr w 12 _ (cursorOk_bitReader r)).bind fun _ hx => Returns.ok (hx.seek hr)

end Samples

section Parsers

variable {r : Reader}

theorem guarded_ecpri (hr : InRange r) : Guarded parseEcpri r :=
  guarded_bind hr (guarded_beU8 hr) fun _ _ h1 _ =>
    guarded_bind h1 (guarded_beU8 h1) fun _ _ h2 _ =>
      guarded_bind h2 (guarded_beU16 h2) fun _ _ h3 _ =>
        guarded_bind h3 (guarded_beU16 h3) fun _ _ h4 _ =>
          guarded_bind h4 (guarded_beU16 h4) fun _ _ _ _ => guarded_pure _ _

theorem guarded_cpCommon (hr : InRange r) : Guarded parseCpCommon r :=
  guarded_bind hr (guarded_beU8 hr) fun _ _ h1 _ =>
    guarded_bind h1 (guarded_beU8 h1) fun _ _ h2 _ =>
      guarded_bind h2 (guarded_beU16 h2) fun _ _ h3 _ =>
        guarded_bind h3 (guarded_beU8 h3) fun _ _ h4 _ =>
          guarded_bind h4 (guarded_beU8 h4) fun _ _ _ _ => guarded_pure _ _

theorem guarded_readRaw (n : ℤ) (hr : InRange r) : Guarded (readRaw n) r :=
  guarded_bind hr (guarded_collect (fun _ h => guarded_beU8 h) _ r hr) fun _ _ _ _ =>
    guarded_pure _ _

theorem guarded_extlen (et : ℤ) (hr : InRange r) : Guarded (parseExtlen et) r :=
  guarded_ite (guarded_beU16 hr) (guarded_beU8 hr)

structure Further (r r' : Reader) : Prop extends Ahead 1 r r' where
  pos_le : r'.pos ≤ r.buf.length

theorem Further.trans {r r' r'' : Reader} (h : Further r r') (h' : Ahead 0 r' r'') :
    Further r r'' := by
  have hw := h'.within
  have hle := h'.le
  have hle1 := h.le
  have hpos := h.pos_le
  rw [h.buf] at hw
  exact ⟨⟨h'.buf.trans h.buf, by omega, .inr (by omega)⟩, by omega⟩

theorem Further.ahead {r r' : Reader} (h : Further r r') : Ahead 0 r r' :=
  ⟨h.buf, by have := h.le; omega, h.within⟩

theorem further_beU {n : ℕ} (h0 : 0 < n) (hn : n ≤ 8) (hr : InRange r) :
    Returns (beU n r) fun x => Further r x.2 :=
  (returns_beU hn hr).mono fun _ hx =>
    ⟨⟨hx.1.buf, by have := hx.1.le; omega, hx.1.within⟩, hx.2⟩

theorem guarded_loop {α : Type} {loop : ℕ → Parse α}
    (hround : ∀ fuel r, InRange r →
      (∀ r', InRange r' → Further r r' → Guarded (loop fuel) r') → Guarded (loop (fuel + 1)) r) :
    ∀ (fuel : ℕ) r, InRange r → 0 < fuel → (r.buf.length : ℤ) < r.pos + fuel →
      Guarded (loop fuel) r := by
  intro fuel
  induction fuel with
  | zero => grind
  | succ fuel ih =>
    intro r hr _ hfuel
    apply hround fuel r hr
    intro r' hr' h
    have hle := h.le
    have hpos := h.pos_le
    exact ih r' hr' (by omega) (by rw [h.buf]; omega)

theorem guarded_seChain (hr : InRange r) : Guarded parseSeChain r := by
  refine @guarded_loop _ seChainLoop ?_ (r.buf.length + 1) r hr
    (Nat.succ_pos _) (by have := hr.nonneg; omega)
  intro fuel r hr ih
  refine Returns.bind (further_beU (n := 1) one_pos (by decide) hr) fun x hx => ?_
  have h1 := hx.ahead.inRange le_rfl hr
  refine (guarded_bind h1 (guarded_extlen _ h1) fun _ _ h2 a2 =>
    guarded_bind h2 (guarded_readRaw _ h2) fun _ r3 h3 a3 =>
      guarded_bind h3 (guarded_ite (ih r3 h3 (hx.trans (a2.trans le_rfl a3))) (guarded_pure _ _))
        fun _ _ _ _ => guarded_pure _ _).mono fun y hy => (hx.trans hy).ahead

theorem guarded_st1Section (hr : InRange r) : Guarded parseSt1Section r :=
  guarded_bind hr (guarded_beU64 hr) fun _ _ h1 _ =>
    guarded_ite (guarded_bind h1 (guarded_seChain h1) fun _ _ _ _ => guarded_pure _ _)
      (guarded_pure _ _)

theorem guarded_st1 (hr : InRange r) : Guarded parseSt1 r :=
  guarded_bind hr (guarded_ecpri hr) fun _ _ h1 _ =>
    guarded_bind h1 (guarded_cpCommon h1) fun _ _ h2 _ =>
      guarded_bind h2 (guarded_beU8 h2) fun _ _ h3 _ =>
        guarded_bind h3 (guarded_beU8 h3) fun _ r4 h4 _ =>
          guarded_bind h4 (guarded_collect (fun _ h => guarded_st1Section h) _ r4 h4)
            fun _ _ _ _ => guarded_pure _ _

theorem guarded_sinrPrb (cm n w : ℤ) (hr : InRange r) : Guarded (parseSinrPrb cm n w) r :=
  guarded_bind hr (guarded_ite (guarded_beU8 hr) (guarded_pure _ _)) fun _ _ h1 _ =>
    guarded_bind h1 (guarded_takeSamples _ w h1) fun _ _ _ _ => guarded_pure _ _

theorem guarded_st9Section (cm n w c : ℤ) (hr : InRange r) :
    Guarded (parseSt9Section cm n w c) r :=
  guarded_bind hr (guarded_beU32 hr) fun _ r1 h1 _ =>
    guarded_bind h1 (guarded_collect (fun _ h => guarded_sinrPrb cm n w h) _ r1 h1)
      fun _ _ _ _ => guarded_pure _ _

theorem guarded_st9 (iw cm c : ℤ) (hr : InRange r) : Guarded (parseSt9 iw cm c) r :=
  guarded_bind hr (guarded_ecpri hr) fun _ _ h1 _ =>
    guarded_bind h1 (guarded_cpCommon h1) fun _ _ h2 _ =>
      guarded_bind h2 (guarded_beU8 h2) fun _ _ h3 _ =>
        guarded_bind h3 (guarded_beU8 h3) fun _ r4 h4 _ =>
          guarded_bind h4 (guarded_collect (fun _ h => guarded_st9Section cm _ _ c h) _ r4 h4)
            fun _ _ _ _ => guarded_pure _ _

theorem guarded_uplanePrb (cm iw : ℤ) (hr : InRange r) : Guarded (parseUplanePrb cm iw) r :=
  guarded_bind hr (guarded_ite (guarded_beU8 hr) (guarded_pure _ _)) fun _ _ h1 _ =>
    guarded_bind h1 (guarded_takeIq iw h1) fun _ _ _ _ => guarded_pure _ _

theorem guarded_udComp (hr : InRange r) : Guarded parseUdComp r :=
  guarded_bind hr (guarded_beU8 hr) fun _ _ h1 _ =>
    guarded_bind h1 (guarded_beU8 h1) fun _ _ _ _ => guarded_pure _ _

theorem further_section (ct : Profile) (hr : InRange r) :
    Returns (parseUplaneSection ct r) fun x => Further r x.2 := by
  refine Returns.bind (further_beU (n := 4) (by decide) (by decide) hr) fun x hx => ?_
  have h1 := hx.ahead.inRange le_rfl hr
  exact (guarded_bind h1 (guarded_ite (guarded_pure _ _) (guarded_udComp h1)) fun _ r2 h2 _ =>
    guarded_bind h2 (guarded_collect (fun _ h => guarded_uplanePrb _ _ h) _ r2 h2)
      fun _ _ _ _ => guarded_pure _ _).mono fun y hy => hx.trans hy

theorem guarded_uplaneSections (ct : Profile) (frameEnd : ℤ) (hr : InRange r) :
    Guarded (parseUplaneSections ct frameEnd) r := by
  refine @guarded_loop _ (uplaneLoop ct frameEnd) ?_ (r.buf.length + 1) r hr
    (Nat.succ_pos _) (by have := hr.nonneg; omega)
  intro fuel r hr ih
  have hstep : Guarded (if r.pos < frameEnd then (parseUplaneSection ct >>= fun s =>
      uplaneLoop ct frameEnd fuel >>= fun rest => pure (s :: rest)) else pure []) r := by
    refine guarded_ite ?_ (guarded_pure _ _)
    refine Returns.bind (further_section ct hr) fun x hx => ?_
    have h1 := hx.ahead.inRange le_rfl hr
    exact (guarded_bind h1 (ih x.2 h1 hx) fun _ _ _ _ => guarded_pure _ _).mono
      fun y hy => (hx.trans hy).ahead
  exact hstep

theorem guarded_uplane (ct : Profile) (hr : InRange r) : Guarded (parseUplane ct) r :=
  guarded_bind (p := get) hr (Returns.ok (Ahead.refl r)) fun _ _ h0 _ =>
    guarded_bind h0 (guarded_ecpri h0) fun _ _ h1 _ =>
      guarded_bind h1 (guarded_beU8 h1) fun _ _ h2 _ =>
        guarded_bind h2 (guarded_beU8 h2) fun _ _ h3 _ =>
          guarded_bind h3 (guarded_beU16 h3) fun _ _ h4 _ =>
            guarded_bind h4 (guarded_uplaneSections ct _ h4) fun _ _ _ _ => guarded_pure _ _

theorem seek_bind {α : Type} (off : ℤ) (f : Unit → Parse α) (r : Reader) :
    (seek off >>= f) r = f () (r.seek off) := rfl

theorem returns_ite {α : Type} {c : Prop} [Decidable c] {p q : Parse α} {P : α × Reader → Prop}
    (hp : Returns (p r) P) (hq : Returns (q r) P) :
    Returns ((if c then p else q) r) P := by grind

theorem returns_packet (ct : Profile) (h0 : 0 ≤ r.pos) (hp : r.pos + 64 < 2 ^ 31)
    (hl : r.buf.length + 32 < 2 ^ 31) : Returns (parsePacket ct r) fun _ => True := by
  have hseek : ∀ (buf : Str) (p : ℤ), buf = r.buf → 0 ≤ p → p ≤ r.pos + 16 → InRange ⟨buf, p⟩ := by
    rintro buf p rfl h0 hle
    exact ⟨h0, by simp only; omega, hl⟩
  have h1 : i32 (r.pos + 1) = r.pos + 1 := i32_eq (by omega) (by omega)
  have h13 : i32 (r.pos + 13) = r.pos + 13 := i32_eq (by omega) (by omega)
  unfold parsePacket
  rw [get_bind, seek_bind, h1]
  refine Returns.bind (guarded_beU8 (hseek _ _ rfl (by omega) (by omega))) fun x hx => ?_
  have hback : InRange (x.2.seek r.pos) := hseek _ _ hx.buf h0 (by omega)
  refine returns_ite ((guarded_uplane ct hback).bind fun _ _ => Returns.ok trivial) ?_
  rw [seek_bind, h13]
  refine Returns.bind (guarded_beU8 (hseek _ _ hx.buf (by omega) (by omega))) fun y hy => ?_
  have hback' : InRange (y.2.seek r.pos) := hseek _ _ (hy.buf.trans hx.buf) h0 (by omega)
  exact returns_ite ((guarded_st9 _ _ _ hback').bind fun _ _ => Returns.ok trivial)
    ((guarded_st1 hback').bind fun _ _ => Returns.ok trivial)

end Parsers

end LsLang.Oran
