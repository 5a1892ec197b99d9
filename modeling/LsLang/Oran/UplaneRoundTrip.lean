import LsLang.Oran.UplaneSamples
import Mathlib.Algebra.Order.BigOperators.Group.List

/-! Which U-plane frames are written as they were parsed. The parser keeps the width and the method with
each section and leaves those of the message at zero, and these are what the writer writes with. -/

namespace LsLang.Oran

open LsLang.Core LsLang.Lib

section Sections

structure Body (cm iw : ℤ) (prbs : List UplanePrb) (body : Str) : Prop where
  length : body.length = prbs.length * ((if hasParam cm then 1 else 0) + 3 * iw.toNat)
  written : ∃ out : Str, out.length = prbs.length * 48 ∧
    (∀ w, prbs.foldl (fun w prb => prb.write 0 16 w) w = w.bytes out) ∧
    (hasParam cm = false → iw = 16 → out = body)

theorem consumes_prb (cm iw : ℤ) :
    Consumes (parseUplanePrb cm iw) fun prb cs => Body cm iw [prb] cs := by
  unfold parseUplanePrb
  have hparam : Consumes (if hasParam cm then beU8 else pure 0 : Parse ℤ) fun _ cs =>
      cs.length = if hasParam cm then 1 else 0 := by
    split
    · exact consumes_beU8.mono fun _ _ h => h.1
    · exact Consumes.pure rfl
  refine hparam.bind fun x bs hbs => (consumes_takeIq iw).bind fun iq cs hcs => Consumes.pure ?_
  obtain ⟨hlen, hi, hq, hbits⟩ := hcs
  obtain ⟨out, hout, hwrite, hob⟩ := @write_prb ⟨x, iq.1, iq.2⟩ hi hq
  rw [List.append_nil]
  refine ⟨by grind, out, hout, hwrite,
    fun hc hw => ?_⟩
  have hnil : bs = [] := by grind
  rw [hnil, List.nil_append]
  exact bitsOf_inj (hob.trans (hbits hw))

theorem Body.flatten {cm iw : ℤ} {prbs : List UplanePrb} {css : List Str}
    (h : List.Forall₂ (fun prb cs => Body cm iw [prb] cs) prbs css) :
    Body cm iw prbs css.flatten := by
  induction h with
  | nil => exact ⟨by simp, [], by simp, fun w => (bytes_nil w).symm, fun _ _ => rfl⟩
  | @cons prb cs prbs css hp _ ih =>
    obtain ⟨out, hout, hwrite, heq⟩ := hp.written
    obtain ⟨out', hout', hwrite', heq'⟩ := ih.written
    refine ⟨?_, out ++ out', ?_, fun w => ?_, fun hc hw => ?_⟩
    · rw [List.flatten_cons, List.length_append, hp.length, ih.length]
      grind
    · grind
    · have hfirst : prb.write 0 16 w = w.bytes out := hwrite w
      rw [List.foldl_cons, hfirst, hwrite', bytes_bytes]
    grind

def numPrbuOf (h : Str) : ℤ := ofDigits h % 2 ^ 8

structure SectionOf (ct : Profile) (s : UplaneSection) (h c body : Str) : Prop where
  header : toDigits UInt8 4 (sectionWord s.sectionId s.rb s.symInc s.startPrbu s.numPrbu) = h
  length : h.length = 4
  numPrbu : s.numPrbu = numPrbuOf h
  count : s.prbs.length = (prbsOf s.numPrbu ct.carrierPrbs).toNat
  static : ct.uStatic = true → c = [] ∧ s.compMeth = ct.uCompMeth ∧ s.iqWidth = widthOf ct.uIqWidth
  dynamic : ct.uStatic = false →
    ∃ o rsvd, c = [o, rsvd] ∧ (o = 0 → s.compMeth = 0 ∧ s.iqWidth = 16)
  body : Body s.compMeth s.iqWidth s.prbs body

theorem toDigits_sectionWord {h : Str} (hl : h.length = 4) {sid rb syi sp np : ℤ}
    (hf : fields [12, 1, 1, 10, 8] (ofDigits h) = [sid, rb, syi, sp, np]) :
    toDigits UInt8 4 (sectionWord sid (flag rb) (flag syi) sp np) = h := by
  have hfit := fieldsFit_fields [12, 1, 1, 10, 8] (ofDigits h)
  rw [hf] at hfit
  obtain ⟨hsid, hrb, hsyi, hsp, hnp⟩ : InBits 12 sid ∧ InBits 1 rb ∧ InBits 1 syi ∧ InBits 10 sp ∧
      InBits 8 np := by
    simpa [FieldsFit, InBits] using hfit
  have hsum : [12, 1, 1, 10, 8].sum = 8 * 4 := rfl
  grind [b2i_flag, sectionWord_emod, toDigits_of_fields]

theorem consumes_udComp : Consumes parseUdComp fun hdr cs => ∃ o rsvd iqw cmth, cs = [o, rsvd] ∧
    hdr = [iqw, cmth] ∧ (o = 0 → iqw = 0 ∧ cmth = 0) := by
  unfold parseUdComp
  refine consumes_beU8.bind fun v bs ⟨lb, eb⟩ => consumes_beU8.bind fun u cs ⟨lc, _⟩ =>
    Consumes.pure ?_
  obtain ⟨o, rfl⟩ := List.length_eq_one_iff.mp lb
  obtain ⟨rsvd, rfl⟩ := List.length_eq_one_iff.mp lc
  refine ⟨o, rsvd, _, _, rfl, rfl, ?_⟩
  rintro rfl
  subst eb
  exact ⟨rfl, rfl⟩

theorem consumes_section (ct : Profile) : Consumes (parseUplaneSection ct) fun s cs =>
    ∃ h c body, cs = h ++ (c ++ body) ∧ SectionOf ct s h c body := by
  unfold parseUplaneSection
  refine consumes_beU32.bind fun v h ⟨hl, hv⟩ => ?_
  obtain ⟨sid, rb, syi, sp, np, hf⟩ : ∃ sid rb syi sp np,
      fields [12, 1, 1, 10, 8] v = [sid, rb, syi, sp, np] := ⟨_, _, _, _, _, rfl⟩
  have hnp : np = numPrbuOf h := by
    have hlast : (fields [12, 1, 1, 10, 8] v)[4]? = some (v / 2 ^ 0 % 2 ^ 8) := rfl
    rw [hf] at hlast
    have := Option.some.inj hlast
    rw [this, hv, pow_zero, Int.ediv_one]
    rfl
  have hword : toDigits UInt8 4 (sectionWord sid (flag rb) (flag syi) sp np) = h :=
    toDigits_sectionWord hl (hv ▸ hf)
  rw [hf]
  cases hs : ct.uStatic with
  | true =>
    refine Consumes.bind (Consumes.pure (U := fun hdr cs => hdr = [] ∧ cs = []) ⟨rfl, rfl⟩) ?_
    rintro _ _ ⟨rfl, rfl⟩
    refine ((consumes_prb _ _).collect _).bind fun prbs body hb => Consumes.pure ?_
    obtain ⟨hcount, css, hall, rfl⟩ := hb
    exact ⟨h, [], css.flatten, by simp,
      ⟨hword, hl, hnp, hcount, fun _ => ⟨rfl, rfl, rfl⟩, fun hd => absurd (hs.symm.trans hd) (by decide),
        Body.flatten hall⟩⟩
  | false =>
    refine consumes_udComp.bind ?_
    rintro _ _ ⟨o, rsvd, iqw, cmth, rfl, rfl, hzero⟩
    refine ((consumes_prb _ _).collect _).bind fun prbs body hb => Consumes.pure ?_
    obtain ⟨hcount, css, hall, rfl⟩ := hb
    refine ⟨h, [o, rsvd], css.flatten, by simp,
      ⟨hword, hl, hnp, hcount, fun hd => absurd (hs.symm.trans hd) (by decide), fun _ => ⟨o, rsvd, rfl, ?_⟩,
        Body.flatten hall⟩⟩
    intro ho
    obtain ⟨rfl, rfl⟩ := hzero ho
    exact ⟨rfl, rfl⟩

def Part (ct : Profile) (s : UplaneSection) (cs : Str) : Prop :=
  ∃ h c body, cs = h ++ (c ++ body) ∧ SectionOf ct s h c body

theorem uplaneLoop_ok {ct : Profile} {frameEnd : ℤ} {fuel : ℕ} {pre rest : Str}
    {secs : List UplaneSection} {r : Reader} (hlen : (pre ++ rest).length < 2 ^ 31)
    (h : uplaneLoop ct frameEnd fuel ⟨pre ++ rest, pre.length⟩ = .ok (secs, r)) :
    ∃ css post, rest = css.flatten ++ post ∧ List.Forall₂ (Part ct) secs css ∧
      frameEnd ≤ (pre ++ css.flatten).length := by
  induction fuel generalizing pre rest secs r with
  | zero => cases h
  | succ fuel ih =>
    by_cases hpos : (pre.length : ℤ) < frameEnd
    · have hstep : uplaneLoop ct frameEnd (fuel + 1) ⟨pre ++ rest, pre.length⟩ =
          (parseUplaneSection ct >>= fun s => uplaneLoop ct frameEnd fuel >>= fun rest =>
            pure (s :: rest)) ⟨pre ++ rest, pre.length⟩ := by
        show (if (pre.length : ℤ) < frameEnd then _ else _ : Parse _) _ = _
        rw [if_pos hpos]
      rw [hstep] at h
      obtain ⟨s, cs, mid, rfl, hs, h⟩ := (consumes_section ct).step hlen h
      obtain ⟨ss, r1, hloop, hpure⟩ := bind_eq_ok h
      rw [← List.append_assoc] at hlen
      obtain ⟨css, post, rfl, hall, hend⟩ := ih hlen hloop
      cases hpure
      refine ⟨cs :: css, post, by simp, .cons hs hall, ?_⟩
      grind
    · have hstop : uplaneLoop ct frameEnd (fuel + 1) ⟨pre ++ rest, pre.length⟩ =
          .ok ([], ⟨pre ++ rest, pre.length⟩) := by
        show (if (pre.length : ℤ) < frameEnd then _ else _ : Parse _) _ = _
        rw [if_neg hpos]
        rfl
      rw [hstop] at h
      cases h
      exact ⟨[], rest, rfl, .nil, by simpa using hpos⟩

end Sections

section Written

variable {ct : Profile} {s : UplaneSection} {secs : List UplaneSection} {css : List Str}

theorem write_section {h c body : Str} (hs : SectionOf ct s h c body) :
    ∃ out : Str, out.length = s.prbs.length * 48 ∧
      (∀ w, s.write ct.uStatic 0 16 w =
        w.bytes (h ++ ((if ct.uStatic then [] else [0, 0]) ++ out))) ∧
      (hasParam s.compMeth = false → s.iqWidth = 16 → out = body) := by
  obtain ⟨out, hlen, hwrite, heq⟩ := hs.body.written
  refine ⟨out, hlen, fun w => ?_, heq⟩
  have hhdr : Int.lor (shl (16 % 16) 4) (0 % 16) = 0 := by decide
  have hzero : toDigits UInt8 1 0 = [0] := rfl
  unfold UplaneSection.write
  simp only [hhdr]
  rw [hwrite]
  cases ct.uStatic with
  | true => simp only [if_true, beU32_eq, hs.header, bytes_bytes, List.nil_append]
  | false =>
    simp only [Bool.false_eq_true, if_false, byte_eq, hzero, beU32_eq, hs.header, bytes_bytes,
      List.append_assoc]
    rfl

/-- The bytes of sections of uncompressed samples of 16 bits: two zero octets behind the header, and
48 for each PRB. -/
inductive PlainSections (carrierPrbs : ℤ) : Str → Prop
  | nil : PlainSections carrierPrbs []
  | cons {h body rest : Str} (length : h.length = 4)
      (prbs : body.length = (prbsOf (numPrbuOf h) carrierPrbs).toNat * 48)
      (sections : PlainSections carrierPrbs rest) :
      PlainSections carrierPrbs (h ++ ([0, 0] ++ (body ++ rest)))

theorem PlainSections.inv {carrierPrbs : ℤ} {cs : Str} (h : PlainSections carrierPrbs cs) :
    cs = [] ∨ ∃ h body rest : Str, cs = h ++ ([0, 0] ++ (body ++ rest)) ∧ h.length = 4 ∧
      body.length = (prbsOf (numPrbuOf h) carrierPrbs).toNat * 48 ∧
      PlainSections carrierPrbs rest := by
  cases h with
  | nil => exact .inl rfl
  | @cons h body rest length prbs sections => grind

theorem write_sections_dynamic (hd : ct.uStatic = false) (hall : List.Forall₂ (Part ct) secs css) :
    ∃ out : Str, (∀ w, secs.foldl (fun w s => s.write false 0 16 w) w = w.bytes out) ∧
      (out = css.flatten ↔ PlainSections ct.carrierPrbs css.flatten) := by
  induction hall with
  | nil => exact ⟨[], fun w => (bytes_nil w).symm, fun _ => .nil, fun _ => rfl⟩
  | @cons s cs secs css hpart _ ih =>
    obtain ⟨h, c, body, rfl, hs⟩ := hpart
    obtain ⟨o, rsvd, rfl, hzero⟩ := hs.dynamic hd
    obtain ⟨first, -, hwrite, heq⟩ := write_section hs
    obtain ⟨rest, hrest, hiff⟩ := ih
    rw [hd] at hwrite
    have hbody : s.compMeth = 0 → s.iqWidth = 16 →
        first = body ∧ body.length = (prbsOf (numPrbuOf h) ct.carrierPrbs).toNat * 48 := by
      intro hc hw
      have hparam : hasParam s.compMeth = false := by rw [hc]; rfl
      refine ⟨heq hparam hw, ?_⟩
      have hl := hs.body.length
      rw [hparam, hw, hs.count, hs.numPrbu] at hl
      exact hl
    refine ⟨h ++ ([0, 0] ++ (first ++ rest)), fun w => ?_, ?_⟩
    · rw [List.foldl_cons, hwrite, hrest, bytes_bytes]
      simp
    rw [List.flatten_cons]
    have hcs : h ++ ([o, rsvd] ++ body) ++ css.flatten =
        h ++ ([o, rsvd] ++ (body ++ css.flatten)) := by simp
    rw [hcs]
    constructor
    · intro he
      obtain ⟨ho, htail⟩ := List.append_inj (List.append_cancel_left he) rfl
      cases ho
      obtain ⟨hc, hw⟩ := hzero rfl
      obtain ⟨rfl, hlen⟩ := hbody hc hw
      exact .cons hs.length hlen (hiff.mp (List.append_cancel_left htail))
    · intro hp
      rcases hp.inv with hnil | ⟨h', body', rest', he, hl', hb', hp'⟩
      · have := congrArg List.length hnil
        grind
      · obtain ⟨rfl, htail⟩ := List.append_inj he (by rw [hs.length, hl'])
        grind [List.append_inj]

theorem write_sections_static (hst : ct.uStatic = true) (hall : List.Forall₂ (Part ct) secs css) :
    ∃ out : Str, (∀ w, secs.foldl (fun w s => s.write true 0 16 w) w = w.bytes out) ∧
      out.length = 4 * secs.length + (secs.map fun s => s.prbs.length).sum * 48 ∧
      css.flatten.length = 4 * secs.length + (secs.map fun s => s.prbs.length).sum *
        ((if hasParam ct.uCompMeth then 1 else 0) + 3 * (widthOf ct.uIqWidth).toNat) ∧
      (hasParam ct.uCompMeth = false → widthOf ct.uIqWidth = 16 → out = css.flatten) := by
  induction hall with
  | nil => exact ⟨[], fun w => (bytes_nil w).symm, by simp, by simp, fun _ _ => rfl⟩
  | @cons s cs secs css hpart _ ih =>
    obtain ⟨h, c, body, rfl, hs⟩ := hpart
    obtain ⟨rfl, hc, hw⟩ := hs.static hst
    obtain ⟨first, hlen, hwrite, heq⟩ := write_section hs
    obtain ⟨rest, hrest, hout, hflat, hsame⟩ := ih
    have hbody := hs.body.length
    rw [hst] at hwrite
    rw [hc, hw] at heq hbody
    refine ⟨h ++ (first ++ rest), fun w => ?_, ?_, ?_, fun hp h16 => ?_⟩
    · rw [List.foldl_cons, hwrite, hrest, bytes_bytes]
      simp
    · simp only [List.length_append, hs.length, hlen, hout, List.length_cons, List.map_cons,
        List.sum_cons]
      ring
    · simp only [List.flatten_cons, List.length_append, hs.length, hbody, hflat, List.length_cons,
        List.map_cons, List.sum_cons, List.length_nil]
      ring
    grind

end Written

section Frame

/-- A U-plane frame that is parsed: its length field is right, its reserved bits are zero and the PRBs
of the carrier are known where a section has all of them. -/
structure IsFrame (ct : Profile) (bytes : Str) (m : UplaneMsg) : Prop where
  parsed : ∃ r, parseUplane ct ⟨bytes, 0⟩ = .ok (m, r)
  payloadSize : ofDigits ((bytes.drop 2).take 2) = (bytes.length : ℤ) - 4
  reserved : reservedBits (ofDigits (bytes.take 1)) = 0
  carrierPrbs : ∀ s ∈ m.sections, s.numPrbu = 0 → 0 < ct.carrierPrbs

/-- Nothing in the frame needs another width or method than the one of the message: under static
compression the profile has 16 bits and no parameters, or there are no sections; else the octets for
compression are zero in every section. -/
def PlainFrame (ct : Profile) (bytes : Str) : Prop :=
  if ct.uStatic then
    bytes.length = 12 ∨ (widthOf ct.uIqWidth = 16 ∧ hasParam ct.uCompMeth = false)
  else PlainSections ct.carrierPrbs (bytes.drop 12)

variable {ct : Profile} {bytes : Str} {m : UplaneMsg}

structure Layout (ct : Profile) (bytes : Str) (m : UplaneMsg) (e o : Str) (css : List Str) :
    Prop where
  bytes_eq : bytes = e ++ (o ++ css.flatten)
  length_e : e.length = 8
  length_o : o.length = 4
  ecpri : ∀ w, m.ecpri.write w = w.bytes e
  octets : ∀ w : Writer, ((w.byte
    (Int.lor (Int.lor (shl (b2i m.dir) 7) (shl m.payloadVer 4)) m.filterIdx)).byte
      m.frameId).beU16 (Int.lor (Int.lor (shl m.subframeId 12) (shl m.slotId 6)) m.symbolId) =
        w.bytes o
  static : m.staticComp = ct.uStatic
  width : m.iqWidth = 0
  method : m.compMeth = 0
  sections : List.Forall₂ (Part ct) m.sections css

theorem toDigits_octet9 {cs : Str} (hl : cs.length = 1) {d pv fi : ℤ}
    (hf : fields [1, 3, 4] (ofDigits cs) = [d, pv, fi]) :
    toDigits UInt8 1 (Int.lor (Int.lor (shl (b2i (flag d)) 7) (shl pv 4)) fi) = cs := by
  have hfit := fieldsFit_fields [1, 3, 4] (ofDigits cs)
  rw [hf] at hfit
  obtain ⟨hd, hp, hi⟩ : InBits 1 d ∧ InBits 3 pv ∧ InBits 4 fi := by
    simpa [FieldsFit, InBits] using hfit
  have hsum : [1, 3, 4].sum = 8 * 1 := rfl
  apply toDigits_of_fields hl hsum
  rw [hf, octet9_emod _ hp hi, b2i_flag hd]

theorem toDigits_octet11 {cs : Str} (hl : cs.length = 2) {sf sl sy : ℤ}
    (hf : fields [4, 6, 6] (ofDigits cs) = [sf, sl, sy]) :
    toDigits UInt8 2 (Int.lor (Int.lor (shl sf 12) (shl sl 6)) sy) = cs := by
  have hfit := fieldsFit_fields [4, 6, 6] (ofDigits cs)
  rw [hf] at hfit
  obtain ⟨hsf, hsl, hsy⟩ : InBits 4 sf ∧ InBits 6 sl ∧ InBits 6 sy := by
    simpa [FieldsFit, InBits] using hfit
  have hsum : [4, 6, 6].sum = 8 * 2 := rfl
  apply toDigits_of_fields hl hsum
  rw [hf, octet11_emod hsf hsl hsy]

theorem IsFrame.layout (h : IsFrame ct bytes m) : ∃ e o css, Layout ct bytes m e o css := by
  obtain ⟨⟨r, hparse⟩, hpay, hres, -⟩ := h
  have hshort : bytes.length < 2 ^ 17 := by
    have hb := (ofDigits_bounds ((bytes.drop 2).take 2)).2
    have hl : ((bytes.drop 2).take 2).length ≤ 2 := by simp
    have hp : Digit.base UInt8 ^ ((bytes.drop 2).take 2).length ≤ 256 ^ 2 :=
      pow_le_pow_right₀ (by decide) hl
    omega
  have hstart : (⟨bytes, 0⟩ : Reader) = ⟨[] ++ bytes, (([] : Str).length : ℕ)⟩ := rfl
  have hlen : (([] : Str) ++ bytes).length < 2 ^ 31 := by grind
  unfold parseUplane at hparse
  rw [get_bind, hstart] at hparse
  -- the header, octet by octet
  obtain ⟨ecpri, e, t1, rfl, ⟨le, hsize, hwrite⟩, hparse⟩ := consumes_ecpri.step hlen hparse
  rw [← List.append_assoc] at hlen
  obtain ⟨v9, c9, t2, rfl, ⟨l9, e9⟩, hparse⟩ := consumes_beU8.step hlen hparse
  obtain ⟨d, pv, fi, hf9⟩ : ∃ d pv fi, fields [1, 3, 4] v9 = [d, pv, fi] := ⟨_, _, _, rfl⟩
  rw [hf9] at hparse
  rw [← List.append_assoc] at hlen
  obtain ⟨v10, c10, t3, rfl, ⟨l10, e10⟩, hparse⟩ := consumes_beU8.step hlen hparse
  rw [← List.append_assoc] at hlen
  obtain ⟨v11, c11, t4, rfl, ⟨l11, e11⟩, hparse⟩ := consumes_beU16.step hlen hparse
  obtain ⟨sf, sl, sy, hf11⟩ : ∃ sf sl sy, fields [4, 6, 6] v11 = [sf, sl, sy] := ⟨_, _, _, rfl⟩
  rw [hf11] at hparse
  rw [← List.append_assoc] at hlen
  -- then the sections, up to the end of the frame
  obtain ⟨secs, r1, hloop, hpure⟩ := bind_eq_ok hparse
  obtain ⟨css, post, rfl, hall, hend⟩ := uplaneLoop_ok hlen hloop
  cases hpure
  have htake : ∀ t : Str, (e ++ t).take 1 = e.take 1 := fun t => by grind
  have hdrop : ∀ t : Str, ((e ++ t).drop 2).take 2 = (e.drop 2).take 2 := fun t => by grind
  rw [hdrop] at hpay
  rw [htake] at hres
  have hpost : post = [] := by
    have h4 : i32 (((([] : Str).length : ℕ) : ℤ) + 4) = 4 := by decide
    rw [← hsize] at hpay
    have hend' : i32 (i32 (((([] : Str).length : ℕ) : ℤ) + 4) + ecpri.payloadSize) ≤ _ := hend
    rw [h4, hpay] at hend'
    simp only [List.length_append, List.length_nil, Nat.cast_add] at hend' hshort hpay
    rw [i32_eq (by omega) (by omega)] at hend'
    exact List.length_eq_zero_iff.mp (by omega)
  subst hpost
  refine ⟨e, c9 ++ (c10 ++ c11), css, ⟨by simp, le, by simp; omega, hwrite hres, fun w => ?_, rfl, rfl,
    rfl, hall⟩⟩
  simp only [byte_eq, beU16_eq, bytes_bytes, toDigits_octet9 l9 (e9 ▸ hf9),
    toDigits_octet11 l11 (e11 ▸ hf11), e10, toDigits_of_bytes l10, List.append_assoc]

theorem patchBeU16_eq {a p : Str} (t : Str) (v : ℤ) (ha : a.length = 2) (hp : p.length = 2) :
    (⟨a ++ (p ++ t)⟩ : Writer).patchBeU16 2 v = ⟨a ++ (toDigits UInt8 2 v ++ t)⟩ := by
  obtain ⟨a0, a1, rfl⟩ := List.length_eq_two.mp ha
  obtain ⟨p0, p1, rfl⟩ := List.length_eq_two.mp hp
  simp [Writer.patchBeU16, toDigits, byteOf_eq, Digit.base,
    shr_eq (x := v) (k := 8) rfl (by decide)]

theorem Layout.write_eq_iff {e o out : Str} {css : List Str} (h : Layout ct bytes m e o css)
    (hpay : ofDigits ((bytes.drop 2).take 2) = (bytes.length : ℤ) - 4)
    (hout : ∀ w, m.sections.foldl (fun w s => s.write ct.uStatic 0 16 w) w = w.bytes out) :
    (m.write ⟨[]⟩).buf = bytes ↔ out = css.flatten := by
  obtain ⟨a, p, t, rfl, ha, hp⟩ : ∃ a p t, e = a ++ (p ++ t) ∧ a.length = 2 ∧ p.length = 2 := by
    have he := h.length_e
    exact ⟨e.take 2, (e.drop 2).take 2, (e.drop 2).drop 2, by rw [List.take_append_drop,
      List.take_append_drop], by simp; omega, by simp; omega⟩
  have hsections : ∀ w, m.sections.foldl
      (fun w s => s.write m.staticComp m.compMeth (widthOf m.iqWidth) w) w = w.bytes out := by
    rw [h.static, h.width, h.method]
    exact hout
  have hwrite : m.write ⟨[]⟩ = ⟨a ++ (toDigits UInt8 2 ((a ++ (p ++ (t ++ (o ++ out)))).length - 4) ++
      (t ++ (o ++ out)))⟩ := by
    have hbuf : m.sections.foldl (fun w s => s.write m.staticComp m.compMeth (widthOf m.iqWidth) w)
        ((((m.ecpri.write ⟨[]⟩).byte (Int.lor (Int.lor (shl (b2i m.dir) 7) (shl m.payloadVer 4))
          m.filterIdx)).byte m.frameId).beU16
            (Int.lor (Int.lor (shl m.subframeId 12) (shl m.slotId 6)) m.symbolId)) =
        ⟨a ++ (p ++ (t ++ (o ++ out)))⟩ := by
      rw [hsections, h.octets, h.ecpri]
      simp [Writer.bytes]
    unfold UplaneMsg.write
    simp only [hbuf]
    exact patchBeU16_eq _ _ ha hp
  have hbytes : bytes = a ++ (p ++ (t ++ (o ++ css.flatten))) := by
    rw [h.bytes_eq]
    simp
  have hp2 : (bytes.drop 2).take 2 = p := by grind
  rw [hwrite]
  constructor
  · intro he
    simp only at he
    rw [hbytes] at he
    obtain ⟨-, htail⟩ := List.append_inj (List.append_cancel_left he) (by simp [hp])
    exact List.append_cancel_left (List.append_cancel_left htail)
  grind [toDigits_of_bytes]

theorem IsFrame.prbs_pos {secs : List UplaneSection} {css : List Str}
    (hcarrier : ∀ s ∈ secs, s.numPrbu = 0 → 0 < ct.carrierPrbs)
    (hall : List.Forall₂ (Part ct) secs css) : ∀ s ∈ secs, 0 < s.prbs.length := by
  intro s hs
  obtain ⟨h, c, body, hpart⟩ : ∃ h c body, SectionOf ct s h c body := by
    induction hall with
    | nil => cases hs
    | cons hp _ ih =>
      rcases List.mem_cons.mp hs with rfl | hs
      · obtain ⟨h, c, body, -, hpart⟩ := hp
        grind
      grind
  have hnn : 0 ≤ s.numPrbu := by
    rw [hpart.numPrbu]
    exact Int.emod_nonneg _ (by decide)
  have hc := hcarrier s hs
  rw [hpart.count]
  unfold prbsOf
  grind

/-- A parsed frame is written byte for byte as it was exactly when it is plain. -/
theorem uplane_write_eq_iff (h : IsFrame ct bytes m) :
    (m.write ⟨[]⟩).buf = bytes ↔ PlainFrame ct bytes := by
  obtain ⟨e, o, css, hl⟩ := h.layout
  have hdrop : bytes.drop 12 = css.flatten := by
    rw [hl.bytes_eq, ← List.append_assoc]
    exact List.drop_left' (by rw [List.length_append, hl.length_e, hl.length_o])
  have hlen : bytes.length = 12 + css.flatten.length := by
    rw [hl.bytes_eq, List.length_append, List.length_append, hl.length_e, hl.length_o]
    omega
  unfold PlainFrame
  cases hst : ct.uStatic with
  | false =>
    obtain ⟨out, hout, hiff⟩ := write_sections_dynamic hst hl.sections
    rw [if_neg Bool.false_ne_true, hdrop, ← hiff]
    exact hl.write_eq_iff h.payloadSize (hst ▸ hout)
  | true =>
    obtain ⟨out, hout, hwritten, hread, hsame⟩ := write_sections_static hst hl.sections
    rw [if_pos rfl, hl.write_eq_iff h.payloadSize (hst ▸ hout)]
    constructor
    · intro he
      rw [he, hread] at hwritten
      by_cases hnil : m.sections = []
      · left
        rw [hnil] at hread
        rw [hlen, hread]
        simp
      · right
        -- with a PRB in it, the two lengths agree for 48 bytes only
        obtain ⟨s, hs⟩ := List.exists_mem_of_ne_nil _ hnil
        have hpos := IsFrame.prbs_pos h.carrierPrbs hl.sections s hs
        have hsum := List.le_sum_of_mem (List.mem_map_of_mem (f := fun s => s.prbs.length) hs)
        have hcancel := Nat.eq_of_mul_eq_mul_left (lt_of_lt_of_le hpos hsum)
          (Nat.add_left_cancel hwritten)
        cases hp : hasParam ct.uCompMeth with
        | true =>
          rw [hp, if_pos rfl] at hcancel
          omega
        | false =>
          rw [hp, if_neg Bool.false_ne_true] at hcancel
          exact ⟨by omega, rfl⟩
    · rintro (h12 | ⟨hw, hp⟩)
      · have hflat : css.flatten = [] := List.length_eq_zero_iff.mp (by omega)
        rw [hflat] at hread ⊢
        rw [List.length_nil] at hread
        have h0 : m.sections.length = 0 := by omega
        rw [List.length_eq_zero_iff.mp h0] at hwritten
        exact List.length_eq_zero_iff.mp hwritten
      · exact hsame hp hw

end Frame

section Examples

/-- Compression is signalled section by section. -/
def dynamicProfile : Profile :=
  { carrierPrbs := 273, sinrIqWidth := 0, sinrCompMeth := 0, uIqWidth := 0, uCompMeth := 0
    uStatic := false }

/-- One section of one PRB, with the octets for compression and the samples given. -/
def frameOf (payloadSize udCompHdr : UInt8) (samples : Str) : Str :=
  [0x10, 0, 0, payloadSize, 0, 1, 0, 2, 0x90, 7, 0, 0, 0x01, 0x20, 0x05, 0x01, udCompHdr, 0] ++ samples

def messageOf (payloadSize udCompHdr iqWidth : ℤ) (samples : List ℤ) : UplaneMsg :=
  { ecpri := ⟨1, false, 0, payloadSize, 1, 2⟩, dir := true, payloadVer := 1, filterIdx := 0
    frameId := 7, subframeId := 0, slotId := 0, symbolId := 0, staticComp := false, iqWidth := 0
    compMeth := 0
    sections := [{
      sectionId := 18, rb := false, symInc := false, startPrbu := 5, numPrbu := 1, udCompHdr
      compMeth := 0, iqWidth, prbs := [⟨0, samples, samples⟩] }] }

theorem plain_isFrame : IsFrame dynamicProfile (frameOf 62 0 (List.replicate 48 0x80))
    (messageOf 62 0 16 (List.replicate 12 (-32640))) where
  parsed := ⟨⟨frameOf 62 0 (List.replicate 48 0x80), 66⟩, by decide +kernel⟩
  payloadSize := by decide +kernel
  reserved := by decide +kernel
  carrierPrbs := by decide

theorem uplane_write_eq_iff_plain :
    ((messageOf 62 0 16 (List.replicate 12 (-32640))).write ⟨[]⟩).buf =
        frameOf 62 0 (List.replicate 48 0x80) ↔
      PlainFrame dynamicProfile (frameOf 62 0 (List.replicate 48 0x80)) :=
  uplane_write_eq_iff plain_isFrame

/-- A frame with samples of one bit is written with samples of sixteen. -/
theorem uplane_write_ne_narrow :
    IsFrame dynamicProfile (frameOf 17 0x10 [0xff, 0xff, 0xff])
        (messageOf 17 0x10 1 (List.replicate 12 (-1))) ∧
      ((messageOf 17 0x10 1 (List.replicate 12 (-1))).write ⟨[]⟩).buf ≠
        frameOf 17 0x10 [0xff, 0xff, 0xff] :=
  ⟨⟨⟨⟨frameOf 17 0x10 [0xff, 0xff, 0xff], 21⟩, by decide +kernel⟩, by decide +kernel,
    by decide +kernel, by decide⟩, by decide +kernel⟩

end Examples

end LsLang.Oran
