import LsLang.Oran.Cplane
import LsLang.Oran.Samples

/-! The headers of the C-plane, word by word. -/

namespace LsLang.Oran

open LsLang.Core LsLang.Lib

/-- The value of a field of `w` bits. -/
def InBits (w : ℕ) (x : ℤ) : Prop := 0 ≤ x ∧ x < 2 ^ w

instance (w : ℕ) (x : ℤ) : Decidable (InBits w x) := by
  unfold InBits
  infer_instance

theorem inBits_b2i (b : Bool) : InBits 1 (b2i b) := by
  cases b <;> decide

@[simp] theorem flag_b2i (b : Bool) : flag (b2i b) = b := by
  cases b <;> rfl

theorem InBits.emod {w : ℕ} {x : ℤ} (h : InBits w x) : x % 2 ^ w = x := Int.emod_eq_of_lt h.1 h.2

theorem shl_emod {k : ℤ} {n : ℕ} (hk : k = n) (hn : n < 32) (x : ℤ) :
    shl x k % 2 ^ 32 = x * 2 ^ n % 2 ^ 32 := by
  rw [shl_eq hk hn, i32_emod]

theorem dvd_of_emod {k n : ℕ} (hk : k ≤ n) {a b : ℤ} (h : a % 2 ^ n = b % 2 ^ n)
    (hb : 2 ^ k ∣ b) : (2 : ℤ) ^ k ∣ a := by
  have hpow : (2 : ℤ) ^ k ∣ 2 ^ n := pow_dvd_pow 2 hk
  apply Int.dvd_of_emod_eq_zero
  rw [← Int.emod_emod_of_dvd a hpow, h, Int.emod_emod_of_dvd b hpow]
  exact Int.emod_eq_zero_of_dvd hb

theorem word_emod {n w : ℕ} {ws : List ℕ} {x : ℤ} {xs : List ℤ} {a : ℤ} (hn : (w :: ws).sum = n)
    (ha : a % 2 ^ n = x * 2 ^ ws.sum % 2 ^ n) (h : FieldsFit (w :: ws) (x :: xs)) :
    lorFields a ws xs % 2 ^ n = pack (w :: ws) (x :: xs) := by
  obtain ⟨h0, hlt⟩ := pack_bounds h
  have hle : ws.sum ≤ n := by grind
  have hrest : FieldsFit ws xs := by
    cases h
    assumption
  rw [hn] at hlt
  rw [lorFields_eq (dvd_of_emod hle ha (Dvd.intro_left x rfl)) hrest, Int.add_emod, ha,
    ← Int.add_emod]
  exact Int.emod_eq_of_lt h0 hlt

theorem InBits.shl {w n : ℕ} {x k : ℤ} (h : InBits w x) (hk : k = n) (hn : w + n < 32) :
    shl x k = x * 2 ^ n := by
  have hp : (0 : ℤ) < 2 ^ n := by positivity
  have hlt : x * 2 ^ n < 2 ^ (w + n) := by
    rw [pow_add]
    exact mul_lt_mul_of_pos_right h.2 hp
  have hle : (2 : ℤ) ^ (w + n) ≤ 2 ^ 31 := pow_le_pow_right₀ (by decide) (by omega)
  have h0 := mul_nonneg h.1 hp.le
  rw [shl_eq hk (by omega), i32_eq (by linarith) (by linarith)]

theorem lor_zero (x : ℤ) : Int.lor x 0 = x := by
  have h := lor_eq_add (one_dvd x) (b := 0) (k := 0) le_rfl one_pos
  rwa [add_zero] at h

section Headers

structure EcpriHdr.Fits (h : EcpriHdr) : Prop where
  version : InBits 4 h.version
  msgType : InBits 8 h.msgType
  payloadSize : InBits 16 h.payloadSize
  rtcidPcid : InBits 16 h.rtcidPcid
  seqid : InBits 16 h.seqid

theorem mirrors_ecpri {h : EcpriHdr} (hf : h.Fits) : Mirrors h.write parseEcpri h := by
  apply Mirrors.intro
  · intro w
    unfold EcpriHdr.write
    simp only [byte_eq, beU16_eq, bytes_bytes, List.append_assoc]
    exact rfl
  have hfit : FieldsFit [4, 3, 1] [h.version, 0, b2i h.concat] :=
    .cons hf.version (.cons (by decide) (.cons (inBits_b2i _) .nil))
  have hhigh : shl h.version 4 % 2 ^ 8 = h.version * 2 ^ [3, 1].sum % 2 ^ 8 := by
    rw [hf.version.shl (k := 4) (n := 4) rfl (by decide)]
    rfl
  have hword : Int.lor (shl h.version 4) (b2i h.concat) % 2 ^ 8 =
      pack [4, 3, 1] [h.version, 0, b2i h.concat] := by
    rw [← word_emod (n := 8) rfl hhigh hfit]
    simp [lorFields, lor_zero]
  refine Reads.bind (reads_byte hword) ?_
  rw [fields_pack hfit]
  refine Reads.bind (reads_byte hf.msgType.emod) ?_
  refine Reads.bind (reads_beU16 hf.payloadSize.emod) ?_
  refine Reads.bind (reads_beU16 hf.rtcidPcid.emod) ?_
  refine Reads.last (reads_beU16 hf.seqid.emod) ?_
  simp only [flag_b2i]

structure CpCommonHdr.Fits (h : CpCommonHdr) : Prop where
  payloadVer : InBits 3 h.payloadVer
  filterIdx : InBits 4 h.filterIdx
  frameId : InBits 8 h.frameId
  subframeId : InBits 4 h.subframeId
  slotId : InBits 6 h.slotId
  startSymbolId : InBits 6 h.startSymbolId
  numSections : InBits 8 h.numSections
  sectionType : InBits 8 h.sectionType

theorem octet9_emod (d : Bool) {pv fi : ℤ} (hp : InBits 3 pv) (hi : InBits 4 fi) :
    Int.lor (Int.lor (shl (b2i d) 7) (shl pv 4)) fi % 2 ^ 8 = pack [1, 3, 4] [b2i d, pv, fi] := by
  have hhigh : shl (b2i d) 7 % 2 ^ 8 = b2i d * 2 ^ [3, 4].sum % 2 ^ 8 := by
    rw [(inBits_b2i d).shl (k := 7) (n := 7) rfl (by decide)]
    rfl
  have hfit : FieldsFit [1, 3, 4] [b2i d, pv, fi] :=
    .cons (inBits_b2i d) (.cons hp (.cons hi .nil))
  rw [← word_emod (n := 8) rfl hhigh hfit, hp.shl (k := 4) (n := 4) rfl (by decide)]
  simp [lorFields]

theorem octet11_emod {sf sl ss : ℤ} (hf : InBits 4 sf) (hl : InBits 6 sl) (hs : InBits 6 ss) :
    Int.lor (Int.lor (shl sf 12) (shl sl 6)) ss % 2 ^ 16 = pack [4, 6, 6] [sf, sl, ss] := by
  have hhigh : shl sf 12 % 2 ^ 16 = sf * 2 ^ [6, 6].sum % 2 ^ 16 := by
    rw [hf.shl (k := 12) (n := 12) rfl (by decide)]
    rfl
  rw [← word_emod (n := 16) rfl hhigh (.cons hf (.cons hl (.cons hs .nil))),
    hl.shl (k := 6) (n := 6) rfl (by decide)]
  simp [lorFields]

theorem mirrors_cpCommon {h : CpCommonHdr} (hf : h.Fits) : Mirrors h.write parseCpCommon h := by
  apply Mirrors.intro
  · intro w
    unfold CpCommonHdr.write
    simp only [byte_eq, beU16_eq, bytes_bytes, List.append_assoc]
    exact rfl
  refine Reads.bind (reads_byte (octet9_emod h.dir hf.payloadVer hf.filterIdx)) ?_
  rw [fields_pack (.cons (inBits_b2i _) (.cons hf.payloadVer (.cons hf.filterIdx .nil)))]
  refine Reads.bind (reads_byte hf.frameId.emod) ?_
  refine Reads.bind (reads_beU16 (octet11_emod hf.subframeId hf.slotId hf.startSymbolId)) ?_
  rw [fields_pack (.cons hf.subframeId (.cons hf.slotId (.cons hf.startSymbolId .nil)))]
  refine Reads.bind (reads_byte hf.numSections.emod) ?_
  refine Reads.last (reads_byte hf.sectionType.emod) ?_
  simp only [flag_b2i]

theorem sectionWord_emod {sid sp np : ℤ} (rb syi : Bool) (hs : InBits 12 sid) (hp : InBits 10 sp)
    (hn : InBits 8 np) :
    sectionWord sid rb syi sp np % 2 ^ 32 =
      pack [12, 1, 1, 10, 8] [sid, b2i rb, b2i syi, sp, np] := by
  have hhigh : shl sid 20 % 2 ^ 32 = sid * 2 ^ [1, 1, 10, 8].sum % 2 ^ 32 :=
    shl_emod rfl (by decide) sid
  have hfit : FieldsFit [12, 1, 1, 10, 8] [sid, b2i rb, b2i syi, sp, np] :=
    .cons hs (.cons (inBits_b2i rb) (.cons (inBits_b2i syi) (.cons hp (.cons hn .nil))))
  rw [← word_emod (n := 32) rfl hhigh hfit, sectionWord,
    (inBits_b2i rb).shl (k := 19) (n := 19) rfl (by decide), (inBits_b2i syi).shl (k := 18) (n := 18) rfl (by decide),
    hp.shl (k := 8) (n := 8) rfl (by decide)]
  simp [lorFields]

theorem shlU64_eq {w k : ℕ} {x : ℤ} (h : InBits w x) (hk : w + k ≤ 64) :
    shlU64 x k = x * 2 ^ k := by
  have hp : (0 : ℤ) < 2 ^ k := by positivity
  have hlt : x * 2 ^ k < 2 ^ (w + k) := by
    rw [pow_add]
    exact mul_lt_mul_of_pos_right h.2 hp
  have hle : (2 : ℤ) ^ (w + k) ≤ 2 ^ 64 := pow_le_pow_right₀ (by decide) hk
  have hw : (2 : ℤ) ^ w ≤ 2 ^ 64 := pow_le_pow_right₀ (by decide) (by omega)
  rw [shlU64, Int.emod_eq_of_lt h.1 (lt_of_lt_of_le h.2 hw),
    Int.emod_eq_of_lt (mul_nonneg h.1 hp.le) (lt_of_lt_of_le hlt hle)]

end Headers

/-! What is written of a C-plane message is parsed to the same message. -/

section Extensions

/-- The extent of an extension is a number of words that `extLen` can say, and `ef` says whether more
of them follow. -/
structure SecExt.Fits (se : SecExt) (more : Bool) : Prop where
  extType : InBits 7 se.extType
  ef : se.ef = more
  words : (4 : ℤ) ∣ se.raw.length + seHdr se.extType
  extlen : (se.raw.length + seHdr se.extType) / 4 < 2 ^ (if seExtlenIsWide se.extType then 16 else 8)

def ChainFits : List SecExt → Prop
  | [] => True
  | se :: exts => se.Fits (!exts.isEmpty) ∧ ChainFits exts

theorem reads_raw (bs : Str) : Reads (collect beU8 bs.length) bs (bs.map Digit.val) := by
  induction bs with
  | nil => exact Reads.pure []
  | cons b bs ih =>
    have hb := Digit.val_bounds b
    have hdigit : toDigits UInt8 1 (Digit.val b) = [b] := by
      have := toDigits_ofDigits [b]
      rwa [ofDigits_cons, List.length_nil, pow_zero, mul_one, ofDigits, List.foldl_nil,
        add_zero] at this
    have hbyte := reads_byte (Int.emod_eq_of_lt hb.1 hb.2)
    rw [hdigit] at hbyte
    exact hbyte.bind (ih.last rfl)

theorem reads_readRaw (bs : Str) : Reads (readRaw bs.length) bs bs := by
  unfold readRaw
  rw [Int.toNat_natCast]
  refine (reads_raw bs).last ?_
  rw [List.map_map]
  congr 1
  calc bs.map (byteOf ∘ Digit.val)
      = bs.map id := List.map_congr_left fun b _ => Digit.ofInt_val b
    _ = bs := List.map_id bs

/-- `extLen` as it is written. -/
def extlenBytes (et extlen : ℤ) : Str := toDigits UInt8 (if seExtlenIsWide et then 2 else 1) extlen

theorem reads_extlen {et extlen : ℤ} (h0 : 0 ≤ extlen)
    (h : extlen < 2 ^ (if seExtlenIsWide et then 16 else 8)) :
    Reads (parseExtlen et) (extlenBytes et extlen) extlen := by
  unfold parseExtlen extlenBytes
  split
  · next hw =>
    rw [if_pos hw] at h
    exact reads_beU16 (Int.emod_eq_of_lt h0 h)
  · next hw =>
    rw [if_neg hw] at h
    exact reads_byte (Int.emod_eq_of_lt h0 h)

theorem SecExt.write_eq (se : SecExt) (more : Bool) (w : Writer) :
    se.write more w = w.bytes (toDigits UInt8 1 (Int.lor (shl (b2i more) 7) se.extType) ++
      (extlenBytes se.extType ((se.raw.length + seHdr se.extType).tdiv 4) ++ se.raw)) := by
  unfold SecExt.write extlenBytes
  split <;> simp only [byte_eq, beU16_eq, bytes_bytes, List.append_assoc]

theorem extType_emod (more : Bool) {et : ℤ} (h : InBits 7 et) :
    Int.lor (shl (b2i more) 7) et % 2 ^ 8 = pack [1, 7] [b2i more, et] := by
  have hhigh : shl (b2i more) 7 % 2 ^ 8 = b2i more * 2 ^ [7].sum % 2 ^ 8 := by
    rw [(inBits_b2i more).shl (k := 7) (n := 7) rfl (by decide)]
    rfl
  rw [← word_emod (n := 8) rfl hhigh (.cons (inBits_b2i more) (.cons h .nil))]
  simp [lorFields]

theorem mirrors_seChainLoop {exts : List SecExt} {fuel : ℕ} (hne : exts ≠ [])
    (hfuel : exts.length ≤ fuel) (h : ChainFits exts) :
    Mirrors (writeSeChain exts) (seChainLoop fuel) exts := by
  induction exts generalizing fuel with
  | nil => exact absurd rfl hne
  | cons se exts ih =>
    obtain ⟨fuel, rfl⟩ : ∃ k, fuel = k + 1 := ⟨fuel - 1, by grind⟩
    obtain ⟨hse, hexts⟩ := h
    -- the rest of the chain is read when there is one
    have hrest : Mirrors (writeSeChain exts)
        (if se.ef then seChainLoop fuel else pure []) exts := by
      rw [hse.ef]
      cases exts with
      | nil => exact ⟨[], fun w => (bytes_nil w).symm, Reads.pure []⟩
      | cons e es =>
        grind
    obtain ⟨bs, hwrite, hread⟩ := hrest
    set total : ℤ := se.raw.length + seHdr se.extType with htotal
    have hhdr : 2 ≤ seHdr se.extType ∧ seHdr se.extType ≤ 3 := by
      unfold seHdr
      split <;> decide
    have htdiv : total.tdiv 4 = total / 4 := Int.tdiv_eq_ediv_of_nonneg (by omega)
    have hmul : total / 4 * 4 = total := Int.ediv_mul_cancel hse.words
    have hlt := hse.extlen
    have hle : (2 : ℤ) ^ (if seExtlenIsWide se.extType then 16 else 8) ≤ 2 ^ 16 := by
      split <;> decide
    have hpayload : i32 (i32 (total / 4 * 4) - seHdr se.extType) = se.raw.length := by
      grind [add_sub_cancel_right, i32_eq]
    apply Mirrors.intro
    · intro w
      rw [writeSeChain, SecExt.write_eq, hwrite, bytes_bytes, List.append_assoc, List.append_assoc]
    refine Reads.bind (reads_byte (extType_emod _ hse.extType)) ?_
    rw [fields_pack (.cons (inBits_b2i _) (.cons hse.extType .nil))]
    rw [htdiv]
    refine Reads.bind (reads_extlen (by omega) hlt) ?_
    simp only [hpayload]
    rw [if_neg (by omega)]
    refine Reads.bind (reads_readRaw se.raw) ?_
    simp only [flag_b2i, ← hse.ef]
    exact hread.last rfl

theorem length_writeSeChain (exts : List SecExt) (w : Writer) :
    w.buf.length + exts.length ≤ (writeSeChain exts w).buf.length := by
  induction exts generalizing w with
  | nil => exact le_rfl
  | cons se exts ih =>
    have h := ih (se.write (!exts.isEmpty) w)
    rw [writeSeChain]
    refine le_trans ?_ h
    rw [SecExt.write_eq]
    simp only [Writer.bytes, List.length_append, length_toDigits, List.length_cons]
    omega

theorem mirrors_seChain {exts : List SecExt} (hne : exts ≠ []) (h : ChainFits exts) :
    Mirrors (writeSeChain exts) parseSeChain exts := by
  obtain ⟨bs, hwrite, -⟩ := mirrors_seChainLoop hne le_rfl h
  refine ⟨bs, hwrite, ?_⟩
  intro pre post hlen
  have hfuel : exts.length ≤ (pre ++ bs ++ post).length + 1 := by
    have hl := length_writeSeChain exts ⟨[]⟩
    rw [hwrite] at hl
    simp only [Writer.bytes, List.nil_append, List.length_nil, List.length_append] at hl ⊢
    omega
  obtain ⟨cs, hwrite', hread⟩ := mirrors_seChainLoop hne hfuel h
  have hbs : bs = cs := by
    have := (hwrite ⟨[]⟩).symm.trans (hwrite' ⟨[]⟩)
    simpa [Writer.bytes] using this
  subst hbs
  exact hread pre post hlen

end Extensions

section SectionType1

structure SecType1.Fits (s : SecType1) : Prop where
  sectionId : InBits 12 s.sectionId
  startPrbc : InBits 10 s.startPrbc
  numPrbc : InBits 8 s.numPrbc
  reMask : InBits 12 s.reMask
  numSymbol : InBits 4 s.numSymbol
  beamId : InBits 15 s.beamId
  ef : s.ef = !s.exts.isEmpty
  chain : ChainFits s.exts

variable {s : SecType1} {m : CplaneSt1}

theorem SecType1.word_emod (h : s.Fits) :
    s.word % 2 ^ 64 = pack [12, 1, 1, 10, 8, 12, 4, 1, 15]
      [s.sectionId, b2i s.rb, b2i s.symInc, s.startPrbc, s.numPrbc, s.reMask, s.numSymbol,
        b2i s.ef, s.beamId] := by
  have hhigh : shlU64 s.sectionId 52 % 2 ^ 64 =
      s.sectionId * 2 ^ [1, 1, 10, 8, 12, 4, 1, 15].sum % 2 ^ 64 := by
    rw [shlU64_eq h.sectionId (by decide)]
    rfl
  rw [← Oran.word_emod (n := 64) rfl hhigh (.cons h.sectionId (.cons (inBits_b2i _)
    (.cons (inBits_b2i _) (.cons h.startPrbc (.cons h.numPrbc (.cons h.reMask (.cons h.numSymbol
      (.cons (inBits_b2i _) (.cons h.beamId .nil)))))))))]
  unfold SecType1.word
  rw [shlU64_eq (inBits_b2i s.rb) (by decide), shlU64_eq (inBits_b2i s.symInc) (by decide),
    shlU64_eq h.startPrbc (by decide), shlU64_eq h.numPrbc (by decide),
    shlU64_eq h.reMask (by decide), shlU64_eq h.numSymbol (by decide),
    shlU64_eq (inBits_b2i s.ef) (by decide), shlU64_eq h.beamId (by decide)]
  rfl

theorem mirrors_st1Section (h : s.Fits) : Mirrors s.write parseSt1Section s := by
  have hfields := fields_pack (.cons h.sectionId (.cons (inBits_b2i s.rb)
    (.cons (inBits_b2i s.symInc) (.cons h.startPrbc (.cons h.numPrbc (.cons h.reMask
      (.cons h.numSymbol (.cons (inBits_b2i s.ef) (.cons h.beamId .nil)))))))))
  cases hef : s.ef with
  | false =>
    have hexts : s.exts = [] := by
      have := h.ef
      grind
    have hs : { s with exts := [] } = s := by rw [← hexts]
    apply Mirrors.intro
    · intro w
      rw [SecType1.write, hef, if_neg Bool.false_ne_true, beU64_eq]
    refine Reads.last (reads_beU64 (SecType1.word_emod h)) ?_
    simp only [hfields, flag_b2i]
    rw [if_neg (by simp [hef])]
    exact congrArg pure hs
  | true =>
    have hne : s.exts ≠ [] := by
      have := h.ef
      grind
    obtain ⟨bs, hwrite, hread⟩ := mirrors_seChain hne h.chain
    apply Mirrors.intro
    · intro w
      rw [SecType1.write, hef, if_pos rfl, beU64_eq, hwrite, bytes_bytes]
    refine Reads.bind (reads_beU64 (SecType1.word_emod h)) ?_
    simp only [hfields, flag_b2i]
    rw [if_pos hef]
    exact hread.last rfl

/-- The fields have their widths and the header counts the sections. -/
structure CplaneSt1.Fits (m : CplaneSt1) : Prop where
  ecpri : m.ecpri.Fits
  hdr : m.hdr.Fits
  udCompHdr : InBits 8 m.udCompHdr
  numSections : m.hdr.numSections = m.sections.length
  sections : ∀ s ∈ m.sections, s.Fits

theorem mirrors_st1 (h : m.Fits) : Mirrors m.write parseSt1 m := by
  obtain ⟨ecpri, hecpri, recpri⟩ := mirrors_ecpri h.ecpri
  obtain ⟨hdr, hhdr, rhdr⟩ := mirrors_cpCommon h.hdr
  obtain ⟨secs, hsecs, rsecs⟩ : ∃ bs, (∀ w, m.sections.foldl (fun w s => s.write w) w =
      w.bytes bs) ∧ Reads (collect parseSt1Section m.sections.length) bs m.sections :=
    Mirrors.foldl fun s hs => mirrors_st1Section (h.sections s hs)
  apply Mirrors.intro
  · intro w
    rw [CplaneSt1.write, hsecs, hecpri, hhdr]
    simp only [byte_eq, bytes_bytes, List.append_assoc]
    exact rfl
  refine recpri.bind (rhdr.bind ?_)
  refine Reads.bind (reads_byte h.udCompHdr.emod) ?_
  refine Reads.bind (reads_byte (Int.zero_emod _)) ?_
  rw [h.numSections, Int.toNat_natCast]
  exact rsecs.last rfl

end SectionType1

section SectionType9

structure SinrPrb.Fits (compMeth numSinr w : ℤ) (prb : SinrPrb) : Prop where
  compParam : InBits (if compMeth = 1 then 8 else 0) prb.compParam
  count : (prb.sinrRaw.length : ℤ) = numSinr
  sinrRaw : ∀ x ∈ prb.sinrRaw, BitReader.Fits w x

structure SecType9.Fits (compMeth numSinr w carrierPrbs : ℤ) (s : SecType9) : Prop where
  sectionId : InBits 12 s.sectionId
  startPrbu : InBits 10 s.startPrbu
  numPrbu : InBits 8 s.numPrbu
  count : (s.prbs.length : ℤ) = prbsOf s.numPrbu carrierPrbs
  prbs : ∀ prb ∈ s.prbs, prb.Fits compMeth numSinr w

structure CplaneSt9.Fits (carrierPrbs : ℤ) (m : CplaneSt9) : Prop where
  ecpri : m.ecpri.Fits
  hdr : m.hdr.Fits
  numSinrPerPrb : InBits 3 m.numSinrPerPrb
  oruCtrlSlotMaskId : InBits 5 m.oruCtrlSlotMaskId
  iqWidth : 0 ≤ m.iqWidth ∧ m.iqWidth < 32
  numSections : m.hdr.numSections = m.sections.length
  sections : ∀ s ∈ m.sections,
    s.Fits m.compMeth m.numSinrPerPrb (widthOf m.iqWidth) carrierPrbs

variable {compMeth numSinr carrierPrbs : ℤ} {n : ℕ} {m : CplaneSt9}

theorem mirrors_sinrPrb (hn : n < 31) {prb : SinrPrb}
    (h : prb.Fits compMeth numSinr ((n + 1 : ℕ) : ℤ)) :
    Mirrors (prb.write compMeth ((n + 1 : ℕ) : ℤ))
      (parseSinrPrb compMeth numSinr ((n + 1 : ℕ) : ℤ)) prb := by
  obtain ⟨bs, hwrite, hread⟩ := mirrors_samples hn h.sinrRaw
  have hcount : numSinr.toNat = prb.sinrRaw.length := by have := h.count; omega
  unfold parseSinrPrb SinrPrb.write
  rw [hcount]
  have hparam := h.compParam
  by_cases hc : compMeth = 1
  · simp only [hc, if_true] at hparam ⊢
    apply Mirrors.intro
    · intro w
      rw [hwrite, byte_eq, bytes_bytes]
    exact Reads.bind (reads_byte hparam.emod) (hread.last rfl)
  · simp only [hc, if_false] at hparam ⊢
    have h0 : prb.compParam = 0 := by
      obtain ⟨h0, h1⟩ := hparam
      omega
    apply Mirrors.intro
    · intro w
      rw [hwrite]
    refine Reads.bind (Reads.pure 0) (hread.last ?_)
    rw [← h0]

theorem mirrors_st9Section (hn : n < 31) {s : SecType9}
    (h : s.Fits compMeth numSinr ((n + 1 : ℕ) : ℤ) carrierPrbs) :
    Mirrors (s.write compMeth ((n + 1 : ℕ) : ℤ))
      (parseSt9Section compMeth numSinr ((n + 1 : ℕ) : ℤ) carrierPrbs) s := by
  obtain ⟨bs, hwrite, hread⟩ : ∃ bs, (∀ w, s.prbs.foldl
      (fun w prb => prb.write compMeth ((n + 1 : ℕ) : ℤ) w) w = w.bytes bs) ∧
      Reads (collect (parseSinrPrb compMeth numSinr ((n + 1 : ℕ) : ℤ)) s.prbs.length) bs s.prbs :=
    Mirrors.foldl fun prb hprb => mirrors_sinrPrb hn (h.prbs prb hprb)
  have hfit : FieldsFit [12, 1, 1, 10, 8] [s.sectionId, b2i s.rb, b2i s.symInc, s.startPrbu,
      s.numPrbu] := .cons h.sectionId (.cons (inBits_b2i s.rb) (.cons (inBits_b2i s.symInc)
        (.cons h.startPrbu (.cons h.numPrbu .nil))))
  have hcount : (prbsOf s.numPrbu carrierPrbs).toNat = s.prbs.length := by
    have := h.count
    omega
  apply Mirrors.intro
  · intro w
    rw [SecType9.write, hwrite, beU32_eq, bytes_bytes]
  refine Reads.bind (reads_beU32 (sectionWord_emod s.rb s.symInc h.sectionId h.startPrbu
    h.numPrbu)) ?_
  simp only [fields_pack hfit, flag_b2i, hcount]
  exact hread.last rfl

theorem mirrors_st9 (h : m.Fits carrierPrbs) :
    Mirrors m.write (parseSt9 m.iqWidth m.compMeth carrierPrbs) m := by
  obtain ⟨n, hn, hwidth⟩ : ∃ n : ℕ, n < 31 ∧ widthOf m.iqWidth = ((n + 1 : ℕ) : ℤ) := by
    obtain ⟨h0, h32⟩ := h.iqWidth
    unfold widthOf
    split
    · exact ⟨15, by decide, rfl⟩
    · exact ⟨(m.iqWidth - 1).toNat, by omega, by omega⟩
  obtain ⟨ecpri, hecpri, recpri⟩ := mirrors_ecpri h.ecpri
  obtain ⟨hdr, hhdr, rhdr⟩ := mirrors_cpCommon h.hdr
  have hsections := h.sections
  rw [hwidth] at hsections
  obtain ⟨secs, hsecs, rsecs⟩ : ∃ bs, (∀ w, m.sections.foldl
      (fun w s => s.write m.compMeth ((n + 1 : ℕ) : ℤ) w) w = w.bytes bs) ∧
      Reads (collect (parseSt9Section m.compMeth m.numSinrPerPrb ((n + 1 : ℕ) : ℤ) carrierPrbs)
        m.sections.length) bs m.sections :=
    Mirrors.foldl fun s hs => mirrors_st9Section hn (hsections s hs)
  have hfit : FieldsFit [3, 5] [m.numSinrPerPrb, m.oruCtrlSlotMaskId] :=
    .cons h.numSinrPerPrb (.cons h.oruCtrlSlotMaskId .nil)
  have hhigh : shl m.numSinrPerPrb 5 % 2 ^ 8 = m.numSinrPerPrb * 2 ^ [5].sum % 2 ^ 8 := by
    rw [h.numSinrPerPrb.shl (k := 5) (n := 5) rfl (by decide)]
    rfl
  have hoctet : Int.lor (shl m.numSinrPerPrb 5) m.oruCtrlSlotMaskId % 2 ^ 8 =
      pack [3, 5] [m.numSinrPerPrb, m.oruCtrlSlotMaskId] := by
    rw [← word_emod (n := 8) rfl hhigh hfit]
    simp [lorFields]
  unfold parseSt9
  rw [hwidth]
  apply Mirrors.intro
  · intro w
    rw [CplaneSt9.write, hwidth, hsecs, hecpri, hhdr]
    simp only [byte_eq, bytes_bytes, List.append_assoc]
    exact rfl
  refine recpri.bind (rhdr.bind ?_)
  refine Reads.bind (reads_byte hoctet) ?_
  refine Reads.bind (reads_byte (Int.zero_emod _)) ?_
  simp only [fields_pack hfit, h.numSections, Int.toNat_natCast]
  exact rsecs.last rfl

end SectionType9

theorem Mirrors.reads_write {α : Type} {f : Writer → Writer} {p : Parse α} {a : α}
    (h : Mirrors f p a) : Reads p (f ⟨[]⟩).buf a := by
  obtain ⟨bs, hf, hp⟩ := h
  rw [hf]
  exact hp

/-- The bytes of a message, wherever they stand in a buffer, are parsed to the message, and the reader
is behind them then. A section of type 9 with no PRB count has those of the whole carrier. -/
theorem cplane_parse_write (pre post : Str) :
    (∀ m : CplaneSt1, m.Fits → (pre ++ (m.write ⟨[]⟩).buf ++ post).length < 2 ^ 31 →
      parseSt1 ⟨pre ++ (m.write ⟨[]⟩).buf ++ post, pre.length⟩ =
        .ok (m, ⟨pre ++ (m.write ⟨[]⟩).buf ++ post, (pre ++ (m.write ⟨[]⟩).buf).length⟩)) ∧
    ∀ (m : CplaneSt9) (carrierPrbs : ℤ), m.Fits carrierPrbs →
      (pre ++ (m.write ⟨[]⟩).buf ++ post).length < 2 ^ 31 →
      parseSt9 m.iqWidth m.compMeth carrierPrbs ⟨pre ++ (m.write ⟨[]⟩).buf ++ post, pre.length⟩ =
        .ok (m, ⟨pre ++ (m.write ⟨[]⟩).buf ++ post, (pre ++ (m.write ⟨[]⟩).buf).length⟩) :=
  ⟨fun _ h => (mirrors_st1 h).reads_write pre post,
    fun _ _ h => (mirrors_st9 h).reads_write pre post⟩

section Examples

def oneSection (sectionType : ℤ) : CpCommonHdr :=
  { dir := true, payloadVer := 1, filterIdx := 0, frameId := 7, subframeId := 3, slotId := 1
    startSymbolId := 13, numSections := 1, sectionType }

def extended : CplaneSt1 :=
  { ecpri := ⟨1, false, 2, 32, 0x1234, 0xff80⟩, hdr := oneSection 1, udCompHdr := 0x91
    sections := [{
      sectionId := 4095, rb := false, symInc := true, startPrbc := 1023, numPrbc := 0
      reMask := 0xfff, numSymbol := 14, ef := true, beamId := 0x7fff
      exts := [⟨1, true, [1, 2]⟩, ⟨11, false, [3, 4, 5, 6, 7]⟩] }] }

def measured : CplaneSt9 :=
  { ecpri := ⟨1, false, 2, 20, 1, 2⟩, hdr := oneSection 9, numSinrPerPrb := 2
    oruCtrlSlotMaskId := 31, iqWidth := 9, compMeth := 1
    sections := [{
      sectionId := 2048, rb := true, symInc := false, startPrbu := 5, numPrbu := 1
      prbs := [⟨3, [-256, 255]⟩] }] }

theorem oneSection_fits {t : ℤ} (h : InBits 8 t) : (oneSection t).Fits :=
  ⟨(by decide : InBits 3 1), (by decide : InBits 4 0), (by decide : InBits 8 7),
    (by decide : InBits 4 3), (by decide : InBits 6 1), (by decide : InBits 6 13),
    (by decide : InBits 8 1), h⟩

theorem extended_fits : extended.Fits where
  ecpri := ⟨by decide, by decide, by decide, by decide, by decide⟩
  hdr := oneSection_fits (by decide)
  udCompHdr := by decide
  numSections := rfl
  sections := by
    intro s hs
    rw [List.mem_singleton.mp hs]
    exact ⟨by decide, by decide, by decide, by decide, by decide, by decide, rfl,
      ⟨by decide, rfl, by decide, by decide⟩, ⟨by decide, rfl, by decide, by decide⟩, trivial⟩

theorem measured_fits : measured.Fits 273 where
  ecpri := ⟨by decide, by decide, by decide, by decide, by decide⟩
  hdr := oneSection_fits (by decide)
  numSinrPerPrb := by decide
  oruCtrlSlotMaskId := by decide
  iqWidth := by decide
  numSections := rfl
  sections := by
    intro s hs
    rw [List.mem_singleton.mp hs]
    refine ⟨by decide, by decide, by decide, rfl, fun prb hprb => ?_⟩
    rw [List.mem_singleton.mp hprb]
    exact ⟨by decide, rfl, by decide⟩

theorem cplane_parse_write_extended_measured :
    parseSt1 ⟨[] ++ (extended.write ⟨[]⟩).buf ++ [0], 0⟩ =
        .ok (extended, ⟨[] ++ (extended.write ⟨[]⟩).buf ++ [0],
          ([] ++ (extended.write ⟨[]⟩).buf).length⟩) ∧
      parseSt9 9 1 273 ⟨[] ++ (measured.write ⟨[]⟩).buf ++ [0], 0⟩ =
        .ok (measured, ⟨[] ++ (measured.write ⟨[]⟩).buf ++ [0],
          ([] ++ (measured.write ⟨[]⟩).buf).length⟩) :=
  ⟨(cplane_parse_write [] [0]).1 extended extended_fits (by decide),
    (cplane_parse_write [] [0]).2 measured 273 measured_fits (by decide)⟩

/-- A section that counts no PRBs and has none. -/
def uncounted : CplaneSt9 :=
  { measured with
    sections := [{
      sectionId := 2048, rb := true, symInc := false, startPrbu := 5, numPrbu := 0, prbs := [] }] }

/-- The parser takes no count for the PRBs of the whole carrier, and these are not there. -/
theorem cplane_parse_write_not_uncounted :
    (uncounted.Fits 0 ∧ ∀ s ∈ uncounted.sections, (s.prbs.length : ℤ) = s.numPrbu) ∧
      parseSt9 uncounted.iqWidth uncounted.compMeth 273 ⟨(uncounted.write ⟨[]⟩).buf, 0⟩ =
        .error .abort := by
  refine ⟨⟨⟨measured_fits.ecpri, measured_fits.hdr, by decide, by decide, by decide, rfl, ?_⟩,
    by decide⟩, by decide +kernel⟩
  intro s hs
  rw [List.mem_singleton.mp hs]
  exact ⟨by decide, by decide, by decide, rfl, fun prb hprb => absurd hprb List.not_mem_nil⟩

end Examples

end LsLang.Oran
