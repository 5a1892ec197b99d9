import LsLang.Oran.Wire

/-! The C-plane messages of `oran.cus` with section types 1 and 9, parsed and written. A struct literal
`{}` of the source is `default`. -/

namespace LsLang.Oran

open LsLang.Core LsLang.Lib

structure EcpriHdr where
  version : ℤ
  concat : Bool
  msgType : ℤ
  payloadSize : ℤ
  rtcidPcid : ℤ
  seqid : ℤ
  deriving DecidableEq, Inhabited

def parseEcpri : Parse EcpriHdr := do
  let h : EcpriHdr := match fields [4, 3, 1] (← beU8) with
    | [ver, _, cc] => { (default : EcpriHdr) with version := ver, concat := flag cc }
    | _ => default
  let msgType ← beU8
  let payloadSize ← beU16
  let rtcidPcid ← beU16
  let seqid ← beU16
  pure { h with msgType, payloadSize, rtcidPcid, seqid }

def EcpriHdr.write (h : EcpriHdr) (w : Writer) : Writer :=
  ((((w.byte (Int.lor (shl h.version 4) (b2i h.concat))).byte h.msgType).beU16
    h.payloadSize).beU16 h.rtcidPcid).beU16 h.seqid

structure CpCommonHdr where
  dir : Bool
  payloadVer : ℤ
  filterIdx : ℤ
  frameId : ℤ
  subframeId : ℤ
  slotId : ℤ
  startSymbolId : ℤ
  numSections : ℤ
  sectionType : ℤ
  deriving DecidableEq, Inhabited

def parseCpCommon : Parse CpCommonHdr := do
  let h : CpCommonHdr := match fields [1, 3, 4] (← beU8) with
    | [d, pv, fi] =>
      { (default : CpCommonHdr) with dir := flag d, payloadVer := pv, filterIdx := fi }
    | _ => default
  let frameId ← beU8
  let h : CpCommonHdr := match fields [4, 6, 6] (← beU16) with
    | [sf, sl, ss] => { h with frameId, subframeId := sf, slotId := sl, startSymbolId := ss }
    | _ => { h with frameId }
  let numSections ← beU8
  let sectionType ← beU8
  pure { h with numSections, sectionType }

def CpCommonHdr.write (h : CpCommonHdr) (w : Writer) : Writer :=
  ((((w.byte (Int.lor (Int.lor (shl (b2i h.dir) 7) (shl h.payloadVer 4)) h.filterIdx)).byte
    h.frameId).beU16 (Int.lor (Int.lor (shl h.subframeId 12) (shl h.slotId 6))
      h.startSymbolId)).byte h.numSections).byte h.sectionType

/-- `raw` is the body behind `extType` and `extLen`. -/
structure SecExt where
  extType : ℤ
  ef : Bool
  raw : Str
  deriving DecidableEq, Inhabited

/-- `se_extlen_is_wide` -/
def seExtlenIsWide (et : ℤ) : Bool := et == 11 || et == 19 || et == 20

def readRaw (n : ℤ) : Parse Str := do
  let bs ← collect beU8 n.toNat
  pure (bs.map byteOf)

def seHdr (et : ℤ) : ℤ := if seExtlenIsWide et then 3 else 2

def parseExtlen (et : ℤ) : Parse ℤ := if seExtlenIsWide et then beU16 else beU8

/-- `while more`, for as many rounds. -/
def seChainLoop : ℕ → Parse (List SecExt)
  | 0 => fun _ => .error .running
  | fuel + 1 => do
    let se : SecExt := match fields [1, 7] (← beU8) with
      | [efb, et] => { (default : SecExt) with ef := flag efb, extType := et }
      | _ => default
    let extlen ← parseExtlen se.extType
    let payload := i32 (i32 (extlen * 4) - seHdr se.extType)
    let raw ← readRaw (if payload < 0 then 0 else payload)
    let rest ← (if se.ef then seChainLoop fuel else pure [] : Parse (List SecExt))
    pure ({ se with raw } :: rest)

def parseSeChain : Parse (List SecExt) := fun r => seChainLoop (r.buf.length + 1) r

/-- `more` is whether another extension follows. -/
def SecExt.write (se : SecExt) (more : Bool) (w : Writer) : Writer :=
  let w := w.byte (Int.lor (shl (b2i more) 7) se.extType)
  let extlen := (se.raw.length + seHdr se.extType).tdiv 4
  (if seExtlenIsWide se.extType then w.beU16 extlen else w.byte extlen).bytes se.raw

def writeSeChain : List SecExt → Writer → Writer
  | [], w => w
  | se :: exts, w => writeSeChain exts (se.write (!exts.isEmpty) w)

structure SecType1 where
  sectionId : ℤ
  rb : Bool
  symInc : Bool
  startPrbc : ℤ
  numPrbc : ℤ
  reMask : ℤ
  numSymbol : ℤ
  ef : Bool
  beamId : ℤ
  exts : List SecExt
  deriving DecidableEq, Inhabited

def parseSt1Section : Parse SecType1 := do
  let s : SecType1 := match fields [12, 1, 1, 10, 8, 12, 4, 1, 15] (← beU64) with
    | [sid, rb, si, sp, np, rm, ns, ef, bid] =>
      { (default : SecType1) with
        sectionId := sid, rb := flag rb, symInc := flag si, startPrbc := sp, numPrbc := np
        reMask := rm, numSymbol := ns, ef := flag ef, beamId := bid }
    | _ => default
  if s.ef then do
    let exts ← parseSeChain
    pure { s with exts }
  else pure s

/-- `(x as u64) << k` -/
def shlU64 (x : ℤ) (k : ℕ) : ℤ := x % 2 ^ 64 * 2 ^ k % 2 ^ 64

def SecType1.word (s : SecType1) : ℤ :=
  Int.lor (Int.lor (Int.lor (Int.lor (Int.lor (Int.lor (Int.lor (Int.lor
    (shlU64 s.sectionId 52) (shlU64 (b2i s.rb) 51)) (shlU64 (b2i s.symInc) 50))
    (shlU64 s.startPrbc 40)) (shlU64 s.numPrbc 32)) (shlU64 s.reMask 20)) (shlU64 s.numSymbol 16))
    (shlU64 (b2i s.ef) 15)) (shlU64 s.beamId 0)

def SecType1.write (s : SecType1) (w : Writer) : Writer :=
  let w := w.beU64 s.word
  if s.ef then writeSeChain s.exts w else w

structure CplaneSt1 where
  ecpri : EcpriHdr
  hdr : CpCommonHdr
  udCompHdr : ℤ
  sections : List SecType1
  deriving DecidableEq, Inhabited

def parseSt1 : Parse CplaneSt1 := do
  let ecpri ← parseEcpri
  let hdr ← parseCpCommon
  let udCompHdr ← beU8
  let _reserved ← beU8
  let sections ← collect parseSt1Section hdr.numSections.toNat
  pure { ecpri, hdr, udCompHdr, sections }

def CplaneSt1.write (m : CplaneSt1) (w : Writer) : Writer :=
  m.sections.foldl (fun w s => s.write w) (((m.hdr.write (m.ecpri.write w)).byte m.udCompHdr).byte 0)

structure SinrPrb where
  compParam : ℤ
  sinrRaw : List ℤ
  deriving DecidableEq, Inhabited

structure SecType9 where
  sectionId : ℤ
  rb : Bool
  symInc : Bool
  startPrbu : ℤ
  numPrbu : ℤ
  prbs : List SinrPrb
  deriving DecidableEq, Inhabited

structure CplaneSt9 where
  ecpri : EcpriHdr
  hdr : CpCommonHdr
  numSinrPerPrb : ℤ
  oruCtrlSlotMaskId : ℤ
  iqWidth : ℤ
  compMeth : ℤ
  sections : List SecType9
  deriving DecidableEq, Inhabited

def widthOf (iqWidth : ℤ) : ℤ := if iqWidth = 0 then 16 else iqWidth

def prbsOf (numPrbu carrierPrbs : ℤ) : ℤ := if numPrbu = 0 then carrierPrbs else numPrbu

def parseSinrPrb (compMeth numSinr w : ℤ) : Parse SinrPrb := do
  let compParam ← (if compMeth = 1 then beU8 else pure 0 : Parse ℤ)
  let sinrRaw ← takeSamples numSinr.toNat w
  pure { compParam, sinrRaw }

def parseSt9Section (compMeth numSinr w carrierPrbs : ℤ) : Parse SecType9 := do
  let s : SecType9 := match fields [12, 1, 1, 10, 8] (← beU32) with
    | [sid, rb, syi, sp, np] =>
      { (default : SecType9) with
        sectionId := sid, rb := flag rb, symInc := flag syi, startPrbu := sp, numPrbu := np }
    | _ => default
  let prbs ← collect (parseSinrPrb compMeth numSinr w) (prbsOf s.numPrbu carrierPrbs).toNat
  pure { s with prbs }

def parseSt9 (iqWidth compMeth carrierPrbs : ℤ) : Parse CplaneSt9 := do
  let ecpri ← parseEcpri
  let hdr ← parseCpCommon
  let m : CplaneSt9 := match fields [3, 5] (← beU8) with
    | [nsinr, maskid] =>
      { (default : CplaneSt9) with numSinrPerPrb := nsinr, oruCtrlSlotMaskId := maskid }
    | _ => default
  let _reserved ← beU8
  let sections ← collect (parseSt9Section compMeth m.numSinrPerPrb (widthOf iqWidth) carrierPrbs)
    hdr.numSections.toNat
  pure { m with ecpri, hdr, iqWidth, compMeth, sections }

def sectionWord (sectionId : ℤ) (rb symInc : Bool) (startPrbu numPrbu : ℤ) : ℤ :=
  Int.lor (Int.lor (Int.lor (Int.lor (shl sectionId 20) (shl (b2i rb) 19)) (shl (b2i symInc) 18))
    (shl startPrbu 8)) numPrbu

def SinrPrb.write (compMeth iw : ℤ) (prb : SinrPrb) (w : Writer) : Writer :=
  pushSamples prb.sinrRaw iw (if compMeth = 1 then w.byte prb.compParam else w)

def SecType9.write (compMeth iw : ℤ) (s : SecType9) (w : Writer) : Writer :=
  s.prbs.foldl (fun w prb => prb.write compMeth iw w)
    (w.beU32 (sectionWord s.sectionId s.rb s.symInc s.startPrbu s.numPrbu))

def CplaneSt9.write (m : CplaneSt9) (w : Writer) : Writer :=
  m.sections.foldl (fun w s => s.write m.compMeth (widthOf m.iqWidth) w)
    (((m.hdr.write (m.ecpri.write w)).byte
      (Int.lor (shl m.numSinrPerPrb 5) m.oruCtrlSlotMaskId)).byte 0)

end LsLang.Oran
