import LsLang.Oran.Cplane

/-! The U-plane messages of `oran.cus`, parsed and written. -/

namespace LsLang.Oran

open LsLang.Core LsLang.Lib

/-- The part of the M-plane configuration that parsing needs. -/
structure Profile where
  carrierPrbs : ℤ
  sinrIqWidth : ℤ
  sinrCompMeth : ℤ
  uIqWidth : ℤ
  uCompMeth : ℤ
  uStatic : Bool
  deriving DecidableEq

structure UplanePrb where
  udCompParam : ℤ
  iSamples : List ℤ
  qSamples : List ℤ
  deriving DecidableEq, Inhabited

structure UplaneSection where
  sectionId : ℤ
  rb : Bool
  symInc : Bool
  startPrbu : ℤ
  numPrbu : ℤ
  udCompHdr : ℤ
  compMeth : ℤ
  iqWidth : ℤ
  prbs : List UplanePrb
  deriving DecidableEq, Inhabited

structure UplaneMsg where
  ecpri : EcpriHdr
  dir : Bool
  payloadVer : ℤ
  filterIdx : ℤ
  frameId : ℤ
  subframeId : ℤ
  slotId : ℤ
  symbolId : ℤ
  staticComp : Bool
  iqWidth : ℤ
  compMeth : ℤ
  sections : List UplaneSection
  deriving DecidableEq, Inhabited

def hasParam (cm : ℤ) : Bool := cm == 1 || cm == 2 || cm == 3

/-- The loop over the samples of a PRB, `iSample` and `qSample` in turn. -/
def takePairs (iw : ℤ) : ℕ → BitReader → Except Stop ((List ℤ × List ℤ) × BitReader)
  | 0, br => .ok (([], []), br)
  | n + 1, br => do
    let (i, br) ← br.takeSigned iw
    let (q, br) ← br.takeSigned iw
    let (iq, br) ← takePairs iw n br
    .ok ((i :: iq.1, q :: iq.2), br)

def takeIq (iw : ℤ) : Parse (List ℤ × List ℤ) := fun r => do
  let (iq, br) ← takePairs iw 12 (bitReader r)
  .ok (iq, r.seek br.align.bytePos)

def parseUplanePrb (cm iw : ℤ) : Parse UplanePrb := do
  let udCompParam ← (if hasParam cm then beU8 else pure 0 : Parse ℤ)
  let iq ← takeIq iw
  pure { udCompParam, iSamples := iq.1, qSamples := iq.2 }

/-- `udCompHdr` and the reserved octet behind it. -/
def parseUdComp : Parse (List ℤ) := do
  let hdr := fields [4, 4] (← beU8)
  let _rsvd ← beU8
  pure hdr

def parseUplaneSection (ct : Profile) : Parse UplaneSection := do
  let s : UplaneSection := match fields [12, 1, 1, 10, 8] (← beU32) with
    | [sid, rb, syi, sp, np] =>
      { (default : UplaneSection) with
        sectionId := sid, rb := flag rb, symInc := flag syi, startPrbu := sp, numPrbu := np }
    | _ => default
  let hdr ← (if ct.uStatic then pure [] else parseUdComp : Parse (List ℤ))
  let s : UplaneSection := match hdr with
    | [iqw, cmth] =>
      { s with udCompHdr := Int.lor (shl iqw 4) cmth, iqWidth := widthOf iqw, compMeth := cmth }
    | _ => { s with iqWidth := widthOf ct.uIqWidth, compMeth := ct.uCompMeth }
  let prbs ← collect (parseUplanePrb s.compMeth s.iqWidth)
    (prbsOf s.numPrbu ct.carrierPrbs).toNat
  pure { s with prbs }

/-- `while r.pos() < frame_end`, for as many rounds. -/
def uplaneLoop (ct : Profile) (frameEnd : ℤ) : ℕ → Parse (List UplaneSection)
  | 0 => fun _ => .error .running
  | fuel + 1 => do
    let r ← get
    if r.pos < frameEnd then do
      let s ← parseUplaneSection ct
      let rest ← uplaneLoop ct frameEnd fuel
      pure (s :: rest)
    else pure []

def parseUplaneSections (ct : Profile) (frameEnd : ℤ) : Parse (List UplaneSection) := fun r =>
  uplaneLoop ct frameEnd (r.buf.length + 1) r

def parseUplane (ct : Profile) : Parse UplaneMsg := do
  let r ← get
  let ecpri ← parseEcpri
  let m : UplaneMsg := { (default : UplaneMsg) with staticComp := ct.uStatic, ecpri }
  let m : UplaneMsg := match fields [1, 3, 4] (← beU8) with
    | [d, pv, fi] => { m with dir := flag d, payloadVer := pv, filterIdx := fi }
    | _ => m
  let frameId ← beU8
  let m : UplaneMsg := match fields [4, 6, 6] (← beU16) with
    | [sf, sl, sy] => { m with frameId, subframeId := sf, slotId := sl, symbolId := sy }
    | _ => { m with frameId }
  let frameEnd := i32 (i32 (r.pos + 4) + ecpri.payloadSize)
  let sections ← parseUplaneSections ct frameEnd
  pure { m with sections }

def UplanePrb.write (cm iw : ℤ) (prb : UplanePrb) (w : Writer) : Writer :=
  let w := if hasParam cm then w.byte prb.udCompParam else w
  ((List.range 12).foldl (fun s re => (s.push (prb.iSamples.getD re 0) iw).push
    (prb.qSamples.getD re 0) iw) (BitSink.mk w bitWriter)).align.w

def UplaneSection.write (static : Bool) (cm iw : ℤ) (s : UplaneSection) (w : Writer) : Writer :=
  let w := w.beU32 (sectionWord s.sectionId s.rb s.symInc s.startPrbu s.numPrbu)
  let w := if static then w else (w.byte (Int.lor (shl (iw % 16) 4) (cm % 16))).byte 0
  s.prbs.foldl (fun w prb => prb.write cm iw w) w

def UplaneMsg.write (m : UplaneMsg) (w : Writer) : Writer :=
  let frameStart := w.buf.length
  let w := (m.ecpri.write w).byte
    (Int.lor (Int.lor (shl (b2i m.dir) 7) (shl m.payloadVer 4)) m.filterIdx)
  let w := (w.byte m.frameId).beU16
    (Int.lor (Int.lor (shl m.subframeId 12) (shl m.slotId 6)) m.symbolId)
  let w := m.sections.foldl
    (fun w s => s.write m.staticComp m.compMeth (widthOf m.iqWidth) w) w
  w.patchBeU16 (frameStart + 2) (w.size - frameStart - 4)

/-! The pcap reader of `oran.cus`. -/

inductive Packet
  | cpSt1 (m : CplaneSt1)
  | cpSt9 (m : CplaneSt9)
  | up (m : UplaneMsg)
  deriving DecidableEq

def parsePacket (ct : Profile) : Parse Packet := do
  let r ← get
  seek (i32 (r.pos + 1))
  -- the type of the eCPRI message
  let msg ← beU8
  seek r.pos
  if msg = 0 then do
    let m ← parseUplane ct
    pure (.up m)
  else do
    seek (i32 (r.pos + 13))
    -- the section type
    let stype ← beU8
    seek r.pos
    if stype = 9 then do
      let m ← parseSt9 ct.sinrIqWidth ct.sinrCompMeth ct.carrierPrbs
      pure (.cpSt9 m)
    else do
      let m ← parseSt1
      pure (.cpSt1 m)

/-- `read_u32e`: a `u32` as an `int`. -/
def readU32e (buf : Str) (off : ℤ) (le : Bool) : Except Stop ℤ :=
  i32 <$> if le then loadLeU32 buf off else loadBeU32 buf off

def skipVlan (buf : Str) (et p : ℤ) : Except Stop (ℤ × ℤ) :=
  if et = 0x8100 then do
    let et ← loadBeU16 buf (i32 (p + 2))
    .ok (et, i32 (p + 4))
  else .ok (et, p)

def skipIpv4 (buf : Str) (et p : ℤ) : Except Stop ℤ :=
  if et = 0x0800 then do
    let b ← loadU8 buf p
    .ok (i32 (i32 (p + b % 16 * 4) + 8))
  else .ok p

def pcapEcpriOffset (buf : Str) (off : ℤ) : Except Stop ℤ := do
  let et ← loadBeU16 buf (i32 (off + 12))
  let (et, p) ← skipVlan buf et (i32 (off + 14))
  skipIpv4 buf et p

section Run

variable (data : Str) (prof : Profile) (le : Bool) (linktype : ℤ)

/-- The record at `pos`: a truncated one ends the loop, another gives its packet and where the next
one begins. -/
def pcapRecord (pos : ℤ) : Except Stop (Option (Packet × ℤ)) := do
  let incl ← readU32e data (i32 (pos + 8)) le
  let dataOff := i32 (pos + 16)
  if i32 (dataOff + incl) > data.length then .ok none
  else do
    let eoff ← if linktype = 1 then pcapEcpriOffset data dataOff else .ok dataOff
    let (packet, _) ← parsePacket prof ⟨data, eoff⟩
    .ok (some (packet, i32 (dataOff + incl)))

/-- How a run went: the records it came to, in their order, and what it returned. The records are not
in the source. -/
structure Outcome where
  visited : List ℤ
  result : Except Stop (List Packet)

/-- The loop of `from_pcap`, for as many rounds. -/
def pcapLoop : ℕ → ℤ → Outcome
  | 0, _ => ⟨[], .error .running⟩
  | fuel + 1, pos =>
    if i32 (pos + 16) ≤ data.length then
      match pcapRecord data prof le linktype pos with
      | .error e => ⟨[pos], .error e⟩
      | .ok none => ⟨[pos], .ok []⟩
      | .ok (some (packet, next)) =>
        let o := pcapLoop fuel next
        ⟨pos :: o.visited, (packet :: ·) <$> o.result⟩
    else ⟨[], .ok []⟩

def pcapOrder : Option Bool :=
  let m0 := data.getD 0 0
  let m1 := data.getD 1 0
  if m0 = 0xa1 ∧ m1 = 0xb2 then some false
  else if m0 = 0xd4 ∧ m1 = 0xc3 then some true
  else none

def fromPcap (fuel : ℕ) : Outcome :=
  if data.length < 24 then ⟨[], .ok []⟩
  else match pcapOrder data with
    | none => ⟨[], .ok []⟩
    | some le => match readU32e data 20 le with
      | .error e => ⟨[], .error e⟩
      | .ok linktype => pcapLoop data prof le linktype fuel 24

end Run

end LsLang.Oran
