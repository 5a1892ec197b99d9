import LsLang.Oran.CplaneRoundTrip
import LsLang.Oran.Uplane

/-! What a reader that returned has read. -/

namespace LsLang.Oran

open LsLang.Core LsLang.Lib

section Rules

variable {α β : Type}

/-- Where `p` returns, the bytes that it has taken are in this relation to its result. -/
def Consumes (p : Parse α) (S : α → Str → Prop) : Prop :=
  ∀ (pre rest : Str) (a : α) (r : Reader), (pre ++ rest).length < 2 ^ 31 →
    p ⟨pre ++ rest, pre.length⟩ = .ok (a, r) →
    ∃ cs post, rest = cs ++ post ∧ S a cs ∧ r = ⟨pre ++ rest, (pre ++ cs).length⟩

theorem Consumes.pure {U : α → Str → Prop} {a : α} (h : U a []) : Consumes (pure a) U := by
  intro pre rest b r _ hp
  cases hp
  exact ⟨[], rest, rfl, h, by rw [List.append_nil]⟩

theorem Consumes.step {S : α → Str → Prop} {p : Parse α} {f : α → Parse β} (hp : Consumes p S)
    {pre rest : Str} {b : β} {r : Reader} (hlen : (pre ++ rest).length < 2 ^ 31)
    (h : (p >>= f) ⟨pre ++ rest, pre.length⟩ = .ok (b, r)) :
    ∃ a bs post, rest = bs ++ post ∧ S a bs ∧
      f a ⟨pre ++ bs ++ post, (pre ++ bs).length⟩ = .ok (b, r) := by
  obtain ⟨a, r1, hp1, hf⟩ := bind_eq_ok h
  obtain ⟨bs, post, rfl, hs, rfl⟩ := hp pre rest a r1 hlen hp1
  rw [← List.append_assoc] at hf
  exact ⟨a, bs, post, rfl, hs, hf⟩

theorem Consumes.bind {S : α → Str → Prop} {U : β → Str → Prop} {p : Parse α} {f : α → Parse β}
    (hp : Consumes p S) (hf : ∀ a bs, S a bs → Consumes (f a) fun b cs => U b (bs ++ cs)) :
    Consumes (p >>= f) U := by
  intro pre rest b r hlen h
  obtain ⟨a, bs, mid, rfl, hs, hrest⟩ := hp.step hlen h
  rw [← List.append_assoc] at hlen
  obtain ⟨cs, post, rfl, hu, rfl⟩ := hf a bs hs (pre ++ bs) mid b r hlen hrest
  exact ⟨bs ++ cs, post, by rw [List.append_assoc], hu, by simp⟩

theorem Consumes.mono {S T : α → Str → Prop} {p : Parse α} (hp : Consumes p S)
    (h : ∀ a cs, S a cs → T a cs) : Consumes p T := by
  intro pre rest a r hlen hr
  obtain ⟨cs, post, he, hs, hpos⟩ := hp pre rest a r hlen hr
  exact ⟨cs, post, he, h a cs hs, hpos⟩

theorem Consumes.collect {S : α → Str → Prop} {p : Parse α} (hp : Consumes p S) (n : ℕ) :
    Consumes (collect p n) fun xs cs =>
      xs.length = n ∧ ∃ css, List.Forall₂ S xs css ∧ cs = css.flatten := by
  induction n with
  | zero => exact Consumes.pure ⟨rfl, [], .nil, rfl⟩
  | succ n ih =>
    refine hp.bind fun x bs hx => ih.bind fun xs cs hxs => Consumes.pure ?_
    obtain ⟨hlen, css, hall, rfl⟩ := hxs
    exact ⟨by rw [List.length_cons, hlen], bs :: css, .cons hx hall, by simp⟩

theorem consumes_beU (n : ℕ) : Consumes (beU n) fun v cs => cs.length = n ∧ v = ofDigits cs := by
  intro pre rest v r hlen h
  rw [List.length_append] at hlen
  by_cases hle : n ≤ rest.length
  · obtain ⟨cs, post, rfl, rfl⟩ : ∃ cs post, rest = cs ++ post ∧ cs.length = n :=
      ⟨rest.take n, rest.drop n, (List.take_append_drop n rest).symm, by simpa using hle⟩
    have hread := reads_beU cs pre post (by simpa using hlen)
    rw [← List.append_assoc, hread] at h
    cases h
    exact ⟨cs, post, rfl, ⟨rfl, rfl⟩, by rw [List.append_assoc]⟩
  · exfalso
    unfold beU at h
    split at h
    · cases h
    · next hgt =>
      unfold loadBe loadAt at h
      rw [if_neg (by simp only [List.length_append]; omega)] at h
      cases h

theorem consumes_beU8 : Consumes beU8 fun v cs => cs.length = 1 ∧ v = ofDigits cs := consumes_beU 1

theorem consumes_beU16 : Consumes beU16 fun v cs => cs.length = 2 ∧ v = ofDigits cs :=
  consumes_beU 2

theorem consumes_beU32 : Consumes beU32 fun v cs => cs.length = 4 ∧ v = ofDigits cs :=
  consumes_beU 4

end Rules

section Headers

theorem toDigits_of_fields {ws : List ℕ} {cs : Str} {x : ℤ} {k : ℕ} (hk : cs.length = k)
    (hws : ws.sum = 8 * k) (hx : x % 2 ^ (8 * k) = pack ws (fields ws (ofDigits cs))) :
    toDigits UInt8 k x = cs := by
  have hbase : Digit.base UInt8 ^ k = 2 ^ (8 * k) := by
    rw [pow_mul]
    rfl
  calc toDigits UInt8 k x
      = toDigits UInt8 k (ofDigits cs) := toDigits_congr (by rw [hbase, hx, pack_fields, hws])
    _ = cs := by rw [← hk, toDigits_ofDigits]

theorem toDigits_of_bytes {cs : Str} {k : ℕ} (hk : cs.length = k) :
    toDigits UInt8 k (ofDigits cs) = cs := by
  rw [← hk, toDigits_ofDigits]

theorem b2i_flag {x : ℤ} (h : InBits 1 x) : b2i (flag x) = x := by
  obtain ⟨h0, h1⟩ := h
  rcases (by omega : x = 0 ∨ x = 1) with rfl | rfl <;> rfl

def reservedBits (octet1 : ℤ) : ℤ := octet1 / 2 % 8

theorem consumes_ecpri : Consumes parseEcpri fun h cs => cs.length = 8 ∧
    h.payloadSize = ofDigits ((cs.drop 2).take 2) ∧
    (reservedBits (ofDigits (cs.take 1)) = 0 → ∀ w, h.write w = w.bytes cs) := by
  unfold parseEcpri
  refine consumes_beU8.bind fun o1 c1 ⟨l1, e1⟩ => ?_
  obtain ⟨ver, rsv, cc, hf⟩ : ∃ ver rsv cc, fields [4, 3, 1] o1 = [ver, rsv, cc] := ⟨_, _, _, rfl⟩
  have hrsv : rsv = reservedBits o1 := by
    cases hf
    rfl
  have hfit := fieldsFit_fields [4, 3, 1] o1
  rw [hf] at hfit ⊢
  refine consumes_beU8.bind fun o2 c2 ⟨l2, e2⟩ => ?_
  refine consumes_beU16.bind fun o3 c3 ⟨l3, e3⟩ => ?_
  refine consumes_beU16.bind fun o5 c5 ⟨l5, e5⟩ => ?_
  refine consumes_beU16.bind fun o7 c7 ⟨l7, e7⟩ => Consumes.pure ⟨by simp; omega, ?_, ?_⟩
  · have hdrop : (c1 ++ (c2 ++ (c3 ++ (c5 ++ (c7 ++ []))))).drop 2 = c3 ++ (c5 ++ (c7 ++ [])) := by
      rw [← List.append_assoc, List.drop_left' (by simp; omega)]
    rw [hdrop, List.take_left' l3]
    exact e3
  intro hzero w
  have htake : (c1 ++ (c2 ++ (c3 ++ (c5 ++ (c7 ++ []))))).take 1 = c1 := by
    rw [← l1, List.take_left']
    rfl
  rw [htake, ← e1, ← hrsv] at hzero
  subst hzero
  cases hfit with
  | cons hver hrest =>
    cases hrest with
    | cons _ hrest =>
      cases hrest with
      | cons hcc _ =>
        have hshl := InBits.shl (k := 4) (n := 4) hver rfl (by decide)
        have hhigh : shl ver 4 % 2 ^ 8 = ver * 2 ^ [3, 1].sum % 2 ^ 8 := by
          rw [hshl]
          rfl
        have hword : Int.lor (shl ver 4) (b2i (flag cc)) % 2 ^ (8 * 1) =
            pack [4, 3, 1] (fields [4, 3, 1] (ofDigits c1)) := by
          rw [← e1, hf, b2i_flag hcc,
            ← word_emod (n := 8) rfl hhigh (.cons hver (.cons (by decide) (.cons hcc .nil)))]
          simp [lorFields, lor_zero]
        simp only [EcpriHdr.write, byte_eq, beU16_eq, bytes_bytes, e2, e3, e5, e7,
          toDigits_of_fields l1 rfl hword, toDigits_of_bytes l2, toDigits_of_bytes l3,
          toDigits_of_bytes l5, toDigits_of_bytes l7, List.append_assoc, List.append_nil]

end Headers

/-! The samples of the U-plane: how many bytes a PRB takes of any width, and that samples of 16 bits are
written as they were read. -/

namespace BitReader

variable {buf : Str} {p n : ℕ} {v v' : ℤ} {br : BitReader}

theorem takeBit_ok (hlen : buf.length < 2 ^ 31) (h : takeBit v (at' buf p) = .ok (v', br)) :
    br = at' buf (p + 1) ∧ p + 1 ≤ 8 * buf.length := by
  by_cases hp : p < (bitsOf buf).length
  · rw [takeBit_at hlen (List.getElem?_eq_getElem hp)] at h
    cases h
    rw [length_bitsOf] at hp
    exact ⟨rfl, hp⟩
  · rw [length_bitsOf] at hp
    rw [takeBit_end (by omega)] at h
    cases h

theorem takeLoop_ok (hlen : buf.length < 2 ^ 31) (h : takeLoop n v (at' buf p) = .ok (v', br)) :
    br = at' buf (p + n) ∧ (n = 0 ∨ p + n ≤ 8 * buf.length) := by
  induction n generalizing p v with
  | zero =>
    cases h
    exact ⟨rfl, .inl rfl⟩
  | succ n ih =>
    rw [takeLoop] at h
    cases hb : takeBit v (at' buf p) with
    | error e =>
      rw [hb] at h
      cases h
    | ok x =>
      obtain ⟨v1, br1⟩ := x
      rw [hb] at h
      obtain ⟨rfl, hp⟩ := takeBit_ok hlen hb
      obtain ⟨rfl, hle⟩ := ih h
      have hpos : p + 1 + n = p + (n + 1) := by omega
      rw [hpos] at hle ⊢
      exact ⟨rfl, .inr (by omega)⟩

theorem takeSigned_ok (hlen : buf.length < 2 ^ 31) {width : ℤ}
    (h : takeSigned width (at' buf p) = .ok (v, br)) :
    br = at' buf (p + width.toNat) ∧
      (width.toNat = 0 ∨ p + width.toNat ≤ 8 * buf.length) := by
  unfold takeSigned at h
  cases ht : take width (at' buf p) with
  | error e =>
    rw [ht] at h
    cases h
  | ok x =>
    rw [ht] at h
    obtain ⟨v1, br1⟩ := x
    obtain ⟨rfl, hle⟩ := takeLoop_ok hlen ht
    cases h
    exact ⟨rfl, hle⟩

theorem toDigits_signed {u : ℤ} (h0 : 0 ≤ u) (hu : u < 2 ^ 16) :
    toDigits Bool 16 (signed 16 u) = toDigits Bool 16 u := by
  have hshl : shl 1 16 = 65536 := by decide
  unfold signed
  split
  · rw [hshl, i32_eq (by omega) (by omega)]
    apply toDigits_congr
    exact Int.sub_emod_right u 65536
  · rfl

theorem takeSigned_bits (hlen : buf.length < 2 ^ 31)
    (h : takeSigned 16 (at' buf p) = .ok (v, br)) :
    toDigits Bool 16 v = ((bitsOf buf).drop p).take 16 := by
  obtain ⟨-, hle⟩ := takeSigned_ok hlen h
  have hp : p + 16 ≤ 8 * buf.length := hle.resolve_left (by decide)
  have hbits : (((bitsOf buf).drop p).take 16).length = 16 := by
    rw [List.length_take, List.length_drop, length_bitsOf]
    omega
  have hsplit := (List.take_append_drop 16 ((bitsOf buf).drop p)).symm
  have htake := take_at hlen (by omega) hsplit
  rw [hbits] at htake
  obtain ⟨h0, hlt⟩ := ofDigits_bounds (((bitsOf buf).drop p).take 16)
  rw [hbits] at hlt
  unfold takeSigned at h
  have h16 : (16 : ℤ) = ((16 : ℕ) : ℤ) := rfl
  rw [h16, htake] at h
  cases h
  show toDigits Bool 16 (signed 16 _) = _
  rw [toDigits_signed h0 hlt]
  have hback := toDigits_ofDigits (((bitsOf buf).drop p).take 16)
  rwa [hbits] at hback

end BitReader

def interleave (iq : List ℤ × List ℤ) : List ℤ := (iq.1.zip iq.2).flatMap fun x => [x.1, x.2]

section Take

variable {buf : Str} {p n : ℕ} {iw : ℤ} {iq : List ℤ × List ℤ} {br : BitReader}

open BitReader

structure Pairs (buf : Str) (p n : ℕ) (iw : ℤ) (iq : List ℤ × List ℤ) (br : BitReader) : Prop where
  length_i : iq.1.length = n
  length_q : iq.2.length = n
  cursor : br = at' buf (p + n * (2 * iw.toNat))
  within : p ≤ 8 * buf.length → p + n * (2 * iw.toNat) ≤ 8 * buf.length
  bits : iw = 16 → (interleave iq).flatMap (toDigits Bool 16) = ((bitsOf buf).drop p).take (n * 32)

theorem takePairs_ok (hlen : buf.length < 2 ^ 31)
    (h : takePairs iw n (at' buf p) = .ok (iq, br)) : Pairs buf p n iw iq br := by
  induction n generalizing p iq with
  | zero =>
    cases h
    exact ⟨rfl, rfl, by rw [Nat.zero_mul, Nat.add_zero], by omega, fun _ => rfl⟩
  | succ n ih =>
    rw [takePairs] at h
    cases hi : takeSigned iw (at' buf p) with
    | error e =>
      rw [hi] at h
      cases h
    | ok x =>
      obtain ⟨i, br1⟩ := x
      rw [hi] at h
      obtain ⟨rfl, hile⟩ := takeSigned_ok hlen hi
      change (takeSigned iw (at' buf (p + iw.toNat)) >>= _) = _ at h
      cases hq : takeSigned iw (at' buf (p + iw.toNat)) with
      | error e =>
        rw [hq] at h
        cases h
      | ok y =>
        obtain ⟨q, br2⟩ := y
        rw [hq] at h
        obtain ⟨rfl, hqle⟩ := takeSigned_ok hlen hq
        change (takePairs iw n (at' buf (p + iw.toNat + iw.toNat)) >>= _) = _ at h
        cases hr : takePairs iw n (at' buf (p + iw.toNat + iw.toNat)) with
        | error e =>
          rw [hr] at h
          cases h
        | ok z =>
          obtain ⟨iq', br3⟩ := z
          rw [hr] at h
          cases h
          have hrest := ih hr
          have hpos : p + iw.toNat + iw.toNat + n * (2 * iw.toNat) =
              p + (n + 1) * (2 * iw.toNat) := by ring
          refine ⟨by rw [List.length_cons, hrest.length_i], by rw [List.length_cons,
            hrest.length_q], by rw [← hpos]; exact hrest.cursor, fun hp => ?_, ?_⟩
          · rw [← hpos]
            exact hrest.within (by omega)
          -- of 16 bits each, the bits of the buffer are those of the pairs in a row
          · rintro rfl
            have hbi := takeSigned_bits hlen hi
            have hbq := takeSigned_bits hlen hq
            have hbr := hrest.bits rfl
            have h16 : (16 : ℤ).toNat = 16 := rfl
            rw [h16] at hbq hbr
            have hcons : interleave (i :: iq'.1, q :: iq'.2) = i :: q :: interleave iq' := rfl
            have hlen32 : (n + 1) * 32 = 16 + (16 + n * 32) := by ring
            rw [hcons, List.flatMap_cons, List.flatMap_cons, hbi, hbq, hbr, hlen32,
              List.take_add, List.take_add, List.drop_drop, List.drop_drop]

theorem consumes_takeIq (iw : ℤ) : Consumes (takeIq iw) fun iq cs =>
    cs.length = 3 * iw.toNat ∧ iq.1.length = 12 ∧ iq.2.length = 12 ∧
      (iw = 16 → (interleave iq).flatMap (toDigits Bool 16) = bitsOf cs) := by
  intro pre rest iq r hlen h
  have hstart : bitReader ⟨pre ++ rest, pre.length⟩ = at' (pre ++ rest) (8 * pre.length) := by
    unfold bitReader at'
    simp
  unfold takeIq at h
  simp only [hstart] at h
  cases ht : takePairs iw 12 (at' (pre ++ rest) (8 * pre.length)) with
  | error e =>
    rw [ht] at h
    cases h
  | ok x =>
    obtain ⟨iq', br⟩ := x
    rw [ht] at h
    cases h
    have hp := takePairs_ok hlen ht
    have hle := hp.within (by rw [List.length_append]; omega)
    have hl := @List.length_append _ pre rest
    have hrest : 3 * iw.toNat ≤ rest.length := by omega
    refine ⟨rest.take (3 * iw.toNat), rest.drop (3 * iw.toNat),
      (List.take_append_drop _ _).symm,
      ⟨by rw [List.length_take]; omega, hp.length_i, hp.length_q, ?_⟩, ?_⟩
    · rintro rfl
      have h16 : (16 : ℤ).toNat = 16 := rfl
      rw [h16] at hrest
      have htake : (bitsOf (rest.take 48)).length = 12 * 32 := by
        rw [length_bitsOf, List.length_take, Nat.min_eq_left hrest]
      have hsplit : bitsOf rest = bitsOf (rest.take 48) ++ bitsOf (rest.drop 48) := by
        rw [← bitsOf_append, List.take_append_drop]
      rw [hp.bits rfl, bitsOf_append, List.drop_left' (length_bitsOf pre), hsplit,
        List.take_left' htake]
      rfl
    · have halign := align_at (k := 0) (q := pre.length + 3 * iw.toNat) hlen hle (by decide) (by ring)
      rw [hp.cursor, halign, List.length_append, List.length_take, Nat.min_eq_left hrest]
      rfl

end Take

section Write

variable {is qs : List ℤ}

theorem foldl_range_push {n : ℕ} (hi : is.length = n) (hq : qs.length = n) (iw : ℤ)
    (s : BitSink) :
    (List.range n).foldl (fun s re => (s.push (is.getD re 0) iw).push (qs.getD re 0) iw) s =
      (interleave (is, qs)).foldl (fun s x => s.push x iw) s := by
  have hzip : is.zip qs = (List.range n).map fun re => (is.getD re 0, qs.getD re 0) := by
    apply List.ext_getElem
    · simp [hi, hq]
    · intro k hk _
      rw [List.length_zip] at hk
      simp [List.getD_eq_getElem?_getD, List.getElem?_eq_getElem (show k < is.length by omega),
        List.getElem?_eq_getElem (show k < qs.length by omega)]
  rw [interleave, List.foldl_flatMap, hzip, List.foldl_map]
  rfl

theorem write_prb {prb : UplanePrb} (hi : prb.iSamples.length = 12)
    (hq : prb.qSamples.length = 12) :
    ∃ out : Str, out.length = 48 ∧ (∀ w, prb.write 0 16 w = w.bytes out) ∧
      bitsOf out = (interleave (prb.iSamples, prb.qSamples)).flatMap (toDigits Bool 16) := by
  have hpush : ∀ w, prb.write 0 16 w = pushSamples (interleave (prb.iSamples, prb.qSamples)) 16 w := by
    intro w
    unfold UplanePrb.write pushSamples
    rw [← foldl_range_push hi hq]
    rfl
  have hcount : (interleave (prb.iSamples, prb.qSamples)).length = 24 := by
    simp [interleave, List.length_flatMap, hi, hq]
  obtain ⟨k, hk, hbits⟩ := pushSamples_bits (interleave (prb.iSamples, prb.qSamples))
    (n := 16) (by decide) ⟨[]⟩
  have hl := congrArg List.length hbits
  simp only [List.length_append, length_bitsOf, List.length_replicate, List.length_nil,
    length_flatMap_toDigits, hcount] at hl
  have h0 : k = 0 := by omega
  subst h0
  refine ⟨_, ?_, fun w => (hpush w).trans (pushSamples_eq _ (n := 16) (by decide) w), ?_⟩
  · omega
  · rw [hbits]
    simp

end Write

end LsLang.Oran
