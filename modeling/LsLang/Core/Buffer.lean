import LsLang.Core.Growth
import LsLang.Lib.Total

/-! The clamping of a start and a length, of which `Str.substr`, `Str.subslice`, `StrSlice.sub` and `Region.str_substr`
each have a copy. -/

namespace LsLang.Core

open LsLang.Undefined LsLang.Undefined.Res

/-- The bytes of a `Str`, whose length is an `int`. -/
structure StrBytes where
  bytes : List UInt8
  fits : bytes.length < 2 ^ 31

def StrBytes.len (t : StrBytes) : ℤ := t.bytes.length

/-- Bytes that are borrowed from somewhere. -/
structure StrSlice where
  ptr : ℤ
  len : ℤ

/-- The bytes from `s` on. -/
def bytesAt (data : List UInt8) (s l : ℤ) : List UInt8 := (data.drop s.toNat).take l.toNat

/-- `__ls_bytecopy` from `data`: no byte outside is read. -/
def bytecopy (data : List UInt8) (s l : ℤ) : Res (List UInt8) :=
  if 0 ≤ s ∧ 0 ≤ l ∧ s + l ≤ data.length then .ok (bytesAt data s l) else .stuck

/-- The clamping of `start` and `len`. -/
def clamp (n start len : ℤ) : Res (ℤ × ℤ) := do
  let s := if start < 0 then 0 else start
  let s := if n < s then n else s
  let l := if len < 0 then 0 else len
  let sum ← asInt (s + l)
  pure (s, if n < sum then n - s else l)

/-- `Str.substr` -/
def StrBytes.substr (t : StrBytes) (start len : Int32) : Res (List UInt8) := do
  let (s, l) ← clamp t.len start.toInt len.toInt
  let _ ← Growth.strReserve 0 l
  bytecopy t.bytes s l

/-- `Str.subslice`; `ptr` counts from `self.data`. -/
def StrBytes.subslice (t : StrBytes) (start len : Int32) : Res StrSlice := do
  let (s, l) ← clamp t.len start.toInt len.toInt
  pure ⟨s, l⟩

/-- `StrSlice.sub` -/
def StrSlice.sub (v : StrSlice) (start len : Int32) : Res StrSlice := do
  let (s, l) ← clamp v.len start.toInt len.toInt
  pure ⟨v.ptr + s, l⟩

/-! The range. -/

def clampedStart (n start : ℤ) : ℤ := min (max start 0) n

def clampedLen (n start len : ℤ) : ℤ := min (max len 0) (n - clampedStart n start)

variable {n start len : ℤ}

theorem clampedStart_nonneg (hn : 0 ≤ n) : 0 ≤ clampedStart n start := le_min (le_max_right _ _) hn

theorem clampedStart_le : clampedStart n start ≤ n := min_le_right _ _

theorem clampedLen_nonneg : 0 ≤ clampedLen n start len :=
  le_min (le_max_right _ _) (Int.sub_nonneg_of_le clampedStart_le)

theorem clamped_le : clampedStart n start + clampedLen n start len ≤ n := by
  have hle : clampedLen n start len ≤ n - clampedStart n start := min_le_right _ _
  omega

theorem clamp_eq (hn : 0 ≤ n) :
    clamp n start len = (asInt (clampedStart n start + max len 0) >>= fun _ =>
      pure (clampedStart n start, clampedLen n start len)) := by
  have hs : (if n < (if start < 0 then 0 else start) then n else if start < 0 then 0 else start) =
      clampedStart n start := by
    unfold clampedStart
    grind
  have hl : (if len < 0 then 0 else len) = max len 0 := by split <;> omega
  unfold clamp
  dsimp only
  rw [hs, hl]
  unfold asInt
  split
  · have hlen : (if n < clampedStart n start + max len 0 then n - clampedStart n start else max len 0) =
        clampedLen n start len := by
      unfold clampedLen
      split <;> omega
    rw [ok_bind, ok_bind, hlen]
  · rfl

theorem clamp_ok (hn : 0 ≤ n) (h : clampedStart n start + max len 0 < 2 ^ 31) :
    clamp n start len = .ok (clampedStart n start, clampedLen n start len) := by
  have hs := @clampedStart_nonneg n start hn
  rw [clamp_eq hn, asInt_eq (by omega) h, ok_bind]
  rfl

theorem clamp_stuck (hn : 0 ≤ n) (h : ¬clampedStart n start + max len 0 < 2 ^ 31) : clamp n start len = .stuck := by
  have hstuck : asInt (clampedStart n start + max len 0) = .stuck := if_neg fun hand => h hand.2
  rw [clamp_eq hn, hstuck]
  rfl

theorem bytecopy_ok {data : List UInt8} {s l : ℤ} (hs : 0 ≤ s) (hl : 0 ≤ l) (hend : s + l ≤ data.length) :
    bytecopy data s l = .ok (bytesAt data s l) := if_pos ⟨hs, hl, hend⟩

theorem length_bytesAt {data : List UInt8} {s l : ℤ} (hs : 0 ≤ s) (hl : 0 ≤ l) (hend : s + l ≤ data.length) :
    ((bytesAt data s l).length : ℤ) = l := by
  unfold bytesAt
  grind

theorem StrBytes.len_nonneg (t : StrBytes) : 0 ≤ t.len := Int.natCast_nonneg _

theorem StrBytes.copy_clamped (t : StrBytes) :
    bytecopy t.bytes (clampedStart t.len start) (clampedLen t.len start len) =
      .ok (bytesAt t.bytes (clampedStart t.len start) (clampedLen t.len start len)) :=
  bytecopy_ok (clampedStart_nonneg t.len_nonneg) clampedLen_nonneg clamped_le

theorem StrBytes.length_clamped (t : StrBytes) :
    ((bytesAt t.bytes (clampedStart t.len start) (clampedLen t.len start len)).length : ℤ) =
      clampedLen t.len start len :=
  length_bytesAt (clampedStart_nonneg t.len_nonneg) clampedLen_nonneg clamped_le

theorem strReserve_zero {need : ℤ} : (∃ g, Growth.strReserve 0 need = .ok g) ↔ need ≤ 2 ^ 30 := by
  constructor
  · rintro ⟨g, hg⟩
    unfold Growth.strReserve at hg
    split at hg
    · omega
    · obtain ⟨cap, hcap, -⟩ := bind_ok hg
      rw [if_pos (by decide : (0 : ℤ) < 8)] at hcap
      obtain ⟨j, rfl, hneed, hlt⟩ := Growth.doubled_ok hcap (by decide)
      have hj : j < 28 := by
        by_contra hge
        have hpow : (2 : ℤ) ^ 28 ≤ 2 ^ j := pow_le_pow_right₀ (by decide) (Nat.not_lt.1 hge)
        omega
      have hpow : (2 : ℤ) ^ j ≤ 2 ^ 27 := pow_le_pow_right₀ (by decide) (Nat.le_of_lt_succ hj)
      omega
  · intro hneed
    obtain ⟨j, hj, hlt⟩ := @Growth.exists_doubling need 8 (by decide) (by decide) hneed
    have hgrows := (Growth.strReserve_grows ⟨0, 0, Int.le_refl 0, Int.le_refl 0, by decide⟩ need).2
      (.inr ⟨j, hj, hlt, by grind⟩)
    obtain ⟨g, hg, -⟩ := hgrows
    exact ⟨g, hg⟩

end LsLang.Core

/-! Appending to a `Str` or a `Vec` that begins empty: its capacity is a power of two, so that it takes 2^30 elements
and not one more. -/

namespace LsLang.Core

open LsLang.Undefined LsLang.Undefined.Res

/-- The elements of a `Str` or a `Vec`, and its capacity. -/
structure Buffer (α : Type) where
  items : List α
  cap : ℤ

namespace Buffer

variable {α : Type}

/-- `{}` -/
def empty : Buffer α := ⟨[], 0⟩

/-- `Str.push_byte` and `Vec.push`, by their `reserve`. -/
def push (reserve : ℤ → ℤ → Res Growth.Grown) (b : Buffer α) (x : α) : Res (Buffer α) := do
  let need ← asInt (b.items.length + 1)
  let g ← reserve b.cap need
  .ok ⟨b.items ++ [x], g.cap⟩

def pushAll (reserve : ℤ → ℤ → Res Growth.Grown) (b : Buffer α) : List α → Res (Buffer α)
  | [] => .ok b
  | x :: xs => do
    let b ← push reserve b x
    pushAll reserve b xs

/-- `Str.push_str`, by its `reserve`. -/
def append (reserve : ℤ → ℤ → Res Growth.Grown) (b : Buffer α) (xs : List α) : Res (Buffer α) := do
  let need ← asInt (b.items.length + xs.length)
  let g ← reserve b.cap need
  .ok ⟨b.items ++ xs, g.cap⟩

def Doubled (cap : ℤ) : Prop := cap = 0 ∨ ∃ j : ℕ, j ≤ 30 ∧ cap = 2 ^ j

/-- `reserve` makes room for at most 2^30 elements. -/
structure Reserves (reserve : ℤ → ℤ → Res Growth.Grown) : Prop where
  exactly : ∀ cap need, Doubled cap → Exactly (reserve cap need) (need ≤ 2 ^ 30) fun g => Doubled g.cap

structure Roomy (b : Buffer α) : Prop where
  cap : Doubled b.cap
  length : b.items.length ≤ 2 ^ 30

theorem roomy_empty : Roomy (empty : Buffer α) := ⟨.inl rfl, Nat.zero_le _⟩

theorem pow_lt_iff {j : ℕ} : (2 : ℤ) ^ j < 2 ^ 31 ↔ j ≤ 30 := by
  rw [pow_lt_pow_iff_right₀ (by norm_num)]
  exact Nat.lt_succ_iff

theorem doubled_exactly {need : ℤ} {j : ℕ} (hj : j ≤ 30) :
    Exactly (Growth.doubled need 32 (2 ^ j)) (need ≤ 2 ^ 30) Doubled := by
  have hpos : (0 : ℤ) < 2 ^ j := by positivity
  have hlt : (2 : ℤ) ^ j < 2 ^ 31 := pow_lt_iff.2 hj
  -- every result is a power of two again
  have hresult : ∀ cap, Growth.doubled need 32 (2 ^ j) = .ok cap → Doubled cap ∧ need ≤ 2 ^ 30 := by
    intro cap hcap
    obtain ⟨k, rfl, hneed, hcaplt⟩ := Growth.doubled_ok hcap hlt
    rw [← pow_add] at hneed hcaplt ⊢
    have hle := pow_lt_iff.1 hcaplt
    refine ⟨.inr ⟨j + k, hle, rfl⟩, hneed.trans ?_⟩
    exact pow_le_pow_right₀ (by norm_num) hle
  refine ⟨fun hneed => ?_, fun cap hcap => (hresult cap hcap).2⟩
  obtain ⟨k, hk, hklt⟩ := Growth.exists_doubling hpos hlt hneed
  obtain ⟨cap, hcap, -⟩ := Growth.doubled_yields hpos hk hklt (Growth.doublings_lt hpos hklt)
  exact ⟨cap, hcap, (hresult cap hcap).1⟩

theorem start_doubled {cap : ℤ} (h : Doubled cap) {k : ℕ} (hk : k ≤ 30) :
    ∃ j : ℕ, j ≤ 30 ∧ (if cap < 2 ^ k then 2 ^ k else cap) = 2 ^ j := by
  by_cases hcap : cap < 2 ^ k
  · grind
  · rcases h with rfl | ⟨j, hj, rfl⟩
    · grind
    grind

theorem Doubled.le {cap : ℤ} (h : Doubled cap) : cap ≤ 2 ^ 30 := by
  rcases h with rfl | ⟨j, hj, rfl⟩
  · positivity
  · exact pow_le_pow_right₀ (by norm_num) hj

theorem strReserve_reserves : Reserves Growth.strReserve where
  exactly cap need h := by
    unfold Growth.strReserve
    by_cases hroom : need ≤ cap
    · rw [if_pos hroom]
      exact (Exactly.ok (P := fun g : Growth.Grown => Doubled g.cap) h).congr
        (iff_of_true trivial (hroom.trans h.le))
    · rw [if_neg hroom]
      obtain ⟨j, hj, hstart⟩ := start_doubled h (k := 3) (by norm_num)
      have height : (2 : ℤ) ^ 3 = 8 := by norm_num
      rw [height] at hstart
      rw [hstart]
      refine ((doubled_exactly hj).bind (d := True) fun n hn => ?_).congr (and_iff_left trivial)
      split
      · exact .ok hn
      · exact .ok hn

theorem vecReserve_reserves : Reserves (Growth.vecReserve 16) where
  exactly cap need h := by
    unfold Growth.vecReserve
    by_cases hroom : need ≤ cap
    · rw [if_pos hroom]
      exact (Exactly.ok (P := fun g : Growth.Grown => Doubled g.cap) h).congr
        (iff_of_true trivial (hroom.trans h.le))
    · rw [if_neg hroom]
      obtain ⟨j, hj, hstart⟩ := start_doubled h (k := 2) (by norm_num)
      have hfour : (2 : ℤ) ^ 2 = 4 := by norm_num
      rw [hfour] at hstart
      rw [hstart]
      refine ((doubled_exactly hj).bind (d := True) fun n hn => ?_).congr (and_iff_left trivial)
      have hbytes : asLong (n * 16) = .ok (n * 16) := by
        have hle := hn.le
        have hnonneg : 0 ≤ n := by
          rcases hn with rfl | ⟨j, -, rfl⟩
          · exact le_rfl
          · positivity
        exact asLong_eq (by omega) (by omega)
      rw [hbytes]
      exact .ok hn

variable {reserve : ℤ → ℤ → Res Growth.Grown} {b : Buffer α}

theorem push_exactly (hr : Reserves reserve) (hb : Roomy b) (x : α) :
    Exactly (push reserve b x) ((b.items ++ [x]).length ≤ 2 ^ 30) fun b' => b'.items = b.items ++ [x] ∧ Roomy b' := by
  have hlen : (b.items ++ [x]).length = b.items.length + 1 := by grind
  have hb30 := hb.length
  have hneed : asInt (b.items.length + 1) = .ok ((b.items.length : ℤ) + 1) := asInt_eq (by omega) (by omega)
  unfold push
  rw [hneed]
  by_cases hfits : (b.items ++ [x]).length ≤ 2 ^ 30
  · refine ((hr.exactly b.cap _ hb.cap).bind (d := True) fun g hg => ?_).congr ?_
    · exact .ok ⟨rfl, hg, hfits⟩
    grind
  · refine ⟨fun h => absurd h hfits, fun b' hb' => ?_⟩
    obtain ⟨g, hg, -⟩ := bind_ok ((ok_bind _ _).symm.trans hb')
    have := (hr.exactly b.cap _ hb.cap).only g hg
    omega

theorem append_exactly (hr : Reserves reserve) (hb : Roomy b) (xs : List α) :
    Exactly (append reserve b xs) ((b.items ++ xs).length ≤ 2 ^ 30) fun b' => b'.items = b.items ++ xs ∧ Roomy b' := by
  have hlen : (b.items ++ xs).length = b.items.length + xs.length := List.length_append
  unfold append
  by_cases hint : (b.items.length : ℤ) + xs.length < 2 ^ 31
  · rw [asInt_eq (by omega) hint]
    refine ⟨fun hfits => ?_, fun b' hb' => ?_⟩
    · refine (((hr.exactly b.cap _ hb.cap).bind (d := True) fun g hg => ?_)).returns ⟨by omega, trivial⟩
      exact .ok ⟨rfl, hg, hfits⟩
    · obtain ⟨g, hg, -⟩ := bind_ok ((ok_bind _ _).symm.trans hb')
      have := (hr.exactly b.cap _ hb.cap).only g hg
      omega
  · have hstuck : asInt (b.items.length + xs.length) = .stuck := if_neg fun h => hint h.2
    rw [hstuck]
    refine ⟨fun h => absurd h (by omega), fun _ hres => ?_⟩
    cases hres

theorem pushAll_exactly (hr : Reserves reserve) (hb : Roomy b) (xs : List α) :
    Exactly (pushAll reserve b xs) ((b.items ++ xs).length ≤ 2 ^ 30) fun b' => b'.items = b.items ++ xs ∧ Roomy b' := by
  induction xs generalizing b with
  | nil =>
    rw [List.append_nil]
    exact (Exactly.ok ⟨rfl, hb⟩).congr (iff_of_true trivial hb.length)
  | cons x xs ih =>
    unfold pushAll
    refine ((push_exactly hr hb x).bind (d := (b.items ++ x :: xs).length ≤ 2 ^ 30) fun b' hb' => ?_).congr ?_
    · grind
    grind

/-- The bytes of a `Str` that begins empty. -/
def str : Lib.Holder (Buffer UInt8) UInt8 := ⟨Roomy, items, 2 ^ 30, fun _ h => h.length⟩

theorem adds_push (x : UInt8) : str.Adds (push Growth.strReserve · x) [x] :=
  fun _ hb => (push_exactly strReserve_reserves hb x).mono fun _ h => h.symm

theorem adds_append (xs : List UInt8) : str.Adds (append Growth.strReserve · xs) xs :=
  fun _ hb => (append_exactly strReserve_reserves hb xs).mono fun _ h => h.symm

end Buffer

theorem StrBytes.substr_exactly (t : StrBytes) (start len : ℕ) (h : start + len ≤ t.bytes.length) :
    Exactly (t.substr (Int32.ofNat start) (Int32.ofNat len)) (len ≤ 2 ^ 30)
      fun piece => piece = (t.bytes.drop start).take len := by
  have hfits := t.fits
  have hs : (Int32.ofNat start).toInt = start := Int32.toInt_ofNat_of_lt (by omega)
  have hl : (Int32.ofNat len).toInt = len := Int32.toInt_ofNat_of_lt (by omega)
  have hlen : t.len = t.bytes.length := rfl
  have hcs : clampedStart t.len start = start := by
    unfold clampedStart
    omega
  have hcl : clampedLen t.len start len = len := by
    unfold clampedLen
    rw [hcs]
    omega
  unfold StrBytes.substr
  rw [hs, hl, clamp_ok t.len_nonneg (by rw [hcs]; omega), hcs, hcl]
  refine ((Buffer.strReserve_reserves.exactly 0 len (.inl rfl)).bind (d := True) fun g _ => ?_).congr ?_
  · rw [bytecopy_ok (by omega) (by omega) (by omega)]
    exact .ok rfl
  · rw [and_true]
    omega

theorem StrBytes.substr_end (t : StrBytes) (start : ℕ) (len : Int32) (h : t.bytes.length ≤ start)
    (hs : start < 2 ^ 31) :
    Exactly (t.substr (Int32.ofNat start) len) (t.len + max len.toInt 0 < 2 ^ 31) fun piece => piece = [] := by
  have hstart : (Int32.ofNat start).toInt = start := Int32.toInt_ofNat_of_lt (by omega)
  have hlen : t.len = t.bytes.length := rfl
  have hcs : clampedStart t.len start = t.len := by
    unfold clampedStart
    omega
  have hcl : clampedLen t.len start len.toInt = 0 := by
    unfold clampedLen
    rw [hcs]
    omega
  unfold StrBytes.substr
  rw [hstart]
  by_cases hfits : t.len + max len.toInt 0 < 2 ^ 31
  · have hreserve : Growth.strReserve 0 0 = .ok ⟨0, []⟩ := rfl
    rw [clamp_ok t.len_nonneg (by rw [hcs]; exact hfits), hcs, hcl, ok_bind]
    dsimp only
    rw [hreserve, ok_bind, bytecopy_ok t.len_nonneg le_rfl (by omega)]
    have hnil : bytesAt t.bytes t.len 0 = [] := List.take_zero ..
    rw [hnil]
    exact (Exactly.of_eq rfl).congr (iff_of_true trivial hfits)
  · rw [clamp_stuck t.len_nonneg (by rw [hcs]; exact hfits)]
    refine ⟨fun hc => absurd hc hfits, fun _ hr => ?_⟩
    cases hr

/-- The fields of a `Str`: the capacity is 0 for a literal, and negative for bytes of a region. -/
structure StrVar extends StrBytes where
  cap : ℤ
  cap_lt : cap < 2 ^ 31

/-- `Str.c_str`: the capacity that it leaves. -/
def StrVar.cStr (t : StrVar) : Res ℤ :=
  if t.cap = 0 ∧ 0 < t.len then .ok t.cap
  else do
    let need ← asInt (t.len + 1)
    let g ← Growth.strReserve t.cap need
    .ok g.cap

/-- There is room for a byte behind the bytes. -/
def StrVar.HasRoom (t : StrVar) : Prop :=
  (t.cap = 0 ∧ 0 < t.len) ∨ t.len + 1 ≤ t.cap ∨ Growth.Reaches (max 8 t.cap) (t.len + 1) 1

/-- `Str.+` -/
def strAdd (a b : List UInt8) : Res (List UInt8) := do
  let sum ← asInt (a.length + b.length)
  let _ ← Growth.strReserve 0 sum
  .ok (a ++ b)

theorem strReserve_exactly {cap : ℤ} (hcap : cap < 2 ^ 31) (need : ℤ) :
    Exactly (Growth.strReserve cap need) (need ≤ cap ∨ Growth.Reaches (max 8 cap) need 1) fun g => need ≤ g.cap := by
  refine ⟨fun h => ((Growth.strReserve_grows_of_lt hcap need).2 h).mono fun g hg => hg.1, fun g hg => ?_⟩
  unfold Growth.strReserve at hg
  split at hg
  · next hle => exact .inl hle
  · obtain ⟨n, hn, -⟩ := bind_ok hg
    have hstart : (if cap < 8 then 8 else cap) = max 8 cap := by split <;> omega
    rw [hstart] at hn
    obtain ⟨j, rfl, hneed, hlt⟩ := Growth.doubled_ok hn (by omega)
    exact .inr ⟨j, hneed, hlt, by omega⟩

theorem StrVar.cStr_exactly (t : StrVar) : Exactly t.cStr t.HasRoom fun _ => True := by
  have hfits := t.fits
  have hlen : t.len = t.bytes.length := rfl
  unfold StrVar.cStr StrVar.HasRoom
  by_cases hlit : t.cap = 0 ∧ 0 < t.len
  · rw [if_pos hlit]
    exact (Exactly.ok trivial).congr (iff_of_true trivial (.inl hlit))
  · rw [if_neg hlit, or_iff_right hlit]
    by_cases hint : t.len + 1 < 2 ^ 31
    · rw [asInt_eq (by omega) hint, ok_bind]
      exact ((strReserve_exactly t.cap_lt (t.len + 1)).bind (d := True) fun g _ => .ok trivial).congr (and_iff_left trivial)
    · have hstuck : asInt (t.len + 1) = .stuck := if_neg fun h => hint h.2
      have hcap := t.cap_lt
      rw [hstuck]
      refine ⟨?_, fun _ hr => ?_⟩
      · rintro (hle | ⟨j, hle, hlt, -⟩) <;> omega
      · cases hr

theorem strAdd_exactly (a b : List UInt8) :
    Exactly (strAdd a b) ((a ++ b).length ≤ 2 ^ 30) fun c => c = a ++ b := by
  have hlen : (a ++ b).length = a.length + b.length := List.length_append
  unfold strAdd
  by_cases hint : (a.length : ℤ) + b.length < 2 ^ 31
  · rw [asInt_eq (by omega) hint, ok_bind]
    refine ((Buffer.strReserve_reserves.exactly 0 _ (.inl rfl)).bind (d := True) fun g _ => Exactly.of_eq rfl).congr ?_
    rw [and_true]
    omega
  · have hstuck : asInt ((a.length : ℤ) + b.length) = .stuck := if_neg fun h => hint h.2
    rw [hstuck]
    refine ⟨fun h => absurd h (by omega), fun _ hr => ?_⟩
    cases hr

end LsLang.Core
