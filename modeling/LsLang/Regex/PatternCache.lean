import LsLang.Lib.Recency
import LsLang.Regex.Compile
import Mathlib.Data.List.TakeWhile

/-! The thread-local pattern cache of `ls_regex.c`. -/

namespace LsLang.Regex

open LsLang.Recency

abbrev reCacheSlots : ℕ := 32
abbrev reCachePatlen : ℕ := 128

/-- A slot; `re` is the place of its handle on the heap. -/
structure ReCacheSlot where
  pat : List UInt8
  flags : ℕ
  re : Option ℕ
  stamp : ℕ

/-- The memory of a thread: the handles in the order of their compiles, and those that have been freed. -/
structure CacheState where
  tlsCache : Fin reCacheSlots → ReCacheSlot
  tlsClock : ℕ
  handles : List ReHandle
  freed : List ℕ

namespace CacheState

def init : CacheState where
  tlsCache := fun _ => ⟨List.replicate reCachePatlen 0, 0, none, 0⟩
  tlsClock := 0
  handles := []
  freed := []

/-- A pattern, and flags. -/
abbrev Key : Type := List UInt8 × ℕ

/-- `s->re && s->flags == flags && strcmp(s->pat, pattern) == 0` -/
def hits (s : ReCacheSlot) (pattern : List UInt8) (flags : ℕ) : Bool :=
  s.re.isSome && s.flags == flags && cString s.pat == cString pattern

inductive Scan
  | hit (i : Fin reCacheSlots)
  | victim (lru : Fin reCacheSlots)

def scan (cache : Fin reCacheSlots → ReCacheSlot) (pattern : List UInt8) (flags : ℕ) :
    List (Fin reCacheSlots) → Fin reCacheSlots → Scan
  | [], lru => .victim lru
  | i :: is, lru =>
    if hits (cache i) pattern flags then .hit i
    else scan cache pattern flags is (if (cache i).stamp < (cache lru).stamp then i else lru)

/-- `++tls_clock` -/
def tick (st : CacheState) : ℕ := (st.tlsClock + 1) % 2 ^ 32

/-- `__ls_regex_compile`, which allocates the handle; `oom` is a failed `calloc`. -/
def regexCompile (st : CacheState) (pattern : List UInt8) (flags : ℕ) (oom : Bool) :
    Except Stop (Option ℕ × CacheState) :=
  if oom then .ok (none, st)
  else match compile pattern flags with
    | .ok re => .ok (some st.handles.length, { st with handles := st.handles ++ [re] })
    | .error (.error _) => .ok (none, st)
    | .error stop => .error stop

/-- `__ls_regex_free` -/
def regexFree (st : CacheState) : Option ℕ → Except Stop CacheState
  | none => .ok st
  | some id => if id ∈ st.freed then .error .undefined else .ok { st with freed := id :: st.freed }

/-- `__ls_regex_cached`; `none` is NULL. -/
def cached (st : CacheState) (pattern : List UInt8) (flags : ℕ) (oom : Bool) : Except Stop (Option ℕ × CacheState) :=
  let plen := (cString pattern).length
  -- a pattern that no slot holds is left to the caller
  if reCachePatlen ≤ plen then .ok (none, st)
  else match scan st.tlsCache pattern flags (List.finRange reCacheSlots) 0 with
    | .hit i =>
      let s := { st.tlsCache i with stamp := st.tick }
      .ok (s.re, { st with tlsCache := Function.update st.tlsCache i s, tlsClock := st.tick })
    | .victim lru => do
      let (re, st) ← st.regexCompile pattern flags oom
      match re with
      | none => .ok (none, st)
      | some id => do
        let victim := st.tlsCache lru
        -- the victim is freed once the new handle is there
        let st ← st.regexFree victim.re
        let pat := cString pattern ++ 0 :: victim.pat.drop (plen + 1)
        let victim := { victim with pat := pat, flags := flags, re := some id, stamp := st.tick }
        .ok (some id, { st with tlsCache := Function.update st.tlsCache lru victim, tlsClock := st.tick })

/-- A call, and whether there is memory for a handle. -/
structure Call where
  pattern : List UInt8
  flags : ℕ
  oom : Bool

def Call.key (c : Call) : Key := (cString c.pattern, c.flags)

/-- Calls one after the other. -/
def run (st : CacheState) : List Call → Except Stop CacheState
  | [] => .ok st
  | c :: calls => do
    let (_, st) ← st.cached c.pattern c.flags c.oom
    st.run calls

def slotKey (s : ReCacheSlot) : Option Key := s.re.map fun _ => (cString s.pat, s.flags)

def keyAt (st : CacheState) (i : Fin reCacheSlots) : Option Key := slotKey (st.tlsCache i)

def stampAt (st : CacheState) (i : Fin reCacheSlots) : ℕ := (st.tlsCache i).stamp

structure Coherent (st : CacheState) : Prop where
  stamped : Stamped st.keyAt st.stampAt st.tlsClock
  made : ∀ i id, (st.tlsCache i).re = some id → ∃ re, st.handles[id]? = some re ∧
    compile (cString (st.tlsCache i).pat) (st.tlsCache i).flags = .ok re
  apart : ∀ i j id, (st.tlsCache i).re = some id → (st.tlsCache j).re = some id → i = j
  alive : ∀ i id, (st.tlsCache i).re = some id → id ∉ st.freed
  old : ∀ id ∈ st.freed, id < st.handles.length

variable {st st' : CacheState} {pattern : List UInt8} {flags id : ℕ} {oom : Bool} {r : Option ℕ}
  {cache : Fin reCacheSlots → ReCacheSlot}

theorem hits_iff (s : ReCacheSlot) : hits s pattern flags = true ↔ slotKey s = some (cString pattern, flags) := by
  unfold hits slotKey
  cases s.re with
  | none =>
    grind
  | some id =>
    grind

theorem scan_hit {is : List (Fin reCacheSlots)} {lru i : Fin reCacheSlots}
    (h : scan cache pattern flags is lru = .hit i) : hits (cache i) pattern flags = true := by
  induction is generalizing lru with
  | nil => cases h
  | cons a is ih =>
    unfold scan at h
    grind

theorem scan_victim {is : List (Fin reCacheSlots)} {lru v : Fin reCacheSlots}
    (h : scan cache pattern flags is lru = .victim v) :
    (cache v).stamp ≤ (cache lru).stamp ∧
      ∀ i ∈ is, hits (cache i) pattern flags = false ∧ (cache v).stamp ≤ (cache i).stamp := by
  induction is generalizing lru with
  | nil =>
    cases h
    grind
  | cons a is ih =>
    unfold scan at h
    split at h
    · cases h
    · next hmiss =>
      obtain ⟨hle, hrest⟩ := ih h
      have hboth : (cache v).stamp ≤ (cache lru).stamp ∧ (cache v).stamp ≤ (cache a).stamp := by
        split at hle <;> omega
      refine ⟨hboth.1, fun i hi => ?_⟩
      rcases List.mem_cons.1 hi with rfl | hi
      · grind
      · exact hrest i hi

def touched (st : CacheState) (i : Fin reCacheSlots) : CacheState :=
  { st with
    tlsCache := Function.update st.tlsCache i { st.tlsCache i with stamp := st.tick }
    tlsClock := st.tick }

/-- A miss: the new handle has taken the place of the one in `v`. -/
def replaced (st : CacheState) (v : Fin reCacheSlots) (pattern : List UInt8) (flags : ℕ) (re : ReHandle) : CacheState where
  tlsCache := Function.update st.tlsCache v
    { pat := cString pattern ++ 0 :: (st.tlsCache v).pat.drop ((cString pattern).length + 1)
      flags := flags
      re := some st.handles.length
      stamp := st.tick }
  tlsClock := st.tick
  handles := st.handles ++ [re]
  freed := (st.tlsCache v).re.toList ++ st.freed

theorem regexFree_ok (h : st.regexFree r = .ok st') : st' = { st with freed := r.toList ++ st.freed } := by
  unfold regexFree at h
  cases r with
  | none =>
    cases h
    rfl
  | some id =>
    grind

theorem regexCompile_cases (h : st.regexCompile pattern flags oom = .ok (r, st')) :
    (r = none ∧ st' = st) ∨ ∃ re, compile pattern flags = .ok re ∧ r = some st.handles.length ∧
      st' = { st with handles := st.handles ++ [re] } := by
  unfold regexCompile at h
  grind

theorem cached_cases (h : st.cached pattern flags oom = .ok (r, st')) :
    (r = none ∧ st' = st) ∨
    (∃ i, st.keyAt i = some (cString pattern, flags) ∧ r = (st.tlsCache i).re ∧ st' = st.touched i) ∨
    (∃ v re, (∀ i, st.keyAt i ≠ some (cString pattern, flags)) ∧ (∀ i, st.stampAt v ≤ st.stampAt i) ∧
      compile pattern flags = .ok re ∧ r = some st.handles.length ∧ st' = st.replaced v pattern flags re) := by
  unfold cached at h
  dsimp only at h
  split at h
  · grind
  · split at h
    · next i hscan =>
      cases h
      exact .inr (.inl ⟨i, (hits_iff _).1 (scan_hit hscan), rfl, rfl⟩)
    · next v hscan =>
      have hall := (scan_victim hscan).2
      cases hc : st.regexCompile pattern flags oom with
      | error stop =>
        rw [hc] at h
        cases h
      | ok p =>
        obtain ⟨r₁, st₁⟩ := p
        rw [hc] at h
        rcases regexCompile_cases hc with ⟨rfl, rfl⟩ | ⟨re, hre, rfl, rfl⟩
        · cases h
          exact .inl ⟨rfl, rfl⟩
        · refine .inr (.inr ⟨v, re, ?_, fun i => (hall i (List.mem_finRange i)).2, hre, ?_⟩)
          · intro i hkey
            have hmiss := (hall i (List.mem_finRange i)).1
            rw [(hits_iff _).2 hkey] at hmiss
            cases hmiss
          · cases hf : regexFree { st with handles := st.handles ++ [re] } (st.tlsCache v).re with
            | error stop =>
              change (regexFree { st with handles := st.handles ++ [re] } (st.tlsCache v).re >>= _) = _ at h
              rw [hf] at h
              cases h
            | ok st₂ =>
              change (regexFree { st with handles := st.handles ++ [re] } (st.tlsCache v).re >>= _) = _ at h
              rw [hf] at h
              cases h
              rw [regexFree_ok hf]
              exact ⟨rfl, rfl⟩

theorem cString_pat (old : List UInt8) : cString (cString pattern ++ 0 :: old) = cString pattern := by
  have hkeep : ∀ b ∈ cString pattern, decide (b ≠ 0) = true := List.all_eq_true.1 List.all_takeWhile
  show List.takeWhile _ _ = _
  rw [List.takeWhile_append_of_pos hkeep]
  exact List.append_nil _

theorem compile_cString (pattern : List UInt8) (flags : ℕ) : compile (cString pattern) flags = compile pattern flags := by
  have hsame : (cString pattern).takeWhile (· ≠ 0) = pattern.takeWhile (· ≠ 0) := List.takeWhile_idem ..
  unfold compile
  dsimp only
  rw [hsame]

/-- In the next state the slot `j`, and no other, holds the key `k`, and has the latest stamp. -/
structure Uses (st st' : CacheState) (k : Key) (j : Fin reCacheSlots) : Prop where
  keys : st'.keyAt = Function.update st.keyAt j (some k)
  stamps : st'.stampAt = Function.update st.stampAt j (st.tlsClock + 1)
  clock : st'.tlsClock = st.tlsClock + 1
  own : ∀ i, st.keyAt i = some k → i = j

theorem Uses.of_update {k : Key} {j : Fin reCacheSlots} {s : ReCacheSlot} (hlt : st.tlsClock + 1 < 2 ^ 32)
    (hcache : st'.tlsCache = Function.update st.tlsCache j s) (hclock : st'.tlsClock = st.tick)
    (hkey : slotKey s = some k) (hstamp : s.stamp = st.tick) (hown : ∀ i, st.keyAt i = some k → i = j) :
    Uses st st' k j := by
  have htick : st.tick = st.tlsClock + 1 := Nat.mod_eq_of_lt hlt
  refine ⟨?_, ?_, hclock.trans htick, hown⟩
  · show slotKey ∘ st'.tlsCache = _
    rw [hcache, Function.comp_update, hkey]
    rfl
  · show ReCacheSlot.stamp ∘ st'.tlsCache = _
    rw [hcache, Function.comp_update, hstamp, htick]
    rfl

theorem Uses.stamped {k : Key} {j : Fin reCacheSlots} (h : Uses st st' k j)
    (hst : Stamped st.keyAt st.stampAt st.tlsClock) : Stamped st'.keyAt st'.stampAt st'.tlsClock := by
  rw [h.keys, h.stamps, h.clock]
  exact hst.use h.own

theorem Coherent.uses_touched (h : Coherent st) (hlt : st.tlsClock + 1 < 2 ^ 32) {i : Fin reCacheSlots} {k : Key}
    (hi : st.keyAt i = some k) : Uses st (st.touched i) k i :=
  .of_update hlt rfl rfl hi rfl fun j hj => h.stamped.keys j i k hj hi

theorem uses_replaced (hlt : st.tlsClock + 1 < 2 ^ 32) {v : Fin reCacheSlots} (re : ReHandle)
    (hmiss : ∀ i, st.keyAt i ≠ some (cString pattern, flags)) :
    Uses st (st.replaced v pattern flags re) (cString pattern, flags) v := by
  refine .of_update hlt rfl rfl ?_ rfl fun i hi => absurd hi (hmiss i)
  unfold slotKey
  rw [cString_pat]
  rfl

theorem touched_slot (st : CacheState) (i j : Fin reCacheSlots) :
    ((st.touched i).tlsCache j).re = (st.tlsCache j).re ∧ ((st.touched i).tlsCache j).pat = (st.tlsCache j).pat ∧
      ((st.touched i).tlsCache j).flags = (st.tlsCache j).flags := by
  unfold touched
  grind

theorem Coherent.touched (h : Coherent st) (hlt : st.tlsClock + 1 < 2 ^ 32) {i : Fin reCacheSlots} {k : Key}
    (hi : st.keyAt i = some k) : Coherent (st.touched i) where
  stamped := (h.uses_touched hlt hi).stamped h.stamped
  made j id hj := by
    obtain ⟨hre, hpat, hflags⟩ := touched_slot st i j
    rw [hpat, hflags]
    exact h.made j id (hre.symm.trans hj)
  apart a b id ha hb :=
    h.apart a b id ((touched_slot st i a).1.symm.trans ha) ((touched_slot st i b).1.symm.trans hb)
  alive j id hj := h.alive j id ((touched_slot st i j).1.symm.trans hj)
  old := h.old

theorem replaced_self (st : CacheState) (v : Fin reCacheSlots) (re : ReHandle) :
    (st.replaced v pattern flags re).tlsCache v =
      { pat := cString pattern ++ 0 :: (st.tlsCache v).pat.drop ((cString pattern).length + 1)
        flags := flags
        re := some st.handles.length
        stamp := st.tick } :=
  Function.update_self ..

theorem replaced_of_ne (st : CacheState) {v j : Fin reCacheSlots} (re : ReHandle) (hj : j ≠ v) :
    (st.replaced v pattern flags re).tlsCache j = st.tlsCache j :=
  Function.update_of_ne hj ..

theorem Coherent.lt_length (h : Coherent st) {i : Fin reCacheSlots} (hi : (st.tlsCache i).re = some id) :
    id < st.handles.length := by
  obtain ⟨re, hre, _⟩ := h.made i id hi
  grind

theorem Coherent.replaced (h : Coherent st) (hlt : st.tlsClock + 1 < 2 ^ 32) {v : Fin reCacheSlots} {re : ReHandle}
    (hmiss : ∀ i, st.keyAt i ≠ some (cString pattern, flags)) (hre : compile pattern flags = .ok re) :
    Coherent (st.replaced v pattern flags re) where
  stamped := (uses_replaced hlt re hmiss).stamped h.stamped
  made j id hj := by
    by_cases hjv : j = v
    · subst hjv
      rw [replaced_self] at hj ⊢
      cases hj
      refine ⟨re, List.getElem?_concat_length, ?_⟩
      rw [cString_pat, compile_cString, hre]
    · rw [replaced_of_ne st re hjv] at hj ⊢
      obtain ⟨re', hre', hcompile⟩ := h.made j id hj
      exact ⟨re', (List.getElem?_append_left (h.lt_length hj)).trans hre', hcompile⟩
  apart a b id ha hb := by
    -- the new handle is the last that was made, so no other slot has it
    by_cases hav : a = v <;> by_cases hbv : b = v
    · exact hav.trans hbv.symm
    · subst hav
      rw [replaced_self] at ha
      rw [replaced_of_ne st re hbv] at hb
      cases ha
      exact absurd (h.lt_length hb) (Nat.lt_irrefl _)
    · subst hbv
      rw [replaced_self] at hb
      rw [replaced_of_ne st re hav] at ha
      cases hb
      exact absurd (h.lt_length ha) (Nat.lt_irrefl _)
    · rw [replaced_of_ne st re hav] at ha
      rw [replaced_of_ne st re hbv] at hb
      exact h.apart a b id ha hb
  alive j id hj hfreed := by
    rcases List.mem_append.1 hfreed with hvictim | hbefore
    · have hv : (st.tlsCache v).re = some id := Option.mem_toList.1 hvictim
      by_cases hjv : j = v
      · subst hjv
        rw [replaced_self] at hj
        cases hj
        exact absurd (h.lt_length hv) (Nat.lt_irrefl _)
      · rw [replaced_of_ne st re hjv] at hj
        exact hjv (h.apart j v id hj hv)
    · by_cases hjv : j = v
      · subst hjv
        rw [replaced_self] at hj
        cases hj
        exact absurd (h.old _ hbefore) (Nat.lt_irrefl _)
      · rw [replaced_of_ne st re hjv] at hj
        exact h.alive j id hj hbefore
  old id hfreed := by
    show id < (st.handles ++ [re]).length
    rw [List.length_append]
    apply Nat.lt_of_lt_of_le _ (Nat.le_add_right ..)
    rcases List.mem_append.1 hfreed with hvictim | hfreed
    · exact h.lt_length (Option.mem_toList.1 hvictim)
    · exact h.old id hfreed

theorem coherent_init : Coherent init where
  stamped := Stamped.init
  made _ _ h := absurd h.symm (Option.some_ne_none _)
  apart _ _ _ h := absurd h.symm (Option.some_ne_none _)
  alive _ _ h := absurd h.symm (Option.some_ne_none _)
  old _ h := absurd h List.not_mem_nil

theorem Coherent.cached (h : Coherent st) (hlt : st.tlsClock + 1 < 2 ^ 32)
    (hcall : st.cached pattern flags oom = .ok (r, st')) : Coherent st' ∧ st'.tlsClock ≤ st.tlsClock + 1 := by
  rcases cached_cases hcall with ⟨rfl, rfl⟩ | ⟨i, hi, rfl, rfl⟩ | ⟨v, re, hmiss, _, hre, rfl, rfl⟩
  · grind
  · exact ⟨h.touched hlt hi, Nat.le_of_eq (h.uses_touched hlt hi).clock⟩
  · exact ⟨h.replaced hlt hmiss hre, Nat.le_of_eq (uses_replaced hlt re hmiss).clock⟩

/-- A slot holds the key and the handle, and those used after it hold keys of `S`. -/
def Held (st : CacheState) (k : Key) (id : ℕ) (S : Finset Key) : Prop :=
  ∃ i, st.keyAt i = some k ∧ (st.tlsCache i).re = some id ∧ LaterIn st.keyAt st.stampAt i S

theorem Uses.held_now {k : Key} {j : Fin reCacheSlots} (h : Uses st st' k j)
    (hst : Stamped st.keyAt st.stampAt st.tlsClock) (hre : (st'.tlsCache j).re = some id) (S : Finset Key) :
    Held st' k id S := by
  refine ⟨j, ?_, hre, ?_⟩
  · rw [h.keys, Function.update_self]
  · rw [h.keys, h.stamps]
    exact LaterIn.now hst j k S

theorem Uses.held_other {k k₀ : Key} {i j : Fin reCacheSlots} {S : Finset Key} (h : Uses st st' k j) (hij : i ≠ j)
    (hi : st.keyAt i = some k₀) (hre : (st'.tlsCache i).re = some id) (hlater : LaterIn st.keyAt st.stampAt i S)
    (hS : k ∈ S) : Held st' k₀ id S := by
  refine ⟨i, ?_, hre, ?_⟩
  · rw [h.keys, Function.update_of_ne hij, hi]
  · rw [h.keys, h.stamps]
    exact hlater.use hij hS

theorem Coherent.returned (h : Coherent st) (hlt : st.tlsClock + 1 < 2 ^ 32)
    (hcall : st.cached pattern flags oom = .ok (some id, st')) (S : Finset Key) :
    (∃ re, st'.handles[id]? = some re ∧ compile pattern flags = .ok re) ∧ Held st' (cString pattern, flags) id S := by
  rcases cached_cases hcall with ⟨hr, _⟩ | ⟨i, hi, hr, rfl⟩ | ⟨v, re, hmiss, _, hre, hr, rfl⟩
  · cases hr
  · have hkey : (cString (st.tlsCache i).pat, (st.tlsCache i).flags) = (cString pattern, flags) := by
      unfold keyAt slotKey at hi
      grind
    obtain ⟨hpat, hflags⟩ := Prod.mk.inj hkey
    obtain ⟨re, hget, hcompile⟩ := h.made i id hr.symm
    rw [hpat, hflags, compile_cString] at hcompile
    exact ⟨⟨re, hget, hcompile⟩,
      (h.uses_touched hlt hi).held_now h.stamped ((touched_slot st i i).1.trans hr.symm) S⟩
  · cases hr
    refine ⟨⟨re, List.getElem?_concat_length, hre⟩, (uses_replaced hlt re hmiss).held_now h.stamped ?_ S⟩
    rw [replaced_self]

theorem Held.cached {k₀ : Key} {S : Finset Key} (hheld : Held st k₀ id S) (h : Coherent st)
    (hlt : st.tlsClock + 1 < 2 ^ 32) (hcard : S.card < reCacheSlots)
    (hkey : (cString pattern, flags) = k₀ ∨ (cString pattern, flags) ∈ S)
    (hcall : st.cached pattern flags oom = .ok (r, st')) : Held st' k₀ id S := by
  obtain ⟨i, hi, hre, hlater⟩ := hheld
  rcases cached_cases hcall with ⟨rfl, rfl⟩ | ⟨j, hj, rfl, rfl⟩ | ⟨v, re, hmiss, hmin, _, rfl, rfl⟩
  · exact ⟨i, hi, hre, hlater⟩
  · have huses := h.uses_touched hlt hj
    by_cases hij : i = j
    · subst hij
      obtain rfl : k₀ = (cString pattern, flags) := Option.some.inj (hi.symm.trans hj)
      exact huses.held_now h.stamped ((touched_slot st i i).1.trans hre) S
    · have hne : (cString pattern, flags) ≠ k₀ := by
        intro heq
        exact hij (h.stamped.keys i j k₀ hi (hj.trans (congrArg some heq)))
      exact huses.held_other hij hi ((touched_slot st j i).1.trans hre) hlater (hkey.resolve_left hne)
  · have hne : (cString pattern, flags) ≠ k₀ := by grind
    have hS := hkey.resolve_left hne
    have hiv : i ≠ v := by
      rintro rfl
      exact absurd (hlater.card_le h.stamped hmin hi hS hmiss) (Nat.not_le.2 hcard)
    refine (uses_replaced hlt re hmiss).held_other hiv hi ?_ hlater hS
    rw [replaced_of_ne st re hiv, hre]

theorem Coherent.cached_yields (h : Coherent st) {re : ReHandle} (hlen : (cString pattern).length < reCachePatlen)
    (hre : compile pattern flags = .ok re) : ∃ id st', st.cached pattern flags false = .ok (some id, st') := by
  have hroom : ¬ reCachePatlen ≤ (cString pattern).length := Nat.not_le.2 hlen
  unfold CacheState.cached
  dsimp only
  rw [if_neg hroom]
  cases hscan : scan st.tlsCache pattern flags (List.finRange reCacheSlots) 0 with
  | hit i =>
    have hhit := scan_hit hscan
    unfold hits at hhit
    obtain ⟨id, hid⟩ : ∃ id, (st.tlsCache i).re = some id := Option.isSome_iff_exists.1 (by grind)
    exact ⟨id, _, congrArg (fun r => Except.ok (r, _)) hid⟩
  | victim v =>
    have hcompile : st.regexCompile pattern flags false =
        .ok (some st.handles.length, { st with handles := st.handles ++ [re] }) := by
      unfold regexCompile
      rw [hre]
      rfl
    -- the handle of the victim has not been freed before
    have hfree : ∃ st₂, regexFree { st with handles := st.handles ++ [re] } (st.tlsCache v).re = .ok st₂ := by
      unfold regexFree
      cases hv : (st.tlsCache v).re with
      | none => exact ⟨_, rfl⟩
      | some id => exact ⟨_, if_neg (h.alive v id hv)⟩
    obtain ⟨st₂, hst₂⟩ := hfree
    rw [hcompile]
    simp only [bind, Except.bind, hst₂]
    exact ⟨_, _, rfl⟩

theorem run_cons {c : Call} {calls : List Call} (h : st.run (c :: calls) = .ok st') :
    ∃ r st₁, st.cached c.pattern c.flags c.oom = .ok (r, st₁) ∧ st₁.run calls = .ok st' := by
  unfold run at h
  cases hc : st.cached c.pattern c.flags c.oom with
  | error stop =>
    rw [hc] at h
    cases h
  | ok p =>
    rw [hc] at h
    exact ⟨p.1, p.2, rfl, h⟩

theorem Coherent.run {calls : List Call} (h : Coherent st) (hlt : st.tlsClock + calls.length < 2 ^ 32)
    (hrun : st.run calls = .ok st') : Coherent st' ∧ st'.tlsClock ≤ st.tlsClock + calls.length := by
  induction calls generalizing st with
  | nil =>
    cases hrun
    grind
  | cons c calls ih =>
    obtain ⟨r, st₁, hcall, hrest⟩ := run_cons hrun
    rw [List.length_cons] at hlt ⊢
    obtain ⟨h₁, hclock⟩ := h.cached (by omega) hcall
    grind

theorem Held.run {k₀ : Key} {S : Finset Key} {calls : List Call} (hheld : Held st k₀ id S) (h : Coherent st)
    (hlt : st.tlsClock + calls.length < 2 ^ 32) (hcard : S.card < reCacheSlots)
    (hkeys : ∀ c ∈ calls, c.key = k₀ ∨ c.key ∈ S) (hrun : st.run calls = .ok st') : Held st' k₀ id S := by
  induction calls generalizing st with
  | nil =>
    cases hrun
    exact hheld
  | cons c calls ih =>
    obtain ⟨r, st₁, hcall, hrest⟩ := run_cons hrun
    rw [List.length_cons] at hlt
    obtain ⟨h₁, hclock⟩ := h.cached (by omega) hcall
    have hheld₁ := hheld.cached h (by omega) hcard (hkeys c (List.mem_cons_self ..)) hcall
    grind

/-- The slots have different keys, and handles that have not been freed. A call returns a handle that was compiled from its
pattern and flags, and the handle stays in the cache while the calls involve at most 31 other keys. A short pattern that
compiles has a handle. -/
theorem pattern_cache_coherent (calls : List Call) (st : CacheState) (hlen : calls.length < 2 ^ 32)
    (hrun : init.run calls = .ok st) :
    (∀ i j k, st.keyAt i = some k → st.keyAt j = some k → i = j) ∧
    (∀ i id, (st.tlsCache i).re = some id → id ∉ st.freed) ∧
    (∀ (c : Call) (id : ℕ) (st₁ : CacheState), calls.length + 1 < 2 ^ 32 →
      st.cached c.pattern c.flags c.oom = .ok (some id, st₁) →
      (∃ re, st₁.handles[id]? = some re ∧ compile c.pattern c.flags = .ok re) ∧
      ∀ (later : List Call) (st₂ : CacheState) (others : Finset Key), calls.length + 1 + later.length < 2 ^ 32 →
        st₁.run later = .ok st₂ → others.card ≤ 31 → (∀ c' ∈ later, c'.key = c.key ∨ c'.key ∈ others) →
        ∃ i, st₂.keyAt i = some c.key ∧ (st₂.tlsCache i).re = some id ∧ id ∉ st₂.freed) ∧
    ∀ (c : Call) (re : ReHandle), c.oom = false → (cString c.pattern).length < reCachePatlen →
      compile c.pattern c.flags = .ok re → ∃ id st₁, st.cached c.pattern c.flags c.oom = .ok (some id, st₁) := by
  have hzero : init.tlsClock + calls.length = calls.length := Nat.zero_add _
  obtain ⟨h, hclock⟩ := coherent_init.run (by rw [hzero]; exact hlen) hrun
  rw [hzero] at hclock
  refine ⟨h.stamped.keys, h.alive, ?_, ?_⟩
  · intro c id st₁ hlen₁ hcall
    obtain ⟨h₁, hclock₁⟩ := h.cached (by omega) hcall
    refine ⟨(h.returned (by omega) hcall ∅).1, ?_⟩
    intro later st₂ others hlen₂ hlater hcard hkeys
    have hheld := (h.returned (by omega) hcall others).2
    obtain ⟨h₂, _⟩ := h₁.run (by omega) hlater
    obtain ⟨i, hi, hre, _⟩ := hheld.run h₁ (by omega) (Nat.lt_succ_of_le hcard) hkeys hlater
    exact ⟨i, hi, hre, h₂.alive i id hre⟩
  · intro c re hmemory hshort hre
    rw [hmemory]
    exact h.cached_yields hshort hre

/-- The pattern of so many letters `a`. -/
def lettersA (n : ℕ) : Call := ⟨List.replicate n 97, 0, false⟩

/-- Thirty-two keys fill the cache and the first of them is hit. The next key puts out the second, and stays when that one
comes back and puts out the third. -/
theorem pattern_cache_coherent_evicts : ∃ st id st₁ st₂,
    init.run ((List.range 32).map (fun n => lettersA (n + 1)) ++ [lettersA 1]) = .ok st ∧
    st.cached (lettersA 33).pattern (lettersA 33).flags (lettersA 33).oom = .ok (some id, st₁) ∧ st₁.freed = [1] ∧
    st₁.run [lettersA 2, lettersA 33, lettersA 1] = .ok st₂ ∧ st₂.freed = [2, 1] ∧
    (∃ re, st₁.handles[id]? = some re ∧ compile (lettersA 33).pattern (lettersA 33).flags = .ok re) ∧
    ∃ i, st₂.keyAt i = some (lettersA 33).key ∧ (st₂.tlsCache i).re = some id ∧ id ∉ st₂.freed := by
  have hruns : ((init.run ((List.range 32).map (fun n => lettersA (n + 1)) ++ [lettersA 1])).toOption.bind fun st =>
      (st.cached (lettersA 33).pattern (lettersA 33).flags (lettersA 33).oom).toOption.bind fun p =>
        (p.2.run [lettersA 2, lettersA 33, lettersA 1]).toOption.map fun st₂ => (p.1, p.2.freed, st₂.freed)) =
      some (some 32, [1], [2, 1]) := by
    decide +kernel
  have hok : ∀ {α : Type} {x : Except Stop α} {a : α}, x.toOption = some a → x = .ok a := by
    intro α x a h
    cases x with
    | error stop => cases h
    | ok b => exact congrArg Except.ok (Option.some.inj h)
  obtain ⟨st, hst, hruns⟩ := Option.bind_eq_some_iff.1 hruns
  obtain ⟨p, hp, hruns⟩ := Option.bind_eq_some_iff.1 hruns
  obtain ⟨st₂, hst₂, hfreed⟩ := Option.map_eq_some_iff.1 hruns
  obtain ⟨r, st₁⟩ := p
  obtain ⟨rfl, hfreed₁, hfreed₂⟩ : r = some 32 ∧ st₁.freed = [1] ∧ st₂.freed = [2, 1] := by simpa using hfreed
  have hcached := hok hp
  obtain ⟨hre, hlater⟩ := (pattern_cache_coherent _ st (by decide +kernel) (hok hst)).2.2.1 (lettersA 33) 32 st₁
    (by decide +kernel) hcached
  have hheld := hlater [lettersA 2, lettersA 33, lettersA 1] st₂ {(lettersA 2).key, (lettersA 1).key}
    (by decide +kernel) (hok hst₂) (by decide +kernel) (by decide +kernel)
  exact ⟨st, 32, st₁, st₂, hok hst, hcached, hfreed₁, hok hst₂, hfreed₂, hre, hheld⟩

end CacheState

end LsLang.Regex
