import LsLang.Sync.Capacity
import LsLang.Lib.Transition
import LsLang.Lib.Cyclic
import Mathlib.Data.Finset.Card
import Mathlib.Data.Finset.Insert

/-! The ring of `std.sync.ring`. Threads interleave at every atomic access of a
cursor and at every access of a slot. -/

namespace LsLang.Sync

open Function

/-- A slot of `data` is `none` while no element is stored in it; the cursors are `i64`. -/
structure Ring (T : Type) where
  data : Nat → Option T
  cap : Nat
  mask : Nat
  mp : Bool
  mc : Bool
  prodHead : Int
  prodTail : Int
  consHead : Int
  consTail : Int

namespace Ring

variable {T : Type}

/-- `new_ring` and `new_mpmc_ring` differ in the two mode flags only. -/
def new (multi : Bool) (fuel : Nat) (capacity : Int) : Option (Ring T) := do
  let size ← roundUp fuel 1 capacity
  some { data := fun _ => none, cap := size.toNat, mask := (size - 1).toNat, mp := multi,
         mc := multi, prodHead := 0, prodTail := 0, consHead := 0, consTail := 0 }

def newRing (fuel : Nat) (capacity : Int) : Option (Ring T) := new false fuel capacity

def newMpmcRing (fuel : Nat) (capacity : Int) : Option (Ring T) := new true fuel capacity

/-- `(slot as int) & self.mask`: the low 32 bits of the cursor under the mask. -/
def slotOf (r : Ring T) (slot : Int) : Nat := (slot % 2 ^ 32).toNat &&& r.mask

end Ring

/-- Where a thread is inside `enqueue x` or `dequeue`, with its local variables. -/
inductive RingPhase (T : Type)
  | idle
  | enqStart (x : T)
  | enqHead (x : T) (oh : Int)
  | enqCas (x : T) (oh : Int)
  | enqTail (x : T) (p : Int)
  | enqWrite (x : T) (slot : Int)
  | enqWait (x : T) (slot : Int)
  | enqPublish (x : T) (slot : Int)
  | deqStart
  | deqHead (oh : Int)
  | deqCas (oh : Int)
  | deqTail (c : Int)
  | deqRead (oh : Int)
  | deqWait (oh : Int) (out : T)
  | deqPublish (oh : Int) (out : T)

structure RingSys (τ T : Type) where
  ring : Ring T
  phase : τ → RingPhase T

/-- A step and the thread that takes it; reservations and successful returns
carry the reserved cursor value. -/
inductive RingEvent (τ T : Type)
  | enqCall (t : τ) (x : T)
  | enqReserve (t : τ) (slot : Int) (x : T)
  | enqTrue (t : τ) (slot : Int) (x : T)
  | enqFalse (t : τ) (x : T)
  | deqCall (t : τ)
  | deqReserve (t : τ) (slot : Int)
  | deqSome (t : τ) (slot : Int) (x : T)
  | deqNone (t : τ)
  | access (t : τ)

namespace RingEvent

variable {τ T : Type}

def thread : RingEvent τ T → τ
  | .enqCall t _ | .enqReserve t _ _ | .enqTrue t _ _ | .enqFalse t _ | .deqCall t
  | .deqReserve t _ | .deqSome t _ _ | .deqNone t | .access t => t

/-- The start of an operation. -/
def isCall : RingEvent τ T → Bool
  | .enqCall _ _ | .deqCall _ => true
  | _ => false

def reserved? : RingEvent τ T → Option (Int × T)
  | .enqReserve _ i x => some (i, x)
  | _ => none

def enqueued? : RingEvent τ T → Option (Int × T)
  | .enqTrue _ i x => some (i, x)
  | _ => none

def dequeued? : RingEvent τ T → Option (Int × T)
  | .deqSome _ i x => some (i, x)
  | _ => none

def ops (es : List (RingEvent τ T)) : Nat := es.countP isCall

def reserved (es : List (RingEvent τ T)) : List (Int × T) := es.filterMap reserved?

def enqueued (es : List (RingEvent τ T)) : List (Int × T) := es.filterMap enqueued?

def dequeued (es : List (RingEvent τ T)) : List (Int × T) := es.filterMap dequeued?

end RingEvent

namespace RingSys

variable {τ T : Type} [DecidableEq τ]

/-- Thread `t` moves on and leaves the ring as it is. -/
def go (s : RingSys τ T) (t : τ) (p : RingPhase T) : RingSys τ T := ⟨s.ring, update s.phase t p⟩

/-- Thread `t` moves on and the ring becomes `r`. -/
def set (s : RingSys τ T) (t : τ) (r : Ring T) (p : RingPhase T) : RingSys τ T :=
  ⟨r, update s.phase t p⟩

/-- One atomic access of a cursor or of a slot. The return of a method is taken
together with its last access. -/
inductive Step : RingSys τ T → RingEvent τ T → RingSys τ T → Prop
  | enqCall {s t x} (hp : s.phase t = .idle) : Step s (.enqCall t x) (s.go t (.enqStart x))
  | enqLoadHead {s t x} (hp : s.phase t = .enqStart x) (hm : s.ring.mp = true) :
      Step s (.access t) (s.go t (.enqHead x s.ring.prodHead))
  | enqFull {s t x oh} (hp : s.phase t = .enqHead x oh)
      (h : (s.ring.cap : Int) ≤ i64 (oh - s.ring.consTail)) :
      Step s (.enqFalse t x) (s.go t .idle)
  | enqRoom {s t x oh} (hp : s.phase t = .enqHead x oh)
      (h : i64 (oh - s.ring.consTail) < (s.ring.cap : Int)) :
      Step s (.access t) (s.go t (.enqCas x oh))
  | enqReserve {s t x oh} (hp : s.phase t = .enqCas x oh) (h : s.ring.prodHead = oh) :
      Step s (.enqReserve t oh x)
        (s.set t { s.ring with prodHead := i64 (oh + 1) } (.enqWrite x oh))
  | enqRetry {s t x oh} (hp : s.phase t = .enqCas x oh) (h : s.ring.prodHead ≠ oh) :
      Step s (.access t) (s.go t (.enqStart x))
  -- the single-producer path: no reservation, the own cursor is the slot
  | enqLoadTail {s t x} (hp : s.phase t = .enqStart x) (hm : s.ring.mp = false) :
      Step s (.access t) (s.go t (.enqTail x s.ring.prodTail))
  | enqTailFull {s t x p} (hp : s.phase t = .enqTail x p)
      (h : (s.ring.cap : Int) ≤ i64 (p - s.ring.consTail)) :
      Step s (.enqFalse t x) (s.go t .idle)
  | enqTailRoom {s t x p} (hp : s.phase t = .enqTail x p)
      (h : i64 (p - s.ring.consTail) < (s.ring.cap : Int)) :
      Step s (.access t) (s.go t (.enqWrite x p))
  | enqWrite {s t x slot} (hp : s.phase t = .enqWrite x slot) :
      Step s (.access t)
        (s.set t { s.ring with data := update s.ring.data (s.ring.slotOf slot) (some x) }
          (if s.ring.mp then .enqWait x slot else .enqPublish x slot))
  | enqSpin {s t x slot} (hp : s.phase t = .enqWait x slot) (h : s.ring.prodTail ≠ slot) :
      Step s (.access t) (s.go t (.enqWait x slot))
  | enqTurn {s t x slot} (hp : s.phase t = .enqWait x slot) (h : s.ring.prodTail = slot) :
      Step s (.access t) (s.go t (.enqPublish x slot))
  | enqPublish {s t x slot} (hp : s.phase t = .enqPublish x slot) :
      Step s (.enqTrue t slot x) (s.set t { s.ring with prodTail := i64 (slot + 1) } .idle)
  | deqCall {s t} (hp : s.phase t = .idle) : Step s (.deqCall t) (s.go t .deqStart)
  | deqLoadHead {s t} (hp : s.phase t = .deqStart) (hm : s.ring.mc = true) :
      Step s (.access t) (s.go t (.deqHead s.ring.consHead))
  | deqEmpty {s t oh} (hp : s.phase t = .deqHead oh) (h : s.ring.prodTail ≤ oh) :
      Step s (.deqNone t) (s.go t .idle)
  | deqSeen {s t oh} (hp : s.phase t = .deqHead oh) (h : oh < s.ring.prodTail) :
      Step s (.access t) (s.go t (.deqCas oh))
  | deqReserve {s t oh} (hp : s.phase t = .deqCas oh) (h : s.ring.consHead = oh) :
      Step s (.deqReserve t oh) (s.set t { s.ring with consHead := i64 (oh + 1) } (.deqRead oh))
  | deqRetry {s t oh} (hp : s.phase t = .deqCas oh) (h : s.ring.consHead ≠ oh) :
      Step s (.access t) (s.go t .deqStart)
  -- the single-consumer path
  | deqLoadTail {s t} (hp : s.phase t = .deqStart) (hm : s.ring.mc = false) :
      Step s (.access t) (s.go t (.deqTail s.ring.consTail))
  | deqTailEmpty {s t c} (hp : s.phase t = .deqTail c) (h : s.ring.prodTail ≤ c) :
      Step s (.deqNone t) (s.go t .idle)
  | deqTailSeen {s t c} (hp : s.phase t = .deqTail c) (h : c < s.ring.prodTail) :
      Step s (.access t) (s.go t (.deqRead c))
  -- `@take` of a slot with no element is undefined, so it is not a step
  | deqRead {s t oh out} (hp : s.phase t = .deqRead oh)
      (h : s.ring.data (s.ring.slotOf oh) = some out) :
      Step s (.access t)
        (s.set t { s.ring with data := update s.ring.data (s.ring.slotOf oh) none }
          (if s.ring.mc then .deqWait oh out else .deqPublish oh out))
  | deqSpin {s t oh out} (hp : s.phase t = .deqWait oh out) (h : s.ring.consTail ≠ oh) :
      Step s (.access t) (s.go t (.deqWait oh out))
  | deqTurn {s t oh out} (hp : s.phase t = .deqWait oh out) (h : s.ring.consTail = oh) :
      Step s (.access t) (s.go t (.deqPublish oh out))
  | deqPublish {s t oh out} (hp : s.phase t = .deqPublish oh out) :
      Step s (.deqSome t oh out) (s.set t { s.ring with consTail := i64 (oh + 1) } .idle)

/-- The state right after `new_mpmc_ring(T)(capacity)` returned. -/
def Init (s : RingSys τ T) : Prop :=
  (∃ fuel capacity, Ring.newMpmcRing fuel capacity = some s.ring) ∧ ∀ t, s.phase t = .idle

end RingSys

/-! What holds of the multi-producer, multi-consumer ring in every reachable
state: the order of the four cursors, which thread may touch which slot, and
what the slots hold. -/

open Function Transition RingEvent

variable {τ T : Type}

/-- The facts about the ring alone. `vals` lists the elements by the cursor value
they were reserved at. -/
structure Ring.Ok (r : Ring T) (vals : List (Int × T)) : Prop where
  pow : ∃ k ≤ 30, r.cap = 2 ^ k
  mask : r.mask = r.cap - 1
  mp : r.mp = true
  mc : r.mc = true
  nonneg : 0 ≤ r.consTail
  consTail_le : r.consTail ≤ r.consHead
  consHead_le : r.consHead ≤ r.prodTail
  prodTail_le : r.prodTail ≤ r.prodHead
  prodHead_le : r.prodHead ≤ r.consTail + r.cap
  length : r.prodHead = vals.length
  index : ∀ i (h : i < vals.length), vals[i].1 = i
  live : ∀ i x, (i, x) ∈ vals → r.consHead ≤ i → i < r.prodTail → r.data (r.slotOf i) = some x
  free : ∀ j, (∀ i, r.consTail ≤ i → i < r.prodHead → j ≠ r.slotOf i) → r.data j = none

namespace Ring.Ok

variable {r : Ring T} {vals : List (Int × T)}

theorem slotOf_eq (h : r.Ok vals) {i : Int} (hi : 0 ≤ i) : r.slotOf i = i.toNat % r.cap := by
  obtain ⟨k, hk, hp⟩ := h.pow
  have hd : 2 ^ k ∣ 2 ^ 32 := Nat.pow_dvd_pow 2 (hk.trans (by omega))
  rw [Ring.slotOf, h.mask, and_mask hp, hp]
  have hm : (i % 2 ^ 32).toNat = i.toNat % 2 ^ 32 := by omega
  rw [hm, Nat.mod_mod_of_dvd _ hd]

theorem slotOf_inj (h : r.Ok vals) {i j : Int} (hi : r.consTail ≤ i) (hj : r.consTail ≤ j)
    (hi' : i < r.consTail + r.cap) (hj' : j < r.consTail + r.cap)
    (he : r.slotOf i = r.slotOf j) : i = j := by
  have h0 := h.nonneg
  rw [h.slotOf_eq (h0.trans hi), h.slotOf_eq (h0.trans hj)] at he
  obtain ⟨b, hb⟩ := Int.eq_ofNat_of_zero_le h0
  obtain ⟨m, hm⟩ := Int.eq_ofNat_of_zero_le (Int.sub_nonneg_of_le hi)
  obtain ⟨n, hn⟩ := Int.eq_ofNat_of_zero_le (Int.sub_nonneg_of_le hj)
  have hi₂ : i.toNat = b + m := by omega
  have hj₂ : j.toNat = b + n := by omega
  rw [hi₂, hj₂] at he
  have := Cyclic.add_mod_inj (by omega) (by omega) he
  omega

theorem slotOf_ne (h : r.Ok vals) {i j : Int} (hi : r.consTail ≤ i) (hj : r.consTail ≤ j)
    (hi' : i < r.prodHead) (hj' : j < r.prodHead) (hne : i ≠ j) : r.slotOf i ≠ r.slotOf j :=
  fun he => hne (h.slotOf_inj hi hj (hi'.trans_le h.prodHead_le) (hj'.trans_le h.prodHead_le) he)

theorem fst_lt (h : r.Ok vals) {i : Int} {x : T} (hm : (i, x) ∈ vals) : 0 ≤ i ∧ i < r.prodHead := by
  obtain ⟨n, hn, he⟩ := List.getElem_of_mem hm
  have hi := h.index n hn
  rw [he] at hi
  have hl := h.length
  dsimp only at hi
  omega

theorem snd_unique (h : r.Ok vals) {i : Int} {x y : T} (hx : (i, x) ∈ vals) (hy : (i, y) ∈ vals) :
    x = y := by
  obtain ⟨m, hm, hx⟩ := List.getElem_of_mem hx
  obtain ⟨n, hn, hy⟩ := List.getElem_of_mem hy
  have h₁ := h.index m hm
  have h₂ := h.index n hn
  grind

end Ring.Ok

def RingPhase.enqSlot : RingPhase T → Option Int
  | .enqWrite _ i | .enqWait _ i | .enqPublish _ i => some i
  | _ => none

def RingPhase.deqSlot : RingPhase T → Option Int
  | .deqRead i | .deqWait i _ | .deqPublish i _ => some i
  | _ => none

def RingPhase.slot (p : RingPhase T) : Option Int := p.enqSlot <|> p.deqSlot

/-- Inside `enqueue x`, before the reservation. -/
def RingPhase.Reserving (p : RingPhase T) (x : T) : Prop :=
  p = .enqStart x ∨ (∃ oh, p = .enqHead x oh) ∨ ∃ oh, p = .enqCas x oh

def RingPhase.Ok (r : Ring T) (vals : List (Int × T)) : RingPhase T → Prop
  | .idle | .enqStart _ | .deqStart => True
  | .enqTail _ _ | .deqTail _ => False
  | .enqHead _ oh => 0 ≤ oh ∧ oh ≤ r.prodHead
  | .enqCas _ oh => oh < r.consTail + r.cap
  | .enqWrite x i => r.prodTail ≤ i ∧ (i, x) ∈ vals ∧ r.data (r.slotOf i) = none
  | .enqWait x i => r.prodTail ≤ i ∧ (i, x) ∈ vals ∧ r.data (r.slotOf i) = some x
  | .enqPublish x i => i = r.prodTail ∧ (i, x) ∈ vals ∧ r.data (r.slotOf i) = some x
  | .deqHead oh => oh ≤ r.consHead
  | .deqCas oh => oh < r.prodTail
  | .deqRead i => r.consTail ≤ i ∧ i < r.consHead ∧ ∃ x, (i, x) ∈ vals ∧ r.data (r.slotOf i) = some x
  | .deqWait i x => r.consTail ≤ i ∧ i < r.consHead ∧ (i, x) ∈ vals ∧ r.data (r.slotOf i) = none
  | .deqPublish i x => i = r.consTail ∧ i < r.consHead ∧ (i, x) ∈ vals ∧ r.data (r.slotOf i) = none

/-- The invariant of the states a run with labels `es` can reach. -/
structure RingSys.Inv (es : List (RingEvent τ T)) (s : RingSys τ T) : Prop where
  ring : s.ring.Ok (reserved es)
  phase : ∀ t, (s.phase t).Ok s.ring (reserved es)
  enq : ∀ t u i, (s.phase t).enqSlot = some i → (s.phase u).enqSlot = some i → t = u
  deq : ∀ t u i, (s.phase t).deqSlot = some i → (s.phase u).deqSlot = some i → t = u
  count : ∃ F : Finset τ, (∀ t x, (s.phase t).Reserving x → t ∈ F) ∧
    s.ring.prodHead + F.card ≤ ops es
  enqueued : (RingEvent.enqueued es : List (Int × T)) = (reserved es).take s.ring.prodTail.toNat
  dequeued : (RingEvent.dequeued es : List (Int × T)) = (reserved es).take s.ring.consTail.toNat

/-! The six steps that change the ring. -/

namespace Ring.Ok

variable {r : Ring T} {vals : List (Int × T)} {i : Int} {x : T}

theorem slot_free (h : r.Ok vals) (hlt : r.prodHead < r.consTail + r.cap) :
    r.data (r.slotOf r.prodHead) = none := by
  apply h.free
  intro j hj hj' he
  have := h.slotOf_inj (h.consTail_le.trans (h.consHead_le.trans h.prodTail_le)) hj hlt
    (hj'.trans hlt) he
  omega

theorem reserve (h : r.Ok vals) (hlt : r.prodHead < r.consTail + r.cap) :
    Ring.Ok { r with prodHead := r.prodHead + 1 } (vals ++ [(r.prodHead, x)]) where
  pow := h.pow
  mask := h.mask
  mp := h.mp
  mc := h.mc
  nonneg := h.nonneg
  consTail_le := h.consTail_le
  consHead_le := h.consHead_le
  prodTail_le := h.prodTail_le.trans (by dsimp only; omega)
  prodHead_le := by dsimp only; omega
  length := by simp [h.length]
  index := by
    intro n hn
    rw [List.length_append, List.length_singleton] at hn
    rcases Nat.lt_or_ge n vals.length with hlt | hge
    · rw [List.getElem_append_left hlt, h.index n hlt]
    · obtain rfl : n = vals.length := by omega
      simp [h.length]
  live := by
    intro j y hm hj hj'
    rcases List.mem_append.mp hm with hm | hm
    · exact h.live j y hm hj hj'
    · have := congrArg Prod.fst (List.mem_singleton.mp hm)
      have := h.prodTail_le
      dsimp only at *
      omega
  free := by
    intro j hj
    refine h.free j fun i hi hi' => hj i hi ?_
    dsimp only
    omega

theorem touch (h : r.Ok vals) {v : Option T} (hi : r.consTail ≤ i) (hi' : i < r.prodHead)
    (ho : i < r.consHead ∨ r.prodTail ≤ i) :
    Ring.Ok { r with data := update r.data (r.slotOf i) v } vals where
  pow := h.pow
  mask := h.mask
  mp := h.mp
  mc := h.mc
  nonneg := h.nonneg
  consTail_le := h.consTail_le
  consHead_le := h.consHead_le
  prodTail_le := h.prodTail_le
  prodHead_le := h.prodHead_le
  length := h.length
  index := h.index
  live := by
    intro j y hm hj hj'
    have hne : r.slotOf j ≠ r.slotOf i :=
      h.slotOf_ne (h.consTail_le.trans hj) hi (hj'.trans_le h.prodTail_le) hi' (by grind)
    change update r.data (r.slotOf i) v (r.slotOf j) = some y
    rw [update_of_ne hne]
    exact h.live j y hm hj hj'
  free := by
    intro j hj
    change update r.data (r.slotOf i) v j = none
    have hne : j ≠ r.slotOf i := hj i hi hi'
    rw [update_of_ne hne]
    exact h.free j hj

theorem publish (h : r.Ok vals) (hm : (r.prodTail, x) ∈ vals)
    (hd : r.data (r.slotOf r.prodTail) = some x) :
    Ring.Ok { r with prodTail := r.prodTail + 1 } vals where
  pow := h.pow
  mask := h.mask
  mp := h.mp
  mc := h.mc
  nonneg := h.nonneg
  consTail_le := h.consTail_le
  consHead_le := h.consHead_le.trans (by dsimp only; omega)
  prodTail_le := (h.fst_lt hm).2
  prodHead_le := h.prodHead_le
  length := h.length
  index := h.index
  live := by
    intro j y hy hj hj'
    dsimp only at hj'
    by_cases he : j = r.prodTail
    · subst he
      obtain rfl := h.snd_unique hm hy
      exact hd
    · exact h.live j y hy hj (by omega)
  free := h.free

theorem deqReserve (h : r.Ok vals) (hlt : r.consHead < r.prodTail) :
    Ring.Ok { r with consHead := r.consHead + 1 } vals where
  pow := h.pow
  mask := h.mask
  mp := h.mp
  mc := h.mc
  nonneg := h.nonneg
  consTail_le := h.consTail_le.trans (by dsimp only; omega)
  consHead_le := hlt
  prodTail_le := h.prodTail_le
  prodHead_le := h.prodHead_le
  length := h.length
  index := h.index
  live := by
    intro j y hy hj hj'
    dsimp only at hj
    exact h.live j y hy (by omega) hj'
  free := h.free

theorem deqPublish (h : r.Ok vals) (hlt : r.consTail < r.consHead)
    (hd : r.data (r.slotOf r.consTail) = none) :
    Ring.Ok { r with consTail := r.consTail + 1 } vals where
  pow := h.pow
  mask := h.mask
  mp := h.mp
  mc := h.mc
  nonneg := h.nonneg.trans (by dsimp only; omega)
  consTail_le := hlt
  consHead_le := h.consHead_le
  prodTail_le := h.prodTail_le
  prodHead_le := h.prodHead_le.trans (by dsimp only; omega)
  length := h.length
  index := h.index
  live := h.live
  free := by
    intro j hj
    by_cases he : j = r.slotOf r.consTail
    · rw [he]
      exact hd
    · refine h.free j fun i hi hi' => ?_
      by_cases hic : i = r.consTail
      · rwa [hic]
      · exact hj i (by dsimp only; omega) hi'

end Ring.Ok

theorem RingPhase.Ok.mono {r r' : Ring T} {vals vals' : List (Int × T)} {p : RingPhase T}
    (h : p.Ok r vals) (hs : r'.slotOf = r.slotOf) (hc : r'.cap = r.cap)
    (hv : ∀ a ∈ vals, a ∈ vals') (hph : r.prodHead ≤ r'.prodHead)
    (hpt : r.prodTail ≤ r'.prodTail) (hch : r.consHead ≤ r'.consHead)
    (hct : r.consTail ≤ r'.consTail)
    (hpub : ∀ i, p.enqSlot = some i → r'.prodTail = r.prodTail ∨
      (r'.prodTail = r.prodTail + 1 ∧ i ≠ r.prodTail))
    (hrel : ∀ i, p.deqSlot = some i → r'.consTail = r.consTail ∨
      (r'.consTail = r.consTail + 1 ∧ i ≠ r.consTail))
    (hd : ∀ i, p.slot = some i → r'.data (r.slotOf i) = r.data (r.slotOf i)) : p.Ok r' vals' := by
  cases p with
  | idle | enqStart _ | deqStart => trivial
  | enqTail _ _ | deqTail _ => exact h
  | enqHead x oh => exact ⟨h.1, h.2.trans hph⟩
  | enqCas x oh =>
    change oh < r.consTail + r.cap at h
    change oh < r'.consTail + r'.cap
    omega
  | enqWrite x i =>
    obtain ⟨ht, hm, he⟩ := h
    refine ⟨?_, hv _ hm, by rw [hs, hd i rfl, he]⟩
    have := hpub i rfl
    omega
  | enqWait x i =>
    obtain ⟨ht, hm, he⟩ := h
    refine ⟨?_, hv _ hm, by rw [hs, hd i rfl, he]⟩
    have := hpub i rfl
    omega
  | enqPublish x i =>
    obtain ⟨ht, hm, he⟩ := h
    refine ⟨?_, hv _ hm, by rw [hs, hd i rfl, he]⟩
    have := hpub i rfl
    omega
  | deqHead oh => exact le_trans h hch
  | deqCas oh => exact lt_of_lt_of_le h hpt
  | deqRead i =>
    obtain ⟨ht, hl, x, hm, he⟩ := h
    refine ⟨?_, hl.trans_le hch, x, hv _ hm, by rw [hs, hd i rfl, he]⟩
    have := hrel i rfl
    omega
  | deqWait i x =>
    obtain ⟨ht, hl, hm, he⟩ := h
    refine ⟨?_, hl.trans_le hch, hv _ hm, by rw [hs, hd i rfl, he]⟩
    have := hrel i rfl
    omega
  | deqPublish i x =>
    obtain ⟨ht, hl, hm, he⟩ := h
    refine ⟨?_, hl.trans_le hch, hv _ hm, by rw [hs, hd i rfl, he]⟩
    have := hrel i rfl
    omega

end LsLang.Sync
