import LsLang.Sync.Capacity
import LsLang.Lib.Transition
import LsLang.Lib.Cyclic
import LsLang.Lib.ClosableQueue

/-! The blocking channel of `std.sync.chan`. A critical section runs from the
acquisition of `mtx` to its release by `__mutex_unlock` or by `__cond_wait`; the
system takes one critical section at a time, in any order of the threads. -/

namespace LsLang.Sync

open Function

/-- The fields guarded by `mtx`. A slot of `data` is `none` while it holds no element. -/
structure Chan (T : Type) where
  data : Nat → Option T
  cap : Nat
  mask : Nat
  head : Nat
  tail : Nat
  count : Nat
  closed : Bool

namespace Chan

variable {T : Type}

def init (fuel : Nat) (capacity : Int) : Option (Chan T) := do
  let n ← roundUp fuel 1 capacity
  some { data := fun _ => none, cap := n.toNat, mask := (n - 1).toNat,
         head := 0, tail := 0, count := 0, closed := false }

/-- `self.data[self.tail] = v` and the two cursor updates after it. -/
def put (c : Chan T) (v : T) : Chan T :=
  { c with data := update c.data c.tail (some v), tail := (c.tail + 1) &&& c.mask,
           count := c.count + 1 }

/-- `@take(self.data[self.head])` empties the slot; the cursors move after it. -/
def take (c : Chan T) : Chan T :=
  { c with data := update c.data c.head none, head := (c.head + 1) &&& c.mask,
           count := c.count - 1 }

/-- What a thread does from acquiring `mtx` to releasing it: it goes to sleep in
`__cond_wait`, returns a value, or moves an element out of a slot that has none. -/
inductive Section (T R : Type)
  | wait
  | ret (r : R) (c : Chan T)
  | vacant

def send (c : Chan T) (v : T) : Section T Bool :=
  if c.count = c.cap ∧ c.closed = false then .wait
  else if c.closed then .ret false c
  else .ret true (c.put v)

def recv (c : Chan T) : Section T (Option T) :=
  if c.count = 0 ∧ c.closed = false then .wait
  else if c.count = 0 then .ret none c
  else match c.data c.head with
    | none => .vacant
    | some out => .ret (some out) c.take

def trySend (c : Chan T) (v : T) : Option T × Chan T :=
  if c.closed ∨ c.count = c.cap then (some v, c) else (none, c.put v)

def tryRecv (c : Chan T) : Section T (Option T) :=
  if c.count = 0 then .ret none c
  else match c.data c.head with
    | none => .vacant
    | some out => .ret (some out) c.take

def close (c : Chan T) : Chan T := { c with closed := true }

end Chan

/-- Where a thread is between two of its critical sections: outside every
method, parked on a condition variable, or awakened and about to take `mtx` again. -/
inductive ChanPhase (T : Type)
  | idle
  | sendParked (v : T)
  | sendAwake (v : T)
  | recvParked
  | recvAwake

structure ChanSys (τ T : Type) where
  chan : Chan T
  phase : τ → ChanPhase T

/-- What a critical section shows outside: the method's return, a thread going
to sleep, or a sleeping thread waking up with no signal. -/
inductive ChanEvent (τ T : Type)
  | send (t : τ) (v : T) (ok : Bool)
  | recv (t : τ) (out : Option T)
  | trySend (t : τ) (v : T) (back : Option T)
  | tryRecv (t : τ) (out : Option T)
  | close (t : τ)
  | park (t : τ)
  | spurious (t : τ)

namespace ChanSys

variable {τ T : Type} [DecidableEq τ]

def wakeReceiver : ChanPhase T → Option (ChanPhase T)
  | .recvParked => some .recvAwake
  | _ => none

def wakeSender : ChanPhase T → Option (ChanPhase T)
  | .sendParked v => some (.sendAwake v)
  | _ => none

/-- `__cond_signal` moves one parked thread, if there is any, to the awakened ones. -/
inductive Signal (wake : ChanPhase T → Option (ChanPhase T)) (p : τ → ChanPhase T) :
    (τ → ChanPhase T) → Prop
  | one (t : τ) (q : ChanPhase T) (h : wake (p t) = some q) : Signal wake p (update p t q)
  | none (h : ∀ t, wake (p t) = Option.none) : Signal wake p p

/-- `__cond_broadcast` moves all of them. -/
def broadcast (wake : ChanPhase T → Option (ChanPhase T)) (p : τ → ChanPhase T) :
    τ → ChanPhase T := fun t => (wake (p t)).getD (p t)

/-- A thread at the lock of `send v`: it calls the method or comes back from `__cond_wait`. -/
def SendReady (p : ChanPhase T) (v : T) : Prop := p = .idle ∨ p = .sendAwake v

def RecvReady (p : ChanPhase T) : Prop := p = .idle ∨ p = .recvAwake

/-- One critical section of one thread, or one spurious wakeup. -/
inductive Step : ChanSys τ T → ChanEvent τ T → ChanSys τ T → Prop
  | sendPark {s t v} (hp : SendReady (s.phase t) v) (h : s.chan.send v = .wait) :
      Step s (.park t) ⟨s.chan, update s.phase t (.sendParked v)⟩
  | sendClosed {s t v c} (hp : SendReady (s.phase t) v) (h : s.chan.send v = .ret false c) :
      Step s (.send t v false) ⟨c, update s.phase t .idle⟩
  | sendDone {s t v c p} (hp : SendReady (s.phase t) v) (h : s.chan.send v = .ret true c)
      (hs : Signal wakeReceiver (update s.phase t .idle) p) : Step s (.send t v true) ⟨c, p⟩
  | recvPark {s t} (hp : RecvReady (s.phase t)) (h : s.chan.recv = .wait) :
      Step s (.park t) ⟨s.chan, update s.phase t .recvParked⟩
  | recvNone {s t c} (hp : RecvReady (s.phase t)) (h : s.chan.recv = .ret none c) :
      Step s (.recv t none) ⟨c, update s.phase t .idle⟩
  | recvDone {s t x c p} (hp : RecvReady (s.phase t)) (h : s.chan.recv = .ret (some x) c)
      (hs : Signal wakeSender (update s.phase t .idle) p) : Step s (.recv t (some x)) ⟨c, p⟩
  | trySendBack {s t v w c} (hp : s.phase t = .idle) (h : s.chan.trySend v = (some w, c)) :
      Step s (.trySend t v (some w)) ⟨c, s.phase⟩
  | trySendDone {s t v c p} (hp : s.phase t = .idle) (h : s.chan.trySend v = (none, c))
      (hs : Signal wakeReceiver s.phase p) : Step s (.trySend t v none) ⟨c, p⟩
  | tryRecvNone {s t c} (hp : s.phase t = .idle) (h : s.chan.tryRecv = .ret none c) :
      Step s (.tryRecv t none) ⟨c, s.phase⟩
  | tryRecvDone {s t x c p} (hp : s.phase t = .idle) (h : s.chan.tryRecv = .ret (some x) c)
      (hs : Signal wakeSender s.phase p) : Step s (.tryRecv t (some x)) ⟨c, p⟩
  | close {s t} (hp : s.phase t = .idle) :
      Step s (.close t) ⟨s.chan.close, broadcast wakeSender (broadcast wakeReceiver s.phase)⟩
  | spurious {s t q} (h : wakeReceiver (s.phase t) = some q ∨ wakeSender (s.phase t) = some q) :
      Step s (.spurious t) ⟨s.chan, update s.phase t q⟩

/-- The state right after `channel(T)(capacity)` returned, with no thread in a method yet. -/
def Init (s : ChanSys τ T) : Prop :=
  (∃ fuel capacity, Chan.init fuel capacity = some s.chan) ∧ ∀ t, s.phase t = .idle

end ChanSys

/-! The channel refines a closable bounded queue: the elements are
`data[head .. head+count)` taken cyclically. -/

open Function Transition ClosableQueue

variable {τ T : Type}

/-- The ring of slots of `c` holds exactly the elements `q`, oldest at `head`. -/
structure Chan.Holds (c : Chan T) (q : List T) : Prop where
  pow : ∃ k, c.cap = 2 ^ k
  mask : c.mask = c.cap - 1
  head_lt : c.head < c.cap
  tail : c.tail = (c.head + c.count) % c.cap
  count : c.count = q.length
  le : q.length ≤ c.cap
  live : ∀ i (hi : i < q.length), c.data ((c.head + i) % c.cap) = some q[i]
  free : ∀ j, (∀ i < q.length, j ≠ (c.head + i) % c.cap) → c.data j = none

namespace Chan.Holds

variable {c : Chan T} {q : List T}

theorem cap_pos (h : c.Holds q) : 0 < c.cap := by
  obtain ⟨k, hk⟩ := h.pow
  grind

theorem and_mask (h : c.Holds q) (x : Nat) : x &&& c.mask = x % c.cap := by
  obtain ⟨k, hk⟩ := h.pow
  rw [h.mask]
  exact Sync.and_mask hk

theorem init {fuel : Nat} {capacity : Int} (h : Chan.init fuel capacity = some c) :
    c.Holds ([] : List T) := by
  unfold Chan.init at h
  cases hn : roundUp fuel 1 capacity with
  | none => simp [hn] at h
  | some n =>
    obtain ⟨k, _, rfl, _⟩ := roundUp_one hn
    simp only [hn, Option.bind_eq_bind, Option.bind_some, Option.some.injEq] at h
    subst h
    have hpos : 0 < 2 ^ k := Nat.two_pow_pos k
    refine ⟨⟨k, Int.toNat_natCast _⟩, ?_, ?_, by simp, rfl, Nat.zero_le _, by simp, fun _ _ => rfl⟩
    · grind
    · rw [Int.toNat_natCast]
      exact hpos

theorem put (h : c.Holds q) (hl : q.length < c.cap) (v : T) : (c.put v).Holds (q ++ [v]) where
  pow := h.pow
  mask := h.mask
  head_lt := h.head_lt
  tail := by
    simp only [Chan.put, h.and_mask, h.tail]
    rw [Cyclic.add_succ_mod]
  count := by simp [Chan.put, h.count]
  le := by
    rw [List.length_append]
    exact hl
  live := by
    intro i hi
    simp only [Chan.put, h.tail, h.count]
    rcases Nat.lt_or_ge i q.length with hlt | hge
    · have hne : (c.head + i) % c.cap ≠ (c.head + q.length) % c.cap := fun he =>
        absurd (Cyclic.add_mod_inj (hlt.trans hl) hl he) hlt.ne
      rw [update_of_ne hne, h.live i hlt, List.getElem_append_left hlt]
    grind
  free := by
    intro j hj
    simp only [Chan.put, List.length_append, List.length_singleton, h.tail, h.count] at hj ⊢
    rw [update_of_ne (hj _ (Nat.lt_succ_self _))]
    exact h.free j fun i hi => hj i (Nat.lt_succ_of_lt hi)

theorem data_head {x : T} {xs : List T} (h : c.Holds (x :: xs)) : c.data c.head = some x := by
  have h0 := h.live 0 (by simp)
  rwa [Nat.add_zero, Nat.mod_eq_of_lt h.head_lt] at h0

theorem take {x : T} {xs : List T} (h : c.Holds (x :: xs)) : c.take.Holds xs where
  pow := h.pow
  mask := h.mask
  head_lt := by
    simp only [Chan.take, h.and_mask]
    exact Nat.mod_lt _ h.cap_pos
  tail := by
    simp only [Chan.take, h.and_mask, h.tail, h.count, List.length_cons, Nat.add_sub_cancel]
    rw [Cyclic.succ_add_mod]
  count := by simp [Chan.take, h.count]
  le := (Nat.le_succ _).trans h.le
  live := by
    intro i hi
    have hi' : i + 1 < (x :: xs).length := Nat.succ_lt_succ hi
    simp only [Chan.take, h.and_mask, Cyclic.succ_add_mod]
    have hne : (c.head + (i + 1)) % c.cap ≠ c.head := by
      intro he
      have h0 : (c.head + (i + 1)) % c.cap = (c.head + 0) % c.cap := by
        rw [he, Nat.add_zero, Nat.mod_eq_of_lt h.head_lt]
      exact absurd (Cyclic.add_mod_inj (hi'.trans_le h.le) h.cap_pos h0) (Nat.succ_ne_zero i)
    rw [update_of_ne hne, h.live (i + 1) hi', List.getElem_cons_succ]
  free := by
    intro j hj
    simp only [Chan.take, h.and_mask, Cyclic.succ_add_mod] at hj ⊢
    by_cases hjh : j = c.head
    · rw [hjh, update_self]
    · rw [update_of_ne hjh]
      refine h.free j fun i hi => ?_
      cases i with
      | zero => rwa [Nat.add_zero, Nat.mod_eq_of_lt h.head_lt]
      | succ i => exact hj i (Nat.lt_of_succ_lt_succ hi)

theorem close (h : c.Holds q) : c.close.Holds q := { h with }

theorem count_eq_zero (h : c.Holds q) : c.count = 0 ↔ q = [] := by
  rw [h.count, List.length_eq_zero_iff]

/-! What each critical section does to the elements. -/

theorem send {v : T} {ok : Bool} {c' : Chan T} (h : c.Holds q) (hs : c.send v = .ret ok c') :
    (ok = false ∧ c.closed = true ∧ c' = c) ∨
      (ok = true ∧ c.closed = false ∧ q.length < c.cap ∧ c' = c.put v) := by
  unfold Chan.send at hs
  split_ifs at hs with hw hc
  · grind
  · cases hs
    have hcl : c.closed = false := by simpa using hc
    refine .inr ⟨rfl, hcl, lt_of_le_of_ne h.le fun he => hw ⟨?_, hcl⟩, rfl⟩
    rw [h.count, he]

theorem recv (h : c.Holds q) {out : Option T} {c' : Chan T} (hs : c.recv = .ret out c') :
    (out = none ∧ q = [] ∧ c.closed = true ∧ c' = c) ∨
      ∃ x xs, out = some x ∧ q = x :: xs ∧ c' = c.take := by
  unfold Chan.recv at hs
  split_ifs at hs with hw hc
  · cases hs
    exact .inl ⟨rfl, h.count_eq_zero.mp hc, by simpa [hc] using hw, rfl⟩
  · cases q with
    | nil => exact absurd (h.count_eq_zero.mpr rfl) hc
    | cons x xs =>
      rw [h.data_head] at hs
      grind

theorem trySend (h : c.Holds q) {v : T} {back : Option T} {c' : Chan T}
    (hs : c.trySend v = (back, c')) :
    (back = some v ∧ c' = c) ∨
      (back = none ∧ c.closed = false ∧ q.length < c.cap ∧ c' = c.put v) := by
  unfold Chan.trySend at hs
  split_ifs at hs with hw
  · grind
  · cases hs
    simp only [not_or, Bool.not_eq_true, h.count] at hw
    exact .inr ⟨rfl, hw.1, lt_of_le_of_ne h.le hw.2, rfl⟩

theorem tryRecv (h : c.Holds q) {out : Option T} {c' : Chan T} (hs : c.tryRecv = .ret out c') :
    (out = none ∧ q = [] ∧ c' = c) ∨ ∃ x xs, out = some x ∧ q = x :: xs ∧ c' = c.take := by
  unfold Chan.tryRecv at hs
  split_ifs at hs with hc
  · cases hs
    exact .inl ⟨rfl, h.count_eq_zero.mp hc, rfl⟩
  · cases q with
    | nil => exact absurd (h.count_eq_zero.mpr rfl) hc
    | cons x xs =>
      rw [h.data_head] at hs
      grind

theorem recv_ne_vacant (h : c.Holds q) : c.recv ≠ .vacant := by
  intro hv
  unfold Chan.recv at hv
  split_ifs at hv with hw hc
  cases q with
  | nil => exact hc (h.count_eq_zero.mpr rfl)
  | cons x xs => simp [h.data_head] at hv

theorem tryRecv_ne_vacant (h : c.Holds q) : c.tryRecv ≠ .vacant := by
  intro hv
  unfold Chan.tryRecv at hv
  split_ifs at hv with hc
  cases q with
  | nil => exact hc (h.count_eq_zero.mpr rfl)
  | cons x xs => simp [h.data_head] at hv

end Chan.Holds

/-! The simulation by the closable queue, and what a run of the channel delivers. -/

namespace ChanEvent

def view : ChanEvent τ T → Event T
  | .send _ v true => .push v
  | .recv _ (some x) => .pop x
  | .recv _ none => .drained
  | .trySend _ v none => .push v
  | .tryRecv _ (some x) => .pop x
  | .close _ => .close
  | _ => .silent

/-- The value of a `send` that returned true or of a `try_send` that returned `None`. -/
def sent? : ChanEvent τ T → Option T
  | .send _ v true => some v
  | .trySend _ v none => some v
  | _ => none

def received? : ChanEvent τ T → Option T
  | .recv _ out => out
  | .tryRecv _ out => out
  | _ => none

def sent (es : List (ChanEvent τ T)) : List T := es.filterMap sent?

def received (es : List (ChanEvent τ T)) : List T := es.filterMap received?

theorem pushed_view (e : ChanEvent τ T) : e.view.pushed? = e.sent? := by
  cases e with
  | send t v ok => cases ok <;> rfl
  | recv t out => cases out <;> rfl
  | trySend t v back => cases back <;> rfl
  | tryRecv t out => cases out <;> rfl
  | close t | park t | spurious t => rfl

theorem popped_view (e : ChanEvent τ T) : e.view.popped? = e.received? := by
  cases e with
  | send t v ok => cases ok <;> rfl
  | recv t out => cases out <;> rfl
  | trySend t v back => cases back <;> rfl
  | tryRecv t out => cases out <;> rfl
  | close t | park t | spurious t => rfl

theorem pushes_view (es : List (ChanEvent τ T)) : pushes (es.map view) = sent es := by
  simp only [pushes, sent, List.filterMap_map, Function.comp_def, pushed_view]

theorem pops_view (es : List (ChanEvent τ T)) : pops (es.map view) = received es := by
  simp only [pops, received, List.filterMap_map, Function.comp_def, popped_view]

theorem close_mem_view {es : List (ChanEvent τ T)} (h : Event.close ∈ es.map view) :
    ∃ t, ChanEvent.close t ∈ es := by
  obtain ⟨e, he, hv⟩ := List.mem_map.mp h
  cases e with
  | send t v ok => cases ok <;> cases hv
  | recv t out => cases out <;> cases hv
  | trySend t v back => cases back <;> cases hv
  | tryRecv t out => cases out <;> cases hv
  | close t => exact ⟨t, he⟩
  | park t | spurious t => cases hv

end ChanEvent

namespace ChanSys

def Shows (cap : ℕ) (s : ChanSys τ T) (q : Queue T) : Prop :=
  s.chan.Holds q.items ∧ s.chan.cap = cap ∧ s.chan.closed = q.closed

variable [DecidableEq τ] {cap : ℕ} {s s' : ChanSys τ T} {q : Queue T}

theorem Shows.step {e : ChanEvent τ T} (h : Shows cap s q) (hs : Step s e s') :
    ∃ q', Shows cap s' q' ∧ ClosableQueue.Step cap q e.view q' := by
  obtain ⟨hq, rfl, hc⟩ := h
  cases hs with
  | sendPark _ _ => exact ⟨q, ⟨hq, rfl, hc⟩, .silent⟩
  -- a value sent on a closed channel is dropped
  | @sendClosed _ v c _ hr =>
    obtain ⟨_, _, rfl⟩ | ⟨hf, _⟩ := hq.send hr
    · exact ⟨q, ⟨hq, rfl, hc⟩, .silent⟩
    · cases hf
  | @sendDone _ v c p _ hr _ =>
    obtain ⟨hf, _⟩ | ⟨_, ho, hl, rfl⟩ := hq.send hr
    · cases hf
    · exact ⟨⟨q.items ++ [v], q.closed⟩, ⟨hq.put hl v, rfl, hc⟩, .push (hc ▸ ho) hl⟩
  | recvPark _ _ => exact ⟨q, ⟨hq, rfl, hc⟩, .silent⟩
  | recvNone _ hr =>
    obtain ⟨_, hn, hcl, rfl⟩ | ⟨x, xs, hx, _⟩ := hq.recv hr
    · exact ⟨q, ⟨hq, rfl, hc⟩, .drained hn (hc ▸ hcl)⟩
    · cases hx
  | recvDone _ hr _ =>
    obtain ⟨hx, _⟩ | ⟨x, xs, hx, hxs, rfl⟩ := hq.recv hr
    · cases hx
    · cases hx
      rw [hxs] at hq
      exact ⟨⟨xs, q.closed⟩, ⟨hq.take, rfl, hc⟩, .pop hxs⟩
  | trySendBack _ hr =>
    obtain ⟨_, rfl⟩ | ⟨hf, _⟩ := hq.trySend hr
    · exact ⟨q, ⟨hq, rfl, hc⟩, .silent⟩
    · cases hf
  | @trySendDone _ v c p _ hr _ =>
    obtain ⟨hf, _⟩ | ⟨_, ho, hl, rfl⟩ := hq.trySend hr
    · cases hf
    · exact ⟨⟨q.items ++ [v], q.closed⟩, ⟨hq.put hl v, rfl, hc⟩, .push (hc ▸ ho) hl⟩
  | tryRecvNone _ hr =>
    obtain ⟨_, _, rfl⟩ | ⟨x, xs, hx, _⟩ := hq.tryRecv hr
    · exact ⟨q, ⟨hq, rfl, hc⟩, .silent⟩
    · cases hx
  | tryRecvDone _ hr _ =>
    obtain ⟨hx, _⟩ | ⟨x, xs, hx, hxs, rfl⟩ := hq.tryRecv hr
    · cases hx
    · cases hx
      rw [hxs] at hq
      exact ⟨⟨xs, q.closed⟩, ⟨hq.take, rfl, hc⟩, .pop hxs⟩
  | close _ => exact ⟨⟨q.items, true⟩, ⟨hq.close, rfl, rfl⟩, .close⟩
  | spurious _ => exact ⟨q, ⟨hq, rfl, hc⟩, .silent⟩

theorem run_shows {es : List (ChanEvent τ T)} (h₀ : Init s) (h : Run Step s es s') :
    ∃ q, Shows s.chan.cap s' q ∧ Run (ClosableQueue.Step s.chan.cap) empty (es.map ChanEvent.view) q := by
  obtain ⟨⟨fuel, capacity, hi⟩, _⟩ := h₀
  have hc : s.chan.closed = false := by
    unfold Chan.init at hi
    cases hn : roundUp fuel 1 capacity with
    | none => simp [hn] at hi
    | some n =>
      grind
  exact h.simulate ChanEvent.view (fun _ _ _ _ hR hs => hR.step hs) ⟨.init hi, rfl, hc⟩

/-- Exactly once and in order: the values received are a prefix of the values
sent, the rest lying in `data[head .. head+count)`; no send succeeds after a
close; and `recv` returns `None` only when the channel is closed and every sent
value has been received. -/
theorem delivers_in_order {es : List (ChanEvent τ T)} (h₀ : Init s) (h : Run Step s es s') :
    (∃ q : List T, s'.chan.count = q.length ∧ q.length ≤ s'.chan.cap ∧
      (∀ i (hi : i < q.length),
        s'.chan.data ((s'.chan.head + i) % s'.chan.cap) = some q[i]) ∧
      (∀ j, (∀ i < q.length, j ≠ (s'.chan.head + i) % s'.chan.cap) → s'.chan.data j = none) ∧
      ChanEvent.sent es = ChanEvent.received es ++ q) ∧
    (∀ pre t post, es = pre ++ .close t :: post → ChanEvent.sent post = []) ∧
    (∀ pre t post, es = pre ++ .recv t none :: post →
      (∃ u, .close u ∈ pre) ∧ ChanEvent.sent pre = ChanEvent.received pre) ∧
    s'.chan.recv ≠ .vacant ∧ s'.chan.tryRecv ≠ .vacant := by
  obtain ⟨q, ⟨hq, _, _⟩, hr⟩ := run_shows h₀ h
  refine ⟨⟨q.items, hq.count, hq.le, hq.live, hq.free, ?_⟩, ?_, ?_,
    hq.recv_ne_vacant, hq.tryRecv_ne_vacant⟩
  · rw [← ChanEvent.pushes_view, ← ChanEvent.pops_view, pushes_eq hr]
  · rintro pre t post rfl
    rw [List.map_append, List.map_cons] at hr
    rw [← ChanEvent.pushes_view]
    exact pushes_after_close hr
  · rintro pre t post rfl
    rw [List.map_append, List.map_cons] at hr
    obtain ⟨hc, hp⟩ := drained_spec hr
    refine ⟨ChanEvent.close_mem_view hc, ?_⟩
    rw [← ChanEvent.pushes_view, ← ChanEvent.pops_view, hp]

/-- A receiver parks on an empty channel, is woken by a send, and after a close gets `None`. -/
def handoff : List (ChanEvent Bool Nat) :=
  [.park true, .send false 7 true, .recv true (some 7), .close false, .recv true none]

theorem handoff_run : ∃ s₀ s' : ChanSys Bool Nat, Init s₀ ∧ Run Step s₀ handoff s' := by
  let c₀ : Chan Nat := ⟨fun _ => none, 1, 0, 0, 0, 0, false⟩
  let p₁ : Bool → ChanPhase Nat := update (fun _ => .idle) true .recvParked
  let p₂ : Bool → ChanPhase Nat := update (update p₁ false .idle) true .recvAwake
  let p₃ : Bool → ChanPhase Nat := update p₂ true .idle
  have hp₃ : ∀ t, p₃ t = .idle := by intro t; cases t <;> rfl
  have h₁ : Step ⟨c₀, fun _ => .idle⟩ (.park true) ⟨c₀, p₁⟩ := .recvPark (.inl rfl) rfl
  have h₂ : Step ⟨c₀, p₁⟩ (.send false 7 true) ⟨c₀.put 7, p₂⟩ :=
    .sendDone (.inl rfl) rfl (.one true .recvAwake rfl)
  have h₃ : Step ⟨c₀.put 7, p₂⟩ (.recv true (some 7)) ⟨(c₀.put 7).take, p₃⟩ :=
    .recvDone (.inr rfl) rfl (.none fun t => by rw [show update p₂ true .idle t = _ from hp₃ t]; rfl)
  have h₄ := @Step.close Bool Nat _ ⟨(c₀.put 7).take, p₃⟩ false (hp₃ false)
  have h₅ := @Step.recvNone Bool Nat _
    ⟨(c₀.put 7).take.close, broadcast wakeSender (broadcast wakeReceiver p₃)⟩ true _ (.inl rfl) rfl
  have hr := ((((Run.single h₁).snoc h₂).snoc h₃).snoc h₄).snoc h₅
  have hi : Init ⟨c₀, fun _ : Bool => .idle⟩ := ⟨⟨31, 1, rfl⟩, fun _ => rfl⟩
  exact ⟨_, _, hi, hr⟩

theorem delivers_in_order_handoff :
    ∃ s₀ s' : ChanSys Bool Nat, Init s₀ ∧ Run Step s₀ handoff s' ∧
      (∃ q, s'.chan.count = q.length ∧
        ChanEvent.sent handoff = ChanEvent.received handoff ++ q) ∧
      ∃ u, ChanEvent.close u ∈ handoff.take 4 := by
  obtain ⟨s₀, s', hi, hr⟩ := handoff_run
  obtain ⟨⟨q, hc, _, _, _, hq⟩, _, hn, _⟩ := delivers_in_order hi hr
  exact ⟨s₀, s', hi, hr, ⟨q, hc, hq⟩, (hn (handoff.take 4) true [] rfl).1⟩

end ChanSys

end LsLang.Sync
