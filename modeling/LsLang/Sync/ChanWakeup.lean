import LsLang.Sync.ChanQueue
import LsLang.Lib.ClosableQueue

/-! No wakeup of the channel is lost: the awakened receivers cover the buffered elements
while a receiver is parked, and the awakened senders the free slots while a sender is. -/

namespace LsLang.Sync

open Function Transition WaitRoom

variable {τ T : Type}

namespace ChanSys

/-- The threads around `not_empty`. -/
def receivers (T : Type) : Room (ChanPhase T) where
  wake := wakeReceiver
  Awake p := p = .recvAwake
  awake := by
    intro p q h
    cases p <;> cases h
    rfl
  parked_not_awake := by
    intro p q h hp
    subst hp
    nomatch h
  awake_not_parked := by
    rintro p rfl
    rfl

/-- The threads around `not_full`. -/
def senders (T : Type) : Room (ChanPhase T) where
  wake := wakeSender
  Awake p := ∃ v, p = .sendAwake v
  awake := by
    intro p q h
    cases p <;> cases h
    exact ⟨_, rfl⟩
  parked_not_awake := by
    rintro p q h ⟨v, rfl⟩
    nomatch h
  awake_not_parked := by
    rintro p ⟨v, rfl⟩
    rfl

theorem receivers_parked {p : ChanPhase T} : (receivers T).Parked p ↔ p = .recvParked := by
  unfold Room.Parked receivers
  cases p <;> simp [wakeReceiver]

theorem senders_parked {p : ChanPhase T} : (senders T).Parked p ↔ ∃ v, p = .sendParked v := by
  unfold Room.Parked senders
  cases p <;> simp [wakeSender]

/-- Both condition variables are covered: `not_empty` for the elements in the channel,
`not_full` for its free slots. -/
structure NoneLost (s : ChanSys τ T) : Prop where
  receive : (receivers T).Covered (s.chan.closed = false) s.chan.count s.phase
  send : (senders T).Covered (s.chan.closed = false) (s.chan.cap - s.chan.count) s.phase

variable [DecidableEq τ] {go : Prop} {n : ℕ} {p p' : τ → ChanPhase T} {t : τ}

/-! The moves of a thread, seen from each of the two rooms. -/

theorem receivers_frame (h : (receivers T).Covered go n p) {q : ChanPhase T}
    (hq : q ≠ .recvParked) (hp : p t ≠ .recvAwake) :
    (receivers T).Covered go n (update p t q) :=
  h.frame (mt receivers_parked.1 hq) hp

theorem senders_frame (h : (senders T).Covered go n p) {q : ChanPhase T}
    (hq : ∀ v, q ≠ .sendParked v) (hp : ∀ v, p t ≠ .sendAwake v) :
    (senders T).Covered go n (update p t q) :=
  h.frame (fun hpark => (senders_parked.1 hpark).elim hq) fun ⟨v, hv⟩ => hp v hv

theorem SendReady.ne_recvAwake {q : ChanPhase T} {v : T} (h : SendReady q v) : q ≠ .recvAwake := by
  rintro rfl
  rcases h with h | h <;> nomatch h

theorem RecvReady.ne_sendAwake {q : ChanPhase T} (h : RecvReady q) (v : T) : q ≠ .sendAwake v := by
  rintro rfl
  rcases h with h | h <;> nomatch h

theorem Signal.receivers (hs : Signal wakeReceiver p p')
    (h : (receivers T).Covered go n p) : (ChanSys.receivers T).Covered go (n + 1) p' := by
  cases hs with
  | one t q hw => exact h.signal (r := ChanSys.receivers T) hw
  | none hn =>
    refine covered_of_empty fun t ht => ?_
    obtain ⟨q, hq⟩ := ht
    nomatch (hn t).symm.trans hq

theorem Signal.senders (hs : Signal wakeSender p p')
    (h : (senders T).Covered go n p) : (ChanSys.senders T).Covered go (n + 1) p' := by
  cases hs with
  | one t q hw => exact h.signal (r := ChanSys.senders T) hw
  | none hn =>
    refine covered_of_empty fun t ht => ?_
    obtain ⟨q, hq⟩ := ht
    nomatch (hn t).symm.trans hq

theorem wakeReceiver_some {q q' : ChanPhase T} (h : wakeReceiver q = some q') :
    q = .recvParked ∧ q' = .recvAwake := by
  cases q <;> cases h
  exact ⟨rfl, rfl⟩

theorem wakeSender_some {q q' : ChanPhase T} (h : wakeSender q = some q') :
    ∃ v, q = .sendParked v ∧ q' = .sendAwake v := by
  cases q <;> cases h
  exact ⟨_, rfl, rfl⟩

theorem Signal.senders_frame (hs : Signal wakeReceiver p p')
    (h : (ChanSys.senders T).Covered go n p) : (ChanSys.senders T).Covered go n p' := by
  cases hs with
  | one t q hw =>
    obtain ⟨hp, rfl⟩ := wakeReceiver_some hw
    exact ChanSys.senders_frame h (by simp) (by simp [hp])
  | none _ => exact h

theorem Signal.receivers_frame (hs : Signal wakeSender p p')
    (h : (ChanSys.receivers T).Covered go n p) : (ChanSys.receivers T).Covered go n p' := by
  cases hs with
  | one t q hw =>
    obtain ⟨v, hp, rfl⟩ := wakeSender_some hw
    exact ChanSys.receivers_frame h (by simp) (by simp [hp])
  | none _ => exact h

omit [DecidableEq τ] in
theorem broadcast_empty (p : τ → ChanPhase T) (t : τ) :
    broadcast wakeSender (broadcast wakeReceiver p) t ≠ .recvParked ∧
      ∀ v, broadcast wakeSender (broadcast wakeReceiver p) t ≠ .sendParked v := by
  unfold broadcast
  cases p t <;> simp [wakeSender, wakeReceiver]

/-! What the critical sections that wait or succeed say about the state. -/

theorem send_wait {c : Chan T} {v : T} (h : c.send v = .wait) :
    c.count = c.cap ∧ c.closed = false := by
  unfold Chan.send at h
  grind

theorem recv_wait {c : Chan T} (h : c.recv = .wait) : c.count = 0 ∧ c.closed = false := by
  unfold Chan.recv at h
  grind

variable {s s' : ChanSys τ T} {e : ChanEvent τ T} {q : List T}

theorem noneLost_put {c : Chan T} {v : T} (hc : c = s.chan.put v)
    (hr : (receivers T).Covered (s.chan.closed = false) s.chan.count p)
    (hs : (senders T).Covered (s.chan.closed = false) (s.chan.cap - c.count) p)
    (hw : Signal wakeReceiver p p') : NoneLost (⟨c, p'⟩ : ChanSys τ T) := by
  subst hc
  exact ⟨hw.receivers hr, hw.senders_frame hs⟩

theorem noneLost_take {c : Chan T} (hc : c = s.chan.take)
    (hr : (receivers T).Covered (s.chan.closed = false) c.count p)
    (hs : (senders T).Covered (s.chan.closed = false) (s.chan.cap - s.chan.count) p)
    (hw : Signal wakeSender p p') : NoneLost (⟨c, p'⟩ : ChanSys τ T) := by
  subst hc
  refine ⟨hw.receivers_frame hr, (hw.senders hs).mono id ?_ (fun _ => id) fun _ => id⟩
  show s.chan.cap - (s.chan.count - 1) ≤ s.chan.cap - s.chan.count + 1
  omega

theorem receivers_leave (h : (receivers T).Covered go n p) {q : ChanPhase T}
    (hq : q ≠ .recvParked) : (receivers T).Covered go (n - 1) (update p t q) := by
  have hpark : ¬ (receivers T).Parked q := mt receivers_parked.1 hq
  cases n with
  | zero =>
    exact fun u hu => ⟨(h u (not_parked_update hpark hu)).1, by simp⟩
  | succ n => exact h.leave hpark

theorem senders_leave (h : (senders T).Covered go n p) {q : ChanPhase T}
    (hq : ∀ v, q ≠ .sendParked v) : (senders T).Covered go (n - 1) (update p t q) := by
  have hpark : ¬ (senders T).Parked q := fun hp => (senders_parked.1 hp).elim hq
  cases n with
  | zero =>
    exact fun u hu => ⟨(h u (not_parked_update hpark hu)).1, by simp⟩
  | succ n => exact h.leave hpark

theorem NoneLost.of_closed (h : NoneLost s) (hc : s.chan.closed = true) :
    NoneLost (⟨s.chan, update s.phase t .idle⟩ : ChanSys τ T) := by
  have hopen : ¬ s.chan.closed = false := by simp [hc]
  constructor
  · refine covered_of_empty fun u hu => h.receive.empty hopen u (not_parked_update ?_ hu)
    simp [receivers_parked]
  · refine covered_of_empty fun u hu => h.send.empty hopen u (not_parked_update ?_ hu)
    simp [senders_parked]

theorem NoneLost.step (h : NoneLost s) (hq : s.chan.Holds q) (hs : Step s e s') :
    NoneLost s' := by
  cases hs with
  | @sendPark t v hp hw =>
    obtain ⟨hfull, hopen⟩ := send_wait hw
    refine ⟨receivers_frame h.receive (by simp) hp.ne_recvAwake, ?_⟩
    show (senders T).Covered _ (s.chan.cap - s.chan.count) _
    rw [hfull, Nat.sub_self]
    exact covered_zero hopen
  | sendClosed hp hr =>
    obtain ⟨_, hc, rfl⟩ | ⟨hf, _⟩ := hq.send hr
    · exact h.of_closed hc
    · nomatch hf
  | @sendDone t v c _ hp hr hw =>
    obtain ⟨hf, _⟩ | ⟨_, _, _, rfl⟩ := hq.send hr
    · nomatch hf
    · exact noneLost_put rfl (receivers_frame h.receive (by simp) hp.ne_recvAwake)
        (senders_leave h.send (by simp)) hw
  | @recvPark t hp hw =>
    obtain ⟨hempty, hopen⟩ := recv_wait hw
    refine ⟨?_, senders_frame h.send (by simp) hp.ne_sendAwake⟩
    grind [covered_zero]
  | recvNone hp hr =>
    obtain ⟨_, _, hc, rfl⟩ | ⟨x, xs, hx, _⟩ := hq.recv hr
    · exact h.of_closed hc
    · nomatch hx
  | recvDone hp hr hw =>
    obtain ⟨hx, _⟩ | ⟨x, xs, _, _, rfl⟩ := hq.recv hr
    · nomatch hx
    · exact noneLost_take rfl (receivers_leave h.receive (by simp))
        (senders_frame h.send (by simp) hp.ne_sendAwake) hw
  | trySendBack _ hr =>
    obtain ⟨_, rfl⟩ | ⟨hf, _⟩ := hq.trySend hr
    · exact h
    · nomatch hf
  | trySendDone _ hr hw =>
    obtain ⟨hf, _⟩ | ⟨_, _, _, rfl⟩ := hq.trySend hr
    · nomatch hf
    · exact noneLost_put rfl h.receive
        (h.send.mono id (Nat.sub_le_sub_left (Nat.le_succ _) _) (fun _ => id) fun _ => id) hw
  | tryRecvNone _ hr =>
    obtain ⟨_, _, rfl⟩ | ⟨x, xs, hx, _⟩ := hq.tryRecv hr
    · exact h
    · nomatch hx
  | tryRecvDone _ hr hw =>
    obtain ⟨hx, _⟩ | ⟨x, xs, _, _, rfl⟩ := hq.tryRecv hr
    · nomatch hx
    · exact noneLost_take rfl
        (h.receive.mono id (Nat.sub_le _ _) (fun _ => id) fun _ => id) h.send hw
  | close _ =>
    constructor
    · exact covered_of_empty fun t ht => (broadcast_empty s.phase t).1 (receivers_parked.1 ht)
    grind [covered_of_empty, senders_parked, broadcast_empty]
  | spurious hw =>
    -- a wakeup with no signal behind it adds an awakened thread
    rcases hw with hw | hw
    · obtain ⟨hp, rfl⟩ := wakeReceiver_some hw
      refine ⟨?_, senders_frame h.send (by simp) (by simp [hp])⟩
      exact (h.receive.signal (r := receivers T) hw).mono id (Nat.le_succ _) (fun _ => id)
        fun _ => id
    · obtain ⟨v, hp, rfl⟩ := wakeSender_some hw
      refine ⟨receivers_frame h.receive (by simp) (by simp [hp]), ?_⟩
      exact (h.send.signal (r := senders T) hw).mono id (Nat.le_succ _) (fun _ => id)
        fun _ => id

omit [DecidableEq τ] in
theorem NoneLost.init (h : Init s) : NoneLost s := by
  obtain ⟨_, hidle⟩ := h
  constructor
  · exact covered_of_empty fun t ht => by simp [receivers_parked, hidle t] at ht
  · exact covered_of_empty fun t ht => by simp [senders_parked, hidle t] at ht

theorem run_noneLost {es : List (ChanEvent τ T)} (h₀ : Init s) (h : Run Step s es s') :
    NoneLost s' := by
  have hrun : Run Step s es s' ∧ NoneLost s' := by
    apply Run.invariant (I := fun es s' => Run Step s es s' ∧ NoneLost s') h
      ⟨.refl, .init h₀⟩
    rintro es t e u ⟨hr, hn⟩ hs
    obtain ⟨q, hq, _⟩ := run_shows h₀ hr
    exact ⟨hr.snoc hs, hn.step hq.1 hs⟩
  exact hrun.2

/-- In every state between two critical sections: while a receiver is parked the channel is
open and the awakened receivers are at least as many as the elements, while a sender is
parked the awakened senders are at least as many as the free slots; so a thread stays parked
with its condition true only while another is on the way. -/
theorem no_lost_wakeup {es : List (ChanEvent τ T)} (h₀ : Init s) (h : Run Step s es s') :
    (∀ t, s'.phase t = .recvParked →
      s'.chan.closed = false ∧ (s'.chan.count : ℕ∞) ≤ {u | s'.phase u = .recvAwake}.encard) ∧
    (∀ t v, s'.phase t = .sendParked v → s'.chan.closed = false ∧
      ((s'.chan.cap - s'.chan.count : ℕ) : ℕ∞) ≤ {u | ∃ w, s'.phase u = .sendAwake w}.encard) ∧
    (∀ t, s'.phase t = .recvParked → s'.chan.recv ≠ .wait → ∃ u, s'.phase u = .recvAwake) ∧
    (∀ t v, s'.phase t = .sendParked v → s'.chan.send v ≠ .wait →
      ∃ u w, s'.phase u = .sendAwake w) := by
  have hn := run_noneLost h₀ h
  have hr : ∀ t, s'.phase t = .recvParked → s'.chan.closed = false ∧
      (s'.chan.count : ℕ∞) ≤ {u | s'.phase u = .recvAwake}.encard :=
    fun t ht => hn.receive t (receivers_parked.2 ht)
  have hs : ∀ t v, s'.phase t = .sendParked v → s'.chan.closed = false ∧
      ((s'.chan.cap - s'.chan.count : ℕ) : ℕ∞) ≤ {u | ∃ w, s'.phase u = .sendAwake w}.encard :=
    fun t v ht => hn.send t (senders_parked.2 ⟨v, ht⟩)
  obtain ⟨q, ⟨hq, _, _⟩, _⟩ := run_shows h₀ h
  refine ⟨hr, hs, fun t ht hw => ?_, fun t v ht hw => ?_⟩
  · obtain ⟨hopen, hle⟩ := hr t ht
    have hpos : 0 < s'.chan.count := by
      by_contra hzero
      exact hw (if_pos ⟨by omega, hopen⟩)
    exact Set.encard_pos.1 ((by exact_mod_cast hpos : (0 : ℕ∞) < s'.chan.count).trans_le hle)
  · obtain ⟨hopen, hle⟩ := hs t v ht
    have hpos : 0 < s'.chan.cap - s'.chan.count := by
      have hcount := hq.count
      have hcap := hq.le
      by_contra hzero
      exact hw (if_pos ⟨by omega, hopen⟩)
    exact Set.encard_pos.1
      ((by exact_mod_cast hpos : (0 : ℕ∞) < (s'.chan.cap - s'.chan.count : ℕ)).trans_le hle)

def twoParked : List (ChanEvent (Fin 3) Nat) := [.park 0, .park 1, .send 2 7 true]

theorem no_lost_wakeup_twoParked : ∃ s₀ s' : ChanSys (Fin 3) Nat,
    Init s₀ ∧ Run Step s₀ twoParked s' ∧ s'.phase 1 = .recvParked ∧
      (1 : ℕ∞) ≤ {u | s'.phase u = .recvAwake}.encard := by
  let c₀ : Chan Nat := ⟨fun _ => none, 1, 0, 0, 0, 0, false⟩
  let p₁ : Fin 3 → ChanPhase Nat := update (fun _ => .idle) 0 .recvParked
  let p₂ : Fin 3 → ChanPhase Nat := update p₁ 1 .recvParked
  let p₃ : Fin 3 → ChanPhase Nat := update (update p₂ 2 .idle) 0 .recvAwake
  have h₁ : Step ⟨c₀, fun _ => .idle⟩ (.park 0) ⟨c₀, p₁⟩ := .recvPark (.inl rfl) rfl
  have h₂ : Step ⟨c₀, p₁⟩ (.park 1) ⟨c₀, p₂⟩ := .recvPark (.inl rfl) rfl
  have h₃ : Step ⟨c₀, p₂⟩ (.send 2 7 true) ⟨c₀.put 7, p₃⟩ :=
    .sendDone (.inl rfl) rfl (.one 0 .recvAwake rfl)
  have hi : Init (⟨c₀, fun _ => .idle⟩ : ChanSys (Fin 3) Nat) := ⟨⟨31, 1, rfl⟩, fun _ => rfl⟩
  have hr := ((Run.single h₁).snoc h₂).snoc h₃
  exact ⟨_, _, hi, hr, rfl, ((no_lost_wakeup hi hr).1 1 rfl).2⟩

end ChanSys

end LsLang.Sync
