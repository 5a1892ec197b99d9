import LsLang.Lib.Transition
import Mathlib.Data.Set.Card
import Mathlib.Logic.Function.Basic

/-! A bounded first-in first-out queue that can be closed: what a blocking
channel is for. No push happens once it is closed; it counts as drained when it
is closed and every pushed element has been popped. -/

namespace ClosableQueue

open Transition

variable {T : Type*}

structure Queue (T : Type*) where
  items : List T
  closed : Bool

inductive Event (T : Type*)
  | push (v : T)
  | pop (x : T)
  | drained
  | close
  | silent

inductive Step (cap : ℕ) : Queue T → Event T → Queue T → Prop
  | push {q : Queue T} {v : T} (hc : q.closed = false) (hl : q.items.length < cap) :
      Step cap q (.push v) ⟨q.items ++ [v], q.closed⟩
  | pop {q : Queue T} {x : T} {xs : List T} (h : q.items = x :: xs) :
      Step cap q (.pop x) ⟨xs, q.closed⟩
  | drained {q : Queue T} (h : q.items = []) (hc : q.closed = true) : Step cap q .drained q
  | close {q : Queue T} : Step cap q .close ⟨q.items, true⟩
  | silent {q : Queue T} : Step cap q .silent q

def Event.pushed? : Event T → Option T
  | .push v => some v
  | _ => none

def Event.popped? : Event T → Option T
  | .pop x => some x
  | _ => none

def pushes (es : List (Event T)) : List T := es.filterMap Event.pushed?

def pops (es : List (Event T)) : List T := es.filterMap Event.popped?

theorem pushes_snoc (es : List (Event T)) (e : Event T) :
    pushes (es ++ [e]) = pushes es ++ e.pushed?.toList := by
  cases h : e.pushed? <;> simp [pushes, h]

theorem pops_snoc (es : List (Event T)) (e : Event T) :
    pops (es ++ [e]) = pops es ++ e.popped?.toList := by
  cases h : e.popped? <;> simp [pops, h]

def empty : Queue T := ⟨[], false⟩

variable {cap : ℕ} {q r : Queue T} {es : List (Event T)}

theorem pushes_eq (h : Run (Step cap) (empty : Queue T) es q) :
    pushes es = pops es ++ q.items := by
  apply Run.invariant (I := fun es q => pushes es = pops es ++ q.items) h rfl
  intro es t e u ih hs
  rw [pushes_snoc, pops_snoc, ih]
  cases hs with
  | push _ _ => simp [Event.pushed?, Event.popped?]
  | pop hx => simp [Event.pushed?, Event.popped?, hx]
  | drained _ _ | close | silent => simp [Event.pushed?, Event.popped?]

theorem closed_iff (h : Run (Step cap) (empty : Queue T) es q) :
    q.closed = true ↔ Event.close ∈ es := by
  apply Run.invariant (I := fun es q => q.closed = true ↔ Event.close ∈ es) h (by simp [empty])
  intro es t e u ih hs
  cases hs <;> simp [ih]

theorem Step.closed_mono {e : Event T} (h : Step cap q e r) (hc : q.closed = true) :
    r.closed = true ∧ e.pushed? = none := by
  cases h with
  | push hf _ => rw [hc] at hf; cases hf
  | pop _ => exact ⟨hc, rfl⟩
  | drained _ _ => exact ⟨hc, rfl⟩
  | close => exact ⟨rfl, rfl⟩
  | silent => exact ⟨hc, rfl⟩

theorem pushes_of_closed (hc : q.closed = true) (h : Run (Step cap) q es r) : pushes es = [] := by
  suffices hs : r.closed = true ∧ pushes es = [] from hs.2
  apply Run.invariant (I := fun es r => r.closed = true ∧ pushes es = []) h ⟨hc, rfl⟩
  intro es t e u ih hs
  obtain ⟨hu, he⟩ := hs.closed_mono ih.1
  exact ⟨hu, by rw [pushes_snoc, ih.2, he]; rfl⟩

theorem pushes_after_close {pre post : List (Event T)}
    (h : Run (Step cap) (empty : Queue T) (pre ++ .close :: post) q) : pushes post = [] := by
  obtain ⟨t, t', _, hs, hr⟩ := h.step_at
  cases hs
  exact pushes_of_closed rfl hr

theorem drained_spec {pre post : List (Event T)}
    (h : Run (Step cap) (empty : Queue T) (pre ++ .drained :: post) q) :
    Event.close ∈ pre ∧ pushes pre = pops pre := by
  obtain ⟨t, t', hp, hs, _⟩ := h.step_at
  cases hs with
  | drained hi hc => exact ⟨(closed_iff hp).mp hc, by rw [pushes_eq hp, hi, List.append_nil]⟩

end ClosableQueue

/-! Threads parked on a condition variable. A signal moves one of them to the awakened ones;
what has to be kept is that the wakeups under way cover the work that waits. -/

namespace WaitRoom

open Function

variable {τ φ : Type*}

/-- One condition variable, seen in the phase of a thread: `wake` is what a signal makes of a
parked thread, and `Awake` holds until the awakened thread runs. -/
structure Room (φ : Type*) where
  wake : φ → Option φ
  Awake : φ → Prop
  awake : ∀ p q, wake p = some q → Awake q
  parked_not_awake : ∀ p q, wake p = some q → ¬ Awake p
  awake_not_parked : ∀ p, Awake p → wake p = none

namespace Room

variable (r : Room φ)

def Parked (p : φ) : Prop := ∃ q, r.wake p = some q

def crowd (p : τ → φ) : Set τ := {t | r.Awake (p t)}

/-- If a thread is parked, then `go` holds and at least `n` wakeups are under way. -/
def Covered (go : Prop) (n : ℕ) (p : τ → φ) : Prop :=
  ∀ t, r.Parked (p t) → go ∧ (n : ℕ∞) ≤ (r.crowd p).encard

end Room

variable {r : Room φ} {go go' : Prop} {n m : ℕ} {p p' : τ → φ}

theorem Room.Covered.mono (h : r.Covered go n p) (hgo : go → go') (hn : m ≤ n)
    (hp : ∀ t, r.Parked (p' t) → r.Parked (p t)) (ha : ∀ t, r.Awake (p t) → r.Awake (p' t)) :
    r.Covered go' m p' := by
  intro t ht
  obtain ⟨hg, hc⟩ := h t (hp t ht)
  refine ⟨hgo hg, ?_⟩
  calc (m : ℕ∞) ≤ n := by exact_mod_cast hn
    _ ≤ (r.crowd p).encard := hc
    _ ≤ (r.crowd p').encard := Set.encard_le_encard ha

theorem covered_zero (hgo : go) : r.Covered go 0 p :=
  fun _ _ => ⟨hgo, by simp⟩

theorem covered_of_empty (h : ∀ t, ¬ r.Parked (p t)) : r.Covered go n p :=
  fun t ht => absurd ht (h t)

theorem Room.Covered.empty (h : r.Covered go n p) (hgo : ¬ go) (t : τ) : ¬ r.Parked (p t) :=
  fun ht => hgo (h t ht).1

variable [DecidableEq τ]

theorem not_parked_update {q : φ} (hq : ¬ r.Parked q) {s t : τ}
    (h : r.Parked (update p s q t)) : r.Parked (p t) := by grind

theorem Room.Covered.frame (h : r.Covered go n p) {t : τ} {q : φ} (hq : ¬ r.Parked q)
    (ha : ¬ r.Awake (p t)) : r.Covered go n (update p t q) := by
  refine h.mono id (Nat.le_refl n) (fun _ => not_parked_update hq) fun u hu => ?_
  grind

theorem Room.Covered.leave (h : r.Covered go (n + 1) p) {t : τ} {q : φ} (hq : ¬ r.Parked q) :
    r.Covered go n (update p t q) := by
  intro u hu
  obtain ⟨hg, hc⟩ := h u (not_parked_update hq hu)
  refine ⟨hg, ?_⟩
  have hsub : r.crowd p ⊆ insert t (r.crowd (update p t q)) := by
    intro v hv
    by_cases hvt : v = t
    · grind
    · refine Set.mem_insert_of_mem t ?_
      show r.Awake (update p t q v)
      rwa [update_of_ne hvt]
  have hcard : ((n + 1 : ℕ) : ℕ∞) ≤ (r.crowd (update p t q)).encard + 1 :=
    hc.trans ((Set.encard_le_encard hsub).trans (Set.encard_insert_le _ _))
  rw [Nat.cast_add, Nat.cast_one] at hcard
  exact (ENat.add_le_add_iff_right ENat.one_ne_top).1 hcard

theorem Room.Covered.signal (h : r.Covered go n p) {t : τ} {q : φ} (hw : r.wake (p t) = some q) :
    r.Covered go (n + 1) (update p t q) := by
  have hq : ¬ r.Parked q := by
    rintro ⟨q', hq'⟩
    rw [r.awake_not_parked q (r.awake _ _ hw)] at hq'
    nomatch hq'
  intro u hu
  obtain ⟨hg, hc⟩ := h u (not_parked_update hq hu)
  refine ⟨hg, ?_⟩
  have hsub : insert t (r.crowd p) ⊆ r.crowd (update p t q) := by
    intro v hv
    show r.Awake (update p t q v)
    by_cases hvt : v = t
    · rw [hvt, update_self]
      exact r.awake _ _ hw
    · rw [update_of_ne hvt]
      exact (Set.mem_insert_iff.1 hv).resolve_left hvt
  have hnot : t ∉ r.crowd p := r.parked_not_awake _ _ hw
  calc ((n + 1 : ℕ) : ℕ∞) = n + 1 := by push_cast; rfl
    _ ≤ (r.crowd p).encard + 1 := by gcongr
    _ = (insert t (r.crowd p)).encard := (Set.encard_insert_of_notMem hnot).symm
    _ ≤ (r.crowd (update p t q)).encard := Set.encard_le_encard hsub

end WaitRoom
