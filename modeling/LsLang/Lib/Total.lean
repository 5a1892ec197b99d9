import Mathlib.Data.List.Range
import Mathlib.Logic.Basic
import Mathlib.Tactic.Common
import Mathlib.Tactic.Linarith

/-! Computations that can fail or be undefined, against computations that are never undefined and say
what they would have to rely on. -/

namespace LsLang.Undefined

/-- A result, a failure, or a step that has no meaning. -/
inductive Res (α : Type)
  | ok (a : α)
  | fail
  | stuck

namespace Res

def bind {α β : Type} : Res α → (α → Res β) → Res β
  | ok a, f => f a
  | fail, _ => fail
  | stuck, _ => stuck

instance : Monad Res where
  pure := ok
  bind := bind

end Res

/-- A result or a failure, and what has to be true for every step to have a meaning. -/
structure Exact (α : Type) where
  relies : Prop
  value : Option α

namespace Exact

def bind {α β : Type} (x : Exact α) (f : α → Exact β) : Exact β :=
  match x.value with
  | none => ⟨x.relies, none⟩
  | some a => ⟨x.relies ∧ (f a).relies, (f a).value⟩

instance : Monad Exact where
  pure a := ⟨True, some a⟩
  bind := bind

end Exact

/-- The computation is undefined exactly if what the exact one relies on is false, and else its
result is that of the exact one, which sees its values through `view`. -/
def Follows {α β : Type} (view : α → β) (r : Res α) (x : Exact β) : Prop :=
  match r with
  | .stuck => ¬ x.relies
  | .fail => x.relies ∧ x.value = none
  | .ok a => x.relies ∧ x.value = some (view a)

namespace Follows

variable {α β γ δ : Type} {view : α → β} {view' : γ → δ} {r : Res α} {x : Exact β}

theorem stuck_iff (h : Follows view r x) : r = .stuck ↔ ¬ x.relies := by
  cases r with
  | stuck => exact ⟨fun _ => h, fun _ => rfl⟩
  | fail =>
    refine ⟨fun hr => ?_, fun hx => absurd h.1 hx⟩
    cases hr
  | ok a =>
    refine ⟨fun hr => ?_, fun hx => absurd h.1 hx⟩
    cases hr

theorem pure (a : α) : Follows view (Pure.pure a) (Pure.pure (view a)) := ⟨trivial, rfl⟩

theorem fail : Follows view Res.fail ⟨True, none⟩ := ⟨trivial, rfl⟩

theorem bind {f : α → Res γ} {g : β → Exact δ} (h : Follows view r x)
    (hnext : ∀ a, Follows view' (f a) (g (view a))) : Follows view' (r >>= f) (x >>= g) := by
  change Follows view' (r.bind f) (x.bind g)
  unfold Exact.bind
  cases r with
  | stuck =>
    cases hx : x.value with
    | none => exact h
    | some b => exact fun hrelies => h hrelies.1
  | fail =>
    rw [h.2]
    exact ⟨h.1, rfl⟩
  | ok a =>
    obtain ⟨hrelies, ha⟩ := h
    rw [ha]
    have hstep := hnext a
    change Follows view' (f a) _
    cases hf : f a with
    | stuck =>
      rw [hf] at hstep
      exact fun hboth => hstep hboth.2
    | fail =>
      rw [hf] at hstep
      exact ⟨⟨hrelies, hstep.1⟩, hstep.2⟩
    | ok c =>
      rw [hf] at hstep
      exact ⟨⟨hrelies, hstep.1⟩, hstep.2⟩

theorem ite {p q : Prop} [Decidable p] [Decidable q] {r' : Res α} {x' : Exact β} (hpq : p ↔ q)
    (hthen : p → Follows view r x) (helse : ¬ p → Follows view r' x') :
    Follows view (if p then r else r') (if q then x else x') := by grind

theorem guard {p : Prop} [Decidable p] {q : Prop} {a : α} {b : β} (hpq : p ↔ q)
    (hview : p → view a = b) : Follows view (if p then Res.ok a else Res.stuck) ⟨q, some b⟩ := by
  by_cases hp : p
  · rw [if_pos hp]
    exact ⟨hpq.1 hp, congrArg some (hview hp).symm⟩
  · rw [if_neg hp]
    exact fun hq => hp (hpq.2 hq)

end Follows

end LsLang.Undefined

/-! Computations that are never undefined and do not fail: what they yield, and the rules for loops. -/

namespace LsLang.Undefined.Res

variable {α β σ : Type} {P Q : α → Prop} {r : Res α}

/-- The computation ends in a result with the property. -/
def Yields (r : Res α) (P : α → Prop) : Prop := ∃ a, r = .ok a ∧ P a

theorem yields_ok {a : α} : (ok a).Yields P ↔ P a := by
  constructor
  · rintro ⟨b, hb, hp⟩
    cases hb
    exact hp
  · exact fun h => ⟨a, rfl, h⟩

theorem yields_pure {a : α} : (pure a : Res α).Yields P ↔ P a := yields_ok

theorem Yields.mono (h : r.Yields P) (hPQ : ∀ a, P a → Q a) : r.Yields Q := by
  obtain ⟨a, hr, hp⟩ := h
  exact ⟨a, hr, hPQ a hp⟩

theorem Yields.bind {f : α → Res β} {Q : β → Prop} (h : r.Yields P) (hf : ∀ a, P a → (f a).Yields Q) :
    (r >>= f).Yields Q := by
  obtain ⟨a, rfl, hp⟩ := h
  exact hf a hp

theorem bind_ok {f : α → Res β} {b : β} (h : (r >>= f) = .ok b) : ∃ a, r = .ok a ∧ f a = .ok b := by
  cases r with
  | ok a => exact ⟨a, rfl, h⟩
  | fail => cases h
  | stuck => cases h

theorem bind_assoc {γ : Type} (r : Res α) (f : α → Res β) (g : β → Res γ) :
    ((r >>= f) >>= g) = r >>= fun a => f a >>= g := by
  cases r with
  | ok a => rfl
  | fail => rfl
  | stuck => rfl

/-- `for i in [i, i + n) { body }` -/
def forFrom (body : ℕ → σ → Res σ) : ℕ → ℕ → σ → Res σ
  | _, 0, s => .ok s
  | i, n + 1, s => body i s >>= forFrom body (i + 1) n

/-- `for i in [i, i + n) { body }`, from the end to the start. -/
def forDown (body : ℕ → σ → Res σ) (i : ℕ) : ℕ → σ → Res σ
  | 0, s => .ok s
  | n + 1, s => body (i + n) s >>= forDown body i n

/-- `while more { body }`, for fewer than `fuel` turns. -/
def whileLoop (more : σ → Bool) (body : σ → Res σ) : ℕ → σ → Res σ
  | 0, _ => .stuck
  | fuel + 1, s => if more s then body s >>= whileLoop more body fuel else .ok s

theorem forFrom_yields {b : ℕ → σ → Res σ} {I : ℕ → σ → Prop} {i n : ℕ} {s : σ}
    (hbody : ∀ j s, i ≤ j → j < i + n → I j s → (b j s).Yields (I (j + 1))) (h : I i s) :
    (forFrom b i n s).Yields (I (i + n)) := by
  induction n generalizing i s with
  | zero => exact yields_ok.2 h
  | succ n ih =>
    refine (hbody i s (Nat.le_refl i) (by omega) h).bind fun t ht => ?_
    grind

theorem forDown_yields {b : ℕ → σ → Res σ} {I : ℕ → σ → Prop} {i n : ℕ} {s : σ}
    (hbody : ∀ j s, i ≤ j → j < i + n → I (j + 1) s → (b j s).Yields (I j)) (h : I (i + n) s) :
    (forDown b i n s).Yields (I i) := by
  induction n generalizing s with
  | zero => exact yields_ok.2 h
  | succ n ih =>
    refine (hbody (i + n) s (by omega) (by omega) h).bind fun t ht => ?_
    grind

theorem forDown_fails {body : ℕ → σ → Res σ} {I : ℕ → σ → Prop} {c : ℕ → Prop} {n : ℕ} {s : σ}
    (hok : ∀ j s, j < n → I (j + 1) s → c j → (body j s).Yields (I j))
    (hfail : ∀ j s, j < n → I (j + 1) s → ¬c j → body j s = .fail) (h : I n s) (hnot : ¬∀ j < n, c j) :
    forDown body 0 n s = .fail := by
  induction n generalizing s with
  | zero => grind
  | succ n ih =>
    unfold forDown
    rw [Nat.zero_add]
    by_cases hn : c n
    · obtain ⟨t, ht, hI⟩ := hok n s (Nat.lt_succ_self n) h hn
      rw [ht]
      refine ih (fun j s hj => hok j s (Nat.lt_succ_of_lt hj)) (fun j s hj => hfail j s (Nat.lt_succ_of_lt hj)) hI ?_
      grind
    · rw [hfail n s (Nat.lt_succ_self n) h hn]
      rfl

@[simp] theorem pure_eq (a : α) : (pure a : Res α) = ok a := rfl

@[simp] theorem ok_bind (a : α) (f : α → Res β) : (ok a >>= f) = f a := rfl

theorem forFrom_succ (body : ℕ → σ → Res σ) (i n : ℕ) (s : σ) :
    forFrom body i (n + 1) s = body i s >>= forFrom body (i + 1) n := rfl

theorem forFrom_snoc (body : ℕ → σ → Res σ) (i n : ℕ) (s : σ) :
    forFrom body i (n + 1) s = forFrom body i n s >>= body (i + n) := by
  induction n generalizing i s with
  | zero =>
    change (body i s >>= ok) = body i s
    cases body i s <;> rfl
  | succ n ih =>
    rw [forFrom_succ, forFrom_succ, bind_assoc]
    congr 1
    grind

theorem forDown_succ (body : ℕ → σ → Res σ) (i n : ℕ) (s : σ) :
    forDown body i (n + 1) s = body (i + n) s >>= forDown body i n := rfl

theorem whileLoop_step (more : σ → Bool) (body : σ → Res σ) {s : σ} {n fuel : ℕ} (hfuel : n + 1 < fuel)
    (h : more s = true) : ∃ f, n < f ∧ whileLoop more body fuel s = body s >>= whileLoop more body f := by
  obtain ⟨fuel, rfl⟩ := Nat.exists_eq_add_of_lt hfuel
  exact ⟨n + 1 + fuel, by omega, if_pos h⟩

theorem whileLoop_stop {more : σ → Bool} {body : σ → Res σ} {s : σ} {fuel : ℕ} (hfuel : 0 < fuel)
    (h : more s = false) : whileLoop more body fuel s = ok s := by
  obtain ⟨fuel, rfl⟩ := Nat.exists_eq_add_of_lt hfuel
  unfold whileLoop
  rw [h]
  rfl

theorem whileLoop_yields {more : σ → Bool} {body : σ → Res σ} {I : σ → Prop} (μ : σ → ℕ)
    (hbody : ∀ s, I s → more s = true → (body s).Yields fun t => I t ∧ μ t < μ s) {fuel : ℕ} {s : σ}
    (hfuel : μ s < fuel) (h : I s) : (whileLoop more body fuel s).Yields fun t => I t ∧ more t = false := by
  induction fuel generalizing s with
  | zero => grind
  | succ fuel ih =>
    unfold whileLoop
    cases hm : more s with
    | false => exact yields_ok.2 ⟨h, hm⟩
    | true => exact (hbody s h hm).bind fun t ⟨ht, hlt⟩ => ih (by omega) ht

end LsLang.Undefined.Res

/-! Computations that return exactly under a condition. -/

namespace LsLang.Undefined.Res

variable {α β σ : Type} {c d : Prop} {P Q : α → Prop} {R : β → Prop} {r : Res α}

structure Exactly (r : Res α) (c : Prop) (P : α → Prop) : Prop where
  returns : c → r.Yields P
  only : ∀ a, r = .ok a → c

namespace Exactly

theorem result (h : Exactly r c P) {a : α} (hr : r = .ok a) : P a := by
  obtain ⟨b, hb, hp⟩ := h.returns (h.only a hr)
  grind

theorem ok {a : α} (h : P a) : Exactly (.ok a) True P := ⟨fun _ => yields_ok.2 h, fun _ _ => trivial⟩

theorem of_eq {a : α} (h : r = .ok a) : Exactly r True (· = a) := by
  rw [h]
  exact ok rfl

theorem eq_iff {a : α} (h : Exactly r c (· = a)) : r = .ok a ↔ c := by
  refine ⟨fun hr => h.only a hr, fun hc => ?_⟩
  obtain ⟨b, hb, rfl⟩ := h.returns hc
  exact hb

theorem congr (h : Exactly r c P) (hcd : c ↔ d) : Exactly r d P :=
  ⟨fun hd => h.returns (hcd.2 hd), fun a hr => hcd.1 (h.only a hr)⟩

theorem and_cond (h : Exactly r c P) : Exactly r c fun a => P a ∧ c :=
  ⟨fun hc => (h.returns hc).mono fun _ ha => ⟨ha, hc⟩, h.only⟩

theorem mono (h : Exactly r c P) (hPQ : ∀ a, P a → Q a) : Exactly r c Q :=
  ⟨fun hc => (h.returns hc).mono hPQ, h.only⟩

theorem bind {f : α → Res β} (h : Exactly r c P) (hf : ∀ a, P a → Exactly (f a) d R) :
    Exactly (r >>= f) (c ∧ d) R := by
  refine ⟨fun hcd => (h.returns hcd.1).bind fun a ha => (hf a ha).returns hcd.2, fun b hb => ?_⟩
  obtain ⟨a, ha, hfa⟩ := bind_ok hb
  exact ⟨h.only a ha, (hf a (h.result ha)).only b hfa⟩

theorem forFrom {b : ℕ → σ → Res σ} {I : ℕ → σ → Prop} {c : ℕ → Prop} {i n : ℕ} {s : σ}
    (hbody : ∀ j s, i ≤ j → j < i + n → I j s → Exactly (b j s) (c j) (I (j + 1))) (h : I i s) :
    Exactly (Res.forFrom b i n s) (∀ j, i ≤ j → j < i + n → c j) (I (i + n)) := by
  induction n generalizing i s with
  | zero => exact (Exactly.ok h).congr (iff_of_true trivial fun j hj hlt => absurd hlt (by omega))
  | succ n ih =>
    have hrest : ∀ t, I (i + 1) t →
        Exactly (Res.forFrom b (i + 1) n t) (∀ j, i + 1 ≤ j → j < i + 1 + n → c j) (I (i + 1 + n)) :=
      fun t ht => ih (fun j s hj hlt => hbody j s (by omega) (by omega)) ht
    rw [Nat.add_right_comm i 1 n] at hrest
    refine ((hbody i s (Nat.le_refl i) (by omega) h).bind hrest).congr ⟨?_, ?_⟩
    · grind
    grind

theorem forDown {b : ℕ → σ → Res σ} {I : ℕ → σ → Prop} {c : ℕ → Prop} {n : ℕ} {s : σ}
    (hbody : ∀ j s, j < n → I (j + 1) s → Exactly (b j s) (c j) (I j)) (h : I n s) :
    Exactly (Res.forDown b 0 n s) (∀ j < n, c j) (I 0) := by
  induction n generalizing s with
  | zero => exact (Exactly.ok h).congr (iff_of_true trivial fun j hj => absurd hj (Nat.not_lt_zero j))
  | succ n ih =>
    have hlast : Exactly (b (0 + n) s) (c n) (I n) := by grind
    refine (hlast.bind fun t ht => ih (fun j s hj => hbody j s (Nat.lt_succ_of_lt hj)) ht).congr ⟨?_, ?_⟩
    · grind
    grind

end Exactly

end LsLang.Undefined.Res

/-! Computations that append to what a state holds, and return exactly as long as there is room. -/

namespace LsLang.Lib

open LsLang.Undefined LsLang.Undefined.Res

structure Holder (σ α : Type) where
  ok : σ → Prop
  held : σ → List α
  room : ℕ
  fits : ∀ s, ok s → (held s).length ≤ room

namespace Holder

variable {σ α : Type} (H : Holder σ α)

def Adds (f : σ → Res σ) (l : List α) : Prop :=
  ∀ s, H.ok s → (f s).Exactly ((H.held s ++ l).length ≤ H.room) fun t => H.ok t ∧ H.held t = H.held s ++ l

variable {H} {f g : σ → Res σ} {l m : List α}

theorem adds_nil : H.Adds Res.ok [] := by
  intro s hs
  rw [List.append_nil]
  exact (Exactly.ok ⟨hs, rfl⟩).congr (iff_of_true trivial (H.fits s hs))

theorem Adds.bind (hf : H.Adds f l) (hg : H.Adds g m) : H.Adds (fun s => f s >>= g) (l ++ m) := by
  intro s hs
  have hboth : (f s >>= g).Exactly
      ((H.held s ++ l).length ≤ H.room ∧ (H.held s ++ (l ++ m)).length ≤ H.room)
      fun t => H.ok t ∧ H.held t = H.held s ++ (l ++ m) := by
    refine (hf s hs).bind fun t ⟨ht, hheld⟩ => ?_
    have hnext := hg t ht
    grind
  refine hboth.congr (and_iff_right_of_imp fun hle => ?_)
  grind

theorem Adds.congr (hf : H.Adds f l) (hfg : ∀ s, g s = f s) (hlm : m = l) : H.Adds g m := by
  have hgf : g = f := funext hfg
  rw [hgf, hlm]
  exact hf

theorem adds_forFrom {b : ℕ → σ → Res σ} {q : ℕ → List α} {i n : ℕ}
    (hbody : ∀ j, i ≤ j → j < i + n → H.Adds (b j) (q j)) :
    H.Adds (forFrom b i n) ((List.range' i n).flatMap q) := by
  induction n generalizing i with
  | zero => exact adds_nil
  | succ n ih =>
    have hrest := ih (i := i + 1) fun j hj hlt => hbody j (by omega) (by omega)
    exact ((hbody i le_rfl (by omega)).bind hrest).congr (fun s => forFrom_succ b i n s)
      (by rw [List.range'_succ, List.flatMap_cons])

theorem adds_foldlM {β : Type} {f : σ → β → Res σ} {part : β → List α} {xs : List β}
    (hbody : ∀ x ∈ xs, H.Adds (fun s => f s x) (part x)) :
    H.Adds (fun s => xs.foldlM f s) (xs.flatMap part) := by
  induction xs with
  | nil => exact adds_nil
  | cons x xs ih =>
    have hrest := ih fun y hy => hbody y (List.mem_cons_of_mem x hy)
    exact ((hbody x List.mem_cons_self).bind hrest).congr (fun s => List.foldlM_cons) List.flatMap_cons

theorem Adds.run (hf : H.Adds f l) {s : σ} (hs : H.ok s) (hempty : H.held s = []) :
    (f s).Exactly (l.length ≤ H.room) fun t => H.ok t ∧ H.held t = l := by
  have h := hf s hs
  grind

end Holder

end LsLang.Lib
