import LsLang.Sync.Ring

/-! Every run of the multi-producer, multi-consumer ring keeps the invariant, and
what it delivers. -/

namespace LsLang.Sync

open Function Transition RingEvent

variable {τ T : Type}

namespace RingEvent

variable (es : List (RingEvent τ T)) (e : RingEvent τ T)

theorem reserved_snoc : reserved (es ++ [e]) = reserved es ++ e.reserved?.toList := by
  cases e <;> simp [reserved, reserved?]

theorem enqueued_snoc : enqueued (es ++ [e]) = enqueued es ++ e.enqueued?.toList := by
  cases e <;> simp [enqueued, enqueued?]

theorem dequeued_snoc : dequeued (es ++ [e]) = dequeued es ++ e.dequeued?.toList := by
  cases e <;> simp [dequeued, dequeued?]

theorem ops_snoc : ops (es ++ [e]) = ops es + if e.isCall then 1 else 0 := by
  cases h : e.isCall <;> simp [ops, List.countP_append, h]

theorem ops_append_le (fs : List (RingEvent τ T)) : ops es ≤ ops (es ++ fs) := by
  simp [ops, List.countP_append]

theorem ops_snoc_eq (h : e.isCall = false) : ops (es ++ [e]) = ops es := by
  simp [ops_snoc, h]

end RingEvent

theorem Ring.Ok.exists_mem {r : Ring T} {vals : List (Int × T)} (h : r.Ok vals) {i : Int}
    (hi : 0 ≤ i) (hi' : i < r.prodHead) : ∃ x, (i, x) ∈ vals := by
  have hl := h.length
  have hn : i.toNat < vals.length := by omega
  have he := h.index _ hn
  grind

theorem Ring.Ok.take_succ {r : Ring T} {vals : List (Int × T)} (h : r.Ok vals) {i : Int} {x : T}
    (hm : (i, x) ∈ vals) : vals.take (i + 1).toNat = vals.take i.toNat ++ [(i, x)] := by
  obtain ⟨n, hn, he⟩ := List.getElem_of_mem hm
  have hi := h.index n hn
  rw [he] at hi
  dsimp only at hi
  subst hi
  rw [show ((n : Int) + 1).toNat = n + 1 by omega, Int.toNat_natCast, List.take_add_one,
    List.getElem?_eq_getElem hn, he]
  rfl

namespace RingPhase.Ok

variable {r : Ring T} {vals : List (Int × T)} {p : RingPhase T} {i : Int}

theorem enqSlot_spec (h : p.Ok r vals) (hs : p.enqSlot = some i) :
    r.prodTail ≤ i ∧ ∃ x, (i, x) ∈ vals := by
  cases p <;> simp only [RingPhase.enqSlot, reduceCtorEq, Option.some.injEq] at hs
  case enqWrite x j => exact ⟨hs ▸ h.1, x, hs ▸ h.2.1⟩
  case enqWait x j => exact ⟨hs ▸ h.1, x, hs ▸ h.2.1⟩
  case enqPublish x j => exact ⟨hs ▸ h.1.ge, x, hs ▸ h.2.1⟩

theorem deqSlot_spec (h : p.Ok r vals) (hs : p.deqSlot = some i) :
    r.consTail ≤ i ∧ i < r.consHead := by
  cases p <;> simp only [RingPhase.deqSlot, reduceCtorEq, Option.some.injEq] at hs
  case deqRead j => exact ⟨hs ▸ h.1, hs ▸ h.2.1⟩
  case deqWait j x => exact ⟨hs ▸ h.1, hs ▸ h.2.1⟩
  case deqPublish j x => exact ⟨hs ▸ h.1.ge, hs ▸ h.2.1⟩

theorem slot_spec (hr : r.Ok vals) (h : p.Ok r vals) (hs : p.slot = some i) :
    r.consTail ≤ i ∧ i < r.prodHead ∧ (i < r.consHead ∨ r.prodTail ≤ i) := by
  have h1 := hr.consTail_le
  have h2 := hr.consHead_le
  have h3 := hr.prodTail_le
  rw [RingPhase.slot, Option.orElse_eq_orElse, Option.orElse_eq_or, Option.or_eq_some_iff] at hs
  obtain hs | ⟨_, hs⟩ := hs
  · obtain ⟨hi, x, hx⟩ := h.enqSlot_spec hs
    have := (hr.fst_lt hx).2
    omega
  · obtain ⟨hi, hi'⟩ := h.deqSlot_spec hs
    omega

end RingPhase.Ok

namespace RingSys

variable [DecidableEq τ] {es : List (RingEvent τ T)} {s : RingSys τ T} {t : τ}
  {e : RingEvent τ T} {p : RingPhase T}

theorem phase_set_self (r : Ring T) : (s.set t r p).phase t = p := by
  simp [set]

theorem phase_set_ne (r : Ring T) {u : τ} (h : u ≠ t) : (s.set t r p).phase u = s.phase u := by
  simp [set, h]

omit [DecidableEq τ] in
theorem Inv.init (h : Init s) : s.Inv [] := by
  obtain ⟨⟨fuel, capacity, hn⟩, hi⟩ := h
  unfold Ring.newMpmcRing Ring.new at hn
  cases hs : roundUp fuel 1 capacity with
  | none => simp [hs] at hn
  | some size =>
    simp only [hs, Option.bind_eq_bind, Option.bind_some, Option.some.injEq] at hn
    obtain ⟨k, hk, hp, _⟩ := roundUp_one hs
    have hcap : size.toNat = 2 ^ k := by rw [hp]; exact Int.toNat_natCast (2 ^ k)
    have hphase : ∀ t, (s.phase t).enqSlot = none ∧ (s.phase t).deqSlot = none := by
      intro t
      rw [hi t]
      exact ⟨rfl, rfl⟩
    exact
      { ring := by
          rw [← hn]
          exact
            { pow := ⟨k, hk, hcap⟩
              mask := by dsimp only; omega
              mp := rfl
              mc := rfl
              nonneg := le_rfl
              consTail_le := le_rfl
              consHead_le := le_rfl
              prodTail_le := le_rfl
              prodHead_le := by dsimp only; omega
              length := rfl
              index := fun i h => absurd h (Nat.not_lt_zero i)
              live := fun i x h => absurd h List.not_mem_nil
              free := fun _ _ => rfl }
        phase := fun t => by rw [hi t]; trivial
        enq := fun t u i h => by grind
        deq := fun t u i h => by grind
        count := ⟨∅, fun t x h => by simp [hi t, RingPhase.Reserving] at h, by rw [← hn]; simp⟩
        enqueued := by simp [RingEvent.enqueued, reserved]
        dequeued := by simp [RingEvent.dequeued, reserved] }

theorem Inv.set (h : s.Inv es) {r : Ring T}
    (hr : r.Ok (reserved (es ++ [e])))
    (hp : p.Ok r (reserved (es ++ [e])))
    (ho : ∀ u, u ≠ t → (s.phase u).Ok r (reserved (es ++ [e])))
    (henq : ∀ i, p.enqSlot = some i →
      (s.phase t).enqSlot = some i ∨ ∀ u, (s.phase u).enqSlot ≠ some i)
    (hdeq : ∀ i, p.deqSlot = some i →
      (s.phase t).deqSlot = some i ∨ ∀ u, (s.phase u).deqSlot ≠ some i)
    (hc : ∃ F : Finset τ, (∀ x, p.Reserving x → t ∈ F) ∧
      (∀ u x, u ≠ t → (s.phase u).Reserving x → u ∈ F) ∧
      r.prodHead + F.card ≤ ops (es ++ [e]))
    (hen : RingEvent.enqueued (es ++ [e]) = (reserved (es ++ [e])).take r.prodTail.toNat)
    (hde : RingEvent.dequeued (es ++ [e]) = (reserved (es ++ [e])).take r.consTail.toNat) :
    (s.set t r p).Inv (es ++ [e]) where
  ring := hr
  phase := by
    intro u
    by_cases hu : u = t
    · subst hu
      rw [phase_set_self]
      exact hp
    · rw [phase_set_ne r hu]
      exact ho u hu
  enq := by
    intro u v i hu hv
    by_cases hut : u = t <;> by_cases hvt : v = t
    · rw [hut, hvt]
    · subst hut
      rw [phase_set_self] at hu
      rw [phase_set_ne r hvt] at hv
      obtain ho | hn := henq i hu
      · exact h.enq u v i ho hv
      · exact absurd hv (hn v)
    · subst hvt
      rw [phase_set_self] at hv
      rw [phase_set_ne r hut] at hu
      obtain ho | hn := henq i hv
      · exact h.enq u v i hu ho
      · exact absurd hu (hn u)
    · rw [phase_set_ne r hut] at hu
      rw [phase_set_ne r hvt] at hv
      exact h.enq u v i hu hv
  deq := by
    intro u v i hu hv
    by_cases hut : u = t <;> by_cases hvt : v = t
    · rw [hut, hvt]
    · subst hut
      rw [phase_set_self] at hu
      rw [phase_set_ne r hvt] at hv
      obtain ho | hn := hdeq i hu
      · exact h.deq u v i ho hv
      · exact absurd hv (hn v)
    · subst hvt
      rw [phase_set_self] at hv
      rw [phase_set_ne r hut] at hu
      obtain ho | hn := hdeq i hv
      · exact h.deq u v i hu ho
      · exact absurd hu (hn u)
    · rw [phase_set_ne r hut] at hu
      rw [phase_set_ne r hvt] at hv
      exact h.deq u v i hu hv
  count := by
    obtain ⟨F, ht, hu, hF⟩ := hc
    refine ⟨F, fun u x hx => ?_, hF⟩
    by_cases hut : u = t
    · subst hut
      rw [phase_set_self] at hx
      exact ht x hx
    · rw [phase_set_ne r hut] at hx
      exact hu u x hut hx
  enqueued := hen
  dequeued := hde

theorem Inv.go (h : s.Inv es) (hr : e.reserved? = none) (hen : e.enqueued? = none)
    (hde : e.dequeued? = none) (hp : p.Ok s.ring (reserved es))
    (henq : p.enqSlot = (s.phase t).enqSlot) (hdeq : p.deqSlot = (s.phase t).deqSlot)
    (hc : ∀ x, p.Reserving x → e.isCall = true ∨ ∃ y, (s.phase t).Reserving y) :
    (s.go t p).Inv (es ++ [e]) := by
  have hres : reserved (es ++ [e]) = reserved es := by simp [reserved_snoc, hr]
  refine Inv.set (r := s.ring) h ?_ ?_ ?_ ?_ ?_ ?_ ?_ ?_
  · rw [hres]
    exact h.ring
  · rw [hres]
    exact hp
  · intro u _
    rw [hres]
    exact h.phase u
  · grind
  · grind
  · obtain ⟨F, hF, hle⟩ := h.count
    rw [ops_snoc]
    by_cases hcall : e.isCall = true
    · have := F.card_insert_le t
      grind
    grind
  · rw [hres, enqueued_snoc, hen, Option.toList_none, List.append_nil]
    exact h.enqueued
  · rw [hres, dequeued_snoc, hde, Option.toList_none, List.append_nil]
    exact h.dequeued

omit [DecidableEq τ] in
theorem Inv.slot_inj (h : s.Inv es) {u : τ} {i : Int} (ht : (s.phase t).slot = some i)
    (hu : (s.phase u).slot = some i) : t = u := by
  have h2 := h.ring.consHead_le
  rw [RingPhase.slot, Option.orElse_eq_orElse, Option.orElse_eq_or, Option.or_eq_some_iff] at ht hu
  obtain ht | ⟨_, ht⟩ := ht <;> obtain hu | ⟨_, hu⟩ := hu
  · exact h.enq t u i ht hu
  · have := ((h.phase t).enqSlot_spec ht).1
    have := ((h.phase u).deqSlot_spec hu).2
    omega
  · have := ((h.phase u).enqSlot_spec hu).1
    have := ((h.phase t).deqSlot_spec ht).2
    omega
  · exact h.deq t u i ht hu

omit [DecidableEq τ] in
theorem Inv.slotOf_ne (h : s.Inv es) {u : τ} {i j : Int} (hne : t ≠ u)
    (ht : (s.phase t).slot = some i) (hu : (s.phase u).slot = some j) :
    s.ring.slotOf i ≠ s.ring.slotOf j := by
  obtain ⟨hi, hi', _⟩ := (h.phase t).slot_spec h.ring ht
  obtain ⟨hj, hj', _⟩ := (h.phase u).slot_spec h.ring hu
  refine h.ring.slotOf_ne hi hj hi' hj' ?_
  rintro rfl
  exact hne (h.slot_inj ht hu)

/-! The steps that change the ring. -/

theorem Inv.enqReserve (h : s.Inv es) {x : T} {oh : Int} (hp : s.phase t = .enqCas x oh)
    (hoh : s.ring.prodHead = oh) (hb : ops es < 2 ^ 63) :
    (s.set t { s.ring with prodHead := i64 (oh + 1) } (.enqWrite x oh)).Inv
      (es ++ [.enqReserve t oh x]) := by
  subst hoh
  obtain ⟨F, hF, hle⟩ := h.count
  have htF : t ∈ F := hF t x (.inr (.inr ⟨_, hp⟩))
  have hpos : 0 < F.card := Finset.card_pos.mpr ⟨t, htF⟩
  have hlt : s.ring.prodHead < s.ring.consTail + s.ring.cap := by
    have := h.phase t
    rwa [hp] at this
  have h0 := h.ring.nonneg
  have h1 := h.ring.consTail_le
  have h2 := h.ring.consHead_le
  have h3 := h.ring.prodTail_le
  have hi : i64 (s.ring.prodHead + 1) = s.ring.prodHead + 1 := i64_eq (by omega) (by omega)
  have hres : reserved (es ++ [.enqReserve t s.ring.prodHead x]) =
      reserved es ++ [(s.ring.prodHead, x)] := by simp [reserved_snoc, reserved?]
  have hlen := h.ring.length
  rw [hi]
  refine Inv.set h ?_ ?_ ?_ ?_ ?_ ?_ ?_ ?_
  · rw [hres]
    exact h.ring.reserve hlt
  · rw [hres]
    exact ⟨h3, List.mem_append_right _ (List.mem_singleton_self _), h.ring.slot_free hlt⟩
  · intro u _
    rw [hres]
    exact (h.phase u).mono rfl rfl (fun a ha => List.mem_append_left _ ha) (by dsimp only; omega)
      le_rfl le_rfl le_rfl (fun _ _ => .inl rfl) (fun _ _ => .inl rfl) (fun _ _ => rfl)
  · intro i hi
    obtain rfl : s.ring.prodHead = i := by simpa [RingPhase.enqSlot] using hi
    -- a slot that a thread already holds lies below `prodHead`
    refine .inr fun u hu => ?_
    have hu' := h.phase u
    revert hu hu'
    cases s.phase u <;> simp only [RingPhase.enqSlot, RingPhase.Ok, reduceCtorEq, false_implies,
      implies_true, Option.some.injEq]
    all_goals
      rintro rfl ⟨_, hm, _⟩
      exact absurd (h.ring.fst_lt hm).2 (lt_irrefl _)
  · intro i hi
    cases hi
  · refine ⟨F.erase t, fun y hy => ?_, fun u y hu hy => Finset.mem_erase.mpr ⟨hu, hF u y hy⟩, ?_⟩
    · simp [RingPhase.Reserving] at hy
    · rw [ops_snoc_eq _ _ rfl, Finset.card_erase_of_mem htF]
      dsimp only
      omega
  · rw [hres, enqueued_snoc, h.enqueued]
    simp only [enqueued?, Option.toList_none, List.append_nil]
    grind
  · rw [hres, dequeued_snoc, h.dequeued]
    simp only [dequeued?, Option.toList_none, List.append_nil]
    grind

theorem Inv.touch (h : s.Inv es) {i : Int} {v : Option T} (hi : (s.phase t).slot = some i)
    (hp : p.Ok { s.ring with data := update s.ring.data (s.ring.slotOf i) v } (reserved es))
    (henq : p.enqSlot = (s.phase t).enqSlot) (hdeq : p.deqSlot = (s.phase t).deqSlot)
    (hres : ∀ x, ¬ p.Reserving x) :
    (s.set t { s.ring with data := update s.ring.data (s.ring.slotOf i) v } p).Inv
      (es ++ [.access t]) := by
  obtain ⟨hi₁, hi₂, hi₃⟩ := (h.phase t).slot_spec h.ring hi
  have hr : reserved (es ++ [.access t]) = reserved es := by simp [reserved_snoc, reserved?]
  refine Inv.set h ?_ ?_ ?_ ?_ ?_ ?_ ?_ ?_
  · rw [hr]
    exact h.ring.touch hi₁ hi₂ hi₃
  · rw [hr]
    exact hp
  · intro u hu
    rw [hr]
    refine (h.phase u).mono rfl rfl (fun _ ha => ha) le_rfl le_rfl le_rfl le_rfl
      (fun _ _ => .inl rfl) (fun _ _ => .inl rfl) fun j hj => ?_
    exact update_of_ne (h.slotOf_ne hu hj hi) v s.ring.data
  · grind
  · grind
  · obtain ⟨F, hF, hle⟩ := h.count
    exact ⟨F, fun x hx => absurd hx (hres x), fun u x _ hx => hF u x hx,
      by rw [ops_snoc_eq _ _ rfl]; exact hle⟩
  · rw [hr, enqueued_snoc, h.enqueued]
    exact List.append_nil _
  · rw [hr, dequeued_snoc, h.dequeued]
    exact List.append_nil _

theorem Inv.enqPublish (h : s.Inv es) {x : T} {i : Int} (hp : s.phase t = .enqPublish x i)
    (hb : ops es < 2 ^ 63) :
    (s.set t { s.ring with prodTail := i64 (i + 1) } .idle).Inv (es ++ [.enqTrue t i x]) := by
  have hok := h.phase t
  rw [hp] at hok
  obtain ⟨rfl, hm, hd⟩ := hok
  obtain ⟨F, hF, hle⟩ := h.count
  have hlt := (h.ring.fst_lt hm).2
  have h0 := h.ring.nonneg
  have h1 := h.ring.consTail_le
  have h2 := h.ring.consHead_le
  have hi : i64 (s.ring.prodTail + 1) = s.ring.prodTail + 1 := i64_eq (by omega) (by omega)
  have hr : reserved (es ++ [.enqTrue t s.ring.prodTail x]) = reserved es := by
    simp [reserved_snoc, reserved?]
  rw [hi]
  refine Inv.set h ?_ ?_ ?_ ?_ ?_ ?_ ?_ ?_
  · rw [hr]
    exact h.ring.publish hm hd
  · trivial
  · intro u hu
    rw [hr]
    refine (h.phase u).mono rfl rfl (fun _ ha => ha) le_rfl (by dsimp only; omega) le_rfl le_rfl
      (fun j hj => .inr ⟨rfl, ?_⟩) (fun _ _ => .inl rfl) fun _ _ => rfl
    rintro rfl
    exact hu (h.enq u t _ hj (by rw [hp]; rfl))
  · intro j hj
    cases hj
  · intro j hj
    cases hj
  · exact ⟨F, fun y hy => by simp [RingPhase.Reserving] at hy, fun u y _ hy => hF u y hy,
      by rw [ops_snoc_eq _ _ rfl]; exact hle⟩
  · rw [hr, enqueued_snoc, h.enqueued]
    exact (h.ring.take_succ hm).symm
  · rw [hr, dequeued_snoc, h.dequeued]
    exact List.append_nil _

theorem Inv.deqReserve (h : s.Inv es) {oh : Int} (hp : s.phase t = .deqCas oh)
    (hoh : s.ring.consHead = oh) (hb : ops es < 2 ^ 63) :
    (s.set t { s.ring with consHead := i64 (oh + 1) } (.deqRead oh)).Inv
      (es ++ [.deqReserve t oh]) := by
  subst hoh
  obtain ⟨F, hF, hle⟩ := h.count
  have hlt : s.ring.consHead < s.ring.prodTail := by
    have := h.phase t
    rwa [hp] at this
  have h0 := h.ring.nonneg
  have h1 := h.ring.consTail_le
  have h3 := h.ring.prodTail_le
  have hi : i64 (s.ring.consHead + 1) = s.ring.consHead + 1 := i64_eq (by omega) (by omega)
  -- taking a slot reserves none for a producer
  have hr : reserved (es ++ [.deqReserve t s.ring.consHead]) = reserved es := by
    simp [reserved_snoc, reserved?]
  rw [hi]
  refine Inv.set h ?_ ?_ ?_ ?_ ?_ ?_ ?_ ?_
  · rw [hr]
    exact h.ring.deqReserve hlt
  · rw [hr]
    obtain ⟨x, hx⟩ := h.ring.exists_mem (h0.trans h1) (hlt.trans_le h3)
    exact ⟨h1, by dsimp only; omega, x, hx, h.ring.live _ x hx le_rfl hlt⟩
  · intro u _
    rw [hr]
    exact (h.phase u).mono rfl rfl (fun _ ha => ha) le_rfl le_rfl (by dsimp only; omega) le_rfl
      (fun _ _ => .inl rfl) (fun _ _ => .inl rfl) fun _ _ => rfl
  · intro j hj
    cases hj
  · intro j hj
    obtain rfl : s.ring.consHead = j := by simpa [RingPhase.deqSlot] using hj
    exact .inr fun u hu => lt_irrefl _ ((h.phase u).deqSlot_spec hu).2
  · exact ⟨F, fun y hy => by simp [RingPhase.Reserving] at hy, fun u y _ hy => hF u y hy,
      by rw [ops_snoc_eq _ _ rfl]; exact hle⟩
  · rw [hr, enqueued_snoc, h.enqueued]
    exact List.append_nil _
  · rw [hr, dequeued_snoc, h.dequeued]
    exact List.append_nil _

theorem Inv.deqPublish (h : s.Inv es) {x : T} {i : Int} (hp : s.phase t = .deqPublish i x)
    (hb : ops es < 2 ^ 63) :
    (s.set t { s.ring with consTail := i64 (i + 1) } .idle).Inv (es ++ [.deqSome t i x]) := by
  have hok := h.phase t
  rw [hp] at hok
  obtain ⟨rfl, hlt, hm, hd⟩ := hok
  obtain ⟨F, hF, hle⟩ := h.count
  have h0 := h.ring.nonneg
  have h2 := h.ring.consHead_le
  have h3 := h.ring.prodTail_le
  have hi : i64 (s.ring.consTail + 1) = s.ring.consTail + 1 := i64_eq (by omega) (by omega)
  have hr : reserved (es ++ [.deqSome t s.ring.consTail x]) = reserved es := by
    simp [reserved_snoc, reserved?]
  rw [hi]
  refine Inv.set h ?_ ?_ ?_ ?_ ?_ ?_ ?_ ?_
  · rw [hr]
    exact h.ring.deqPublish hlt hd
  · trivial
  · intro u hu
    rw [hr]
    refine (h.phase u).mono rfl rfl (fun _ ha => ha) le_rfl le_rfl le_rfl (by dsimp only; omega)
      (fun _ _ => .inl rfl) (fun j hj => .inr ⟨rfl, ?_⟩) fun _ _ => rfl
    rintro rfl
    exact hu (h.deq u t _ hj (by rw [hp]; rfl))
  · intro j hj
    cases hj
  · intro j hj
    cases hj
  · exact ⟨F, fun y hy => by simp [RingPhase.Reserving] at hy, fun u y _ hy => hF u y hy,
      by rw [ops_snoc_eq _ _ rfl]; exact hle⟩
  · rw [hr, enqueued_snoc, h.enqueued]
    exact List.append_nil _
  · rw [hr, dequeued_snoc, h.dequeued]
    exact (h.ring.take_succ hm).symm

theorem Inv.step {s' : RingSys τ T} (h : s.Inv es) (hb : ops es < 2 ^ 63) (hs : Step s e s') :
    s'.Inv (es ++ [e]) := by
  have h0 := h.ring.nonneg
  have h1 := h.ring.consTail_le
  have h2 := h.ring.consHead_le
  have h3 := h.ring.prodTail_le
  have hcap := h.ring.prodHead_le
  -- the cursors count operations, so none of them wraps around
  have hph : s.ring.prodHead < 2 ^ 63 := by
    obtain ⟨F, _, hle⟩ := h.count
    omega
  cases hs with
  | @enqCall t x hp =>
    exact h.go rfl rfl rfl trivial (by rw [hp]; rfl) (by rw [hp]; rfl) fun _ _ => .inl rfl
  | @enqLoadHead t x hp hm =>
    exact h.go rfl rfl rfl ⟨by omega, le_rfl⟩ (by rw [hp]; rfl) (by rw [hp]; rfl)
      fun _ _ => .inr ⟨x, .inl hp⟩
  | @enqFull t x oh hp hf =>
    exact h.go rfl rfl rfl trivial (by rw [hp]; rfl) (by rw [hp]; rfl)
      fun _ hy => by simp [RingPhase.Reserving] at hy
  | @enqRoom t x oh hp hr =>
    have hok := h.phase t
    rw [hp] at hok
    obtain ⟨hoh, hoh'⟩ := hok
    rw [i64_eq (by omega) (by omega)] at hr
    exact h.go rfl rfl rfl (show oh < _ by omega) (by rw [hp]; rfl) (by rw [hp]; rfl)
      fun _ _ => .inr ⟨x, .inr (.inl ⟨oh, hp⟩)⟩
  | enqReserve hp hoh => exact h.enqReserve hp hoh hb
  | @enqRetry t x oh hp _ =>
    exact h.go rfl rfl rfl trivial (by rw [hp]; rfl) (by rw [hp]; rfl)
      fun _ _ => .inr ⟨x, .inr (.inr ⟨oh, hp⟩)⟩
  -- with many producers the path of a single one is not taken
  | enqLoadTail _ hm => exact absurd hm (by rw [h.ring.mp]; decide)
  | @enqTailFull t _ _ hp _ =>
    have hok := h.phase t
    rw [hp] at hok
    exact hok.elim
  | @enqTailRoom t _ _ hp _ =>
    have hok := h.phase t
    rw [hp] at hok
    exact hok.elim
  | @enqWrite t x i hp =>
    have hok := h.phase t
    rw [hp] at hok
    obtain ⟨hi, hm, _⟩ := hok
    rw [if_pos h.ring.mp]
    refine h.touch (by rw [hp]; rfl) ⟨hi, hm, update_self (s.ring.slotOf i) (some x) s.ring.data⟩
      (by rw [hp]; rfl) (by rw [hp]; rfl) fun y hy => ?_
    simp [RingPhase.Reserving] at hy
  | @enqSpin t x i hp _ =>
    have hok := h.phase t
    rw [hp] at hok
    exact h.go rfl rfl rfl hok (by rw [hp]) (by rw [hp])
      fun _ hy => by grind
  | @enqTurn t x i hp ht =>
    have hok := h.phase t
    rw [hp] at hok
    exact h.go rfl rfl rfl ⟨ht.symm, hok.2⟩ (by rw [hp]; rfl) (by rw [hp]; rfl)
      fun _ hy => by simp [RingPhase.Reserving] at hy
  | enqPublish hp => exact h.enqPublish hp hb
  | @deqCall t hp =>
    exact h.go rfl rfl rfl trivial (by rw [hp]; rfl) (by rw [hp]; rfl) fun _ _ => .inl rfl
  | @deqLoadHead t hp hm =>
    exact h.go rfl rfl rfl (le_refl s.ring.consHead) (by rw [hp]; rfl) (by rw [hp]; rfl)
      fun _ hy => by simp [RingPhase.Reserving] at hy
  | @deqEmpty t oh hp _ =>
    exact h.go rfl rfl rfl trivial (by rw [hp]; rfl) (by rw [hp]; rfl)
      fun _ hy => by simp [RingPhase.Reserving] at hy
  | @deqSeen t oh hp hlt =>
    exact h.go rfl rfl rfl hlt (by rw [hp]; rfl) (by rw [hp]; rfl)
      fun _ hy => by simp [RingPhase.Reserving] at hy
  | deqReserve hp hoh => exact h.deqReserve hp hoh hb
  | @deqRetry t oh hp _ =>
    exact h.go rfl rfl rfl trivial (by rw [hp]; rfl) (by rw [hp]; rfl)
      fun _ hy => by simp [RingPhase.Reserving] at hy
  -- nor that of a single consumer
  | deqLoadTail _ hm => exact absurd hm (by rw [h.ring.mc]; decide)
  | @deqTailEmpty t _ hp _ =>
    have hok := h.phase t
    rw [hp] at hok
    exact hok.elim
  | @deqTailSeen t _ hp _ =>
    have hok := h.phase t
    rw [hp] at hok
    exact hok.elim
  | @deqRead t i out hp hd =>
    have hok := h.phase t
    rw [hp] at hok
    obtain ⟨hi, hi', x, hm, hx⟩ := hok
    obtain rfl : x = out := Option.some.inj (hx.symm.trans hd)
    rw [if_pos h.ring.mc]
    refine h.touch (by rw [hp]; rfl)
      ⟨hi, hi', hm, update_self (s.ring.slotOf i) none s.ring.data⟩
      (by rw [hp]; rfl) (by rw [hp]; rfl) fun y hy => ?_
    simp [RingPhase.Reserving] at hy
  | @deqSpin t i out hp _ =>
    have hok := h.phase t
    rw [hp] at hok
    exact h.go rfl rfl rfl hok (by rw [hp]) (by rw [hp])
      fun _ hy => by grind
  | @deqTurn t i out hp ht =>
    have hok := h.phase t
    rw [hp] at hok
    exact h.go rfl rfl rfl ⟨ht.symm, hok.2⟩ (by rw [hp]; rfl) (by rw [hp]; rfl)
      fun _ hy => by simp [RingPhase.Reserving] at hy
  | deqPublish hp => exact h.deqPublish hp hb

theorem run_inv {s' : RingSys τ T} (h₀ : Init s) (h : Run Step s es s') (hb : ops es < 2 ^ 63) :
    s'.Inv es := by
  refine h.invariant (I := fun es s => ops es < 2 ^ 63 → s.Inv es) (fun _ => .init h₀) ?_ hb
  intro es u e v ih hs hb
  have hlt := (ops_append_le es [e]).trans_lt hb
  exact (ih hlt).step hlt hs

/-! A call that returns false never touched the ring. -/

theorem Step.phase_ne {s' : RingSys τ T} (hs : Step s e s') (ht : e.thread ≠ t) :
    s'.phase t = s.phase t := by
  cases hs <;> exact update_of_ne ht.symm _ _

theorem Step.reserving {s' : RingSys τ T} {x : T} (hs : Step s e s') (ht : e.thread = t)
    (hx : (s'.phase t).Reserving x) :
    s'.ring = s.ring ∧ (e.isCall = true ∨ (s.phase t).Reserving x) := by
  cases hs <;> obtain rfl := ht <;>
    simp only [thread, go, set, update_self, RingPhase.Reserving] at hx
  case enqCall => exact ⟨rfl, .inl rfl⟩
  case enqLoadHead y hp hm =>
    obtain rfl : y = x := by simpa using hx
    exact ⟨rfl, .inr (.inl hp)⟩
  case enqRoom y oh hp hr =>
    obtain rfl : y = x := by simpa using hx
    exact ⟨rfl, .inr (.inr (.inl ⟨oh, hp⟩))⟩
  case enqRetry y oh hp hr =>
    obtain rfl : y = x := by simpa using hx
    exact ⟨rfl, .inr (.inr (.inr ⟨oh, hp⟩))⟩
  all_goals
    grind

theorem run_reserving {s' : RingSys τ T} {x : T} (h : Run Step s es s')
    (hc : ∀ e ∈ es, e.thread = t → e.isCall = false) (hx : (s'.phase t).Reserving x) :
    (s.phase t).Reserving x := by
  induction h with
  | refl => exact hx
  | @snoc es u v e _ hs ih =>
    refine ih (fun e he => hc e (List.mem_append_left _ he)) ?_
    by_cases ht : e.thread = t
    · obtain hcall | hu := (hs.reserving ht hx).2
      · grind
      · exact hu
    · rwa [hs.phase_ne ht] at hx

theorem Inv.enqFalse {w : RingSys τ T} {x : T} (h : s.Inv es) (hb : ops es < 2 ^ 63)
    (hs : Step s (.enqFalse t x) w) :
    (s.ring.cap : Int) ≤ s.ring.prodHead - s.ring.consTail ∧ w.ring = s.ring ∧
      (s.phase t).Reserving x := by
  have hok := h.phase t
  have h0 := h.ring.nonneg
  have h1 := h.ring.consTail_le
  have h2 := h.ring.consHead_le
  have h3 := h.ring.prodTail_le
  obtain ⟨F, _, hle⟩ := h.count
  cases hs with
  | enqFull hp hf =>
    rw [hp] at hok
    obtain ⟨hoh, hoh'⟩ := hok
    rw [i64_eq (by omega) (by omega)] at hf
    exact ⟨by omega, rfl, .inr (.inl ⟨_, hp⟩)⟩
  | enqTailFull hp _ =>
    rw [hp] at hok
    exact hok.elim

theorem Inv.deqNone {w : RingSys τ T} (h : s.Inv es) (hs : Step s (.deqNone t) w) :
    s.ring.prodTail ≤ s.ring.consHead ∧ w.ring = s.ring := by
  have hok := h.phase t
  cases hs with
  | deqEmpty hp hf =>
    rw [hp] at hok
    exact ⟨hf.trans hok, rfl⟩
  | deqTailEmpty hp _ =>
    rw [hp] at hok
    exact hok.elim

/-- The ring is a bounded FIFO queue: the cursors are ordered; the elements are
dequeued and enqueued in the order of their reserved indexes, and wait in their
slots in between; two threads never hold one slot; `enqueue` returns false, and
then has touched nothing, only on a full ring, and `dequeue` returns `None` only
on an empty one. -/
theorem bounded_fifo {s' : RingSys τ T} (h₀ : Init s) (h : Run Step s es s')
    (hb : ops es < 2 ^ 63) :
    (s'.ring.consTail ≤ s'.ring.consHead ∧ s'.ring.consHead ≤ s'.ring.prodTail ∧
      s'.ring.prodTail ≤ s'.ring.prodHead ∧ s'.ring.prodHead ≤ s'.ring.consTail + s'.ring.cap) ∧
    (RingEvent.dequeued es <+: RingEvent.enqueued es ∧ RingEvent.enqueued es <+: reserved es ∧
      ∀ i (hi : i < (reserved es).length), (reserved es)[i].1 = i) ∧
    (∀ i x, (i, x) ∈ reserved es → s'.ring.consHead ≤ i → i < s'.ring.prodTail →
      s'.ring.data (s'.ring.slotOf i) = some x) ∧
    (∀ t i, s'.phase t = .deqRead i → ∃ x, (i, x) ∈ reserved es ∧
      s'.ring.data (s'.ring.slotOf i) = some x) ∧
    (∀ t u i j, t ≠ u → (s'.phase t).slot = some i → (s'.phase u).slot = some j →
      s'.ring.slotOf i ≠ s'.ring.slotOf j) ∧
    (∀ t x w, Step s' (.enqFalse t x) w →
      (s'.ring.cap : Int) ≤ s'.ring.prodHead - s'.ring.consTail ∧ w.ring = s'.ring ∧
      ∀ pre e mid u u', es = pre ++ e :: mid → Run Step s pre u → Step u e u' →
        Run Step u' mid s' → e.thread = t →
        (∀ f ∈ mid, f.thread = t → f.isCall = false) → u'.ring = u.ring) ∧
    ∀ t w, Step s' (.deqNone t) w → s'.ring.prodTail ≤ s'.ring.consHead ∧ w.ring = s'.ring := by
  have hi := run_inv h₀ h hb
  have h1 := hi.ring.consTail_le
  have h2 := hi.ring.consHead_le
  refine ⟨⟨h1, h2, hi.ring.prodTail_le, hi.ring.prodHead_le⟩, ⟨?_, ?_, hi.ring.index⟩,
    hi.ring.live, ?_, fun t u i j hne => hi.slotOf_ne hne, ?_, fun t w => hi.deqNone⟩
  · rw [hi.dequeued, hi.enqueued]
    exact List.take_prefix_take_left (by omega)
  · rw [hi.enqueued]
    exact List.take_prefix _ _
  · intro t i hp
    have hok := hi.phase t
    rw [hp] at hok
    exact hok.2.2
  · intro t x w hs
    obtain ⟨hfull, hw, hx⟩ := hi.enqFalse hb hs
    refine ⟨hfull, hw, fun pre e mid u u' _ _ he hm ht hc => ?_⟩
    exact (he.reserving ht (run_reserving hm hc hx)).1

def fullRing : List (RingEvent Bool Nat) :=
  [.enqCall true 7, .access true, .access true, .enqReserve true 0 7, .access true, .access true,
    .enqTrue true 0 7, .enqCall false 8, .access false]

theorem fullRing_run : ∃ s₀ s' w : RingSys Bool Nat,
    Init s₀ ∧ Run Step s₀ fullRing s' ∧ Step s' (.enqFalse false 8) w := by
  let r₀ : Ring Nat := ⟨fun _ => none, 1, 0, true, true, 0, 0, 0, 0⟩
  let s₀ : RingSys Bool Nat := ⟨r₀, fun _ => .idle⟩
  let s₁ := s₀.go true (.enqStart 7)
  let s₂ := s₁.go true (.enqHead 7 0)
  let s₃ := s₂.go true (.enqCas 7 0)
  let s₄ := s₃.set true { r₀ with prodHead := i64 (0 + 1) } (.enqWrite 7 0)
  let s₅ := s₄.set true { s₄.ring with data := update s₄.ring.data (s₄.ring.slotOf 0) (some 7) } (.enqWait 7 0)
  let s₆ := s₅.go true (.enqPublish 7 0)
  let s₇ := s₆.set true { s₆.ring with prodTail := i64 (0 + 1) } .idle
  let s₈ := s₇.go false (.enqStart 8)
  let s₉ := s₈.go false (.enqHead 8 1)
  have h₁ : Step s₀ (.enqCall true 7) s₁ := .enqCall rfl
  have h₂ : Step s₁ (.access true) s₂ := .enqLoadHead rfl rfl
  have h₃ : Step s₂ (.access true) s₃ := .enqRoom rfl (by decide)
  have h₄ : Step s₃ (.enqReserve true 0 7) s₄ := .enqReserve rfl rfl
  have h₅ : Step s₄ (.access true) s₅ := .enqWrite rfl
  have h₆ : Step s₅ (.access true) s₆ := .enqTurn rfl rfl
  have h₇ : Step s₆ (.enqTrue true 0 7) s₇ := .enqPublish rfl
  have h₈ : Step s₇ (.enqCall false 8) s₈ := .enqCall rfl
  have h₉ : Step s₈ (.access false) s₉ := .enqLoadHead rfl rfl
  have hw : Step s₉ (.enqFalse false 8) (s₉.go false .idle) := .enqFull rfl (by decide)
  have hr := ((((((((Run.single h₁).snoc h₂).snoc h₃).snoc h₄).snoc h₅).snoc h₆).snoc h₇).snoc
    h₈).snoc h₉
  exact ⟨s₀, s₉, _, ⟨⟨31, 1, rfl⟩, fun _ => rfl⟩, hr, hw⟩

theorem bounded_fifo_fullRing : ∃ s₀ s' w : RingSys Bool Nat,
    Init s₀ ∧ Run Step s₀ fullRing s' ∧ Step s' (.enqFalse false 8) w ∧
      (s'.ring.cap : Int) ≤ s'.ring.prodHead - s'.ring.consTail ∧ w.ring = s'.ring := by
  obtain ⟨s₀, s', w, hi, hr, hw⟩ := fullRing_run
  obtain ⟨_, _, _, _, _, hf, _⟩ := bounded_fifo hi hr (by decide)
  exact ⟨s₀, s', w, hi, hr, hw, (hf false 8 w hw).1, (hf false 8 w hw).2.1⟩

end RingSys

end LsLang.Sync
