import LsLang.Regex.Compile
import Mathlib.Data.List.Basic

/-! Position independent code: what each construct of a pattern compiles to, with branch
operands relative to the instruction, and what the moves of the compiler do to it. -/

namespace LsLang.Regex

abbrev Code : Type := List (Instr Int)

/-- The address `off` away from `base`. -/
def absolute (base : Nat) (off : Int) : Nat := ((base : Int) + off).toNat

/-- The instructions of `c` with absolute operands, for `c` laid out from address `b` on. -/
def place (b : Nat) (c : Code) : List ReInstr := c.mapIdx fun i ins => ins.map (absolute (b + i))

@[simp]
theorem length_place (b : Nat) (c : Code) : (place b c).length = c.length := by simp [place]

@[simp]
theorem place_nil (b : Nat) : place b [] = [] := rfl

theorem place_append (b : Nat) (c d : Code) :
    place b (c ++ d) = place b c ++ place (b + c.length) d := by
  unfold place
  grind

theorem place_singleton (b : Nat) (ins : Instr Int) : place b [ins] = [ins.map (absolute b)] := rfl

theorem place_cons (b : Nat) (ins : Instr Int) (c : Code) :
    place b (ins :: c) = ins.map (absolute b) :: place (b + 1) c :=
  place_append b [ins] c

theorem place_get (b : Nat) (d : Code) (i : Nat) :
    (place b d)[i]? = d[i]?.map fun ins => ins.map (absolute (b + i)) := by
  simp [place]

/-- The targets of `c`, relative to its start, satisfy `P`. -/
def TargetsIn (d : Code) (P : Int → Prop) : Prop :=
  ∀ (i : Nat) (ins : Instr Int), d[i]? = some ins → ∀ off ∈ ins.targets, P (i + off)

def Inward (c : Code) : Prop := TargetsIn c fun t => 0 ≤ t

def Closed (c : Code) : Prop := TargetsIn c fun t => 0 ≤ t ∧ t ≤ c.length

theorem TargetsIn.imp {c : Code} {P Q : Int → Prop} (h : TargetsIn c P) (hPQ : ∀ t, P t → Q t) :
    TargetsIn c Q :=
  fun i ins hi off ho => hPQ _ (h i ins hi off ho)

theorem Closed.inward {c : Code} (h : Closed c) : Inward c := h.imp fun _ ht => ht.1

theorem targetsIn_nil (P : Int → Prop) : TargetsIn [] P := by
  intro i ins hi
  nomatch hi

theorem TargetsIn.append {c d : Code} {P : Int → Prop} (hc : TargetsIn c P)
    (hd : TargetsIn d fun t => P (c.length + t)) : TargetsIn (c ++ d) P := by
  intro i ins hi off ho
  by_cases hlt : i < c.length
  · rw [List.getElem?_append_left hlt] at hi
    exact hc i ins hi off ho
  · rw [List.getElem?_append_right (Nat.le_of_not_lt hlt)] at hi
    have := hd _ ins hi off ho
    grind

theorem targetsIn_singleton {ins : Instr Int} {P : Int → Prop} (h : ∀ off ∈ ins.targets, P off) :
    TargetsIn [ins] P := by
  intro i ins' hi off ho
  grind

theorem TargetsIn.cons {ins : Instr Int} {c : Code} {P : Int → Prop}
    (h : ∀ off ∈ ins.targets, P off) (hc : TargetsIn c fun t => P (1 + t)) :
    TargetsIn (ins :: c) P :=
  (targetsIn_singleton h).append hc

theorem map_place (b b' : Nat) {d : Code} {f : Nat → Nat → Nat} {P : Int → Prop}
    (hc : TargetsIn d P) (hf : ∀ i t, P t → f i (absolute b t) = absolute b' t) :
    (place b d).mapIdx (fun i ins => ins.map (f i)) = place b' d := by
  refine List.ext_getElem? fun i => ?_
  rw [List.getElem?_mapIdx, place_get, place_get]
  cases hi : d[i]? with
  | none => rfl
  | some ins =>
    simp only [Option.map_some, Instr.map_map]
    refine congrArg some (Instr.map_congr fun off ho => ?_)
    have hshift : ∀ base : Nat, absolute (base + i) off = absolute base (i + off) := by
      intro base
      unfold absolute
      congr 1
      omega
    rw [Function.comp_apply, hshift, hshift]
    exact hf i _ (hc i ins hi off ho)

/-! The code of a quantifier and of a counted repetition, from the code of the body. -/

def quantCode (q : Quantifier) (lazy : Bool) (c : Code) : Code :=
  match q with
  | .opt => branch lazy 1 (c.length + 1) :: c
  | .star => branch lazy 1 (c.length + 2) :: (c ++ [.jump (-(c.length + 1 : Int))])
  | .plus => c ++ [branch lazy (-(c.length : Int)) 1]

def times (k : Nat) (c : Code) : Code := (List.replicate k c).flatten

def countCode (n m : Int) (lazy : Bool) (c : Code) : Code :=
  if n = 0 then
    if m = 0 then []
    else if m = -1 then quantCode .star lazy c
    else quantCode .opt lazy c ++ times (m - 1).toNat (quantCode .opt lazy c)
  else c ++ times (n - 1).toNat c ++
    if m = -1 then quantCode .star lazy c else times (m - n).toNat (quantCode .opt lazy c)

theorem times_succ (k : Nat) (c : Code) : times (k + 1) c = c ++ times k c := by
  simp [times, List.replicate_succ]

theorem length_times (k : Nat) (c : Code) : (times k c).length = k * c.length := by
  simp [times]

theorem length_quantCode (q : Quantifier) (lazy : Bool) (c : Code) :
    (quantCode q lazy c).length = c.length + if q = .star then 2 else 1 := by
  cases q <;> simp [quantCode]

theorem targets_branch {α : Type} (lazy : Bool) (x y : α) {P : α → Prop} (hx : P x) (hy : P y) :
    ∀ off ∈ (branch lazy x y).targets, P off := by
  cases lazy <;> simp [branch, Instr.targets, hx, hy]

theorem Closed.append {c d : Code} (hc : Closed c) (hd : Closed d) : Closed (c ++ d) := by
  refine TargetsIn.append (hc.imp fun t ht => ⟨ht.1, ?_⟩) (hd.imp fun t ht => ⟨?_, ?_⟩)
  · grind
  · omega
  grind

theorem Closed.times {c : Code} (h : Closed c) (k : Nat) : Closed (times k c) := by
  induction k with
  | zero => exact targetsIn_nil _
  | succ k ih =>
    rw [times_succ]
    exact h.append ih

theorem Closed.quant {c : Code} (h : Closed c) (q : Quantifier) (lazy : Bool) :
    Closed (quantCode q lazy c) := by
  have hlen := length_quantCode q lazy c
  cases q with
  | opt =>
    have hlen : (quantCode .opt lazy c).length = c.length + 1 := hlen
    refine TargetsIn.cons ?_ (h.imp fun t ht => by rw [hlen]; omega)
    exact targets_branch lazy _ _ (by rw [hlen]; omega) (by rw [hlen]; omega)
  | star =>
    have hlen : (quantCode .star lazy c).length = c.length + 2 := hlen
    refine TargetsIn.cons ?_ (TargetsIn.append (h.imp fun t ht => by rw [hlen]; omega) ?_)
    · exact targets_branch lazy _ _ (by rw [hlen]; omega) (by rw [hlen]; omega)
    · refine targetsIn_singleton fun off ho => ?_
      obtain rfl : off = -(c.length + 1 : Int) := by simpa [Instr.targets] using ho
      rw [hlen]
      omega
  | plus =>
    have hlen : (quantCode .plus lazy c).length = c.length + 1 := hlen
    refine TargetsIn.append (h.imp fun t ht => by rw [hlen]; omega) (targetsIn_singleton ?_)
    exact targets_branch lazy _ _ (by rw [hlen]; omega) (by rw [hlen]; omega)

theorem Closed.count {c : Code} (h : Closed c) (n m : Int) (lazy : Bool) :
    Closed (countCode n m lazy c) := by
  unfold countCode
  split
  · split
    · exact targetsIn_nil _
    · split
      · exact h.quant _ _
      · exact (h.quant _ _).append ((h.quant _ _).times _)
  · refine (h.append (h.times _)).append ?_
    split
    · exact h.quant _ _
    · exact (h.quant _ _).times _

theorem Inward.append {c d : Code} (hc : Inward c) (hd : Inward d) : Inward (c ++ d) :=
  TargetsIn.append hc (hd.imp fun t ht => by omega)

theorem Inward.times {c : Code} (h : Inward c) (k : Nat) : Inward (times k c) := by
  induction k with
  | zero => exact targetsIn_nil _
  | succ k ih =>
    rw [times_succ]
    exact h.append ih

theorem Inward.quant {c : Code} (h : Inward c) (q : Quantifier) (lazy : Bool) :
    Inward (quantCode q lazy c) := by
  cases q with
  | opt =>
    exact TargetsIn.cons (targets_branch lazy _ _ (by omega) (by omega)) (h.imp fun t ht => by omega)
  | star =>
    refine TargetsIn.cons (targets_branch lazy _ _ (by omega) (by omega)) ?_
    refine TargetsIn.append (h.imp fun t ht => by omega) (targetsIn_singleton fun off ho => ?_)
    obtain rfl : off = -(c.length + 1 : Int) := by simpa [Instr.targets] using ho
    omega
  | plus =>
    exact TargetsIn.append h
      (targetsIn_singleton (targets_branch lazy _ _ (by omega) (by omega)))

theorem Inward.count {c : Code} (h : Inward c) (n m : Int) (lazy : Bool) :
    Inward (countCode n m lazy c) := by
  unfold countCode
  split
  · split
    · exact targetsIn_nil _
    · split
      · exact h.quant _ _
      · exact (h.quant _ _).append ((h.quant _ _).times _)
  · refine (h.append (h.times _)).append ?_
    split
    · exact h.quant _ _
    · exact (h.quant _ _).times _

/-! What the compiler's own moves do to placed code. -/

section Moves

/-- Room for the program: what is emitted fits in the allocation, and the allocation is at
most `MAX_INSTRS`. -/
def CapOk (re : ReHandle) : Prop := re.prog.length ≤ re.progCap ∧ re.progCap ≤ maxInstrs

def OnlyProg (re re' : ReHandle) : Prop :=
  re' = { re with prog := re'.prog, progCap := re'.progCap }

theorem OnlyProg.refl (re : ReHandle) : OnlyProg re re := rfl

theorem OnlyProg.trans {re₁ re₂ re₃ : ReHandle} (h : OnlyProg re₁ re₂) (k : OnlyProg re₂ re₃) :
    OnlyProg re₁ re₃ := by
  unfold OnlyProg at *
  rw [k, h]

theorem onlyProg_setInstr (re : ReHandle) (i : Nat) (ins : ReInstr) :
    OnlyProg re (setInstr re i ins) := rfl

def Behind (prog : List ReInstr) : Prop := ∀ ins ∈ prog, ∀ a ∈ ins.targets, a ≤ prog.length

theorem emit_cases (re : ReHandle) (ins : ReInstr) :
    (maxInstrs - 1 ≤ re.prog.length ∧ emit re ins = ({ re with refused := true }, none)) ∨
      (re.prog.length < maxInstrs - 1 ∧ ∃ re', emit re ins = (re', some re.prog.length) ∧
        re'.prog = re.prog ++ [ins] ∧ OnlyProg re re' ∧ (CapOk re → CapOk re')) := by
  unfold emit
  split
  · grind
  · rename_i h
    refine .inr ⟨by omega, _, rfl, rfl, rfl, fun hcap => ?_⟩
    unfold CapOk at hcap ⊢
    grind

theorem emitOrFail_ok {re re' : ReHandle} {ins : ReInstr} (h : emitOrFail re ins = .ok re') :
    re.prog.length < maxInstrs - 1 ∧ re'.prog = re.prog ++ [ins] ∧ OnlyProg re re' ∧
      (CapOk re → CapOk re') := by
  unfold emitOrFail at h
  grind [emit_cases]

theorem le_doubleCap (need fuel ncap : Nat) (h : need ≤ ncap * 2 ^ fuel) :
    need ≤ doubleCap need fuel ncap := by
  induction fuel generalizing ncap with
  | zero => simpa [doubleCap] using h
  | succ fuel ih =>
    unfold doubleCap
    grind

theorem reserveOr_ok {msg : String} {re re' : ReHandle} {extra : Nat}
    (h : reserveOr msg re extra = .ok re') : re.prog.length + extra ≤ maxInstrs ∧
      re'.prog = re.prog ∧ OnlyProg re re' ∧ re.prog.length + extra ≤ re'.progCap ∧
      (CapOk re → CapOk re') := by
  unfold reserveOr progReserve at h
  dsimp only at h
  by_cases h₁ : maxInstrs < re.prog.length + extra
  · grind
  · rw [if_neg h₁] at h
    by_cases h₂ : re.prog.length + extra ≤ re.progCap
    · rw [if_pos h₂] at h
      cases h
      exact ⟨by omega, rfl, rfl, h₂, id⟩
    · rw [if_neg h₂] at h
      cases h
      have hpos : 0 < if re.progCap ≠ 0 then re.progCap else 16 := by split <;> omega
      have hle := le_doubleCap (re.prog.length + extra) (re.prog.length + extra)
        (if re.progCap ≠ 0 then re.progCap else 16)
        (le_trans (Nat.le_of_lt Nat.lt_two_pow_self) (Nat.le_mul_of_pos_left _ hpos))
      have hmin := Nat.le_min.2 ⟨hle, Nat.le_of_not_lt h₁⟩
      exact ⟨by omega, rfl, rfl, hmin, fun _ =>
        ⟨le_trans (Nat.le_add_right _ extra) hmin, Nat.min_le_right _ _⟩⟩

theorem fixup_prefix {pre : List ReInstr} {start : Nat} (hs : pre.length ≤ start)
    (h : ∀ ins ∈ pre, ∀ a ∈ ins.targets, a ≤ start) :
    pre.mapIdx (fun i ins => if start ≤ i ∧ i < start + 1 then ins
      else ins.map (bumpAfterShift start 1 i)) = pre := by
  refine List.ext_getElem? fun i => ?_
  rw [List.getElem?_mapIdx]
  cases hi : pre[i]? with
  | none => rfl
  | some ins =>
    obtain ⟨hlt, hget⟩ := List.getElem?_eq_some_iff.1 hi
    have hmem : ins ∈ pre := hget ▸ List.getElem_mem hlt
    rw [Option.map_some, if_neg (by omega)]
    refine congrArg some (Instr.map_id' fun a ha => ?_)
    have := h ins hmem a ha
    unfold bumpAfterShift
    grind

theorem openSlot_ok {re re' : ReHandle} {pre : List ReInstr} {c : Code}
    (hprog : re.prog = pre ++ place pre.length c)
    (hpre : Behind pre) (hc : Inward c) (h : openSlot re pre.length = .ok re') :
    re'.prog = pre ++ .split 0 0 :: place (pre.length + 1) c ∧ OnlyProg re re' ∧
      (CapOk re → CapOk re') := by
  unfold openSlot at h
  split at h
  · nomatch h
  · rename_i hcap
    cases h
    refine ⟨?_, rfl, fun hok => ⟨?_, hok.2⟩⟩
    · dsimp only
      rw [hprog, List.take_left', List.drop_left'] <;> try rfl
      unfold fixupAfterShift
      rw [List.mapIdx_append, fixup_prefix (Nat.le_refl _) hpre, List.mapIdx_cons]
      congr 2
      · rw [if_pos (by omega)]
      · have hbump : ∀ (i : Nat) (t : Int), 0 ≤ t →
            bumpAfterShift pre.length 1 (i + 1 + pre.length) (absolute pre.length t) =
              absolute (pre.length + 1) t := by
          intro i t ht
          unfold bumpAfterShift absolute
          grind
        rw [← map_place _ _ hc hbump]
        grind
    · simp only [fixupAfterShift, List.length_mapIdx, List.length_append, List.length_cons]
      grind

theorem copyBody_ok {re re' : ReHandle} {src : Nat} {c : Code}
    (hsrc : (re.prog.drop src).take c.length = place src c) (hle : src ≤ re.prog.length)
    (hc : Closed c) (h : copyBody re src c.length = .ok re') :
    re'.prog = re.prog ++ place re.prog.length c ∧ OnlyProg re re' ∧ (CapOk re → CapOk re') := by
  unfold copyBody at h
  split at h
  · nomatch h
  · rename_i hcap
    cases h
    have hcopy : ((re.prog.drop src).take c.length).map (fun ins => ins.map fun pc =>
        if src ≤ pc ∧ pc ≤ src + c.length then pc + (re.prog.length - src) else pc) =
        place re.prog.length c := by
      rw [hsrc]
      have := map_place src re.prog.length
        (f := fun _ pc => if src ≤ pc ∧ pc ≤ src + c.length then pc + (re.prog.length - src) else pc)
        hc (fun i t ht => by
          unfold absolute
          grind)
      rw [← this]
      refine List.ext_getElem? fun i => ?_
      grind
    refine ⟨?_, rfl, fun hok => ⟨?_, hok.2⟩⟩
    · dsimp only
      rw [hcopy]
    grind

theorem bind_ok {α β : Type} {x : Except Stop α} {f : α → Except Stop β} {b : β}
    (h : (x >>= f) = .ok b) : ∃ a, x = .ok a ∧ f a = .ok b := by
  cases x with
  | error e => nomatch h
  | ok a => exact ⟨a, rfl, h⟩

theorem guard_ok {α : Type} {p : Prop} [Decidable p] {msg : String} {x : Except Stop α} {b : α}
    (h : (if p then (do fail msg; x) else x) = .ok b) : ¬ p ∧ x = .ok b := by
  split at h
  · nomatch h
  · exact ⟨‹_›, h⟩

@[simp]
theorem map_branch {α β : Type} (f : α → β) (lazy : Bool) (x y : α) :
    (branch lazy x y).map f = branch lazy (f x) (f y) := by
  cases lazy <;> rfl

theorem absolute_nat (b n : Nat) : absolute b n = b + n := by
  unfold absolute
  omega

theorem applyQuantifier_ok {re re' : ReHandle} {pre : List ReInstr} {c : Code} {q : Quantifier}
    {lazy : Bool} (hprog : re.prog = pre ++ place pre.length c)
    (hpre : Behind pre) (hc : Inward c)
    (h : applyQuantifier re pre.length q lazy = .ok re') :
    re'.prog = pre ++ place pre.length (quantCode q lazy c) ∧ OnlyProg re re' ∧
      (CapOk re → CapOk re') := by
  have hlen : re.prog.length = pre.length + c.length := by rw [hprog]; simp
  have h1 : absolute pre.length 1 = pre.length + 1 := absolute_nat _ 1
  cases q with
  | opt =>
    obtain ⟨_, h⟩ := guard_ok h
    obtain ⟨re₁, h₁, h⟩ := bind_ok h
    obtain ⟨re₂, h₂, h⟩ := bind_ok h
    obtain ⟨_, hp₁, ho₁, _, hc₁⟩ := reserveOr_ok h₁
    obtain ⟨hp₂, ho₂, hc₂⟩ := openSlot_ok (hp₁.trans hprog) hpre hc h₂
    cases h
    refine ⟨?_, (ho₁.trans ho₂).trans (onlyProg_setInstr ..), fun hok => ?_⟩
    · have h2 : absolute pre.length (c.length + 1) = re₂.prog.length := by
        rw [hp₂]
        simpa using absolute_nat pre.length (c.length + 1)
      rw [quantCode, place_cons, map_branch, h1, h2]
      simp [setInstr, hp₂]
    · have := hc₂ (hc₁ hok)
      simpa [CapOk, setInstr] using this
  | star =>
    obtain ⟨re₁, h₁, h⟩ := bind_ok h
    obtain ⟨re₂, h₂, h⟩ := bind_ok h
    obtain ⟨re₃, h₃, h⟩ := bind_ok h
    obtain ⟨_, hp₁, ho₁, _, hc₁⟩ := reserveOr_ok h₁
    obtain ⟨hp₂, ho₂, hc₂⟩ := openSlot_ok (hp₁.trans hprog) hpre hc h₂
    obtain ⟨_, hp₃, ho₃, hc₃⟩ := emitOrFail_ok h₃
    cases h
    refine ⟨?_, ((ho₁.trans ho₂).trans ho₃).trans (onlyProg_setInstr ..), fun hok => ?_⟩
    · have h2 : absolute pre.length (c.length + 2) = re₃.prog.length := by
        rw [hp₃, hp₂]
        simpa using absolute_nat pre.length (c.length + 2)
      have h3 : absolute (pre.length + 1 + c.length) (-(c.length + 1 : Int)) = pre.length := by
        unfold absolute
        omega
      rw [quantCode, place_cons, place_append, place_singleton, map_branch, h1, h2]
      have hj : Instr.map (absolute (pre.length + 1 + c.length)) (.jump (-(c.length + 1 : Int))) =
          .jump pre.length := congrArg Instr.jump h3
      simp only [setInstr, hj]
      grind
    · have := hc₃ (hc₂ (hc₁ hok))
      simpa [CapOk, setInstr] using this
  | plus =>
    obtain ⟨re₁, h₁, h⟩ := bind_ok h
    obtain ⟨_, hp₁, ho₁, hc₁⟩ := emitOrFail_ok h₁
    cases h
    refine ⟨?_, ho₁.trans (onlyProg_setInstr ..), fun hok => ?_⟩
    · have h2 : absolute (pre.length + c.length) 1 = re₁.prog.length := by
        rw [hp₁, List.length_append, hlen]
        exact absolute_nat _ 1
      have h3 : absolute (pre.length + c.length) (-(c.length : Int)) = pre.length := by
        unfold absolute
        omega
      rw [quantCode, place_append, place_singleton, map_branch, h2, h3]
      simp only [setInstr]
      grind
    · have := hc₁ hok
      simpa [CapOk, setInstr] using this

theorem behind_place {pre : List ReInstr} {c : Code} (hpre : Behind pre) (hc : Closed c) :
    Behind (pre ++ place pre.length c) := by
  intro ins hins a ha
  rw [List.length_append, length_place]
  rcases List.mem_append.1 hins with hins | hins
  · exact Nat.le_add_right_of_le (hpre ins hins a ha)
  · obtain ⟨i, hi⟩ := List.getElem?_of_mem hins
    rw [place_get] at hi
    obtain ⟨rel, hrel, rfl⟩ := Option.map_eq_some_iff.1 hi
    rw [Instr.targets_map] at ha
    obtain ⟨off, ho, rfl⟩ := List.mem_map.1 ha
    have := hc i rel hrel off ho
    unfold absolute
    omega

def BodyAt (prog : List ReInstr) (src : Nat) (c : Code) : Prop :=
  src + c.length ≤ prog.length ∧ (prog.drop src).take c.length = place src c

theorem BodyAt.append {prog : List ReInstr} {src : Nat} {c : Code} (h : BodyAt prog src c)
    (more : List ReInstr) : BodyAt (prog ++ more) src c := by
  refine ⟨by rw [List.length_append]; exact Nat.le_add_right_of_le h.1, ?_⟩
  have := h.1
  rw [List.drop_append_of_le_length (by omega), List.take_append_of_le_length, h.2]
  grind

theorem bodyAt_place (pre : List ReInstr) (c : Code) (post : List ReInstr) :
    BodyAt (pre ++ place pre.length c ++ post) pre.length c := by
  refine ⟨by simp, ?_⟩
  rw [List.append_assoc, List.drop_left' rfl, List.take_left' (by simp)]

def NotFull (prog : List ReInstr) : Prop := prog.length ≤ maxInstrs - 2

theorem mandatoryCopies_ok {src : Nat} {c : Code} {k : Nat} {re re' : ReHandle}
    (hc : NotFull re.prog → Closed c) (hb : BodyAt re.prog src c)
    (h : mandatoryCopies src c.length k re = .ok re') :
    re'.prog = re.prog ++ place re.prog.length (times k c) ∧ OnlyProg re re' ∧
      (CapOk re → CapOk re') := by
  induction k generalizing re with
  | zero =>
    cases h
    exact ⟨by simp [times], .refl _, id⟩
  | succ k ih =>
    obtain ⟨hroom, h⟩ := guard_ok h
    have hc := hc (by unfold NotFull; omega)
    obtain ⟨re₁, h₁, h⟩ := bind_ok h
    obtain ⟨re₂, h₂, h⟩ := bind_ok h
    obtain ⟨_, hp₁, ho₁, _, hc₁⟩ := reserveOr_ok h₁
    rw [← hp₁] at hb ⊢
    obtain ⟨hp₂, ho₂, hc₂⟩ := copyBody_ok hb.2 (by have := hb.1; omega) hc h₂
    obtain ⟨hp₃, ho₃, hc₃⟩ := ih (fun _ => hc) (by rw [hp₂]; exact hb.append _) h
    refine ⟨?_, (ho₁.trans ho₂).trans ho₃, fun hok => hc₃ (hc₂ (hc₁ hok))⟩
    rw [hp₃, hp₂, times_succ, place_append]
    simp

theorem optionalCopies_ok {src : Nat} {c : Code} {lazy : Bool} {k : Nat} {re re' : ReHandle}
    (hc : NotFull re.prog → Closed c ∧ Behind re.prog) (hb : BodyAt re.prog src c)
    (h : optionalCopies src c.length lazy k re = .ok re') :
    re'.prog = re.prog ++ place re.prog.length (times k (quantCode .opt lazy c)) ∧
      OnlyProg re re' ∧ (CapOk re → CapOk re') := by
  induction k generalizing re with
  | zero =>
    cases h
    exact ⟨by simp [times], .refl _, id⟩
  | succ k ih =>
    obtain ⟨hroom, h⟩ := guard_ok h
    obtain ⟨hc, hbehind⟩ := hc (by unfold NotFull; omega)
    obtain ⟨re₁, h₁, h⟩ := bind_ok h
    obtain ⟨re₂, h₂, h⟩ := bind_ok h
    obtain ⟨re₃, h₃, h⟩ := bind_ok h
    obtain ⟨_, hp₁, ho₁, _, hc₁⟩ := reserveOr_ok h₁
    rw [← hp₁] at hb hbehind ⊢
    obtain ⟨hp₂, ho₂, hc₂⟩ := copyBody_ok hb.2 (by have := hb.1; omega) hc h₂
    obtain ⟨hp₃, ho₃, hc₃⟩ := applyQuantifier_ok hp₂ hbehind hc.inward h₃
    have hbehind₃ := behind_place hbehind (hc.quant .opt lazy)
    rw [← hp₃] at hbehind₃
    obtain ⟨hp₄, ho₄, hc₄⟩ := ih (fun _ => ⟨hc, hbehind₃⟩) (by rw [hp₃]; exact hb.append _) h
    refine ⟨?_, ((ho₁.trans ho₂).trans ho₃).trans ho₄, fun hok => hc₄ (hc₃ (hc₂ (hc₁ hok)))⟩
    rw [hp₄, hp₃, times_succ, place_append]
    simp

theorem applyCount_ok {re re' : ReHandle} {pre : List ReInstr} {c : Code} {n m : Int}
    {lazy : Bool} (hprog : re.prog = pre ++ place pre.length c) (hpre : Behind pre)
    (hin : Inward c) (hc : NotFull re.prog → Closed c)
    (h : applyCount re pre.length re.prog.length n m lazy = .ok re') :
    re'.prog = pre ++ place pre.length (countCode n m lazy c) ∧ OnlyProg re re' ∧
      (CapOk re → CapOk re') := by
  have hlen : re.prog.length - pre.length = c.length := by
    rw [hprog, List.length_append, length_place]
    omega
  unfold applyCount at h
  unfold countCode
  dsimp only at h
  rw [hlen] at h
  -- `n` is 0: no copy has to be there
  split at h
  · rename_i hn
    rw [if_pos hn]
    split at h
    · rename_i hm
      rw [if_pos hm]
      cases h
      refine ⟨?_, rfl, fun hok => ⟨?_, hok.2⟩⟩
      · dsimp only
        rw [hprog, List.take_left' rfl]
        simp
      · exact le_trans (List.length_take_le' _ _) hok.1
    · rename_i hm
      rw [if_neg hm]
      split at h
      · rename_i hm₁
        rw [if_pos hm₁]
        exact applyQuantifier_ok hprog hpre hin h
      · rename_i hm₁
        rw [if_neg hm₁]
        obtain ⟨re₁, h₁, h⟩ := bind_ok h
        obtain ⟨hp₁, ho₁, hc₁⟩ := applyQuantifier_ok hprog hpre hin h₁
        have hfull : NotFull re₁.prog → Closed c ∧ Behind re₁.prog := by
          intro hnf
          have hcl : Closed c := hc (by
            unfold NotFull at hnf ⊢
            grind [List.length_append, length_place, length_quantCode])
          refine ⟨hcl, ?_⟩
          rw [hp₁]
          exact behind_place hpre (hcl.quant .opt lazy)
        have hbody : BodyAt re₁.prog (pre.length + 1) c := by
          rw [hp₁, quantCode, place_cons]
          have := bodyAt_place (pre ++ [(branch lazy 1 (c.length + 1 : Int)).map
            (absolute pre.length)]) c []
          simpa using this
        obtain ⟨hp₂, ho₂, hc₂⟩ := optionalCopies_ok hfull hbody h
        refine ⟨?_, ho₁.trans ho₂, hc₂ ∘ hc₁⟩
        rw [hp₂, hp₁, place_append]
        simp
  · rename_i hn
    rw [if_neg hn]
    -- the copies that have to be there come first
    obtain ⟨re₁, h₁, h⟩ := bind_ok h
    have hbody : BodyAt re.prog pre.length c := by
      have := bodyAt_place pre c []
      grind
    obtain ⟨hp₁, ho₁, hc₁⟩ := mandatoryCopies_ok hc hbody h₁
    have hp₁' : re₁.prog = pre ++ place pre.length (c ++ times (n - 1).toNat c) := by
      rw [hp₁, place_append, hprog]
      simp
    have hshort : NotFull re₁.prog → Closed c := fun hnf => hc (by
      unfold NotFull at hnf ⊢
      grind)
    have hbehind : Closed c → Behind re₁.prog := by
      intro hcl
      rw [hp₁']
      exact behind_place hpre (hcl.append (hcl.times _))
    have hbody₁ : BodyAt re₁.prog pre.length c := by
      rw [hp₁]
      exact hbody.append _
    split at h
    · rename_i hm
      rw [if_pos hm]
      -- then one more in a loop, or optional ones
      obtain ⟨re₂, h₂, h⟩ := bind_ok h
      obtain ⟨re₃, h₃, h⟩ := bind_ok h
      obtain ⟨hroom, hp₂, ho₂, _, hc₂⟩ := reserveOr_ok h₂
      have hcl : Closed c := hshort (by unfold NotFull; omega)
      rw [← hp₂] at hbody₁
      obtain ⟨hp₃, ho₃, hc₃⟩ := copyBody_ok hbody₁.2 (by have := hbody₁.1; omega) hcl h₃
      have hb₂ : Behind re₂.prog := by grind
      obtain ⟨hp₄, ho₄, hc₄⟩ := applyQuantifier_ok hp₃ hb₂ hcl.inward h
      refine ⟨?_, ((ho₁.trans ho₂).trans ho₃).trans ho₄, fun hok => hc₄ (hc₃ (hc₂ (hc₁ hok)))⟩
      rw [hp₄, hp₂, hp₁', place_append _ (c ++ times _ c)]
      simp
    · rename_i hm
      rw [if_neg hm]
      obtain ⟨hp₂, ho₂, hc₂⟩ := optionalCopies_ok
        (fun hnf => ⟨hshort hnf, hbehind (hshort hnf)⟩) hbody₁ h
      refine ⟨?_, ho₁.trans ho₂, hc₂ ∘ hc₁⟩
      rw [hp₂, hp₁', place_append _ (c ++ times _ c)]
      simp

end Moves

end LsLang.Regex
