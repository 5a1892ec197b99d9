import LsLang.Comptime.RunTime

/-! Statements: the evaluator of constants returns the value of a watched run. -/

namespace LsLang.Comptime
open LsLang.Core LsLang.Lib LsLang.Types
variable {cs : Consts}

section names
variable {watch : Bool}

theorem inScope_names {run : Nat → Locals → Option Flow}
    (hr : ∀ n σ σ', run n σ = some (.normal σ') → σ.map Prod.fst <:+ σ'.map Prod.fst)
    {σ σ' : Locals} (h : inScope watch cs run σ = some (.normal σ')) :
    σ'.map Prod.fst = σ.map Prod.fst := by
  unfold inScope at h
  obtain ⟨g, hg, h⟩ := Option.bind_eq_some_iff.mp h
  cases g with
  | normal σ₁ =>
    simp only [Flow.andThen] at h
    split_ifs at h
    cases h
    exact keys_unwind (hr _ _ _ hg)
  | returned v => cases h

theorem rtRounds_names {body : Locals → Option Flow}
    (hb : ∀ σ σ', body σ = some (.normal σ') → σ'.map Prod.fst = σ.map Prod.fst)
    {n : Str} {hi : Int} {k : Nat} {i : Value} {σ σ' : Locals}
    (h : rtRounds watch cs body n hi k i σ = some (.normal σ')) :
    σ'.map Prod.fst = σ.map Prod.fst := by
  induction k generalizing i σ with
  | zero => cases h
  | succ k ih =>
    rw [rtRounds] at h
    split_ifs at h with hlt
    · obtain ⟨g, hg, h⟩ := Option.bind_eq_some_iff.mp h
      cases g with
      | returned v => cases h
      | normal σ₁ =>
        cases σ₁ with
        | nil => cases h
        | cons b σ₁ =>
          simp only [Flow.andThen] at h
          grind
    · cases h
      rfl

mutual

theorem rtStmt_names {k : Nat} (s : Stmt) (base : Nat) (σ σ' : Locals)
    (h : rtStmt watch cs k s base σ = some (.normal σ')) :
    σ.map Prod.fst <:+ σ'.map Prod.fst := by
  cases s with
  | varDecl ty n init =>
    simp only [rtStmt, Option.bind_eq_bind, Option.bind_eq_some_iff] at h
    obtain ⟨a, -, v, -, h⟩ := h
    split_ifs at h
    obtain ⟨σ₁, hσ, h⟩ := Option.map_eq_some_iff.mp h
    unfold declare at hσ
    grind
  | assign op n e =>
    simp only [rtStmt, Option.bind_eq_bind, Option.bind_eq_some_iff] at h
    grind [keys_rebind]
  | ifStmt c t e =>
    simp only [rtStmt, Option.bind_eq_bind, Option.bind_eq_some_iff] at h
    obtain ⟨a, -, h⟩ := h
    split_ifs at h
    · rw [inScope_names (rtBlock_names t) h]
    · rw [inScope_names (rtBlock_names e) h]
  | forStmt n lo hi b =>
    simp only [rtStmt, Option.bind_eq_bind, Option.bind_eq_some_iff] at h
    obtain ⟨l, -, u, -, i, -, j, -, σ₁, -, h⟩ := h
    rw [rtRounds_names (fun σ σ' => inScope_names (rtBlock_names b)) h]
  | block b =>
    rw [rtStmt] at h
    rw [inScope_names (rtBlock_names b) h]
  | exprStmt e =>
    simp only [rtStmt, Option.bind_eq_bind, Option.bind_eq_some_iff] at h
    grind
  | ret e =>
    simp only [rtStmt, Option.bind_eq_bind, Option.bind_eq_some_iff] at h
    grind

theorem rtBlock_names {k : Nat} (b : Block) (base : Nat) (σ σ' : Locals)
    (h : rtBlock watch cs k b base σ = some (.normal σ')) :
    σ.map Prod.fst <:+ σ'.map Prod.fst := by
  cases b with
  | nil =>
    rw [rtBlock] at h
    grind
  | cons s rest =>
    simp only [rtBlock, Option.bind_eq_bind, Option.bind_eq_some_iff] at h
    obtain ⟨g, hg, h⟩ := h
    cases g with
    | normal σ₁ => exact (rtStmt_names s base σ σ₁ hg).trans (rtBlock_names rest base σ₁ σ' h)
    | returned v => cases h

end

end names

theorem Env.get_set (env : Env) (n m : Str) (v : LongLong) :
    (env.set n v).get m = if m = n then some v else env.get m := by
  unfold Env.set
  split_ifs with h hm hm
  · exact (lookup_rebind h).trans (if_pos (beq_iff_eq.mpr hm))
  · exact (lookup_rebind h).trans (if_neg (mt beq_iff_eq.mp hm))
  · exact lookup_cons_eq hm
  · exact lookup_cons_ne hm

theorem CtEval.tick_env {ev ev' : CtEval} (h : ev.tick = some ev') : ev'.env = ev.env := by
  unfold CtEval.tick at h
  grind

section agrees
variable {σ σ' : Locals} {env : Env}

theorem Agrees.ends (ended : Locals) (h : Agrees cs (ended ++ σ) env) (hc : namesConst cs ended = false) :
    Agrees cs σ env where
  distinct := h.distinct.sublist ((List.sublist_append_right ended σ).map Prod.fst)
  values n v hv := h.values n v (List.mem_append_right ended hv)
  consts n hn hout := by
    apply h.consts n hn
    rw [List.map_append, List.mem_append, not_or]
    refine ⟨fun hmem => ?_, hout⟩
    obtain ⟨b, hb, rfl⟩ := List.mem_map.mp hmem
    have hany := List.any_eq_false.mp hc b hb
    exact hany hn

theorem Agrees.declare (h : Agrees cs σ env) {n : Str} {v : Value}
    (hd : declare true n v σ = some σ') : Agrees cs σ' (env.set n v.ctI) := by
  unfold Comptime.declare at hd
  split_ifs at hd with hn
  cases hd
  have hmem : n ∉ σ.map Prod.fst := by
    rw [← lookup_isSome_iff_mem]
    exact fun hs => hn ⟨rfl, hs⟩
  refine ⟨?_, ?_, ?_⟩
  · rw [List.map_cons, List.nodup_cons]
    exact ⟨hmem, h.distinct⟩
  · intro m w hm
    rw [Env.get_set]
    rcases List.mem_cons.mp hm with he | hw
    · grind
    · have : m ≠ n := by grind
      rw [if_neg this]
      exact h.values m w hw
  · intro m hm hout
    rw [List.map_cons, List.mem_cons, not_or] at hout
    rw [Env.get_set, if_neg hout.1]
    exact h.consts m hm hout.2

theorem Agrees.rebind (h : Agrees cs σ env) {n : Str} {cur v : Value}
    (hn : σ.lookup n = some cur) : Agrees cs (rebind n v σ) (env.set n v.ctI) := by
  have hin : n ∈ σ.map Prod.fst := by
    rw [← lookup_isSome_iff_mem, hn]
    rfl
  refine ⟨?_, ?_, ?_⟩
  · rw [keys_rebind]
    exact h.distinct
  · intro m w hm
    rw [Env.get_set]
    rcases mem_rebind h.distinct hm with ⟨rfl, rfl⟩ | ⟨hne, hm⟩
    · exact if_pos rfl
    · rw [if_neg hne]
      exact h.values m w hm
  · intro m hm hout
    rw [keys_rebind] at hout
    have hne : m ≠ n := by
      rintro rfl
      exact hout hin
    rw [Env.get_set, if_neg hne]
    exact h.consts m hm hout

end agrees

def FlowAgrees (cs : Consts) (f : Flow) (g : CtFlow) : Prop :=
  match f, g with
  | .normal σ, .normal ev => Agrees cs σ ev.env
  | .returned v, .returned r => r = v.ctI
  | _, _ => False

theorem FlowAgrees.andThen {f f' : Flow} {g g' : CtFlow} {k : Locals → Option Flow}
    {l : CtEval → Option CtFlow} (h : FlowAgrees cs f g)
    (hk : ∀ σ ev, f = .normal σ → Agrees cs σ ev.env → k σ = some f' → l ev = some g' →
      FlowAgrees cs f' g')
    (hf : f.andThen k = some f') (hg : g.andThen l = some g') : FlowAgrees cs f' g' := by
  cases f with
  | normal σ =>
    cases g with
    | normal ev => exact hk σ ev rfl h hf hg
    | returned r => exact h.elim
  | returned v =>
    cases g with
    | normal ev => exact h.elim
    | returned r =>
      cases hf
      cases hg
      exact h

theorem rtAssigned_follow {env : Env} {op : AssignOp} {n : Str} {cur rhs v : Value} {r : LongLong}
    (hv : rtAssigned true op cur rhs = some v) (hcur : env.get n = some cur.ctI)
    (hr : ctAssigned env op n rhs.ctI = some r) : r = v.ctI := by
  unfold rtAssigned at hv
  obtain ⟨a, ha, hv⟩ := Option.bind_eq_some_iff.mp hv
  unfold ctAssigned at hr
  grind [rtBinary_follow, convert_ctI]

theorem initial_ctI {ty : Option IntTy} {a v : Value} (h : initial true ty a = some v) :
    v.ctI = a.ctI := by
  cases ty with
  | none =>
    cases h
    rfl
  | some t => exact (convert_ctI h).1

theorem bound_follow {a v : Value} (h : bound true a = some v) :
    a.ctI.toInt = v.val ∧ v.ty = .int := by
  unfold bound at h
  split_ifs at h
  have ht := narrow_ty h
  refine ⟨?_, ht⟩
  rw [← (int_fits ht).toInt_ofInt (by decide)]
  exact congrArg BitVec.toInt (narrow_ctI h).symm

theorem inScope_follow {run : Nat → Locals → Option Flow} {body : CtEval → Option CtFlow}
    (hb : ∀ n σ ev f g, Agrees cs σ ev.env → run n σ = some f → body ev = some g →
      FlowAgrees cs f g)
    {σ : Locals} {ev : CtEval} {f : Flow} {g : CtFlow} (h : Agrees cs σ ev.env)
    (hf : inScope true cs run σ = some f) (hg : body ev = some g) : FlowAgrees cs f g := by
  unfold inScope at hf
  obtain ⟨f', hf', hf⟩ := Option.bind_eq_some_iff.mp hf
  have := hb _ σ ev f' g h hf' hg
  cases f' with
  | normal σ' =>
    simp only [Flow.andThen] at hf
    split_ifs at hf with hends
    cases hf
    cases g with
    | normal ev' =>
      have hsplit : σ'.take (σ'.length - σ.length) ++ unwind σ.length σ' = σ' := List.take_append_drop ..
      rw [← hsplit] at this
      exact this.ends _ (by simpa using hends)
    | returned r => exact this
  | returned v =>
    cases hf
    exact this

theorem rounds_follow {body : Locals → Option Flow} {cbody : CtEval → Option CtFlow}
    (hnames : ∀ σ σ', body σ = some (.normal σ') → σ'.map Prod.fst = σ.map Prod.fst)
    (hb : ∀ σ ev f g, Agrees cs σ ev.env → body σ = some f → cbody ev = some g →
      FlowAgrees cs f g)
    {n : Str} {hi : Int} (hhi : hi ≤ 2147483647) {k : Nat} {i : Value} {σ : Locals} {ev : CtEval}
    {f : Flow} {g : CtFlow} (hi' : i.ty = .int) (h : Agrees cs σ ev.env)
    (hn : n ∉ σ.map Prod.fst)
    (hf : rtRounds true cs body n hi k i σ = some f)
    (hg : ctRounds cbody n (hi - i.val).toNat i.val ev = some g) : FlowAgrees cs f g := by
  induction k generalizing i σ ev with
  | zero => cases hf
  | succ k ih =>
    rw [rtRounds] at hf
    split_ifs at hf with hlt
    · obtain ⟨m, hm⟩ : ∃ m, (hi - i.val).toNat = m + 1 := ⟨(hi - i.val).toNat - 1, by omega⟩
      rw [hm] at hg
      simp only [ctRounds, Option.bind_eq_bind, Option.bind_eq_some_iff] at hg
      obtain ⟨ev₁, hev, g₁, hg₁, hg⟩ := hg
      simp only [Option.bind_eq_bind, Option.bind_eq_some_iff] at hf
      obtain ⟨f₁, hf₁, hf⟩ := hf
      have hdecl : declare true n i σ = some ((n, i) :: σ) := by
        unfold declare
        grind
      have hev' : Agrees cs ((n, i) :: σ) (ev₁.set n i.ctI).env := by
        rw [← CtEval.tick_env hev] at h
        exact h.declare hdecl
      have h₁ := hb _ _ f₁ g₁ hev' hf₁ hg₁
      refine h₁.andThen (fun σ₁ ev₂ he ha hk hl => ?_) hf hg
      subst he
      cases σ₁ with
      | nil => cases hk
      | cons b σ₁ =>
        dsimp only at hk
        split_ifs at hk with hw
        simp only [true_and, not_or, not_not, Bool.not_eq_true] at hw
        obtain ⟨hval, hends⟩ := hw
        have hnm := hnames _ _ hf₁
        rw [List.map_cons, List.map_cons] at hnm
        -- the counter is still the one that the evaluator keeps
        have hnext : (Value.wrap .int (b.2.val + 1)).val = i.val + 1 := by
          have hr : IntTy.int.1.InRange (i.val + 1) := by
            have := i.inRange
            rw [hi'] at this
            unfold Scalar.InRange at this ⊢
            simp [Scalar.isSigned, Scalar.width, Scalar.intBits] at this ⊢
            omega
          rw [hval]
          exact wrap_of_inRange hr
        refine ih rfl (ha.ends [b] hends) ?_ hk ?_
        · grind
        grind
    · rw [show (hi - i.val).toNat = 0 by omega] at hg
      cases hf
      cases hg
      exact h

mutual

theorem rtStmt_follow {k : Nat} (s : Stmt) (base : Nat) (σ : Locals) (ev : CtEval) (f : Flow)
    (g : CtFlow) (h : Agrees cs σ ev.env) (hf : rtStmt true cs k s base σ = some f)
    (hg : ctExecStmt cs s ev = some g) : FlowAgrees cs f g := by
  cases s with
  | varDecl ty n init =>
    simp only [rtStmt, Option.bind_eq_bind, Option.bind_eq_some_iff] at hf
    simp only [ctExecStmt, Option.bind_eq_bind, Option.bind_eq_some_iff] at hg
    obtain ⟨ev₁, hev, r, hr, hg⟩ := hg
    rw [← CtEval.tick_env hev] at h
    obtain ⟨a, ha, v, hv, hf⟩ := hf
    split_ifs at hf
    obtain ⟨σ', hσ, hf⟩ := Option.map_eq_some_iff.mp hf
    cases hf
    cases hg
    have := h.declare hσ
    rwa [initial_ctI hv, ← rtEval_follow h ha hr] at this
  | assign op n e =>
    simp only [rtStmt, Option.bind_eq_bind, Option.bind_eq_some_iff] at hf
    simp only [ctExecStmt, Option.bind_eq_bind, Option.bind_eq_some_iff] at hg
    obtain ⟨ev₁, hev, r, hr, r', hr', hg⟩ := hg
    rw [← CtEval.tick_env hev] at h
    obtain ⟨cur, hc, a, ha, v, hv, hf⟩ := hf
    cases hf
    cases hg
    rw [rtEval_follow h ha hr] at hr'
    rw [rtAssigned_follow hv (h.values n cur (mem_of_lookup hc)) hr']
    exact h.rebind hc
  | ifStmt c t e =>
    simp only [rtStmt, Option.bind_eq_bind, Option.bind_eq_some_iff] at hf
    simp only [ctExecStmt, Option.bind_eq_bind, Option.bind_eq_some_iff] at hg
    obtain ⟨ev₁, hev, r, hr, hg⟩ := hg
    rw [← CtEval.tick_env hev] at h
    obtain ⟨a, ha, hf⟩ := hf
    rw [rtEval_follow h ha hr] at hg
    split_ifs at hf with hty hval
    · rw [if_pos ((bool_cond (not_not.mp hty)).mpr hval)] at hg
      exact inScope_follow (rtBlock_follow t) h hf hg
    · rw [if_neg (mt (bool_cond (not_not.mp hty)).mp hval)] at hg
      exact inScope_follow (rtBlock_follow e) h hf hg
  | forStmt n lo hi b =>
    simp only [rtStmt, Option.bind_eq_bind, Option.bind_eq_some_iff] at hf
    simp only [ctExecStmt, Option.bind_eq_bind, Option.bind_eq_some_iff] at hg
    obtain ⟨ev₁, hev, r, hr, r', hr', hg⟩ := hg
    rw [← CtEval.tick_env hev] at h
    obtain ⟨l, hl, u, hu, i, hi, j, hj, σ₁, hσ, hf⟩ := hf
    obtain ⟨hi₁, hi₂⟩ := bound_follow hi
    obtain ⟨hj₁, hj₂⟩ := bound_follow hj
    rw [rtEval_follow h hl hr, rtEval_follow h hu hr', hi₁, hj₁] at hg
    unfold declare at hσ
    split_ifs at hσ with hd
    -- the loop variable is a new name, so its rounds change no other variable
    have hout : n ∉ σ.map Prod.fst := fun hmem => hd ⟨rfl, lookup_isSome_iff_mem.mpr hmem⟩
    have hj₃ : j.val ≤ 2147483647 := by
      have := j.inRange
      rw [hj₂] at this
      unfold Scalar.InRange at this
      simp [Scalar.isSigned, Scalar.width, Scalar.intBits] at this
      omega
    exact rounds_follow (fun σ σ' => inScope_names (rtBlock_names b))
      (fun σ ev f g => inScope_follow (rtBlock_follow b)) hj₃ hi₂ h
      hout hf hg
  | block b =>
    rw [rtStmt] at hf
    simp only [ctExecStmt, Option.bind_eq_bind, Option.bind_eq_some_iff] at hg
    obtain ⟨ev₁, hev, hg⟩ := hg
    rw [← CtEval.tick_env hev] at h
    exact inScope_follow (rtBlock_follow b) h hf hg
  | exprStmt e =>
    simp only [rtStmt, Option.bind_eq_bind, Option.bind_eq_some_iff] at hf
    simp only [ctExecStmt, Option.bind_eq_bind, Option.bind_eq_some_iff] at hg
    obtain ⟨ev₁, hev, r, hr, hg⟩ := hg
    rw [← CtEval.tick_env hev] at h
    obtain ⟨a, ha, hf⟩ := hf
    cases hf
    cases hg
    exact h
  | ret e =>
    simp only [rtStmt, Option.bind_eq_bind, Option.bind_eq_some_iff] at hf
    simp only [ctExecStmt, Option.bind_eq_bind, Option.bind_eq_some_iff] at hg
    obtain ⟨ev₁, hev, r, hr, hg⟩ := hg
    rw [← CtEval.tick_env hev] at h
    obtain ⟨a, ha, hf⟩ := hf
    cases hf
    cases hg
    exact rtEval_follow h ha hr

theorem rtBlock_follow {k : Nat} (b : Block) (base : Nat) (σ : Locals) (ev : CtEval) (f : Flow)
    (g : CtFlow) (h : Agrees cs σ ev.env) (hf : rtBlock true cs k b base σ = some f)
    (hg : ctExecBlock cs b ev = some g) : FlowAgrees cs f g := by
  cases b with
  | nil =>
    rw [rtBlock] at hf
    rw [ctExecBlock] at hg
    cases hf
    cases hg
    exact h
  | cons s rest =>
    simp only [rtBlock, Option.bind_eq_bind, Option.bind_eq_some_iff] at hf
    simp only [ctExecBlock, Option.bind_eq_bind, Option.bind_eq_some_iff] at hg
    obtain ⟨f₁, hf₁, hf⟩ := hf
    obtain ⟨g₁, hg₁, hg⟩ := hg
    have h₁ := rtStmt_follow s base σ ev f₁ g₁ h hf₁ hg₁
    refine h₁.andThen (fun σ₁ ev₁ _ ha hk hl => ?_) hf hg
    exact rtBlock_follow rest base σ₁ ev₁ f g ha hk hl

end

end LsLang.Comptime
