import LsLang.Lsm.LiveRanges

/-! What `validate` accepts: the well-formed models, but for the dimensions that it does not look at. -/

namespace LsLang.Lsm

open LsLang.Core

/-! ### Well-formed models -/

/-- The names that a declaration introduces, in the order of the source: those of outputs are introduced elsewhere. -/
def Decl.introduces (d : Decl) : List Str :=
  match d.kind with
  | .group => d.members ++ [d.name]
  | .input | .param => [d.name]
  | .output => []

def LsModel.declared (m : LsModel) : List Str := m.decls.flatMap Decl.introduces

def LsModel.introduced (m : LsModel) : List Str := m.declared ++ m.ops.map (·.dst)

/-- A dynamic dimension is the first one. -/
def BatchOnly (dims : List ℤ) : Prop := ∀ (i : ℕ) (d : ℤ), dims[i]? = some d → d < 0 → i = 0

/-- All that is asked of a model but the dimensions of its outputs and groups. -/
structure Checked (m : LsModel) : Prop where
  once : m.introduced.Nodup
  known : ∀ o ∈ m.ops, isKnownOp o.kind = true
  inputs : ∀ before o after, m.ops = before ++ o :: after →
    ∀ name ∈ o.ins, name ∈ m.declared ∨ ∃ p ∈ before, p.dst = name
  outputs : ∀ d ∈ m.decls, d.kind = .output → d.name ∈ m.introduced
  decl_dims : ∀ d ∈ m.decls, d.kind = .input ∨ d.kind = .param → BatchOnly d.dims
  op_dims : ∀ o ∈ m.ops, BatchOnly o.dims

/-- The dimensions of the outputs and groups are also in order. -/
structure WellFormed (m : LsModel) : Prop extends Checked m where
  rest_dims : ∀ d ∈ m.decls, d.kind = .output ∨ d.kind = .group → BatchOnly d.dims

/-! ### The checks -/

theorem checkDims_ok_iff {dims : List ℤ} {i : ℕ} :
    checkDims dims i = .ok () ↔ ∀ (k : ℕ) (d : ℤ), dims[k]? = some d → d < 0 → k + i = 0 := by
  induction dims generalizing i with
  | nil => exact ⟨fun _ k d h => (nomatch h), fun _ => rfl⟩
  | cons d dims ih =>
    unfold checkDims
    split
    · next hbad =>
      refine ⟨fun h => (nomatch h), fun h => ?_⟩
      have hzero := h 0 d rfl hbad.1
      grind
    · next hgood =>
      rw [ih]
      constructor
      · grind
      · intro h k e hk he
        exact absurd (h (k + 1) e hk he) (by omega)

theorem batchOnly_iff (dims : List ℤ) : checkDims dims 0 = .ok () ↔ BatchOnly dims := checkDims_ok_iff

theorem define_ok_iff {defined defined' : List Str} {name : Str} :
    define defined name = .ok defined' ↔ name ∉ defined ∧ defined' = defined ++ [name] := by
  refine ⟨define_ok, ?_⟩
  rintro ⟨hnew, rfl⟩
  exact if_neg fun hin => hnew ((nameIn_iff _ _).1 hin)

theorem nodup_concat {defined : List Str} {name : Str} (h : defined.Nodup) :
    (defined ++ [name]).Nodup ↔ name ∉ defined := by grind

section Pass

variable {α : Type} {step : List Str → α → Except Str (List Str)} {names : α → List Str} {good : List Str → α → Prop}

theorem foldlM_ok_iff {P : List Str → α → Prop} {g : α → List Str} {f : List Str → α → Except Str (List Str)}
    (hstep : ∀ defined a e, defined.Nodup →
      (f defined a = .ok e ↔ (defined ++ g a).Nodup ∧ P defined a ∧ e = defined ++ g a))
    {l : List α} {defined e : List Str} (hnodup : defined.Nodup) :
    l.foldlM f defined = .ok e ↔
      (defined ++ l.flatMap g).Nodup ∧
        (∀ before a after, l = before ++ a :: after → P (defined ++ before.flatMap g) a) ∧
        e = defined ++ l.flatMap g := by
  induction l generalizing defined with
  | nil =>
    rw [List.flatMap_nil, List.append_nil]
    constructor
    · intro h
      exact ⟨hnodup, fun before a after h => absurd h (by simp), (Except.ok.inj h).symm⟩
    · rintro ⟨-, -, rfl⟩
      rfl
  | cons a l ih =>
    rw [List.foldlM_cons, bind_ok_iff, List.flatMap_cons, ← List.append_assoc]
    constructor
    · rintro ⟨d, hd, hrest⟩
      obtain ⟨hnew, hgood, rfl⟩ := (hstep _ _ _ hnodup).1 hd
      obtain ⟨hall, hrest, hresult⟩ := (ih hnew).1 hrest
      refine ⟨hall, fun before b after hsplit => ?_, hresult⟩
      cases before with
      | nil =>
        grind
      | cons c before =>
        grind
    · rintro ⟨hall, hgood, hresult⟩
      have hnew : (defined ++ g a).Nodup := hall.sublist (List.sublist_append_left _ _)
      have hhead := hgood [] a l rfl
      rw [List.flatMap_nil, List.append_nil] at hhead
      refine ⟨_, (hstep _ _ _ hnodup).2 ⟨hnew, hhead, rfl⟩, (ih hnew).2 ⟨hall, fun before b after hsplit => ?_, hresult⟩⟩
      have hlater := hgood (a :: before) b after (congrArg (a :: ·) hsplit)
      rwa [List.flatMap_cons, ← List.append_assoc] at hlater

end Pass

theorem foldlM_define_ok_iff {members defined defined' : List Str} (hnodup : defined.Nodup) :
    members.foldlM define defined = .ok defined' ↔ (defined ++ members).Nodup ∧ defined' = defined ++ members := by
  have hstep : ∀ (d : List Str) (name : Str) (d' : List Str), d.Nodup →
      (define d name = .ok d' ↔ (d ++ [name]).Nodup ∧ True ∧ d' = d ++ [name]) := by
    intro d name d' hd
    rw [define_ok_iff, nodup_concat hd, true_and]
  rw [foldlM_ok_iff hstep hnodup, List.flatMap_singleton']
  grind

def DeclGood (d : Decl) : Prop := d.kind = .input ∨ d.kind = .param → BatchOnly d.dims

theorem validateDecl_ok_iff {defined defined' : List Str} {d : Decl} (hnodup : defined.Nodup) :
    validateDecl defined d = .ok defined' ↔
      (defined ++ d.introduces).Nodup ∧ DeclGood d ∧ defined' = defined ++ d.introduces := by
  have hnamed : ∀ r : Except Str (List Str), (do
      let defined' ← define defined d.name
      checkDims d.dims 0
      pure defined') = r → (r = .ok defined' ↔
        (defined ++ [d.name]).Nodup ∧ BatchOnly d.dims ∧ defined' = defined ++ [d.name]) := by
    rintro _ rfl
    rw [bind_ok_iff, nodup_concat hnodup]
    constructor
    · rintro ⟨e, he, hrest⟩
      obtain ⟨u, hdims, hrest⟩ := bind_ok_iff.1 hrest
      obtain ⟨hnew, rfl⟩ := define_ok_iff.1 he
      exact ⟨hnew, (batchOnly_iff _).1 hdims, (Except.ok.inj hrest).symm⟩
    · rintro ⟨hnew, hdims, rfl⟩
      exact ⟨_, define_ok_iff.2 ⟨hnew, rfl⟩, bind_ok_iff.2 ⟨(), (batchOnly_iff _).2 hdims, rfl⟩⟩
  unfold validateDecl Decl.introduces DeclGood
  cases d.kind with
  | input =>
    grind
  | param =>
    grind
  | output =>
    dsimp only
    rw [List.append_nil]
    constructor
    · intro h
      exact ⟨hnodup, (fun h => by simp at h), (Except.ok.inj h).symm⟩
    · rintro ⟨-, -, rfl⟩
      rfl
  | group =>
    dsimp only
    rw [bind_ok_iff, ← List.append_assoc]
    constructor
    · grind [nodup_concat, define_ok_iff, foldlM_define_ok_iff]
    · rintro ⟨hall, -, rfl⟩
      have hmembers : (defined ++ d.members).Nodup := hall.sublist (List.sublist_append_left _ _)
      exact ⟨_, (foldlM_define_ok_iff hnodup).2 ⟨hmembers, rfl⟩, define_ok_iff.2 ⟨(nodup_concat hmembers).1 hall, rfl⟩⟩

theorem forM_ok_iff {α : Type} {f : α → Except Str Unit} {l : List α} :
    l.forM f = .ok () ↔ ∀ a ∈ l, f a = .ok () := by
  induction l with
  | nil => exact ⟨fun _ a ha => absurd ha List.not_mem_nil, fun _ => rfl⟩
  | cons a l ih =>
    change (f a >>= fun _ => l.forM f) = .ok () ↔ _
    rw [bind_ok_iff, List.forall_mem_cons, ← ih]
    grind

theorem ite_error_ok_iff {c : Prop} [Decidable c] {e : Str} :
    (if c then Except.error e else .ok ()) = .ok () ↔ ¬c := by
  split <;> simp_all

structure OpGood (defined : List Str) (o : Op) : Prop where
  known : isKnownOp o.kind = true
  inputs : ∀ name ∈ o.ins, name ∈ defined
  dims : BatchOnly o.dims

theorem validateOp_ok_iff {defined defined' : List Str} {o : Op} (hnodup : defined.Nodup) :
    validateOp defined o = .ok defined' ↔
      (defined ++ [o.dst]).Nodup ∧ OpGood defined o ∧ defined' = defined ++ [o.dst] := by
  have hins : (o.ins.forM fun name => if !nameIn defined name then Except.error (undefinedReference name o.dst) else .ok ()) =
      .ok () ↔
        ∀ name ∈ o.ins, name ∈ defined := by
    rw [forM_ok_iff]
    refine forall₂_congr fun name _ => ?_
    rw [ite_error_ok_iff, ← nameIn_iff]
    simp
  unfold validateOp
  rw [nodup_concat hnodup]
  by_cases hknown : isKnownOp o.kind = true
  · rw [if_neg (by simpa using hknown), bind_ok_iff]
    constructor
    · rintro ⟨u, hread, hrest⟩
      obtain ⟨e, he, hrest⟩ := bind_ok_iff.1 hrest
      obtain ⟨v, hdims, hrest⟩ := bind_ok_iff.1 hrest
      obtain ⟨hnew, rfl⟩ := define_ok_iff.1 he
      exact ⟨hnew, ⟨hknown, hins.1 hread, (batchOnly_iff _).1 hdims⟩, (Except.ok.inj hrest).symm⟩
    · rintro ⟨hnew, hgood, rfl⟩
      refine ⟨(), hins.2 hgood.inputs, bind_ok_iff.2 ⟨_, define_ok_iff.2 ⟨hnew, rfl⟩, ?_⟩⟩
      exact bind_ok_iff.2 ⟨(), (batchOnly_iff _).2 hgood.dims, rfl⟩
  · rw [if_pos (by simpa using hknown)]
    exact ⟨fun h => (nomatch h), fun h => absurd h.2.1.known hknown⟩

theorem validateOut_ok_iff {defined : List Str} {d : Decl} :
    validateOut defined d = .ok () ↔ (d.kind = .output → d.name ∈ defined) := by
  unfold validateOut
  rw [ite_error_ok_iff, ← nameIn_iff]
  simp

/-! ### The whole -/

theorem forall_split_iff {α : Type} {l : List α} {p : α → Prop} :
    (∀ before a after, l = before ++ a :: after → p a) ↔ ∀ a ∈ l, p a := by
  constructor
  · intro h a ha
    obtain ⟨before, after, hsplit⟩ := List.append_of_mem ha
    grind
  grind

theorem foldlM_validateDecl_ok_iff {m : LsModel} {defined : List Str} :
    m.decls.foldlM validateDecl [] = .ok defined ↔
      m.declared.Nodup ∧ (∀ d ∈ m.decls, DeclGood d) ∧ defined = m.declared := by
  have hpass := foldlM_ok_iff (f := validateDecl) (g := Decl.introduces) (P := fun _ => DeclGood)
    (fun _ _ _ h => validateDecl_ok_iff h) (l := m.decls) (e := defined) List.nodup_nil
  rwa [List.nil_append, forall_split_iff] at hpass

theorem foldlM_validateOp_ok_iff {m : LsModel} {defined : List Str} (hnodup : m.declared.Nodup) :
    m.ops.foldlM validateOp m.declared = .ok defined ↔
      m.introduced.Nodup ∧
        (∀ before o after, m.ops = before ++ o :: after → OpGood (m.declared ++ before.map (·.dst)) o) ∧
        defined = m.introduced := by
  have hpass := foldlM_ok_iff (f := validateOp) (g := fun o => [o.dst]) (P := OpGood)
    (fun _ _ _ h => validateOp_ok_iff h) (l := m.ops) (e := defined) hnodup
  simp only [← List.map_eq_flatMap] at hpass
  exact hpass

theorem validate_ok_iff {m : LsModel} : validate m = .ok () ↔ Checked m := by
  unfold validate
  constructor
  · intro h
    obtain ⟨declared, hdecls, h⟩ := bind_ok_iff.1 h
    obtain ⟨hdecl, hgood, rfl⟩ := foldlM_validateDecl_ok_iff.1 hdecls
    obtain ⟨introduced, hops, houts⟩ := bind_ok_iff.1 h
    obtain ⟨honce, hop, rfl⟩ := (foldlM_validateOp_ok_iff hdecl).1 hops
    refine ⟨honce, ?_, fun before o after hsplit name hname => ?_, fun d hd => ?_, hgood, ?_⟩
    · exact forall_split_iff.1 fun before o after hsplit => (hop before o after hsplit).known
    · have hmem := (hop before o after hsplit).inputs name hname
      grind
    · exact validateOut_ok_iff.1 (forM_ok_iff.1 houts d hd)
    · exact forall_split_iff.1 fun before o after hsplit => (hop before o after hsplit).dims
  · intro h
    have hdecl : m.declared.Nodup := h.once.sublist (List.sublist_append_left _ _)
    have hop : ∀ before o after, m.ops = before ++ o :: after → OpGood (m.declared ++ before.map (·.dst)) o := by
      intro before o after hsplit
      have ho : o ∈ m.ops := by grind
      refine ⟨h.known o ho, fun name hname => ?_, h.op_dims o ho⟩
      rw [List.mem_append, List.mem_map]
      exact h.inputs before o after hsplit name hname
    refine bind_ok_iff.2 ⟨_, foldlM_validateDecl_ok_iff.2 ⟨hdecl, h.decl_dims, rfl⟩, ?_⟩
    refine bind_ok_iff.2 ⟨_, (foldlM_validateOp_ok_iff hdecl).2 ⟨h.once, hop, rfl⟩, ?_⟩
    exact forM_ok_iff.2 fun d hd => validateOut_ok_iff.2 (h.outputs d hd)

/-- `validate` accepts exactly the well-formed models, if no output and no group has a dynamic dimension behind the
first, or something that it does look at is amiss; else it accepts a model that is not well formed. -/
theorem validate_iff_wellFormed (m : LsModel) :
    (validate m = .ok () ↔ WellFormed m) ↔
      (∀ d ∈ m.decls, d.kind = .output ∨ d.kind = .group → BatchOnly d.dims) ∨ ¬Checked m := by
  rw [validate_ok_iff]
  constructor
  · intro h
    by_cases hc : Checked m
    · exact .inl (h.1 hc).rest_dims
    · exact .inr hc
  · rintro (h | h)
    · exact ⟨fun hc => ⟨hc, h⟩, fun hw => hw.toChecked⟩
    · exact ⟨fun hc => absurd hc h, fun hw => absurd hw.toChecked h⟩

/-- An input and the output that a `relu` makes of it; the output is declared with two rows of dynamic length. -/
def raggedOutput : LsModel where
  decls := [⟨.input, lit ['x'], [-1, 8], []⟩, ⟨.output, lit ['y'], [2, -1], []⟩]
  ops := [⟨lit ['y'], Kind.relu, [lit ['x']], [], [], [-1, 8]⟩]

theorem not_validate_iff_wellFormed : ¬(validate raggedOutput = .ok () ↔ WellFormed raggedOutput) := by
  intro h
  have hdims := (h.1 (by decide)).rest_dims ⟨.output, lit ['y'], [2, -1], []⟩ (by decide) (.inl rfl) 1 (-1) rfl
  exact absurd (hdims (by decide)) (by decide)

end LsLang.Lsm
