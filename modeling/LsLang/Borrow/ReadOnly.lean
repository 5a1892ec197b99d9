import LsLang.Borrow.Body

/-! In an accepted function nothing writes through a read-only borrow, as long as every form that
would is one whose guard looks at its place. -/

namespace LsLang.Borrow
open LsLang.Core
variable {D : Decls}

theorem Verdict.reports_of_ne {v : Verdict} (h : v ≠ .ok) : v.reports false = true := by
  cases v with
  | ok => exact absurd rfl h
  | error => rfl
  | moveError => rfl

theorem Expr.reports_of_null {seen : Bool} (e : Expr) (Γ : Scope) (h : e.null D Γ = true) :
    e.reports D false seen Γ = true := by
  cases e with
  | plain => cases h
  | seq strict l r =>
    simp only [Expr.null, Bool.and_eq_true, Bool.or_eq_true] at h
    simp only [Expr.reports, Bool.or_eq_true]
    exact h.2.imp (Expr.reports_of_null l Γ) (Expr.reports_of_null r Γ)
  | binary l r =>
    simp only [Expr.null] at h
    simp only [Expr.reports, h, Bool.not_true, Bool.and_false, Bool.false_eq_true, if_false,
      Bool.or_eq_true]
    rw [Bool.or_eq_true] at h
    exact h.imp (Expr.reports_of_null l Γ) (Expr.reports_of_null r Γ)
  | form f pre strict post =>
    simp only [Expr.null, Bool.or_eq_true, Bool.and_eq_true, decide_eq_true_eq] at h
    simp only [Expr.reports, Bool.or_eq_true, Bool.and_eq_true]
    by_cases hp : pre.null D Γ = true
    · exact Or.inl (Expr.reports_of_null pre Γ hp)
    · refine Or.inr ⟨by simpa using hp, ?_⟩
      by_cases hc : f.check D Γ = .ok
      · have hpost : post.null D Γ = true := by tauto
        exact Or.inr ⟨by simpa using hc, Expr.reports_of_null post Γ hpost⟩
      · exact Or.inl (Verdict.reports_of_ne hc)
  | block s value =>
    simp only [Expr.null] at h
    simp only [Expr.reports, Bool.or_eq_true]
    exact Or.inr (Expr.reports_of_null value (s.after D Γ) h)
termination_by sizeOf e

section every
variable {P Q : Scope → Bool → Form → Prop}

mutual

theorem Expr.every_imp {i o : Bool} (hPQ : ∀ Γ b f, (o = true → b = true) → P Γ b f → Q Γ b f)
    (e : Expr) (Γ : Scope) (h : e.Every D P i o Γ) : e.Every D Q i o Γ := by
  cases e with
  | plain => trivial
  | seq strict l r => exact ⟨l.every_imp hPQ Γ h.1, r.every_imp hPQ Γ h.2⟩
  | binary l r =>
    have hPQ' : ∀ Γ b f, ((o || i) = true → b = true) → P Γ b f → Q Γ b f :=
      fun Γ b f hb => hPQ Γ b f fun ho => hb (by rw [ho]; rfl)
    exact ⟨l.every_imp hPQ' Γ h.1, r.every_imp hPQ' Γ h.2⟩
  | form f pre strict post =>
    exact ⟨hPQ _ _ _ id h.1, pre.every_imp hPQ Γ h.2.1, post.every_imp hPQ Γ h.2.2⟩
  | block s value => exact ⟨s.every_imp hPQ Γ h.1, value.every_imp hPQ _ h.2⟩

theorem BorrowSource.every_imp {i o : Bool}
    (hPQ : ∀ Γ b f, (o = true → b = true) → P Γ b f → Q Γ b f) (b : BorrowSource) (Γ : Scope)
    (h : b.Every D P i o Γ) : b.Every D Q i o Γ := by
  cases b with
  | call e m p => exact e.every_imp hPQ Γ h
  | _ => trivial

theorem Stmt.every_imp {i o : Bool} (hPQ : ∀ Γ b f, (o = true → b = true) → P Γ b f → Q Γ b f)
    (s : Stmt) (Γ : Scope) (h : s.Every D P i o Γ) : s.Every D Q i o Γ := by
  cases s with
  | skip => trivial
  | seq s t => exact ⟨s.every_imp hPQ Γ h.1, t.every_imp hPQ _ h.2⟩
  | eval e => exact e.every_imp hPQ Γ h
  | declare n t init => exact init.every_imp hPQ Γ h
  | localBorrow n m p init =>
    exact ⟨init.every_imp hPQ Γ h.1, fun f hf => hPQ _ _ _ id (h.2 f hf)⟩
  | arm subject binders body => exact body.every_imp hPQ _ h
  | scope body => exact body.every_imp hPQ Γ h
  | loop body => exact body.every_imp hPQ Γ h

end

end every

def Asked (D : Decls) (Γ : Scope) (hidden : Bool) (f : Form) : Prop :=
  f.WritesReadOnly D Γ → f.Looked D Γ ∧ hidden = false

def Claimed (D : Decls) (Γ : Scope) (_ : Bool) (f : Form) : Prop := ¬f.WritesReadOnly D Γ

theorem claimed_of_hidden (Γ : Scope) (b : Bool) (f : Form) (hb : true = true → b = true)
    (h : Asked D Γ b f) : Claimed D Γ b f := by
  intro hw
  have := (h hw).2
  grind

theorem claimed_of_ok {Γ : Scope} {b : Bool} {f : Form} (h : Asked D Γ b f)
    (hc : (f.check D Γ).reports false = false) : Claimed D Γ b f := by
  intro hw
  rw [Verdict.reports_of_ne (check_ne_ok hw (h hw).1)] at hc
  cases hc

theorem sourceForm_claimed {Γ : Scope} {isMut : Bool} {pointee : Str} {init : BorrowSource}
    (h : sourceError D Γ isMut pointee init = false) {f : Form} (hf : f ∈ sourceForm isMut init) :
    ¬f.WritesReadOnly D Γ := by
  intro hw
  cases init with
  | amp src => cases hf
  | mutAmp src =>
    cases hf
    simp only [sourceError, Bool.or_eq_false_iff, decide_eq_false_iff_not, not_not] at h
    exact checkMutBorrow_ident hw h.1
  | reborrow src =>
    simp only [sourceForm] at hf
    split_ifs at hf with hm
    · cases hf
      simp only [sourceError, hm, Bool.or_eq_false_iff, Bool.true_and, Bool.not_eq_false'] at h
      rcases show borrows Γ src = true ∨ IsRef D Γ (.ident src) from hw with hb | ⟨t, ht⟩
      · grind
      · have hp : (Γ.lookup src).map Symbol.ty = some (.struct pointee) := of_decide_eq_true h.1.2
        cases hp.symm.trans ht
    · cases hf
  | call e m p => cases hf

mutual

theorem Expr.noWrite {i o seen : Bool} (hs : seen = true → i = true) (e : Expr) (Γ : Scope)
    (hr : e.reports D false seen Γ = false) (h : e.Every D (Asked D) i o Γ) :
    e.Every D (Claimed D) i o Γ := by
  cases e with
  | plain => trivial
  | seq strict l r =>
    simp only [Expr.reports, Bool.or_eq_false_iff] at hr
    exact ⟨l.noWrite hs Γ hr.1 h.1, r.noWrite hs Γ hr.2 h.2⟩
  | binary l r =>
    simp only [Expr.reports] at hr
    split_ifs at hr with hc
    · -- not checked again, but then everything in it is in an operand in a loop
      rw [Bool.and_eq_true] at hc
      have ho : (o || i) = true := by rw [hs hc.1, Bool.or_true]
      unfold Expr.Every at h ⊢
      rw [ho] at h ⊢
      exact ⟨l.every_imp claimed_of_hidden Γ h.1, r.every_imp claimed_of_hidden Γ h.2⟩
    · rw [Bool.or_eq_false_iff] at hr
      exact ⟨l.noWrite hs Γ hr.1 h.1, r.noWrite hs Γ hr.2 h.2⟩
  | form f pre strict post =>
    simp only [Expr.reports, Bool.or_eq_false_iff] at hr
    have hpre : pre.null D Γ = false := by
      by_contra hn
      rw [Bool.not_eq_false] at hn
      rw [pre.reports_of_null Γ hn] at hr
      cases hr.1
    rw [hpre, Bool.not_false, Bool.true_and, Bool.or_eq_false_iff] at hr
    have hc : f.check D Γ = .ok := by grind [Verdict.reports_of_ne]
    rw [decide_eq_true hc, Bool.true_and] at hr
    refine ⟨claimed_of_ok h.1 (by rw [hc]; rfl), pre.noWrite hs Γ hr.1 h.2.1, ?_⟩
    exact post.noWrite hs Γ hr.2.2 h.2.2
  | block s value =>
    simp only [Expr.reports, Bool.or_eq_false_iff] at hr
    exact ⟨s.noWrite hs Γ hr.1 h.1, value.noWrite hs _ hr.2 h.2⟩

theorem BorrowSource.noWrite {i o seen : Bool} (hs : seen = true → i = true) (b : BorrowSource)
    (Γ : Scope) (hr : b.reports D false seen Γ = false) (h : b.Every D (Asked D) i o Γ) :
    b.Every D (Claimed D) i o Γ := by
  cases b with
  | call e m p =>
    simp only [BorrowSource.reports, Bool.or_eq_false_iff] at hr
    exact e.noWrite hs Γ hr.1 h
  | _ => trivial

theorem Stmt.noWrite {i o seen : Bool} (hs : seen = true → i = true) (s : Stmt) (Γ : Scope)
    (hr : s.reports D false seen Γ = false) (h : s.Every D (Asked D) i o Γ) :
    s.Every D (Claimed D) i o Γ := by
  cases s with
  | skip => trivial
  | seq s t =>
    simp only [Stmt.reports, Bool.or_eq_false_iff] at hr
    exact ⟨s.noWrite hs Γ hr.1 h.1, t.noWrite hs _ hr.2 h.2⟩
  | eval e => exact e.noWrite hs Γ hr h
  | declare n t init => exact init.noWrite hs Γ hr h
  | localBorrow n m p init =>
    simp only [Stmt.reports, Bool.or_eq_false_iff] at hr
    exact ⟨init.noWrite hs Γ hr.1 h.1, fun f hf => sourceForm_claimed hr.2 hf⟩
  | arm subject binders body => exact body.noWrite hs _ hr h
  | scope body => exact body.noWrite hs Γ hr h
  | loop body =>
    -- the second pass reports what the first one leaves out
    simp only [Stmt.reports, Bool.or_eq_false_iff] at hr
    exact body.noWrite (fun _ => rfl) Γ hr.2 h

end

/-- What the checker takes writes through no read-only borrow, exactly when every form that would
is one that its guard looks at, with its errors not hidden. -/
theorem accepted_noWrite_iff (D : Decls) (f : Function) (h : f.accepted D = true) :
    f.NoWrite D ↔ f.Guarded D := by
  constructor
  · exact f.body.every_imp (fun Γ b g _ hn hw => absurd hw hn) f.scope
  · intro hg
    unfold Function.accepted at h
    unfold Function.Guarded at hg
    unfold Function.NoWrite
    cases hs : f.silent with
    | true =>
      rw [hs] at hg
      exact f.body.every_imp claimed_of_hidden f.scope hg
    | false =>
      rw [hs] at h hg
      exact f.body.noWrite (fun hs => Bool.noConfusion hs) f.scope (by simpa using h) hg

/-- `struct A { B x }` and `struct B { int y }` -/
def nestedDecls : Decls where
  field s f := if s = [65] ∧ f = [120] then some (.struct [66])
    else if s = [66] ∧ f = [121] then some (.other [105]) else none
  method _ _ := none
  sliceElem _ := none
  hasDrop _ := false

/-- `def f(&A b) { b.x.y = 1 }` -/
def nestedWrite : Function where
  self := none
  params := [([98], .ref (.struct [65]))]
  methodGeneric := false
  silent := false
  body := .eval (.form (.assign (.field (.field (.ident [98]) [120]) [121])) .plain true .plain)

theorem nestedWrite_accepted :
    nestedWrite.accepted nestedDecls = true ∧ ¬nestedWrite.NoWrite nestedDecls := by
  have hb : ReadOnly nestedDecls nestedWrite.scope (.ident [98]) := Or.inl rfl
  exact ⟨by decide, fun h => h.1 ⟨Or.inl ⟨[66], by decide⟩, Or.inl ⟨[65], by decide⟩, hb⟩⟩

/-- `def f(&A a, &!A b) { &A r = a; b.x.y = 1; while .. { b.x = .. } }` -/
def borrowBeside : Function where
  self := none
  params := [([97], .ref (.struct [65])), ([98], .mutRef (.struct [65]))]
  methodGeneric := false
  silent := false
  body := .seq (.localBorrow [114] false [65] (.reborrow [97])) (.seq
    (.eval (.form (.assign (.field (.field (.ident [98]) [120]) [121])) .plain true .plain))
    (.loop (.eval (.form (.assign (.field (.ident [98]) [120])) .plain true .plain))))

theorem borrowBeside_noWrite_iff : borrowBeside.NoWrite nestedDecls ↔ borrowBeside.Guarded nestedDecls :=
  accepted_noWrite_iff _ _ (by decide)

end LsLang.Borrow
