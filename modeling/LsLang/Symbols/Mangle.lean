import LsLang.Scan.Scanner

/-! The link-time names of `mangle.c`: the symbol of a module's item, and of a method. -/

namespace LsLang.Symbols
open LsLang.Core LsLang.Scan

/-- An identifier as the scanner reads it: a word, with one `?` or `!` behind it allowed. -/
structure Ident where
  str : Str
  ok : ∃ c w mark, str = c :: w ++ mark ∧ (isAlpha c = true ∨ c = ch '_') ∧
    (∀ b ∈ w, isWord b = true) ∧ (mark = [] ∨ mark = [ch '?'] ∨ mark = [ch '!'])

/-- A module path: identifiers with dots between them. -/
structure ModulePath where
  str : Str
  ok : ∃ (first : Ident) (more : List Ident),
    str = first.str ++ more.flatMap fun i => ch '.' :: i.str

def fold (moduleName : Str) : Str := moduleName.map fun c => if c = ch '.' then ch '_' else c

/-- `mangle_module_symbol`; NULL is `none`. -/
def mangleModuleSymbol (moduleName : Option Str) (name : Str) : Str :=
  match moduleName with
  | none => name
  | some [] => name
  | some moduleName => fold moduleName ++ lit ['_', '_'] ++ name

/-- `mangle_method_symbol` -/
def mangleMethodSymbol (typeName : Str) (ifaceOrNull : Option Str) (methodName : Str) : Str :=
  typeName ++ ch '.' :: match ifaceOrNull with
    | some iface => iface ++ ch '.' :: methodName
    | none => methodName

/-- The symbol of a type or an interface, in a module or in the main file. -/
structure TypeSymbol where
  str : Str
  ok : ∃ (path : Option ModulePath) (name : Ident),
    str = mangleModuleSymbol (path.map ModulePath.str) name.str

theorem Ident.ne_nil (i : Ident) : i.str ≠ [] := by
  obtain ⟨c, w, mark, h, -⟩ := i.ok
  rw [h]
  simp

theorem isAlpha_dot : isAlpha (ch '.') = false := by decide

theorem isWord_dot : isWord (ch '.') = false := by decide

theorem Ident.no_dot (i : Ident) : ch '.' ∉ i.str := by
  obtain ⟨c, w, mark, h, hc, hw, hm⟩ := i.ok
  rw [h]
  intro hmem
  rcases List.mem_append.1 hmem with hmem | hmem
  · grind [isWord_dot, isAlpha_dot, List.mem_cons]
  · grind

theorem ModulePath.ne_nil (p : ModulePath) : p.str ≠ [] := by
  obtain ⟨first, more, h⟩ := p.ok
  rw [h]
  exact List.append_ne_nil_of_left_ne_nil first.ne_nil _

theorem mangle_path (p : ModulePath) (name : Str) :
    mangleModuleSymbol (some p.str) name = fold p.str ++ lit ['_', '_'] ++ name := by
  unfold mangleModuleSymbol
  split
  · rename_i h
    cases h
  · rename_i h
    exact absurd (Option.some.inj h) p.ne_nil
  grind

theorem fold_no_dot (s : Str) : ch '.' ∉ fold s := by
  unfold fold
  grind

theorem TypeSymbol.no_dot (t : TypeSymbol) : ch '.' ∉ t.str := by
  obtain ⟨path, name, h⟩ := t.ok
  rw [h]
  cases path with
  | none => exact name.no_dot
  | some p =>
    rw [Option.map_some, mangle_path]
    intro hmem
    rcases List.mem_append.1 hmem with hmem | hmem
    · grind [fold_no_dot, List.mem_append]
    · exact name.no_dot hmem

theorem split_at_dot {a b c d : Str} (ha : ch '.' ∉ a) (hc : ch '.' ∉ c)
    (h : a ++ ch '.' :: b = c ++ ch '.' :: d) : a = c ∧ b = d := by
  rcases List.append_eq_append_iff.1 h with ⟨e, rfl, he⟩ | ⟨e, rfl, he⟩
  · cases e with
    | nil => grind
    | cons x e =>
      grind
  · cases e with
    | nil => grind
    | cons x e =>
      grind

theorem mangleMethod_inj {t t' : TypeSymbol} {i i' : Option TypeSymbol} {m m' : Ident}
    (h : mangleMethodSymbol t.str (i.map TypeSymbol.str) m.str =
      mangleMethodSymbol t'.str (i'.map TypeSymbol.str) m'.str) :
    t.str = t'.str ∧ i.map TypeSymbol.str = i'.map TypeSymbol.str ∧ m.str = m'.str := by
  obtain ⟨ht, hrest⟩ := split_at_dot t.no_dot t'.no_dot h
  refine ⟨ht, ?_⟩
  cases i with
  | none =>
    cases i' with
    | none => exact ⟨rfl, hrest⟩
    | some i' =>
      have hm : m.str = i'.str ++ ch '.' :: m'.str := hrest
      exact absurd (by rw [hm]; simp) m.no_dot
  | some i =>
    cases i' with
    | none =>
      have hm : i.str ++ ch '.' :: m.str = m'.str := hrest
      exact absurd (by rw [← hm]; simp) m'.no_dot
    | some i' =>
      obtain ⟨hi, hm⟩ := split_at_dot i.no_dot i'.no_dot hrest
      grind

/-- The separator moves: the second path goes on where the first stops, with underscores and
a word that the first name has in front. -/
def Shifts (path name path' name' : Str) : Prop :=
  (fold path' = fold path ++ lit ['_'] ∧ name = ch '_' :: name') ∨
    ∃ w, fold path' = fold path ++ lit ['_', '_'] ++ w ∧ name = w ++ lit ['_', '_'] ++ name'

/-- Two items that share a link-time name. -/
def Clash (path name path' name' : Str) : Prop :=
  (path ≠ path' ∧ fold path = fold path' ∧ name = name') ∨
    Shifts path name path' name' ∨ Shifts path' name' path name

theorem shifts_iff (path name path' name' : Str) : Shifts path name path' name' ↔
    ∃ w, w ≠ [] ∧ fold path' = fold path ++ w ∧
      lit ['_', '_'] ++ name = w ++ (lit ['_', '_'] ++ name') := by
  constructor
  · rintro (⟨hp, rfl⟩ | ⟨w, hp, rfl⟩)
    · grind
    grind
  · rintro ⟨w, hw, hp, hn⟩
    match w with
    | [x] =>
      have hx := List.cons.inj hn
      refine .inl ⟨?_, (List.cons.inj hx.2).2⟩
      rw [hp, ← hx.1]
      rfl
    | x :: y :: w =>
      have hx := List.cons.inj hn
      have hy := List.cons.inj hx.2
      refine .inr ⟨w, ?_, by simpa using hy.2⟩
      grind

theorem Shifts.path_ne {path name path' name' : Str} (h : Shifts path name path' name') :
    path ≠ path' := by grind [List.self_eq_append_right, shifts_iff]

theorem mangle_eq_iff (p p' : ModulePath) (n n' : Str) :
    mangleModuleSymbol (some p.str) n = mangleModuleSymbol (some p'.str) n' ↔
      (fold p.str = fold p'.str ∧ n = n') ∨ Shifts p.str n p'.str n' ∨
        Shifts p'.str n' p.str n := by
  rw [mangle_path, mangle_path, shifts_iff, shifts_iff, List.append_assoc, List.append_assoc]
  constructor
  · intro h
    rcases List.append_eq_append_iff.1 h with ⟨w, hp, hn⟩ | ⟨w, hp, hn⟩
    · grind
    grind
  grind

/-- A module symbol tells its module path and its name apart from all others that do not
clash with them; a method symbol tells everything it is made of. -/
theorem mangle_injective_iff (p p' : ModulePath) (n n' : Ident) (t t' : TypeSymbol)
    (i i' : Option TypeSymbol) (m m' : Ident) :
    ((mangleModuleSymbol (some p.str) n.str = mangleModuleSymbol (some p'.str) n'.str →
        p.str = p'.str ∧ n.str = n'.str) ↔ ¬ Clash p.str n.str p'.str n'.str) ∧
    (mangleMethodSymbol t.str (i.map TypeSymbol.str) m.str =
        mangleMethodSymbol t'.str (i'.map TypeSymbol.str) m'.str →
      t.str = t'.str ∧ i.map TypeSymbol.str = i'.map TypeSymbol.str ∧ m.str = m'.str) := by
  refine ⟨?_, mangleMethod_inj⟩
  rw [mangle_eq_iff]
  constructor
  · rintro h (⟨hne, hp, hn⟩ | hs | hs)
    · exact hne (h (.inl ⟨hp, hn⟩)).1
    · exact hs.path_ne (h (.inr (.inl hs))).1
    · exact hs.path_ne (h (.inr (.inr hs))).1.symm
  · rintro h (⟨hp, hn⟩ | hs | hs)
    · by_cases heq : p.str = p'.str
      · exact ⟨heq, hn⟩
      · exact absurd (.inl ⟨heq, hp, hn⟩) h
    · exact absurd (.inr (.inl hs)) h
    · exact absurd (.inr (.inr hs)) h

def Ident.letter (c : UInt8) (h : isAlpha c = true) : Ident :=
  ⟨[c], c, [], [], rfl, .inl h, by simp, .inl rfl⟩

/-- `a.b` and `a_b` fold to one path. -/
theorem mangle_dotted_path : ¬ ∀ (p p' : ModulePath) (n n' : Ident),
    mangleModuleSymbol (some p.str) n.str = mangleModuleSymbol (some p'.str) n'.str →
      p.str = p'.str ∧ n.str = n'.str := by
  let a := Ident.letter (ch 'a') (by decide)
  let b := Ident.letter (ch 'b') (by decide)
  let ab : Ident := ⟨lit ['a', '_', 'b'], ch 'a', lit ['_', 'b'], [], rfl, .inl (by decide),
    List.forall_mem_cons.2 ⟨by decide, List.forall_mem_singleton.2 (by decide)⟩, .inl rfl⟩
  intro h
  have := h ⟨lit ['a', '.', 'b'], a, [b], rfl⟩ ⟨lit ['a', '_', 'b'], ab, [], rfl⟩ a a rfl
  exact absurd this.1 (by decide)

end LsLang.Symbols
