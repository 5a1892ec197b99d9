import LsLang.Core.Str
import Mathlib.Data.List.Induction
import Mathlib.Data.List.Nodup

/-! The module registry of `module.c`: how an import path is resolved to a file, and which
entry of the registry an import gets. -/

namespace LsLang.Modules
open LsLang.Core

/-- What the loader finds around it: the files with their contents, `PATH_SEP`, the root of
the standard library (`LS_HOME`, or the directory of the executable), and the parser. -/
structure Host (Ast : Type) where
  read : Str → Option Str
  pathSep : UInt8
  root : Option Str
  parse : Str → Str → Option Ast

structure ModuleInfo (Ast : Type) where
  name : Str
  filePath : Str
  source : Str
  ast : Ast
  checked : Bool

abbrev Registry (Ast : Type) : Type := List (ModuleInfo Ast)

/-- The arguments of a `module_load`. -/
structure Import where
  importPath : Str
  currentFile : Str
  deriving DecidableEq

/-- `get_directory` -/
def getDirectory (filePath : Str) : Str :=
  match filePath.reverse.dropWhile fun c => c ≠ ch '/' && c ≠ ch '\\' with
  | [] => lit ['.']
  | _ :: dir => dir.reverse

variable {Ast : Type}

namespace Host

variable (h : Host Ast)

def exists? (path : Str) : Bool := (h.read path).isSome

/-- `resolve_source_ext` -/
def resolveSourceExt (base : Str) : Option Str :=
  if h.exists? (base ++ lit ['.', 'l', 'l', 's']) then some (base ++ lit ['.', 'l', 'l', 's'])
  else if h.exists? (base ++ lit ['.', 'l', 's']) then some (base ++ lit ['.', 'l', 's'])
  else none

def relPath (importPath : Str) : Str :=
  importPath.map fun c => if c = ch '.' then h.pathSep else c

/-- `resolve_stdlib_path` -/
def resolveStdlibPath (importPath : Str) : Option Str :=
  match h.root with
  | none => none
  | some root =>
    let libDir := root ++ h.pathSep :: lit ['l', 'i', 'b'] ++ [h.pathSep]
    match h.resolveSourceExt (libDir ++ h.relPath importPath) with
    | some hit => some hit
    | none =>
      h.resolveSourceExt (libDir ++ lit ['s', 't', 'd'] ++ h.pathSep :: h.relPath importPath)

/-- `module_resolve_path` -/
def moduleResolvePath (imp : Import) : Str :=
  let base := getDirectory imp.currentFile ++ h.pathSep :: h.relPath imp.importPath
  match h.resolveSourceExt base with
  | some hit => hit
  | none => base ++ lit ['.', 'l', 'l', 's']

/-- `module_resolve_import_path` -/
def moduleResolveImportPath (imp : Import) : Option Str :=
  if h.exists? (h.moduleResolvePath imp) then some (h.moduleResolvePath imp)
  else h.resolveStdlibPath imp.importPath

/-- `module_find` -/
def moduleFind (reg : Registry Ast) (name : Str) : Option (ModuleInfo Ast) :=
  reg.find? fun m => m.name == name

/-- The file and the text that `module_load` reads. -/
def openSource (imp : Import) : Option (Str × Str) :=
  match h.read (h.moduleResolvePath imp) with
  | some source => some (h.moduleResolvePath imp, source)
  | none => do
    let path ← h.resolveStdlibPath imp.importPath
    let source ← h.read path
    some (path, source)

/-- `module_load` -/
def moduleLoad (reg : Registry Ast) (imp : Import) : Registry Ast × Option (ModuleInfo Ast) :=
  match moduleFind reg imp.importPath with
  -- found by its spelling, before anything is resolved
  | some m => (reg, some m)
  | none =>
    match h.openSource imp with
    | none => (reg, none)
    | some (filePath, source) =>
      match reg.find? fun m => m.filePath == filePath with
      -- the file under another spelling
      | some m => (reg, some m)
      | none =>
        match h.parse source filePath with
        | none => (reg, none)
        | some ast =>
          let m := ⟨imp.importPath, filePath, source, ast, false⟩
          (reg ++ [m], some m)

def loadAll (calls : List Import) : Registry Ast :=
  calls.foldl (fun reg imp => (h.moduleLoad reg imp).1) []

theorem loadAll_snoc (calls : List Import) (imp : Import) :
    h.loadAll (calls ++ [imp]) = (h.moduleLoad (h.loadAll calls) imp).1 :=
  List.foldl_concat ..

/-- Every file parses. -/
def Parses : Prop := ∀ path source, h.read path = some source → (h.parse source path).isSome

def GetsFile (reg : Registry Ast) (imp : Import) : Prop :=
  ∀ m, (h.moduleLoad reg imp).2 = some m → h.moduleResolveImportPath imp = some m.filePath

def Distinct (reg : Registry Ast) : Prop := (reg.map ModuleInfo.filePath).Nodup

/-- Loading by the resolved file, over all the calls. -/
def LoadsByFile (calls : List Import) : Prop :=
  (∀ pre imp post, calls = pre ++ imp :: post → h.GetsFile (h.loadAll pre) imp) ∧
    ∀ pre post, calls = pre ++ post → Distinct (h.loadAll pre)

/-- An import whose file no earlier call has resolved to fixes the file of its spelling:
each later call with that spelling resolves to the same file. -/
def SpellingsAgree (calls : List Import) : Prop :=
  ∀ pre imp mid imp' post, calls = pre ++ imp :: (mid ++ imp' :: post) →
    imp.importPath = imp'.importPath → ∀ file, h.moduleResolveImportPath imp = some file →
    (∀ e ∈ pre, h.moduleResolveImportPath e ≠ some file) →
    h.moduleResolveImportPath imp' = some file

end Host

end LsLang.Modules

/-! An import gets the entry of the file it resolves to, exactly as long as the spellings
agree: `module_load` asks for the spelling before it asks for the file. -/

namespace LsLang.Modules.Host
open LsLang.Core

variable {Ast : Type} {h : Host Ast} {reg : Registry Ast} {imp : Import}

theorem exists_of_resolveSourceExt {base path : Str} (hr : h.resolveSourceExt base = some path) :
    h.exists? path = true := by
  unfold resolveSourceExt at hr
  grind

theorem exists_of_resolveStdlibPath {importPath path : Str}
    (hr : h.resolveStdlibPath importPath = some path) : h.exists? path = true := by
  unfold resolveStdlibPath at hr
  grind [exists_of_resolveSourceExt]

theorem exists_of_resolve {path : Str} (hr : h.moduleResolveImportPath imp = some path) :
    h.exists? path = true := by
  unfold moduleResolveImportPath at hr
  grind [exists_of_resolveStdlibPath]

theorem openSource_eq (imp : Import) : h.openSource imp =
    (h.moduleResolveImportPath imp).bind fun path => (h.read path).map fun s => (path, s) := by
  unfold openSource moduleResolveImportPath exists?
  cases hu : h.read (h.moduleResolvePath imp) with
  | some source => simp [hu]
  | none =>
    cases hs : h.resolveStdlibPath imp.importPath with
    | none => rfl
    | some path => cases hp : h.read path <;> simp [hp]

theorem moduleLoad_spelling {m : ModuleInfo Ast} (hm : moduleFind reg imp.importPath = some m) :
    h.moduleLoad reg imp = (reg, some m) := by
  unfold moduleLoad
  rw [hm]

inductive Loaded (h : Host Ast) (reg : Registry Ast) (imp : Import) :
    Registry Ast × Option (ModuleInfo Ast) → Prop
  | spelling {m : ModuleInfo Ast} (hm : moduleFind reg imp.importPath = some m) :
      Loaded h reg imp (reg, some m)
  | missing (hm : moduleFind reg imp.importPath = none)
      (hr : h.moduleResolveImportPath imp = none) : Loaded h reg imp (reg, none)
  | file {m : ModuleInfo Ast} (hm : moduleFind reg imp.importPath = none) (hmem : m ∈ reg)
      (hr : h.moduleResolveImportPath imp = some m.filePath) : Loaded h reg imp (reg, some m)
  | fresh {m : ModuleInfo Ast} (hm : moduleFind reg imp.importPath = none)
      (hnew : ∀ e ∈ reg, e.filePath ≠ m.filePath) (hname : m.name = imp.importPath)
      (hr : h.moduleResolveImportPath imp = some m.filePath) :
      Loaded h reg imp (reg ++ [m], some m)

theorem moduleLoad_cases (hp : h.Parses) (reg : Registry Ast) (imp : Import) :
    Loaded h reg imp (h.moduleLoad reg imp) := by
  unfold moduleLoad
  cases hm : moduleFind reg imp.importPath with
  | some m => exact .spelling hm
  | none =>
    dsimp only
    rw [openSource_eq]
    cases hr : h.moduleResolveImportPath imp with
    | none => exact .missing hm hr
    | some path =>
      obtain ⟨source, hs⟩ := Option.isSome_iff_exists.1 (exists_of_resolve hr)
      simp only [Option.bind_some, hs, Option.map_some]
      cases hf : reg.find? fun m => m.filePath == path with
      | some m =>
        have hpath : m.filePath = path := by grind
        subst hpath
        exact .file hm (List.mem_of_find?_eq_some hf) hr
      | none =>
        obtain ⟨ast, ha⟩ := Option.isSome_iff_exists.1 (hp path source hs)
        simp only [ha]
        refine .fresh hm (fun e he => ?_) rfl hr
        grind

/-- What the registry remembers of the calls: each entry is the work of the first call that
resolved to its file, and the file of each call has an entry. -/
structure Remembers (h : Host Ast) (calls : List Import) (reg : Registry Ast) : Prop where
  distinct : Distinct reg
  origin : ∀ m ∈ reg, ∃ pre imp post, calls = pre ++ imp :: post ∧ imp.importPath = m.name ∧
    h.moduleResolveImportPath imp = some m.filePath ∧
    ∀ e ∈ pre, h.moduleResolveImportPath e ≠ some m.filePath
  entry : ∀ imp ∈ calls, ∀ file, h.moduleResolveImportPath imp = some file →
    ∃ m ∈ reg, m.filePath = file

theorem Remembers.nil (h : Host Ast) : Remembers h [] [] where
  distinct := List.nodup_nil
  origin := by
    intro m hm
    cases hm
  entry := by
    intro imp hi
    cases hi

theorem Remembers.step {calls : List Import} (hR : Remembers h calls reg) (hp : h.Parses)
    (hget : h.GetsFile reg imp) : Remembers h (calls ++ [imp]) (h.moduleLoad reg imp).1 := by
  have hstay : (∀ file, h.moduleResolveImportPath imp = some file →
      ∃ m ∈ reg, m.filePath = file) → Remembers h (calls ++ [imp]) reg := by
    intro hfile
    refine ⟨hR.distinct, fun m hm => ?_, fun e he file hr => ?_⟩
    · obtain ⟨pre, e, post, rfl, hrest⟩ := hR.origin m hm
      grind
    · rcases List.mem_append.1 he with he | he
      · exact hR.entry e he file hr
      grind
  unfold GetsFile at hget
  have hcase := moduleLoad_cases hp reg imp
  generalize h.moduleLoad reg imp = out at hcase hget ⊢
  cases hcase with
  | spelling hm =>
    refine hstay fun file hr => ⟨_, List.mem_of_find?_eq_some hm, ?_⟩
    grind
  | missing hm hr =>
    grind
  | file hm hmem hr =>
    grind
  | @fresh m hm hnew hname hr =>
    refine ⟨?_, fun e he => ?_, fun e he file hr' => ?_⟩
    · unfold Distinct
      rw [List.map_append, List.map_singleton]
      refine List.nodup_append.2 ⟨hR.distinct, List.nodup_singleton _, ?_⟩
      grind
    · rcases List.mem_append.1 he with he | he
      · obtain ⟨pre, c, post, rfl, hrest⟩ := hR.origin e he
        grind
      · obtain rfl := List.mem_singleton.1 he
        refine ⟨calls, imp, [], rfl, hname.symm, hr, fun c hc hrc => ?_⟩
        -- an earlier call with this file would have left an entry for it
        obtain ⟨old, hold, hfile⟩ := hR.entry c hc _ hrc
        exact hnew old hold hfile
    · rcases List.mem_append.1 he with he | he
      · obtain ⟨old, hold, hfile⟩ := hR.entry e he file hr'
        grind
      grind

theorem remembers_loadAll (hp : h.Parses) {calls : List Import}
    (hget : ∀ pre imp post, calls = pre ++ imp :: post → h.GetsFile (h.loadAll pre) imp) :
    Remembers h calls (h.loadAll calls) := by
  induction calls using List.reverseRecOn with
  | nil => exact .nil h
  | append_singleton calls imp ih =>
    rw [loadAll_snoc]
    refine (ih fun pre e post heq => ?_).step hp (hget calls imp [] rfl)
    grind

theorem Remembers.getsFile {calls : List Import} (hR : Remembers h calls reg) (hp : h.Parses)
    (hagree : ∀ pre e post, calls = pre ++ e :: post → e.importPath = imp.importPath →
      ∀ file, h.moduleResolveImportPath e = some file →
      (∀ e' ∈ pre, h.moduleResolveImportPath e' ≠ some file) →
      h.moduleResolveImportPath imp = some file) :
    h.GetsFile reg imp := by
  unfold GetsFile
  have hcase := moduleLoad_cases hp reg imp
  generalize h.moduleLoad reg imp = out at hcase ⊢
  cases hcase with
  | @spelling m hm =>
    intro m' hm'
    obtain rfl := Option.some.inj hm'
    obtain ⟨pre, e, post, heq, hname, hr, hfirst⟩ :=
      hR.origin _ (List.mem_of_find?_eq_some hm)
    have hm_name : m.name = imp.importPath := by simpa using List.find?_some hm
    grind
  | missing hm hr =>
    intro m' hm'
    cases hm'
  | file hm hmem hr =>
    grind
  | fresh hm hnew hname hr =>
    grind

theorem moduleFind_append {reg : Registry Ast} (more : Registry Ast) {name : Str}
    {m : ModuleInfo Ast} (hm : moduleFind reg name = some m) : moduleFind (reg ++ more) name = some m := by
  unfold moduleFind at hm ⊢
  grind

theorem loadAll_append (hp : h.Parses) (pre post : List Import) :
    ∃ more, h.loadAll (pre ++ post) = h.loadAll pre ++ more := by
  induction post using List.reverseRecOn with
  | nil => exact ⟨[], by simp⟩
  | append_singleton post imp ih =>
    obtain ⟨more, hmore⟩ := ih
    rw [← List.append_assoc, loadAll_snoc]
    have hcase := moduleLoad_cases hp (h.loadAll (pre ++ post)) imp
    generalize h.moduleLoad (h.loadAll (pre ++ post)) imp = out at hcase ⊢
    cases hcase with
    | spelling hm => exact ⟨more, hmore⟩
    | missing hm hr => exact ⟨more, hmore⟩
    | file hm hmem hr => exact ⟨more, hmore⟩
    | @fresh m hm hnew hname hr =>
      grind

theorem Remembers.moduleFind_first {calls : List Import} {file : Str}
    (hR : Remembers h calls reg) (hp : h.Parses) (hget : h.GetsFile reg imp)
    (hr : h.moduleResolveImportPath imp = some file)
    (hfirst : ∀ e ∈ calls, h.moduleResolveImportPath e ≠ some file) :
    ∃ m, m.filePath = file ∧
      moduleFind (h.moduleLoad reg imp).1 imp.importPath = some m := by
  have habsent : ∀ m ∈ reg, m.filePath ≠ file := by
    intro m hm heq
    obtain ⟨pre, e, post, rfl, -, hre, -⟩ := hR.origin m hm
    grind
  unfold GetsFile at hget
  have hcase := moduleLoad_cases hp reg imp
  generalize h.moduleLoad reg imp = out at hcase hget ⊢
  cases hcase with
  | @spelling m hm =>
    grind
  | missing hm hr' =>
    grind
  | @file m hm hmem hr' =>
    grind
  | @fresh m hm hnew hname hr' =>
    rw [hr] at hr'
    refine ⟨m, (Option.some.inj hr').symm, ?_⟩
    unfold moduleFind at hm ⊢
    grind

/-- Every import gets the entry of its file, and no file has two entries, if and only if the
spellings agree. -/
theorem loadsByFile_iff (h : Host Ast) (hp : h.Parses) (calls : List Import) :
    h.LoadsByFile calls ↔ h.SpellingsAgree calls := by
  constructor
  · rintro ⟨hget, -⟩ pre imp mid imp' post heq hname file hr hfirst
    have hR : Remembers h pre (h.loadAll pre) := by
      refine remembers_loadAll hp fun a e b hab => ?_
      exact hget a e (b ++ imp :: (mid ++ imp' :: post)) (by rw [heq, hab]; simp)
    obtain ⟨m, hfile, hfind⟩ := hR.moduleFind_first hp (hget _ _ _ heq) hr hfirst
    rw [← loadAll_snoc] at hfind
    obtain ⟨more, hmore⟩ := loadAll_append hp (pre ++ [imp]) mid
    have hlater := moduleFind_append more hfind
    rw [← hmore, hname] at hlater
    have hgets := hget (pre ++ [imp] ++ mid) imp' post (by rw [heq]; simp)
    rw [hgets m (by rw [moduleLoad_spelling hlater]), hfile]
  · intro hagree
    have hget : ∀ n pre imp post, pre.length = n → calls = pre ++ imp :: post →
        h.GetsFile (h.loadAll pre) imp := by
      intro n
      induction n using Nat.strong_induction_on with
      | _ n ih =>
        rintro pre imp post rfl heq
        have hR : Remembers h pre (h.loadAll pre) := by
          refine remembers_loadAll hp fun a e b hab => ?_
          refine ih a.length ?_ a e (b ++ imp :: post) rfl (by rw [heq, hab]; simp)
          rw [hab]
          simp
        refine hR.getsFile hp fun a e b hab hname file hr hfirst => ?_
        exact hagree a e b imp post (by rw [heq, hab]; simp) hname file hr hfirst
    refine ⟨fun pre imp post heq => hget _ pre imp post rfl heq, fun pre post heq => ?_⟩
    refine (remembers_loadAll hp fun a e b hab => ?_).distinct
    exact hget _ a e (b ++ post) rfl (by rw [heq, hab]; simp)

/-- Two directories with a file `u.lls` each. -/
def twoDirs : Host Unit where
  read path :=
    if path = lit ['a', '/', 'u', '.', 'l', 'l', 's'] ∨ path = lit ['b', '/', 'u', '.', 'l', 'l', 's']
    then some [] else none
  pathSep := ch '/'
  root := none
  parse := fun _ _ => some ()

theorem loadsByFile_iff_twoDirs : twoDirs.Parses ∧
    (twoDirs.LoadsByFile [⟨lit ['u'], lit ['a', '/', 'm']⟩, ⟨lit ['u'], lit ['a', '/', 'n']⟩] ↔
      twoDirs.SpellingsAgree
        [⟨lit ['u'], lit ['a', '/', 'm']⟩, ⟨lit ['u'], lit ['a', '/', 'n']⟩]) :=
  have hp : twoDirs.Parses := fun _ _ _ => rfl
  ⟨hp, loadsByFile_iff twoDirs hp _⟩

/-- The second import of `u` is made in `b` and gets the file in `a`. -/
theorem loadsByFile_twoDirs :
    ¬ twoDirs.LoadsByFile [⟨lit ['u'], lit ['a', '/', 'm']⟩, ⟨lit ['u'], lit ['b', '/', 'm']⟩] := by
  rintro ⟨hget, -⟩
  have h := hget [⟨lit ['u'], lit ['a', '/', 'm']⟩] ⟨lit ['u'], lit ['b', '/', 'm']⟩ [] rfl
    ⟨lit ['u'], lit ['a', '/', 'u', '.', 'l', 'l', 's'], [], (), false⟩ (by rfl)
  exact absurd h (by decide)

end LsLang.Modules.Host
