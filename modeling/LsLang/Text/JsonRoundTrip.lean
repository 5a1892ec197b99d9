import LsLang.Core.MapMethods
import LsLang.Text.JsonLength
import LsLang.Text.JsonLimit

/-! `parse` reads back what `stringify` and `stringify_pretty` print. -/

namespace LsLang.Text.Json

open LsLang.Core JsonText

theorem mk_inj {a b : Str} : (Key.mk a : Key Str) = Key.mk b ↔ a = b :=
  Key.mk_eq.trans beq_iff_eq

def keySet (ks : List Str) : Finset (Key Str) := (ks.map Key.mk).toFinset

theorem mem_keySet {k : Str} {ks : List Str} : Key.mk k ∈ keySet ks ↔ k ∈ ks := by
  unfold keySet
  rw [List.mem_toFinset, List.mem_map]
  constructor
  · rintro ⟨a, ha, hk⟩
    exact mk_inj.mp hk ▸ ha
  grind

theorem keySet_append (ks : List Str) (k : Str) :
    keySet (ks ++ [k]) = insert (Key.mk k) (keySet ks) := by
  unfold keySet
  rw [List.map_append, List.toFinset_append, List.map_singleton, List.toFinset_cons,
    List.toFinset_nil, insert_empty_eq, Finset.union_comm, Finset.insert_eq]

namespace Tree

/-! `push` and `set`, on trees. -/

def push (self item : Tree) : Tree :=
  match self with
  | array ts => array (ts ++ [item])
  | t => t

def setField : List (Str × Tree) → Str → Tree → List (Str × Tree)
  | [], k, t => [(k, t)]
  | (k', t') :: fs, k, t => if k' = k then (k, t) :: fs else (k', t') :: setField fs k t

def set (self : Tree) (k : Str) (val : Tree) : Tree :=
  match self with
  | object fs => object (setField fs k val)
  | t => t

theorem keys_setField (fs : List (Str × Tree)) (k : Str) (t : Tree) :
    (setField fs k t).map Prod.fst =
      if k ∈ fs.map Prod.fst then fs.map Prod.fst else fs.map Prod.fst ++ [k] := by
  induction fs with
  | nil => rfl
  | cons f fs ih =>
    obtain ⟨k', t'⟩ := f
    rw [setField]
    by_cases hk : k' = k
    · grind
    · rw [if_neg hk, List.map_cons, ih, List.map_cons]
      have hiff : k ∈ k' :: fs.map Prod.fst ↔ k ∈ fs.map Prod.fst := by grind
      by_cases hm : k ∈ fs.map Prod.fst
      · grind
      · grind

theorem mem_setField {fs : List (Str × Tree)} (hfs : (fs.map Prod.fst).Nodup) {k a : Str} {t b : Tree}
    (h : (a, b) ∈ setField fs k t) : (a, b) = (k, t) ∨ (a, b) ∈ fs ∧ a ≠ k := by
  induction fs with
  | nil => exact Or.inl (List.mem_singleton.mp h)
  | cons f fs ih =>
    obtain ⟨k', t'⟩ := f
    rw [List.map_cons, List.nodup_cons] at hfs
    rw [setField] at h
    split at h
    · grind
    · grind

mutual

/-- Every object of the tree is spread out when its keys are set into an empty table. -/
def Reads : Tree → Prop
  | array ts => readsItems ts
  | object fs => Map.Spreads 0 ∅ ((fs.map Prod.fst).map (Key.mk (K := Str))) ∧ readsFields fs
  | _ => True

def readsItems : List Tree → Prop
  | [] => True
  | t :: ts => t.Reads ∧ readsItems ts

def readsFields : List (Str × Tree) → Prop
  | [] => True
  | (_, t) :: fs => t.Reads ∧ readsFields fs

end

variable {F : Type} [F64 F]

mutual

def Shows : Tree → JsonValue F → Prop
  | null, v => v = .null
  | bool b, v => v = .bool b
  | int i, v => |i| ≤ 2000000000 ∧ v = .intVal i
  | text s, v => v = .text s
  | array ts, v => ∃ vs, v = .array vs ∧ showsItems ts vs
  | object fs, v => ∃ m f, v = .object (fs.map Prod.fst) (some m) ∧ m.Is f ∧
      f.keys = keySet (fs.map Prod.fst) ∧ (fs.map Prod.fst).Nodup ∧ f.keys.card < 2 ^ 27 ∧
      showsFields fs f

def showsItems : List Tree → List (JsonValue F) → Prop
  | [], vs => vs = []
  | t :: ts, vs => ∃ w ws, vs = w :: ws ∧ t.Shows w ∧ showsItems ts ws

def showsFields : List (Str × Tree) → KeyMap Str (JsonValue F) → Prop
  | [], _ => True
  | (k, t) :: fs, f => (∃ w, f.lookup (Key.mk k) = some w ∧ t.Shows w) ∧ showsFields fs f

end

theorem showsItems_append {ts : List Tree} {vs : List (JsonValue F)} {t : Tree} {v : JsonValue F}
    (h : showsItems ts vs) (ht : t.Shows v) : showsItems (ts ++ [t]) (vs ++ [v]) := by
  induction ts generalizing vs with
  | nil =>
    obtain rfl : vs = [] := h
    exact ⟨v, [], rfl, ht, rfl⟩
  | cons t' ts ih =>
    obtain ⟨w, ws, rfl, hw, hws⟩ := h
    exact ⟨w, ws ++ [v], rfl, hw, ih hws⟩

theorem showsFields_iff {fs : List (Str × Tree)} {f : KeyMap Str (JsonValue F)} :
    showsFields fs f ↔ ∀ k t, (k, t) ∈ fs → ∃ w, f.lookup (Key.mk k) = some w ∧ t.Shows w := by
  induction fs with
  | nil => exact ⟨fun _ _ _ => nofun, fun _ => trivial⟩
  | cons g fs ih =>
    obtain ⟨k, t⟩ := g
    rw [showsFields, ih]
    grind

end Tree

variable {F : Type} [F64 F]

/-! The values a program can build. -/

/-- The table of the object has room for the key: it stays spread out, with fewer than 2^27 keys. -/
def Fits (self : JsonValue F) (k : Str) : Prop :=
  match self with
  | .object ks (some m) => Map.Spreads m.cap (keySet ks) [Key.mk k] ∧
      (insert (Key.mk k) (keySet ks)).card < 2 ^ 27
  | _ => True

/-- Values built by the constructors, `push` and `set`, and the trees they stand for. Every `set`
meets the guard. -/
inductive Built (guard : JsonValue F → Str → Prop) : JsonValue F → Tree → Prop
  | null : Built guard .null .null
  | bool (b : Bool) : Built guard (.bool b) (.bool b)
  | int (i : Int) (hi : |i| ≤ 2000000000) : Built guard (.intVal i) (.int i)
  | text (s : Str) : Built guard (.text s) (.text s)
  | array : Built guard .arrayNew (.array [])
  | object : Built guard .objectNew (.object [])
  | push {v w : JsonValue F} {t u : Tree} (hv : Built guard v t) (hw : Built guard w u) :
      Built guard (v.push w) (t.push u)
  | set {v w : JsonValue F} {t u : Tree} {k : Str} (hv : Built guard v t) (hw : Built guard w u)
      (hk : guard v k) : Built guard (v.set k w) (t.set k u)

omit [F64 F] in
theorem set_object {ks : List Str} {m : Map Str (JsonValue F)} {f : KeyMap Str (JsonValue F)} {k : Str}
    (his : m.Is f) (hkeys : f.keys = keySet ks) (hcard : f.keys.card < 2 ^ 27)
    (hk : Fits (.object ks (some m)) k) (w : JsonValue F) :
    ∃ m', JsonValue.set (.object ks (some m)) k w =
        .object (if k ∈ ks then ks else ks ++ [k]) (some m') ∧
      m'.Is (f.insert (Key.mk k) w) ∧
      (f.insert (Key.mk k) w).keys = keySet (if k ∈ ks then ks else ks ++ [k]) ∧
      (f.insert (Key.mk k) w).keys.card < 2 ^ 27 := by
  obtain ⟨⟨hspread, -⟩, hroom⟩ := hk
  obtain ⟨hclone, hcap⟩ := his.clone_spec
  rw [← hkeys, ← hcap] at hspread
  rw [← hkeys] at hroom
  obtain ⟨m', hset, -, his'⟩ := hclone.set_spec k w hcard (hclone.setProbes_le k hcard hspread)
  have hfound : (f.lookup (Key.mk k)).isSome = decide (k ∈ ks) := by
    rw [Bool.eq_iff_iff, Finmap.lookup_isSome, ← Finmap.mem_keys, hkeys, mem_keySet, decide_eq_true_iff]
  refine ⟨m', ?_, his', ?_, by rw [keys_insert]; exact hroom⟩
  · unfold JsonValue.set
    simp only [Option.map_some, Option.bind_some, hclone.has_spec k, hfound]
    rw [show JsonValue.setEntry (some m.clone) k w = m.clone.set k w from rfl, hset]
    grind
  · rw [keys_insert, hkeys]
    split
    · next hm => exact Finset.insert_eq_of_mem (mem_keySet.mpr hm)
    · rw [keySet_append]

theorem nodup_setKey {ks : List Str} (h : ks.Nodup) (k : Str) :
    (if k ∈ ks then ks else ks ++ [k]).Nodup := by grind

theorem Shows.set {fs : List (Str × Tree)} {u : Tree} {v w : JsonValue F} {k : Str}
    (h : (Tree.object fs).Shows v) (hw : u.Shows w) (hk : Fits v k) :
    (Tree.object (Tree.setField fs k u)).Shows (v.set k w) := by
  obtain ⟨m, f, rfl, his, hkeys, hnodup, hcard, hfs⟩ := h
  obtain ⟨m', hset, his', hkeys', hcard'⟩ := set_object his hkeys hcard hk w
  rw [← Tree.keys_setField fs k u] at hset hkeys'
  refine ⟨m', _, hset, his', hkeys', ?_, hcard', ?_⟩
  · rw [Tree.keys_setField]
    exact nodup_setKey hnodup k
  · rw [Tree.showsFields_iff] at hfs ⊢
    intro a b hab
    rcases Tree.mem_setField hnodup hab with hab | ⟨hab, hne⟩
    · grind [Finmap.lookup_insert, Prod.mk.inj]
    · rw [Finmap.lookup_insert_of_ne f (mt mk_inj.mp hne)]
      exact hfs a b hab

theorem Built.shows {v : JsonValue F} {t : Tree} (h : Built Fits v t) : t.Shows v := by
  induction h with
  | null => exact rfl
  | bool => exact rfl
  | int i hi => exact ⟨hi, rfl⟩
  | text => exact rfl
  | array => exact ⟨[], rfl, rfl⟩
  | object =>
    exact ⟨Map.empty, ∅, rfl, Map.empty_is, by simp [keySet], List.nodup_nil, by simp, trivial⟩
  | @push v w t u _ _ ihv ihw =>
    cases t with
    | array ts =>
      obtain ⟨vs, rfl, hvs⟩ := ihv
      exact ⟨vs ++ [w], rfl, Tree.showsItems_append hvs ihw⟩
    | null => obtain rfl := ihv; exact rfl
    | bool => obtain rfl := ihv; exact rfl
    | text => obtain rfl := ihv; exact rfl
    | int => obtain ⟨hi, rfl⟩ := ihv; exact ⟨hi, rfl⟩
    | object =>
      have h := ihv
      obtain ⟨m, f, rfl, -⟩ := ihv
      exact h
  | @set v w t u k _ _ hk ihv ihw =>
    cases t with
    | object fs => exact Shows.set ihv ihw hk
    | null => obtain rfl := ihv; exact rfl
    | bool => obtain rfl := ihv; exact rfl
    | text => obtain rfl := ihv; exact rfl
    | int => obtain ⟨hi, rfl⟩ := ihv; exact ⟨hi, rfl⟩
    | array =>
      have h := ihv
      obtain ⟨vs, rfl, -⟩ := ihv
      exact h

/-! What `stringify` prints for a value is the text of its tree. -/

theorem showsItems_length {ts : List Tree} {vs : List (JsonValue F)} (h : Tree.showsItems ts vs) :
    vs.length = ts.length := by
  induction ts generalizing vs with
  | nil => rw [show vs = [] from h]; rfl
  | cons t ts ih =>
    obtain ⟨w, ws, rfl, -, hws⟩ := h
    grind

theorem stringifyImpl_child (n : Nat) (depth indent : Int) (cv : JsonValue F) :
    (if indent ≤ 0 then stringifyImpl n cv depth 0 else stringifyImpl n cv (depth + 1) indent) =
      stringifyImpl n cv (Tree.childDepth depth indent) (Tree.childIndent indent) := by
  unfold Tree.childDepth Tree.childIndent
  split <;> rfl

/-! What is read from the text of a tree stands for the tree again. -/

variable (F) in
theorem fieldList_rawFields (fs : List (Str × Tree)) : fieldList (Tree.rawFields fs) =
    fs.map fun g => (g.1, (ofRaw g.2.raw : JsonValue F)) := by
  induction fs with
  | nil => rfl
  | cons g fs ih =>
    obtain ⟨k, t⟩ := g
    unfold fieldList at ih ⊢
    rw [Tree.rawFields, List.map_cons, ih, textOf_pieces]
    rfl

omit [F64 F] in
theorem setAll_empty (es : List (Str × JsonValue F))
    (hs : Map.Spreads 0 ∅ ((es.map Prod.fst).map (Key.mk (K := Str))))
    (hn : (keySet (es.map Prod.fst)).card < 2 ^ 27) :
    ∃ m, es.foldlM (fun m e => m.set e.1 e.2) Map.empty = some m ∧ m.Is (insertAll es ∅) ∧
      (insertAll es (∅ : KeyMap Str (JsonValue F))).keys = keySet (es.map Prod.fst) := by
  have hmap : (es.map Prod.fst).map (Key.mk (K := Str)) = es.map entryKey := List.map_map ..
  have hkeys : (insertAll es (∅ : KeyMap Str (JsonValue F))).keys = keySet (es.map Prod.fst) := by
    rw [keys_insertAll, Finmap.keys_empty, Finset.union_empty, keySet, hmap]
  rw [← hkeys] at hn
  rw [hmap] at hs
  obtain ⟨m, hm, his⟩ := Map.empty_is.setAll_spec hn (Map.empty_is.setAllProbes_le hn hs)
  grind

section Print

set_option linter.unusedSectionVars false

variable [F64.Exact F]

variable (F) in
theorem formatNumber_int {i : Int} (hi : |i| ≤ 2000000000) :
    formatNumber (F64.ofInt i : F) = showInt i := by
  have h53 : |i| ≤ 2 ^ 53 := hi.trans (by norm_num)
  obtain ⟨hlo, hup⟩ := abs_le.mp hi
  unfold formatNumber
  rw [F64.Exact.toInt_ofInt i (hi.trans_lt (by norm_num))]
  dsimp only
  rw [F64.Exact.beq_ofInt i i h53 h53, F64.Exact.le_ofInt _ i (by decide) h53,
    F64.Exact.le_ofInt i _ h53 (by decide), if_pos]
  grind

mutual

theorem stringifyImpl_shows : ∀ (t : Tree) (v : JsonValue F) (n : Nat) (depth indent : Int),
    t.Shows v → t.depth < n → 0 ≤ depth → (t.print depth indent).length ≤ 2 ^ 30 →
    stringifyImpl n v depth indent = some (t.print depth indent)
  | _, _, 0, _, _, _, hn, _, _ => absurd hn (Nat.not_lt_zero _)
  | .null, _, n + 1, _, _, h, _, _, _ => by
    obtain rfl := h
    rfl
  | .bool b, _, n + 1, _, _, h, _, _, _ => by
    obtain rfl := h
    rfl
  | .text s, _, n + 1, _, _, h, _, _, hlen => by
    obtain rfl := h
    exact pushed_eq hlen
  | .int i, _, n + 1, _, _, h, _, _, _ => by
    obtain ⟨hi, rfl⟩ := h
    exact congrArg some (formatNumber_int F hi)
  | .array ts, _, n + 1, depth, indent, h, hn, hdepth, hlen => by
    obtain ⟨vs, rfl, hvs⟩ := h
    rw [Tree.print] at hlen
    rw [stringifyImpl, Tree.print]
    simp only [stringifyImpl_child, showsItems_length hvs]
    split
    · rfl
    next hne =>
    rw [if_neg hne] at hlen
    have hitems := stringifyImpl_items ts vs n _ _ hvs (by rw [Tree.depth] at hn; omega)
      (Tree.childDepth_nonneg hdepth indent) fun part hpart => (part_le hpart).trans hlen
    rw [hitems]
    refine layout_eq hdepth (fun hnil => hne ?_) hlen
    rw [← Tree.length_printItems ts, hnil, List.length_nil]
  | .object fs, _, n + 1, depth, indent, h, hn, hdepth, hlen => by
    obtain ⟨m, f, rfl, his, -, -, -, hfs⟩ := h
    rw [Tree.print] at hlen
    rw [stringifyImpl, Tree.print]
    simp only [stringifyImpl_child, List.length_map, Option.bind_eq_bind, Option.bind_some]
    split
    · rfl
    next hne =>
    rw [if_neg hne] at hlen
    have hfields := stringifyImpl_fields fs m f n (Tree.childDepth depth indent) (Tree.childIndent indent) his hfs
      (by rw [Tree.depth] at hn; omega) (Tree.childDepth_nonneg hdepth indent) fun part hpart => (part_le hpart).trans hlen
    simp only [Tree.childIndent_le] at hfields
    refine (congrArg (fun parts => Option.bind parts (layout depth indent '\x7b' '\x7d')) hfields).trans ?_
    refine layout_eq hdepth (fun hnil => hne ?_) hlen
    rw [← Tree.length_printFields fs, hnil, List.length_nil]

theorem stringifyImpl_items : ∀ (ts : List Tree) (vs : List (JsonValue F)) (n : Nat)
    (depth indent : Int), Tree.showsItems ts vs → Tree.depthItems ts ≤ n → 0 ≤ depth →
    (∀ part ∈ Tree.printItems ts depth indent, part.length ≤ 2 ^ 30) →
    (vs.mapM fun cv => stringifyImpl n cv depth indent) = some (Tree.printItems ts depth indent)
  | [], vs, n, _, _, h, _, _, _ => by
    rw [show vs = [] from h]
    rfl
  | t :: ts, _, n, depth, indent, h, hn, hdepth, hlen => by
    obtain ⟨w, ws, rfl, hw, hws⟩ := h
    rw [Tree.depthItems] at hn
    rw [Tree.printItems] at hlen
    have ht := stringifyImpl_shows t w n depth indent hw (by omega) hdepth (hlen _ (List.mem_cons_self ..))
    have hts := stringifyImpl_items ts ws n depth indent hws (by omega) hdepth
      fun part hpart => hlen part (List.mem_cons_of_mem _ hpart)
    rw [List.mapM_cons, ht, hts]
    rfl

theorem stringifyImpl_fields : ∀ (fs : List (Str × Tree)) (m : Map Str (JsonValue F))
    (f : KeyMap Str (JsonValue F)) (n : Nat) (depth indent : Int), m.Is f → Tree.showsFields fs f →
    Tree.depthFields fs ≤ n → 0 ≤ depth →
    (∀ part ∈ Tree.printFields fs depth indent, part.length ≤ 2 ^ 30) →
    ((fs.map Prod.fst).mapM fun key => (m.get key).bind fun r =>
      match r with
      | some cv => (stringifyImpl n cv depth indent).map (ch '"' :: (escapeString key ++
          (if indent ≤ 0 then lit ['"', ':'] else lit ['"', ':', ' '])) ++ ·)
      | none => some (ch '"' :: (escapeString key ++
          (if indent ≤ 0 then lit ['"', ':'] else lit ['"', ':', ' '])))) =
      some (Tree.printFields fs depth indent)
  | [], _, _, _, _, _, _, _, _, _, _ => rfl
  | (k, t) :: fs, m, f, n, depth, indent, his, h, hn, hdepth, hlen => by
    obtain ⟨⟨w, hk, hw⟩, hfs⟩ := h
    rw [Tree.depthFields] at hn
    rw [Tree.printFields] at hlen
    have hkt := hlen _ (List.mem_cons_self ..)
    rw [List.length_append] at hkt
    have ht := stringifyImpl_shows t w n depth indent hw (by omega) hdepth ((Nat.le_add_left _ _).trans hkt)
    have hts := stringifyImpl_fields fs m f n depth indent his hfs (by omega) hdepth
      fun part hpart => hlen part (List.mem_cons_of_mem _ hpart)
    rw [List.map_cons, List.mapM_cons, his.get_spec, hk, hts]
    simp only [Option.bind_some, ht]
    rfl

end

mutual

theorem ofRaw_shows : ∀ (t : Tree) (v : JsonValue F), t.Shows v → t.Reads →
    t.Shows (ofRaw t.raw : JsonValue F)
  | .null, _, _, _ => rfl
  | .bool _, _, _, _ => rfl
  | .int i, _, h, _ => by
    refine ⟨h.1, ?_⟩
    rw [Tree.raw, ofRaw, numberOf, toFloat_showInt (h.1.trans (by norm_num))]
    rfl
  | .text s, _, _, _ => by
    rw [Tree.raw, ofRaw, textOf_pieces]
    rfl
  | .array ts, _, ⟨vs, _, hvs⟩, hr => ⟨_, rfl, ofItems_shows ts vs hvs hr⟩
  | .object fs, _, ⟨_, f, _, _, hkeys, hnodup, hcard, hfs⟩, hr => by
    have hfst : (fs.map fun g => (g.1, (ofRaw g.2.raw : JsonValue F))).map Prod.fst =
        fs.map Prod.fst := List.map_map ..
    obtain ⟨m', hm', his', hkeys'⟩ := setAll_empty
      (fs.map fun g => (g.1, (ofRaw g.2.raw : JsonValue F)))
      (by rw [hfst]; exact hr.1) (by grind)
    have hnd : ((fs.map fun g => (g.1, (ofRaw g.2.raw : JsonValue F))).map entryKey).Nodup := by
      rw [show ((fs.map fun g => (g.1, (ofRaw g.2.raw : JsonValue F))).map entryKey) =
        (fs.map Prod.fst).map Key.mk by rw [List.map_map, List.map_map]; rfl]
      exact hnodup.map fun a b h => mk_inj.mp h
    rw [hfst] at hkeys'
    refine ⟨m', _, ?_, his', hkeys', hnodup, by grind, ?_⟩
    · rw [Tree.raw, ofRaw, ofKeys_eq (F := F), ofEntries_eq, fieldList_rawFields, hfst, hm']
    · refine ofFields_shows fs f _ hfs hr.2 fun k t hkt => ?_
      grind [lookup_insertAll]

theorem ofItems_shows : ∀ (ts : List Tree) (vs : List (JsonValue F)), Tree.showsItems ts vs →
    Tree.readsItems ts → Tree.showsItems ts (ofItems (Tree.rawItems ts) : List (JsonValue F))
  | [], _, _, _ => rfl
  | t :: ts, _, ⟨w, ws, _, hw, hws⟩, hr =>
    ⟨_, _, rfl, ofRaw_shows t w hw hr.1, ofItems_shows ts ws hws hr.2⟩

theorem ofFields_shows : ∀ (fs : List (Str × Tree)) (f f' : KeyMap Str (JsonValue F)),
    Tree.showsFields fs f → Tree.readsFields fs →
    (∀ k t, (k, t) ∈ fs → f'.lookup (Key.mk k) = some (ofRaw t.raw)) → Tree.showsFields fs f'
  | [], _, _, _, _, _ => trivial
  | (k, t) :: fs, f, f', ⟨⟨w, _, hw⟩, hfs⟩, hr, hl =>
    ⟨⟨_, hl k t (List.mem_cons_self ..), ofRaw_shows t w hw hr.1⟩,
      ofFields_shows fs f f' hfs hr.2 fun a b hab => hl a b (List.mem_cons_of_mem _ hab)⟩

end

end Print

/-! Values that stand for one tree are equal. -/

/-- The same constructors, the same keys in the same order, the same entries and the same
bytes of strings. -/
inductive Same : JsonValue F → JsonValue F → Prop
  | null : Same .null .null
  | bool (b : Bool) : Same (.bool b) (.bool b)
  | number (x : F) : Same (.number x) (.number x)
  | text (s : Str) : Same (.text s) (.text s)
  | array {vs ws : List (JsonValue F)} (hlen : vs.length = ws.length)
      (h : ∀ (i : Nat) (v w : JsonValue F), vs[i]? = some v → ws[i]? = some w → Same v w) :
      Same (.array vs) (.array ws)
  | object {ks : List Str} {m n : Map Str (JsonValue F)} (hm : ∀ k, m.get k ≠ none ∧ n.get k ≠ none)
      (hn : ∀ k, m.get k = some none ↔ n.get k = some none)
      (h : ∀ (k : Str) (v w : JsonValue F), m.get k = some (some v) → n.get k = some (some w) →
        Same v w) :
      Same (.object ks (some m)) (.object ks (some n))

mutual

theorem same_of_shows : ∀ (t : Tree) (v w : JsonValue F), t.Shows v → t.Shows w → Same v w
  | .null, _, _, hv, hw => by
    obtain rfl := hv
    obtain rfl := hw
    exact .null
  | .bool b, _, _, hv, hw => by
    obtain rfl := hv
    obtain rfl := hw
    exact .bool b
  | .int i, _, _, hv, hw => by
    obtain ⟨-, rfl⟩ := hv
    obtain ⟨-, rfl⟩ := hw
    exact .number _
  | .text s, _, _, hv, hw => by
    obtain rfl := hv
    obtain rfl := hw
    exact .text s
  | .array ts, _, _, ⟨vs, hv, hvs⟩, ⟨ws, hw, hws⟩ => by
    subst hv hw
    exact .array ((showsItems_length hvs).trans (showsItems_length hws).symm)
      (same_of_items ts vs ws hvs hws)
  | .object fs, _, _, ⟨m, f, hv, hism, hkm, _, _, hfm⟩, ⟨n, g, hw, hisn, hkn, _, _, hfn⟩ => by
    subst hv hw
    have hnone : ∀ k, f.lookup (Key.mk k) = none ↔ g.lookup (Key.mk k) = none := by
      intro k
      rw [Finmap.lookup_eq_none, Finmap.lookup_eq_none, ← Finmap.mem_keys, ← Finmap.mem_keys, hkm, hkn]
    refine .object (fun k => ?_) (fun k => ?_) fun k v w hv hw => ?_
    · rw [hism.get_spec, hisn.get_spec]
      grind
    · rw [hism.get_spec, hisn.get_spec, Option.some_inj, Option.some_inj]
      exact hnone k
    · rw [hism.get_spec, Option.some_inj] at hv
      rw [hisn.get_spec, Option.some_inj] at hw
      have hmem : k ∈ fs.map Prod.fst := by
        rw [← mem_keySet, ← hkm, Finmap.mem_keys]
        exact Finmap.mem_iff.mpr ⟨v, hv⟩
      exact same_of_fields fs f g hfm hfn k v w hmem hv hw

theorem same_of_items : ∀ (ts : List Tree) (vs ws : List (JsonValue F)), Tree.showsItems ts vs →
    Tree.showsItems ts ws → ∀ (i : Nat) (v w : JsonValue F), vs[i]? = some v → ws[i]? = some w →
    Same v w
  | [], _, _, hvs, _, i, v, w, hv, _ => by
    rw [show _ = [] from hvs] at hv
    cases hv
  | t :: ts, _, _, ⟨v₀, vs, hv₀, hvt, hvs⟩, ⟨w₀, ws, hw₀, hwt, hws⟩, i, v, w, hv, hw => by
    subst hv₀ hw₀
    cases i with
    | zero =>
      obtain rfl := Option.some.inj hv
      obtain rfl := Option.some.inj hw
      exact same_of_shows t _ _ hvt hwt
    | succ i => exact same_of_items ts vs ws hvs hws i v w hv hw

theorem same_of_fields : ∀ (fs : List (Str × Tree)) (f g : KeyMap Str (JsonValue F)),
    Tree.showsFields fs f → Tree.showsFields fs g → ∀ (k : Str) (v w : JsonValue F),
    k ∈ fs.map Prod.fst → f.lookup (Key.mk k) = some v → g.lookup (Key.mk k) = some w → Same v w
  | [], _, _, _, _, _, _, _, hk, _, _ => nomatch hk
  | (a, t) :: fs, f, g, ⟨⟨x, hx, hxt⟩, hf⟩, ⟨⟨y, hy, hyt⟩, hg⟩, k, v, w, hk, hv, hw => by
    by_cases ha : k = a
    · subst ha
      obtain rfl := Option.some.inj (hx.symm.trans hv)
      obtain rfl := Option.some.inj (hy.symm.trans hw)
      exact same_of_shows t _ _ hxt hyt
    · exact same_of_fields fs f g hf hg k v w ((List.mem_cons.mp hk).resolve_left ha) hv hw

end

theorem parse_print [F64.Exact F] {v : JsonValue F} {t : Tree} (h : t.Shows v) (hd : t.depth ≤ 128)
    (hr : t.Reads) {indent : Int} (hlen : t.length 0 indent ≤ 2 ^ 30) : ∃ (w : JsonValue F) (p : Cursor),
      parseIn strRoom (t.print 0 indent) = .ok w p ∧ Same v w := by
  have htext : IsText loose 128 (t.print 0 indent) t.raw :=
    ⟨[], _, [], (List.append_nil _).symm, ws_nil, ws_nil, t.print_derives 128 0 indent hd⟩
  obtain ⟨p, hp⟩ := parse_of_text (F := F) htext
  rw [← t.length_print] at hlen
  have hwithin : Within (2 ^ 30) (t.print 0 indent) := within_of_length hlen (by omega)
  exact ⟨_, p, (parseIn_within hwithin).trans hp, same_of_shows t _ _ h (ofRaw_shows t v h hr)⟩

theorem stringifyImpl_built [F64.Exact F] {v : JsonValue F} {t : Tree} (h : Built Fits v t) {indent : Int}
    (hlen : t.length 0 indent ≤ 2 ^ 30) (n : Nat) (hn : t.depth < n) :
    stringifyImpl n v 0 indent = some (t.print 0 indent) :=
  stringifyImpl_shows t v n 0 indent h.shows hn le_rfl (t.length_print 0 indent ▸ hlen)

/-- Of a value that was built with room in its tables, both printed forms are read back if a `Str` holds them. -/
theorem parse_stringify [F64.Exact F] {v : JsonValue F} {t : Tree} (h : Built Fits v t)
    (hd : t.depth ≤ 128) (hr : t.Reads) :
    (t.length 0 0 ≤ 2 ^ 30 → ∃ s, (∀ n, t.depth < n → stringify n v = some s) ∧
      ∃ (w : JsonValue F) (p : Cursor), parseIn strRoom s = .ok w p ∧ Same v w) ∧
    ∀ indent, t.length 0 indent ≤ 2 ^ 30 → ∃ s, (∀ n, t.depth < n → stringifyPretty n v indent = some s) ∧
      ∃ (w : JsonValue F) (p : Cursor), parseIn strRoom s = .ok w p ∧ Same v w :=
  ⟨fun hlen => ⟨_, stringifyImpl_built h hlen, parse_print h.shows hd hr hlen⟩,
    fun _ hlen => ⟨_, stringifyImpl_built h hlen, parse_print h.shows hd hr hlen⟩⟩

/-- An array of a negative number and of bytes that need an escape, under the key `a`. -/
def nested : JsonValue Int :=
  JsonValue.set .objectNew [97] ((JsonValue.arrayNew.push (.intVal (-5))).push (.text [34, 10]))

theorem parse_stringify_nested :
    (∃ s, (∀ n, 2 < n → stringify n nested = some s) ∧
      ∃ (w : JsonValue Int) (p : Cursor), parseIn strRoom s = .ok w p ∧ Same nested w) ∧
    ∃ s, (∀ n, 2 < n → stringifyPretty n nested 4 = some s) ∧
      ∃ (w : JsonValue Int) (p : Cursor), parseIn strRoom s = .ok w p ∧ Same nested w := by
  have hkey : ({Key.mk [97]} : Finset (Key Str)).card = 1 := Finset.card_singleton _
  have hone : insert (Key.mk [97]) (∅ : Finset (Key Str)) = {Key.mk [97]} := rfl
  have hbuilt : Built Fits nested (.object [([97], .array [.int (-5), .text [34, 10]])]) := by
    refine Built.set .object (.push (.push .array (.int (-5) (by decide))) (.text [34, 10]))
      ⟨⟨spread_of_card ?_, trivial⟩, ?_⟩
    · change (insert (Key.mk [97]) (∅ : Finset (Key Str))).card ≤ 255
      rw [hone, hkey]
      norm_num
    · change (insert (Key.mk [97]) (∅ : Finset (Key Str))).card < 2 ^ 27
      rw [hone, hkey]
      norm_num
  have hreads : Tree.Reads (.object [([97], .array [.int (-5), .text [34, 10]])]) := by
    refine ⟨⟨spread_of_card ?_, trivial⟩, ⟨trivial, trivial, trivial⟩, trivial⟩
    rw [hone, hkey]
    norm_num
  exact ⟨(parse_stringify hbuilt (by decide) hreads).1 (by decide),
    (parse_stringify hbuilt (by decide) hreads).2 4 (by decide)⟩

/-! Strings of zero bytes all have the hash 0. -/

def zeroKey (n : Nat) : Str := List.replicate n 0

def zeroKeys (n : Nat) : List Str := (List.range n).map zeroKey

/-- The object with the first `n` of them as its keys. -/
def zeros : Nat → JsonValue Int
  | 0 => .objectNew
  | n + 1 => (zeros n).set (zeroKey n) .null

theorem hash_zeroKey (n : Nat) : HashEqual.hash (zeroKey n) = 0 := by
  change fxhash (List.replicate n 0) 0 = 0
  induction n with
  | zero => rfl
  | succ n ih =>
    have hstep : ((0 : UInt64) ^^^ (0 : UInt8).toUInt64) <<< 5 |||
        ((0 : UInt64) ^^^ (0 : UInt8).toUInt64) >>> 59 = 0 := by
      rw [show (0 : UInt8).toUInt64 = 0 from rfl, UInt64.xor_self, UInt64.zero_shiftLeft,
        UInt64.zero_shiftRight, UInt64.or_self]
    rw [List.replicate_succ, fxhash.eq_def]
    grind

theorem zeroKey_inj {a b : Nat} (h : zeroKey a = zeroKey b) : a = b := by
  have := congrArg List.length h
  rwa [zeroKey, zeroKey, List.length_replicate, List.length_replicate] at this

theorem zeroKeys_nodup (n : Nat) : (zeroKeys n).Nodup := List.nodup_range.map fun _ _ => zeroKey_inj

theorem zeroKeys_succ (n : Nat) : zeroKeys (n + 1) = zeroKeys n ++ [zeroKey n] := by
  unfold zeroKeys
  rw [List.range_succ, List.map_append]
  rfl

theorem zeroKey_new (n : Nat) : zeroKey n ∉ zeroKeys n := by
  have := zeroKeys_nodup (n + 1)
  rw [zeroKeys_succ] at this
  grind

theorem card_zeroKeys (n : Nat) : (keySet (zeroKeys n)).card = n := by
  unfold keySet
  rw [List.toFinset_card_of_nodup ((zeroKeys_nodup n).map fun _ _ h => mk_inj.mp h), List.length_map,
    zeroKeys, List.length_map, List.length_range]

/-- The capacity of the table of `zeros n`. -/
def zeroCap : Nat → Nat
  | 0 => 0
  | n + 1 => Map.grownCap (zeroCap n) n

theorem set_new {F : Type} {ks : List Str} {m m' : Map Str (JsonValue F)} {k : Str} {v : JsonValue F}
    (hk : m.clone.has k = some false) (hset : m.clone.set k v = some m') :
    JsonValue.set (.object ks (some m)) k v = .object (ks ++ [k]) (some m') := by
  unfold JsonValue.set
  simp only [Option.map_some, Option.bind_some, hk]
  rw [show JsonValue.setEntry (some m.clone) k v = m.clone.set k v from rfl, hset]
  rfl

/-- A table with the keys of `zeros n`. -/
structure ZeroTable (n : Nat) (m : Map Str (JsonValue Int)) (f : KeyMap Str (JsonValue Int)) : Prop where
  is : m.Is f
  cap : m.cap = zeroCap n
  keys : f.keys = keySet (zeroKeys n)

theorem ZeroTable.card {n : Nat} {m : Map Str (JsonValue Int)} {f : KeyMap Str (JsonValue Int)}
    (h : ZeroTable n m f) : f.keys.card = n := by
  rw [h.keys, card_zeroKeys]

theorem ZeroTable.clone {n : Nat} {m : Map Str (JsonValue Int)} {f : KeyMap Str (JsonValue Int)}
    (h : ZeroTable n m f) : ZeroTable n m.clone f ∧ m.clone.has (zeroKey n) = some false := by
  obtain ⟨his, hcap⟩ := h.is.clone_spec
  refine ⟨⟨his, hcap.trans h.cap, h.keys⟩, ?_⟩
  rw [his.has_spec, Finmap.lookup_eq_none.mpr]
  · rfl
  · rw [← Finmap.mem_keys, h.keys, mem_keySet]
    exact zeroKey_new n

theorem zeros_table {n : Nat} (hn : n ≤ 255) :
    ∃ m f, zeros n = .object (zeroKeys n) (some m) ∧ ZeroTable n m f := by
  induction n with
  | zero => exact ⟨Map.empty, ∅, rfl, Map.empty_is, rfl, rfl⟩
  | succ n ih =>
    obtain ⟨m, f, hz, ht⟩ := ih (by omega)
    obtain ⟨hc, hhas⟩ := ht.clone
    have hcard := hc.card
    have hspread : (insert (Key.mk (zeroKey n)) f.keys).card ≤ 255 := by
      have := Finset.card_insert_le (Key.mk (zeroKey n)) f.keys
      omega
    obtain ⟨m', hset, hcap, his⟩ := hc.is.set_spec (zeroKey n) .null (by omega)
      (hc.is.setProbes_le _ (by omega) (spread_of_card hspread))
    refine ⟨m', _, ?_, his, ?_, ?_⟩
    · rw [zeros, hz, set_new hhas hset, ← zeroKeys_succ]
    · rw [hcap, hc.cap, hcard, zeroCap]
    · rw [keys_insert, ht.keys, ← keySet_append, ← zeroKeys_succ]

theorem ZeroTable.full {m : Map Str (JsonValue Int)} {f : KeyMap Str (JsonValue Int)}
    (h : ZeroTable 255 m f) : m.Full f (zeroKey 255) where
  cap := h.cap.trans (by decide +kernel)
  card := h.card
  zero x hx := by
    rw [← Finmap.mem_keys, h.keys, mem_keySet, zeroKeys] at hx
    grind [hash_zeroKey]
  key := hash_zeroKey 255
  new := by
    rw [← Finmap.mem_keys, h.keys, mem_keySet]
    exact zeroKey_new 255

theorem zeros_lost : ∃ m, zeros 256 = .object (zeroKeys 255 ++ [zeroKey 255]) (some m) ∧
    m.get (zeroKey 255) = some none := by
  obtain ⟨m, f, hz, ht⟩ := zeros_table le_rfl
  obtain ⟨hc, hhas⟩ := ht.clone
  obtain ⟨m', hset, hget⟩ := hc.full.set_lost hc.is .null
  exact ⟨m', by rw [zeros, hz, set_new hhas hset], hget⟩

theorem zeros_built (n : Nat) : ∃ fs, Built (fun _ _ => True) (zeros n) (.object fs) ∧
    Tree.depthFields fs ≤ 1 := by
  have hset : ∀ fs k, Tree.depthFields (Tree.setField fs k .null) ≤ max 1 (Tree.depthFields fs) := by
    intro fs k
    induction fs with
    | nil => exact le_rfl
    | cons g fs ih =>
      obtain ⟨k', t'⟩ := g
      rw [Tree.setField]
      split
      · rw [Tree.depthFields, Tree.depthFields, show Tree.null.depth = 0 from rfl]
        omega
      · rw [Tree.depthFields, Tree.depthFields]
        omega
  induction n with
  | zero => exact ⟨[], .object, by decide⟩
  | succ n ih =>
    obtain ⟨fs, hb, hd⟩ := ih
    refine ⟨Tree.setField fs (zeroKey n) .null, .set hb .null trivial, ?_⟩
    grind

theorem join_concat (sep x : Str) (parts : List Str) :
    ∃ y, join sep (parts ++ [x]) = y ++ x := by
  induction parts with
  | nil => exact ⟨[], rfl⟩
  | cons part parts ih =>
    obtain ⟨y, hy⟩ := ih
    refine ⟨part ++ (sep ++ y), ?_⟩
    rw [List.cons_append, Tree.join_cons _ _ (by simp), hy]
    grind

theorem stringify_lost {n : Nat} {ks : List Str} {k s : Str} {m : Map Str (JsonValue Int)}
    (hk : m.get k = some none) (h : stringify n (.object (ks ++ [k]) (some m)) = some s) :
    ∃ x, s = 123 :: (x ++ [58, 125]) := by
  unfold stringify at h
  cases n with
  | zero => cases h
  | succ n =>
  rw [stringifyImpl, if_neg (by simp)] at h
  obtain ⟨parts, hparts, hs⟩ := Option.bind_eq_some_iff.mp h
  rw [List.mapM_append] at hparts
  obtain ⟨ps, -, hparts⟩ := Option.bind_eq_some_iff.mp hparts
  simp only [List.mapM_cons, List.mapM_nil, Option.bind_eq_bind, Option.bind_some, hk] at hparts
  obtain rfl := Option.some.inj hparts
  obtain ⟨y, hy⟩ := join_concat (lit [',']) (ch '"' :: (escapeString k ++ lit ['"', ':'])) ps
  refine ⟨y ++ ch '"' :: (escapeString k ++ lit ['"']), ?_⟩
  rw [layout, if_pos le_rfl] at hs
  rw [pushed_some hs, oneLine]
  grind

/-- A `Str` takes no more spaces than 2^30. -/
theorem stringifyPretty_null (n : Nat) :
    stringifyPretty n (JsonValue.arrayNew.push .null : JsonValue Int) (2 ^ 30 + 1) = none := by
  have hspaces : indentStr (0 + 1) (2 ^ 30 + 1) = none := by
    unfold indentStr pushed
    dsimp only
    rw [if_pos (by decide), List.length_replicate]
    rfl
  have hlayout : ∀ parts, layout 0 (2 ^ 30 + 1) '[' ']' parts = none := by
    intro parts
    rw [layout, if_neg (by decide), hspaces]
    rfl
  unfold stringifyPretty
  cases n with
  | zero => rfl
  | succ n =>
    rw [JsonValue.arrayNew, JsonValue.push, stringifyImpl, if_neg (by decide)]
    exact Option.bind_eq_none_iff.mpr fun parts _ => hlayout parts

/-- The object of 256 such keys is printed as `{..,"..":}`, and `[null]` is not printed with so wide an indent. -/
theorem parse_stringify_lost : (∃ (v : JsonValue Int) (t : Tree), Built (fun _ _ => True) v t ∧
      t.depth ≤ 128 ∧ ¬ ∃ (n : Nat) (s : Str) (w : JsonValue Int) (p : Cursor),
        stringify n v = some s ∧ parseIn strRoom s = .ok w p ∧ Same v w) ∧
    ∃ (v : JsonValue Int) (t : Tree), Built (fun _ _ => True) v t ∧ t.depth ≤ 128 ∧
      ∀ n, stringifyPretty n v (2 ^ 30 + 1) = none := by
  obtain ⟨fs, hb, hd⟩ := zeros_built 256
  refine ⟨⟨zeros 256, .object fs, hb, hd.trans (by decide), ?_⟩,
    _, _, .push .array .null, by decide, stringifyPretty_null⟩
  rintro ⟨n, s, w, p, hs, hp, -⟩
  obtain ⟨m, hz, hget⟩ := zeros_lost
  rw [hz] at hs
  obtain ⟨x, rfl⟩ := stringify_lost hget hs
  obtain ⟨t, ht, -⟩ := text_of_parseIn hp
  have hder := ht.derives (c := 125) rfl (by decide) (y := 123 :: (x ++ [58])) (by simp) (by decide)
  -- what stands between the braces would end in a colon
  have hcut : ∀ {z : Str}, 123 :: (x ++ [58, 125]) = 123 :: (z ++ [125]) → z = x ++ [58] := by
    intro z hz
    have := (List.cons.inj hz).2
    rw [show x ++ [58, 125] = (x ++ [58]) ++ [125] by simp] at this
    exact (List.append_cancel_right this).symm
  generalize hs : 123 :: (x ++ [58, 125]) = s at hder
  cases hder with
  | null => cases hs
  | tru => cases hs
  | fls => cases hs
  | number hn =>
    subst hs
    exact absurd (loose.numBytes _ hn 123 (List.mem_cons_self ..)) (by decide)
  | string => cases hs
  | emptyArray => cases hs
  | array => cases hs
  | emptyObject hw =>
    obtain rfl := hcut hs
    exact absurd (hw 58 (by simp)) (by decide)
  | object h =>
    obtain rfl := hcut hs
    exact h.getLast (by simp)

end LsLang.Text.Json
