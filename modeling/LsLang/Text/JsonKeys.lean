import LsLang.Text.JsonRoundTrip

/-! When every object of a value lists each of its keys once. -/

namespace LsLang.Text.Json

open LsLang.Core JsonText

variable {F : Type}

/-- `object_len` -/
def objectLen : JsonValue F → ℤ
  | .object keys _ => keys.length
  | _ => 0 - 1

/-- In every object of the tree the listed keys are those of the table, each of them once. -/
inductive ListsOnce : JsonValue F → Prop
  | null : ListsOnce .null
  | bool (b : Bool) : ListsOnce (.bool b)
  | number (x : F) : ListsOnce (.number x)
  | text (s : Str) : ListsOnce (.text s)
  | array {items : List (JsonValue F)} (h : ∀ v ∈ items, ListsOnce v) : ListsOnce (.array items)
  | object {ks : List Str} {m : Map Str (JsonValue F)} (hnodup : ks.Nodup)
      (hkeys : ∀ k, m.has k = some (decide (k ∈ ks)))
      (hlen : objectLen (.object ks (some m)) = m.len)
      (hvals : ∀ k w, m.get k = some (some w) → ListsOnce w) : ListsOnce (.object ks (some m))

inductive Keyed : JsonValue F → Prop
  | null : Keyed .null
  | bool (b : Bool) : Keyed (.bool b)
  | number (x : F) : Keyed (.number x)
  | text (s : Str) : Keyed (.text s)
  | array {items : List (JsonValue F)} (h : ∀ v ∈ items, Keyed v) : Keyed (.array items)
  | object {ks : List Str} {m : Map Str (JsonValue F)} {f : KeyMap Str (JsonValue F)}
      (hnodup : ks.Nodup) (his : m.Is f) (hkeys : f.keys = keySet ks) (hcard : f.keys.card < 2 ^ 27)
      (hvals : ∀ q w, f.lookup q = some w → Keyed w) : Keyed (.object ks (some m))

theorem card_keySet {ks : List Str} (h : ks.Nodup) : (keySet ks).card = ks.length := by
  unfold keySet
  rw [List.toFinset_card_of_nodup (h.map fun _ _ hk => mk_inj.mp hk), List.length_map]

theorem Keyed.listsOnce {v : JsonValue F} (h : Keyed v) : ListsOnce v := by
  induction h with
  | null => exact .null
  | bool b => exact .bool b
  | number x => exact .number x
  | text s => exact .text s
  | array _ ih => exact .array ih
  | @object ks m f hnodup his hkeys hcard _ ih =>
    refine .object hnodup (fun k => ?_) ?_ (fun k w hw => ?_)
    · rw [his.has_spec k]
      apply congrArg
      rw [Bool.eq_iff_iff, Finmap.lookup_isSome, ← Finmap.mem_keys, hkeys, mem_keySet,
        decide_eq_true_iff]
    · rw [his.len_eq, hkeys, card_keySet hnodup]
      rfl
    · rw [his.get_spec k] at hw
      grind

/-! The texts whose objects name no key twice. -/

mutual

/-- Every object names its keys once, behind the escapes, and they are spread out in its table. -/
def NamesOnce : Raw → Prop
  | .array ts => itemsOnce ts
  | .object fs => (ofKeys fs).Nodup ∧ Map.Spreads 0 ∅ ((ofKeys fs).map (Key.mk (K := Str))) ∧
      (ofKeys fs).length < 2 ^ 27 ∧ fieldsOnce fs
  | _ => True

def itemsOnce : List Raw → Prop
  | [] => True
  | t :: ts => NamesOnce t ∧ itemsOnce ts

def fieldsOnce : List (List Piece × Raw) → Prop
  | [] => True
  | (_, t) :: fs => NamesOnce t ∧ fieldsOnce fs

end

def TextOnce (s : Str) : Prop := ∃ t, IsText loose 128 s t ∧ NamesOnce t

variable [F64 F]

theorem keyed_numberOf (tok : Str) : Keyed (numberOf F tok) := by
  unfold numberOf
  split
  · exact .number _
  · exact .null

mutual

theorem keyed_ofRaw : ∀ t : Raw, NamesOnce t → Keyed (ofRaw t : JsonValue F)
  | .null, _ => .null
  | .bool b, _ => .bool b
  | .number tok, _ => by
    rw [ofRaw]
    exact keyed_numberOf tok
  | .string ps, _ => .text _
  | .array ts, h => by
    rw [NamesOnce] at h
    rw [ofRaw]
    exact .array (keyed_ofItems ts h)
  | .object fs, h => by
    rw [NamesOnce] at h
    obtain ⟨hnodup, hspread, hlen, hfs⟩ := h
    have hks := ofKeys_eq (F := F) fs
    obtain ⟨m, hm, his, hkeys⟩ := setAll_empty (fieldList fs : List (Str × JsonValue F))
      (by rw [← hks]; exact hspread) (by rw [← hks, card_keySet hnodup]; exact hlen)
    rw [← hks] at hkeys
    rw [ofRaw, ofEntries_eq, hm]
    refine .object hnodup his hkeys (by rw [hkeys, card_keySet hnodup]; exact hlen) ?_
    intro q w hq
    have hd : ((fieldList fs : List (Str × JsonValue F)).map entryKey).Nodup := by
      rw [show (fieldList fs : List (Str × JsonValue F)).map entryKey = (ofKeys fs).map Key.mk by
        rw [hks, List.map_map]; rfl]
      exact hnodup.map fun _ _ hk => mk_inj.mp hk
    rcases (lookup_insertAll hd ∅ q w).mp hq with ⟨x, -, hx⟩ | ⟨-, hempty⟩
    · exact keyed_fields fs hfs _ hx
    · rw [Finmap.lookup_empty] at hempty
      cases hempty

theorem keyed_ofItems : ∀ ts : List Raw, itemsOnce ts → ∀ v ∈ (ofItems ts : List (JsonValue F)), Keyed v
  | [], _, v, hv => by
    rw [ofItems] at hv
    cases hv
  | t :: ts, h, v, hv => by
    rw [itemsOnce] at h
    rw [ofItems] at hv
    rcases List.mem_cons.mp hv with rfl | hv
    · exact keyed_ofRaw t h.1
    · exact keyed_ofItems ts h.2 v hv

theorem keyed_fields : ∀ fs : List (List Piece × Raw), fieldsOnce fs →
    ∀ e ∈ (fieldList fs : List (Str × JsonValue F)), Keyed e.2
  | [], _, e, he => by cases he
  | (ps, t) :: fs, h, e, he => by
    rw [fieldsOnce] at h
    rcases List.mem_cons.mp he with rfl | he
    · exact keyed_ofRaw t h.1
    · exact keyed_fields fs h.2 e he

end

omit [F64 F] in
theorem Keyed.push {v w : JsonValue F} (hv : Keyed v) (hw : Keyed w) : Keyed (v.push w) := by
  cases hv with
  | array h =>
    refine .array fun u hu => ?_
    grind
  | null => exact .null
  | bool b => exact .bool b
  | number x => exact .number x
  | text s => exact .text s
  | object hnodup his hkeys hcard hvals => exact .object hnodup his hkeys hcard hvals

omit [F64 F] in
theorem Keyed.set {v w : JsonValue F} {k : Str} (hv : Keyed v) (hw : Keyed w) (hk : Fits v k) :
    Keyed (v.set k w) := by
  cases hv with
  | object hnodup his hkeys hcard hvals =>
    obtain ⟨m', hset, his', hkeys', hcard'⟩ := set_object his hkeys hcard hk w
    rw [hset]
    refine .object (nodup_setKey hnodup k) his' hkeys' hcard' ?_
    grind [Finmap.lookup_insert_of_ne, Finmap.lookup_insert, Option.some.inj]
  | null => exact .null
  | bool b => exact .bool b
  | number x => exact .number x
  | text s => exact .text s
  | array h => exact .array h

/-- The values that a program makes of texts that name their keys once, with `push` and with `set`s that
the tables have room for. -/
inductive Produced : JsonValue F → Prop
  | parse {s : Str} {v : JsonValue F} {p : Cursor} (h : parse s = .ok v p) (hs : TextOnce s) : Produced v
  | null : Produced .null
  | bool (b : Bool) : Produced (.bool b)
  | number (x : F) : Produced (.number x)
  | text (s : Str) : Produced (.text s)
  | array : Produced .arrayNew
  | object : Produced .objectNew
  | push {v w : JsonValue F} (hv : Produced v) (hw : Produced w) : Produced (v.push w)
  | set {v w : JsonValue F} {k : Str} (hv : Produced v) (hw : Produced w) (hk : Fits v k) :
      Produced (v.set k w)

theorem Produced.keyed {v : JsonValue F} (h : Produced v) : Keyed v := by
  induction h with
  | @parse s v p hp hs =>
    obtain ⟨t, ht, honce⟩ := hs
    obtain ⟨q, hq⟩ := parse_of_text (F := F) ht
    cases hp.symm.trans hq
    exact keyed_ofRaw t honce
  | null => exact .null
  | bool b => exact .bool b
  | number x => exact .number x
  | text s => exact .text s
  | array => exact .array nofun
  | object =>
    exact .object List.nodup_nil Map.empty_is (by simp [keySet]) (by simp) fun q w hq => by
      rw [Finmap.lookup_empty] at hq
      cases hq
  | push _ _ ihv ihw => exact ihv.push ihw
  | set _ _ hk ihv ihw => exact ihv.set ihw hk

theorem mapM_forall₂ {α β : Type} {f : α → Option β} {P : α → β → Prop} (hf : ∀ a b, f a = some b → P a b) {l : List α}
    {r : List β} (h : l.mapM f = some r) : List.Forall₂ P l r := by
  induction l generalizing r with
  | nil =>
    cases h
    exact .nil
  | cons a l ih =>
    rw [List.mapM_cons] at h
    obtain ⟨b, hb, h⟩ := Option.bind_eq_some_iff.mp h
    obtain ⟨bs, hbs, h⟩ := Option.bind_eq_some_iff.mp h
    cases h
    exact .cons (hf a b hb) (ih hbs)

/-- An object is printed with one part for each listed key, in their order. -/
theorem keys_printed {n : ℕ} {ks : List Str} {entries : Option (Map Str (JsonValue F))} {depth indent : ℤ} {s : Str}
    (hne : ks ≠ []) (h : stringifyImpl n (.object ks entries) depth indent = some s) :
    ∃ parts, List.Forall₂ (fun key part => ∃ x, part = Tree.keyText key indent ++ x) ks parts ∧
      s = Tree.frame depth indent '\x7b' '\x7d' parts := by
  cases n with
  | zero => cases h
  | succ n =>
    rw [stringifyImpl, if_neg (fun hlen => hne (List.length_eq_zero_iff.mp hlen))] at h
    obtain ⟨parts, hparts, hs⟩ := Option.bind_eq_some_iff.mp h
    refine ⟨parts, mapM_forall₂ (fun key part hpart => ?_) hparts, layout_some hs⟩
    obtain ⟨m, -, hpart⟩ := Option.bind_eq_some_iff.mp hpart
    obtain ⟨r, -, hpart⟩ := Option.bind_eq_some_iff.mp hpart
    cases r with
    | none =>
      obtain rfl := Option.some.inj hpart
      exact ⟨[], (List.append_nil _).symm⟩
    | some cv =>
      obtain ⟨x, -, rfl⟩ := Option.map_eq_some_iff.mp hpart
      exact ⟨x, rfl⟩

theorem keys_listed_once {v : JsonValue F} (h : Produced v) : ListsOnce v := h.keyed.listsOnce

/-- `{"a":null}` -/
def keyA : Str := lit ['\x7b', '"', 'a', '"', ':', 'n', 'u', 'l', 'l', '\x7d']

theorem textOnce_keyA : TextOnce keyA := by
  have hw : Ws ([] : Str) := ws_nil
  have hpiece : ∀ p ∈ [Piece.plain 97], loose.piece p := by
    intro p hp
    rw [List.mem_singleton.mp hp]
    exact ⟨by decide, by decide⟩
  refine ⟨.object [([.plain 97], .null)], ⟨[], keyA, [], by simp, hw, hw,
    .object (.lastField hw hpiece hw hw .null hw)⟩, ?_⟩
  rw [NamesOnce]
  refine ⟨by decide, ⟨spread_of_card ?_, trivial⟩, by decide, ⟨trivial, trivial⟩⟩
  grind

theorem keys_listed_once_keyA :
    ∃ (v : JsonValue ℤ) (p : Cursor), parse keyA = .ok v p ∧ ListsOnce (v.set [98] .arrayNew) := by
  obtain ⟨ks, m, p, hv⟩ : ∃ ks m p, (parse keyA : Outcome (JsonValue ℤ)) = .ok (.object ks m) p :=
    ⟨_, _, _, rfl⟩
  refine ⟨.object ks m, p, hv, keys_listed_once (.set (.parse hv textOnce_keyA) .array ?_)⟩
  have hks : ks = [[97]] := by
    cases hv
    rfl
  unfold Fits
  cases m with
  | none => trivial
  | some m =>
    have hcard : (insert (Key.mk [98]) (keySet ks)).card ≤ 2 := by
      rw [hks]
      exact Finset.card_insert_le _ _
    exact ⟨⟨spread_of_card (hcard.trans (by decide)), trivial⟩, hcard.trans_lt (by decide)⟩

/-- `{"a":null,"a":true}` -/
def keyATwice : Str :=
  lit ['\x7b', '"', 'a', '"', ':', 'n', 'u', 'l', 'l', ',', '"', 'a', '"', ':', 't', 'r', 'u', 'e', '\x7d']

theorem keys_listed_twice :
    ∃ (v : JsonValue ℤ) (p : Cursor), parse keyATwice = .ok v p ∧ ¬ ListsOnce v := by
  obtain ⟨m, p, hv⟩ : ∃ m p,
      (parse keyATwice : Outcome (JsonValue ℤ)) = .ok (.object [[97], [97]] m) p := ⟨_, _, rfl⟩
  refine ⟨_, p, hv, ?_⟩
  intro h
  cases h with
  | object hnodup => exact absurd hnodup (by decide)

end LsLang.Text.Json
