import LsLang.Core.Value
import LsLang.Lib.FloatBits

/-! `@derive(Serialize, Deserialize)`: what `derive_emit_struct` writes for the fields of a struct, and what the methods
then return. -/

namespace LsLang.Derive

open LsLang.Core

/-! ### Types and values -/

inductive Prim
  | int | i8 | i16 | i32 | i64 | u8 | u16 | u32 | u64 | f32 | f64 | f16 | bf16 | bool | char
  deriving DecidableEq

mutual

inductive FieldTy
  | prim (p : Prim)
  | str
  | struct (fields : Fields)

inductive Fields
  | nil
  | cons (name : Str) (ty : FieldTy) (rest : Fields)

end

class FloatCasts (F F32 H : Type) where
  /-- `x as i64` -/
  toI64 : F → Int64
  /-- `i as f64` -/
  ofI64 : Int64 → F
  /-- `x as f64` -/
  widen : F32 → F
  /-- `x as f32` -/
  narrow : F → F32
  /-- `x as i64` of a half float. -/
  halfToI64 : H → Int64
  /-- A signalling NaN, which a cast makes quiet. -/
  signalling : F32 → Bool

inductive Val (F F32 H : Type)
  | int (n : ℤ)
  | bool (b : Bool)
  | f32 (x : F32)
  | f64 (x : F)
  | half (x : H)
  | str (s : Str)
  | struct (vals : List (Val F F32 H))

def Prim.width : Prim → Option (Bool × ℕ)
  | .int | .i32 => some (true, 32)
  | .i8 => some (true, 8)
  | .i16 => some (true, 16)
  | .i64 => some (true, 64)
  | .u8 | .char => some (false, 8)
  | .u16 => some (false, 16)
  | .u32 => some (false, 32)
  | .u64 => some (false, 64)
  | .f32 | .f64 | .f16 | .bf16 | .bool => none

/-- `i as p` for an `i64`. -/
def Prim.cast (p : Prim) (n : ℤ) : ℤ :=
  match p.width with
  | some (true, w) => n.bmod (2 ^ w)
  | some (false, w) => n % 2 ^ w
  | none => n

def Prim.InRange (p : Prim) (n : ℤ) : Prop :=
  match p.width with
  | some (true, w) => -2 ^ (w - 1) ≤ n ∧ n < 2 ^ (w - 1)
  | some (false, w) => 0 ≤ n ∧ n < 2 ^ w
  | none => False

/-! ### What is written for a field -/

/-- `VFloat(self.f as f64)`, `VBool(self.f)`, `VInt(self.f as i64)`, `VStr(self.f.copy())` and `self.f.to_value()`. -/
inductive Leaf
  | vFloat | vBool | vInt | vStr | toValue
  deriving DecidableEq

/-- `derive_emit_serialize_field` -/
def serializeField : FieldTy → Leaf
  | .prim .f32 | .prim .f64 => .vFloat
  | .prim .bool => .vBool
  | .prim _ => .vInt
  | .str => .vStr
  | .struct _ => .toValue

/-- `prim_type_name` -/
def primTypeName : Prim → Prim
  | .i8 => .i8
  | .i16 => .i16
  | .i32 => .i32
  | .i64 => .i64
  | .u8 => .u8
  | .u16 => .u16
  | .u32 => .u32
  | .u64 => .u64
  | .char => .char
  | _ => .int

/-- `as_f64(..)` with or without `as f32`, `as_bool(..)`, `as_int(..) as p`, `as_str(..)` and `T.from_value(..)`, or their
strict forms behind `try`. -/
inductive Extract
  | asF64 (asF32 : Bool)
  | asBool
  | asInt (p : Prim)
  | asStr
  | fromValue
  deriving DecidableEq

/-- `derive_emit_deserialize_field` -/
def deserializeField : FieldTy → Extract
  | .prim .f32 => .asF64 true
  | .prim .f64 => .asF64 false
  | .prim .bool => .asBool
  | .prim p => .asInt (primTypeName p)
  | .str => .asStr
  | .struct _ => .fromValue

/-- `derive_emit_try_deserialize_field` -/
def tryDeserializeField : FieldTy → Extract
  | .prim .f32 => .asF64 true
  | .prim .f64 => .asF64 false
  | .prim .bool => .asBool
  | .prim p => .asInt (primTypeName p)
  | .str => .asStr
  | .struct _ => .fromValue

/-- The type that `derive_emit_typename` writes for the local of a field, none for a `?`, which does not parse. -/
def typeName : Prim → Option Prim
  | .f16 | .bf16 => none
  | p => some p

/-! ### What it returns -/

section Run

variable {F F32 H : Type} [FloatCasts F F32 H]

/-- `obj_get` -/
def objGet : Core.Value F → Str → Core.Value F
  | .vObj keys vals, key =>
    match keys.findIdx? (· = key) with
    | some i => vals.getD i .vNull
    | none => .vNull
  | _, _ => .vNull

variable (F32 H)

/-- `as_int` -/
def asInt : Core.Value F → Int64
  | .vInt i => i
  | .vFloat f => FloatCasts.toI64 F32 H f
  | _ => 0

/-- `as_f64` -/
def asF64 : Core.Value F → F
  | .vFloat f => f
  | .vInt i => FloatCasts.ofI64 F32 H i
  | _ => FloatCasts.ofI64 F32 H 0

def asBool : Core.Value F → Bool
  | .vBool b => b
  | _ => false

def asStr : Core.Value F → Str
  | .vStr s => s
  | _ => []

def tryAsInt : Core.Value F → Except Str Int64
  | .vInt i => .ok i
  | .vFloat f => .ok (FloatCasts.toI64 F32 H f)
  | _ => .error (lit "expected int".toList)

def tryAsF64 : Core.Value F → Except Str F
  | .vFloat f => .ok f
  | .vInt i => .ok (FloatCasts.ofI64 F32 H i)
  | _ => .error (lit "expected number".toList)

def tryAsBool : Core.Value F → Except Str Bool
  | .vBool b => .ok b
  | _ => .error (lit "expected bool".toList)

def tryAsStr : Core.Value F → Except Str Str
  | .vStr s => .ok s
  | _ => .error (lit "expected string".toList)

variable {F32 H}

def leafValue : Leaf → Val F F32 H → Core.Value F
  | .vFloat, .f32 x => .vFloat (FloatCasts.widen H x)
  | .vFloat, .f64 x => .vFloat x
  | .vBool, .bool b => .vBool b
  | .vInt, .int n => .vInt (Int64.ofInt n)
  | .vInt, .half x => .vInt (FloatCasts.halfToI64 F F32 x)
  | .vStr, .str s => .vStr s
  | _, _ => .vNull

def Fields.names : Fields → List Str
  | .nil => []
  | .cons name _ rest => name :: rest.names

mutual

/-- The expression for a field, with its value; for a struct this is `to_value`. -/
def toValue : FieldTy → Val F F32 H → Core.Value F
  | .struct fields, .struct vals => .vObj fields.names (toValues fields vals)
  | ty, v => leafValue (serializeField ty) v

/-- `__v` -/
def toValues : Fields → List (Val F F32 H) → List (Core.Value F)
  | .cons _ ty rest, v :: vals => toValue ty v :: toValues rest vals
  | _, _ => []

end

def castFloat (asF32 : Bool) (f : F) : Val F F32 H := if asF32 then .f32 (FloatCasts.narrow H f) else .f64 f

def extracted : Extract → Core.Value F → Val F F32 H
  | .asF64 asF32, v => castFloat asF32 (asF64 F32 H v)
  | .asBool, v => .bool (asBool v)
  | .asInt p, v => .int (p.cast (asInt F32 H v).toInt)
  | .asStr, v => .str (asStr v)
  | .fromValue, _ => .struct []

mutual

/-- The expression for a field, on its entry; for a struct this is `from_value`. -/
def fromValue : FieldTy → Core.Value F → Val F F32 H
  | .struct fields, v => .struct (fromFields fields v)
  | ty, v => extracted (deserializeField ty) v

def fromFields : Fields → Core.Value F → List (Val F F32 H)
  | .nil, _ => []
  | .cons name ty rest, v => fromValue ty (objGet v name) :: fromFields rest v

end

def tryExtracted : Extract → Core.Value F → Except Str (Val F F32 H)
  | .asF64 asF32, v => (tryAsF64 F32 H v).map (castFloat asF32)
  | .asBool, v => (tryAsBool v).map .bool
  | .asInt p, v => (tryAsInt F32 H v).map fun i => .int (p.cast i.toInt)
  | .asStr, v => (tryAsStr v).map .str
  | .fromValue, _ => .ok (.struct [])

mutual

/-- For a struct this is `try_from_value`: the first error is returned. -/
def tryFromValue : FieldTy → Core.Value F → Except Str (Val F F32 H)
  | .struct fields, v => (tryFields fields v).map .struct
  | ty, v => tryExtracted (tryDeserializeField ty) v

def tryFields : Fields → Core.Value F → Except Str (List (Val F F32 H))
  | .nil, _ => .ok []
  | .cons name ty rest, v =>
    match tryFromValue ty (objGet v name) with
    | .error e => .error e
    | .ok x => (tryFields rest v).map (x :: ·)

end

/-! ### There and back -/

variable (F F32 H) in
class FloatCasts.Exact : Prop where
  narrow_widen : ∀ x : F32, FloatCasts.signalling F H x = false → FloatCasts.narrow H (FloatCasts.widen H x : F) = x

mutual

/-- No `f32` in the value is a signalling NaN. -/
def Quiet : Val F F32 H → Prop
  | .f32 x => FloatCasts.signalling F H x = false
  | .struct vals => QuietAll vals
  | _ => True

def QuietAll : List (Val F F32 H) → Prop
  | [] => True
  | v :: vals => Quiet v ∧ QuietAll vals

end

mutual

def HasTy : FieldTy → Val F F32 H → Prop
  | .prim .f32, .f32 _ => True
  | .prim .f64, .f64 _ => True
  | .prim .bool, .bool _ => True
  | .prim p, .int n => p.InRange n
  | .str, .str _ => True
  | .struct fields, .struct vals => HasTys fields vals
  | _, _ => False

def HasTys : Fields → List (Val F F32 H) → Prop
  | .nil, [] => True
  | .cons _ ty rest, v :: vals => HasTy ty v ∧ HasTys rest vals
  | _, _ => False

end

mutual

def FieldTy.Derivable : FieldTy → Prop
  | .prim p => (typeName p).isSome = true
  | .str => True
  | .struct fields => fields.names.Nodup ∧ fields.AllDerivable

def Fields.AllDerivable : Fields → Prop
  | .nil => True
  | .cons _ ty rest => ty.Derivable ∧ rest.AllDerivable

end

theorem toInt_ofInt (n : ℤ) : (Int64.ofInt n).toInt = n.bmod (2 ^ 64) := Int64.toInt_ofInt

theorem Prim.width_bounds {p : Prim} {signed : Bool} {w : ℕ} (h : p.width = some (signed, w)) : 1 ≤ w ∧ w ≤ 64 := by
  cases p <;> simp only [Prim.width, Option.some.injEq, Prod.mk.injEq, reduceCtorEq] at h <;> omega

theorem cast_ofInt {p : Prim} {n : ℤ} (h : p.InRange n) : p.cast (Int64.ofInt n).toInt = n := by
  rw [toInt_ofInt]
  unfold Prim.InRange at h
  unfold Prim.cast
  cases hw : p.width with
  | none =>
    grind
  | some sw =>
    obtain ⟨signed, w⟩ := sw
    rw [hw] at h
    obtain ⟨hlow, hhigh⟩ := Prim.width_bounds hw
    cases signed with
    | true =>
      dsimp only at h ⊢
      have hpow : (2 : ℤ) ^ w = 2 * 2 ^ (w - 1) := by rw [← pow_succ', Nat.sub_add_cancel hlow]
      rw [Int.bmod_bmod_of_dvd (pow_dvd_pow 2 hhigh)]
      refine Int.bmod_eq_of_le ?_ ?_ <;> push_cast <;> omega
    | false =>
      dsimp only at h ⊢
      have hdvd : (2 : ℤ) ^ w ∣ ((2 ^ 64 : ℕ) : ℤ) := by exact_mod_cast pow_dvd_pow 2 hhigh
      rw [← Int.emod_emod_of_dvd _ hdvd, Int.bmod_emod, Int.emod_emod_of_dvd _ hdvd]
      exact Int.emod_eq_of_lt h.1 h.2

theorem integer_fields {p : Prim} {n : ℤ} (h : p.InRange n) :
    serializeField (.prim p) = .vInt ∧ deserializeField (.prim p) = .asInt p ∧ tryDeserializeField (.prim p) = .asInt p := by
  unfold Prim.InRange at h
  cases p <;> first | exact ⟨rfl, rfl, rfl⟩ | exact h.elim

omit [FloatCasts F F32 H] in
theorem hasTy_prim {p : Prim} {x : Val F F32 H} (h : HasTy (.prim p) x) :
    (p = .f32 ∧ ∃ a, x = .f32 a) ∨ (p = .f64 ∧ ∃ a, x = .f64 a) ∨ (p = .bool ∧ ∃ b, x = .bool b) ∨
      ∃ n, x = .int n ∧ p.InRange n := by
  cases x with
  | int n =>
    refine .inr (.inr (.inr ⟨n, rfl, ?_⟩))
    cases p <;> exact h
  | bool b => cases p <;> first | exact .inr (.inr (.inl ⟨rfl, b, rfl⟩)) | exact h.elim
  | f32 a => cases p <;> first | exact .inl ⟨rfl, a, rfl⟩ | exact h.elim
  | f64 a => cases p <;> first | exact .inr (.inl ⟨rfl, a, rfl⟩) | exact h.elim
  | half a => cases p <;> exact h.elim
  | str s => cases p <;> exact h.elim
  | struct vals => cases p <;> exact h.elim

theorem objGet_here {before after : List Str} {name : Str} {vals vals' : List (Core.Value F)} {v : Core.Value F}
    (hlength : before.length = vals.length) (hnew : name ∉ before) :
    objGet (.vObj (before ++ name :: after) (vals ++ v :: vals')) name = v := by
  have hfind : (before ++ name :: after).findIdx? (· = name) = some vals.length := by grind
  unfold objGet
  grind

theorem fromFields_cons (name : Str) (ty : FieldTy) (rest : Fields) (v : Core.Value F) :
    (fromFields (.cons name ty rest) v : List (Val F F32 H)) = fromValue ty (objGet v name) :: fromFields rest v := rfl

theorem tryFields_cons {name : Str} {ty : FieldTy} {rest : Fields} {v : Core.Value F} {x : Val F F32 H}
    (h : tryFromValue ty (objGet v name) = .ok x) :
    tryFields (.cons name ty rest) v = (tryFields rest v).map (x :: ·) := by
  rw [tryFields, h]

theorem fromValue_prim [FloatCasts.Exact F F32 H] {p : Prim} {x : Val F F32 H} (h : HasTy (.prim p) x)
    (hquiet : Quiet x) :
    fromValue (.prim p) (toValue (.prim p) x) = x ∧ tryFromValue (.prim p) (toValue (.prim p) x) = .ok x := by
  rcases hasTy_prim h with ⟨rfl, a, rfl⟩ | ⟨rfl, a, rfl⟩ | ⟨rfl, b, rfl⟩ | ⟨n, rfl, hn⟩
  · have hcast : castFloat true (FloatCasts.widen H a : F) = (Val.f32 a : Val F F32 H) :=
      congrArg Val.f32 (FloatCasts.Exact.narrow_widen a hquiet)
    exact ⟨hcast, congrArg Except.ok hcast⟩
  · exact ⟨rfl, rfl⟩
  · exact ⟨rfl, rfl⟩
  · obtain ⟨hser, hde, htry⟩ := integer_fields hn
    have hcast : (Val.int (p.cast (Int64.ofInt n).toInt) : Val F F32 H) = .int n := congrArg Val.int (cast_ofInt hn)
    have hvalue : (toValue (.prim p) (.int n : Val F F32 H) : Core.Value F) = .vInt (Int64.ofInt n) := by
      change leafValue (serializeField (.prim p)) _ = _
      rw [hser]
      rfl
    rw [hvalue]
    constructor
    · change extracted (deserializeField (.prim p)) _ = _
      rw [hde]
      exact hcast
    · change tryExtracted (tryDeserializeField (.prim p)) _ = _
      rw [htry]
      exact congrArg Except.ok hcast

mutual

theorem fromValue_toValue [FloatCasts.Exact F F32 H] (ty : FieldTy) (x : Val F F32 H) (h : HasTy ty x)
    (hquiet : Quiet x) (hty : ty.Derivable) :
    fromValue ty (toValue ty x) = x ∧ tryFromValue ty (toValue ty x) = .ok x := by
  cases ty with
  | prim p => exact fromValue_prim h hquiet
  | str =>
    cases x <;> first | exact ⟨rfl, rfl⟩ | exact h.elim
  | struct fields =>
    cases x with
    | struct vals =>
      obtain ⟨hfields, htry⟩ := fromFields_toValues fields vals h hquiet hty.2 [] [] rfl hty.1
      exact ⟨congrArg Val.struct hfields, congrArg (Except.map Val.struct) htry⟩
    | _ => exact h.elim

theorem fromFields_toValues [FloatCasts.Exact F F32 H] (fields : Fields) (vals : List (Val F F32 H))
    (h : HasTys fields vals) (hquiet : QuietAll vals) (hfields : fields.AllDerivable) (before : List Str)
    (done : List (Core.Value F)) (hlength : before.length = done.length)
    (hnodup : (before ++ fields.names).Nodup) :
    fromFields fields (.vObj (before ++ fields.names) (done ++ toValues fields vals)) = vals ∧
      tryFields fields (.vObj (before ++ fields.names) (done ++ toValues fields vals)) = .ok vals := by
  cases fields with
  | nil =>
    cases vals with
    | nil => exact ⟨rfl, rfl⟩
    | cons v vals => exact h.elim
  | cons name ty rest =>
    cases vals with
    | nil => exact h.elim
    | cons v vals =>
      obtain ⟨hv, hvals⟩ := h
      obtain ⟨hquiet, hquiets⟩ := hquiet
      obtain ⟨hty, hrest⟩ := hfields
      have hnew : name ∉ before := fun hmem =>
        (List.nodup_append.1 hnodup).2.2 name hmem name List.mem_cons_self rfl
      have hget : objGet (.vObj (before ++ name :: rest.names) (done ++ toValue ty v :: toValues rest vals)) name =
          toValue ty v := objGet_here hlength hnew
      obtain ⟨hhead, htryHead⟩ := fromValue_toValue ty v hv hquiet hty
      -- the rest of the fields stands behind this one
      have htail := fromFields_toValues rest vals hvals hquiets hrest (before ++ [name]) (done ++ [toValue ty v])
        (by grind) (by rwa [List.append_assoc])
      rw [List.append_assoc, List.append_assoc] at htail
      obtain ⟨htail, htryTail⟩ := htail
      constructor
      · rw [fromFields_cons]
        refine congrArg₂ List.cons ?_ htail
        exact (congrArg (fromValue ty) hget).trans hhead
      · refine (tryFields_cons ?_).trans (congrArg (Except.map (v :: ·)) htryTail)
        exact (congrArg (tryFromValue ty) hget).trans htryHead

end

/-! ### What the strict form accepts -/

mutual

/-- There is no `VFloat` in the tree. -/
def NoFloat : Core.Value F → Prop
  | .vFloat _ => False
  | .vList items => NoFloats items
  | .vObj _ vals => NoFloats vals
  | _ => True

def NoFloats : List (Core.Value F) → Prop
  | [] => True
  | v :: vals => NoFloat v ∧ NoFloats vals

end

omit [FloatCasts F F32 H] in
theorem noFloats_mem {vals : List (Core.Value F)} (h : NoFloats vals) {v : Core.Value F} (hv : v ∈ vals) : NoFloat v := by
  induction vals with
  | nil => cases hv
  | cons w vals ih =>
    rcases List.mem_cons.1 hv with rfl | hv
    · exact h.1
    · exact ih h.2 hv

def Entry (v : Core.Value F) (name : Str) (w : Core.Value F) : Prop :=
  ∃ keys vals i, v = .vObj keys vals ∧ keys.findIdx? (· = name) = some i ∧ vals[i]? = some w

theorem objGet_cases (v : Core.Value F) (name : Str) : Entry v name (objGet v name) ∨ objGet v name = .vNull := by
  cases v with
  | vObj keys vals =>
    cases hfind : keys.findIdx? (· = name) with
    | none =>
      refine .inr ?_
      unfold objGet
      dsimp only
      rw [hfind]
    | some i =>
      have hget : objGet (.vObj keys vals) name = vals.getD i .vNull := by
        unfold objGet
        grind
      rw [hget, List.getD_eq_getElem?_getD]
      cases hval : vals[i]? with
      | none => exact .inr rfl
      | some w => exact .inl ⟨keys, vals, i, rfl, hfind, hval⟩
  | _ => exact .inr rfl

theorem entry_of_objGet {v w : Core.Value F} {name : Str} (h : objGet v name = w) (hw : w ≠ .vNull) : Entry v name w := by
  grind [objGet_cases]

theorem noFloat_objGet {v : Core.Value F} (h : NoFloat v) (name : Str) : NoFloat (objGet v name) := by
  rcases objGet_cases v name with ⟨keys, vals, i, rfl, -, hval⟩ | hnull
  · exact noFloats_mem h (List.mem_of_getElem? hval)
  · rw [hnull]
    trivial

mutual

/-- The entry of a field is what the field holds: an integer as it is cast to the type. -/
def FaithfulField (name : Str) : FieldTy → Core.Value F → Val F F32 H → Prop
  | .struct fields, v, .struct vals => FaithfulFields fields (objGet v name) vals
  | .prim .bool, v, .bool b => Entry v name (.vBool b)
  | .prim .f32, _, .f32 _ => True
  | .prim .f64, _, .f64 _ => True
  | .prim p, v, .int n => ∃ i : Int64, Entry v name (.vInt i) ∧ n = p.cast i.toInt
  | .str, v, .str s => Entry v name (.vStr s)
  | _, _, _ => False

def FaithfulFields : Fields → Core.Value F → List (Val F F32 H) → Prop
  | .nil, _, [] => True
  | .cons name ty rest, v, x :: vals => FaithfulField name ty v x ∧ FaithfulFields rest v vals
  | _, _, _ => False

end

omit [FloatCasts F F32 H] in
theorem map_ok {α β : Type} {f : α → β} {r : Except Str α} {b : β} (h : r.map f = .ok b) : ∃ a, r = .ok a ∧ f a = b := by
  cases r with
  | error e => cases h
  | ok a => exact ⟨a, rfl, Except.ok.inj h⟩

theorem tryAsInt_ok {v : Core.Value F} (hv : NoFloat v) {i : Int64} (h : tryAsInt F32 H v = .ok i) : v = .vInt i := by
  cases v with
  | vInt j => exact congrArg Core.Value.vInt (Except.ok.inj h)
  | vFloat f => exact hv.elim
  | _ => cases h

omit [FloatCasts F F32 H] in
theorem tryAsBool_ok {v : Core.Value F} {b : Bool} (h : tryAsBool v = .ok b) : v = .vBool b := by
  cases v with
  | vBool b => exact congrArg Core.Value.vBool (Except.ok.inj h)
  | _ => cases h

omit [FloatCasts F F32 H] in
theorem tryAsStr_ok {v : Core.Value F} {s : Str} (h : tryAsStr v = .ok s) : v = .vStr s := by
  cases v with
  | vStr s => exact congrArg Core.Value.vStr (Except.ok.inj h)
  | _ => cases h

theorem faithful_prim {p : Prim} (hp : (typeName p).isSome = true) {v : Core.Value F} (hv : NoFloat v) {name : Str}
    {x : Val F F32 H} (h : tryFromValue (.prim p) (objGet v name) = .ok x) : FaithfulField name (.prim p) v x := by
  have hnone := noFloat_objGet hv name
  have hint : ∀ {q : Prim}, tryExtracted (.asInt q) (objGet v name) = .ok x →
      ∃ i : Int64, Entry v name (.vInt i) ∧ x = .int (q.cast i.toInt) := by
    intro q hq
    obtain ⟨i, hi, rfl⟩ := map_ok hq
    exact ⟨i, entry_of_objGet (tryAsInt_ok hnone hi) (by simp), rfl⟩
  cases p with
  | f32 =>
    obtain ⟨f, -, rfl⟩ := map_ok h
    trivial
  | f64 =>
    obtain ⟨f, -, rfl⟩ := map_ok h
    trivial
  | bool =>
    obtain ⟨b, hb, rfl⟩ := map_ok h
    exact entry_of_objGet (tryAsBool_ok hb) (by simp)
  | f16 => cases hp
  | bf16 => cases hp
  | _ =>
    obtain ⟨i, hi, rfl⟩ := hint h
    exact ⟨i, hi, rfl⟩

mutual

theorem faithful_field (name : Str) (ty : FieldTy) (hty : ty.Derivable) (v : Core.Value F) (hv : NoFloat v) (x : Val F F32 H)
    (h : tryFromValue ty (objGet v name) = .ok x) : FaithfulField name ty v x := by
  cases ty with
  | prim p => exact faithful_prim hty hv h
  | str =>
    obtain ⟨s, hs, rfl⟩ := map_ok h
    exact entry_of_objGet (tryAsStr_ok hs) (by simp)
  | struct fields =>
    obtain ⟨vals, hvals, rfl⟩ := map_ok h
    exact faithful_fields fields hty.2 (objGet v name) (noFloat_objGet hv name) vals hvals

theorem faithful_fields (fields : Fields) (hfields : fields.AllDerivable) (v : Core.Value F) (hv : NoFloat v)
    (vals : List (Val F F32 H)) (h : tryFields fields v = .ok vals) : FaithfulFields fields v vals := by
  cases fields with
  | nil =>
    cases h
    trivial
  | cons name ty rest =>
    rw [tryFields] at h
    split at h
    · cases h
    · next x hx =>
      obtain ⟨vals, hvals, rfl⟩ := map_ok h
      exact ⟨faithful_field name ty hfields.1 v hv x hx, faithful_fields rest hfields.2 v hv vals hvals⟩

end

/-- The derived methods invert each other, and the strict one accepts a tree only with entries for the fields. -/
theorem serde_roundTrip [FloatCasts.Exact F F32 H] (fields : Fields) (h : (FieldTy.struct fields).Derivable) :
    (∀ x : Val F F32 H, HasTy (.struct fields) x → Quiet x →
      fromValue (.struct fields) (toValue (.struct fields) x) = x ∧
        tryFromValue (.struct fields) (toValue (.struct fields) x) = .ok x) ∧
    ∀ v : Core.Value F, NoFloat v → ∀ vals : List (Val F F32 H),
      tryFromValue (.struct fields) v = .ok (.struct vals) → FaithfulFields fields v vals := by
  refine ⟨fun x hx hquiet => fromValue_toValue _ x hx hquiet h, fun v hv vals hok => ?_⟩
  obtain ⟨vals', hvals, heq⟩ := map_ok hok
  obtain rfl := Val.struct.inj heq
  exact faithful_fields fields h.2 v hv vals' hvals

end Run

section Bits

open LsLang.Lib LsLang.Lib.FloatBits

/-- The casts of the floats by their bits. There are no half floats. -/
instance bitCasts : FloatCasts Double Single Empty where
  toI64 x := Int64.ofInt (truncate x)
  ofI64 i := FloatBits.ofInt i.toInt
  widen := FloatBits.widen
  narrow := FloatBits.narrow
  halfToI64 := Empty.elim
  signalling := Bits.signalling

instance bitCasts_exact : FloatCasts.Exact Double Single Empty := ⟨fun _ h => narrow_widen h⟩

abbrev BitVal : Type := Val Double Single Empty

abbrev BitTree : Type := Core.Value Double

/-- A struct in a field: an `i64` and a `bool`. -/
def innerFields : Fields := .cons (lit ['n']) (.prim .i64) (.cons (lit ['o']) (.prim .bool) .nil)

/-- A `u8`, an `f32`, a `Str` and a struct. -/
def mixedFields : Fields :=
  .cons (lit ['b']) (.prim .u8) (.cons (lit ['f']) (.prim .f32)
    (.cons (lit ['s']) .str (.cons (lit ['t']) (.struct innerFields) .nil)))

/-- The largest `u8`, a negative subnormal, a text and the least `i64`. -/
def mixedValue : BitVal :=
  .struct [.int 255, .f32 (.of true 0 5), .str (lit ['h', 'i']), .struct [.int (-2 ^ 63), .bool true]]

/-- A tree without floats, whose first integer does not fit a `u8`. -/
def mixedTree : BitTree :=
  .vObj [lit ['t'], lit ['s'], lit ['f'], lit ['b']] [.vObj [lit ['o'], lit ['n']] [.vBool false, .vInt 7],
    .vStr (lit ['a']), .vInt 3, .vInt 300]

theorem mixed_derivable : (FieldTy.struct mixedFields).Derivable :=
  ⟨by decide, rfl, rfl, trivial, ⟨by decide, rfl, rfl, trivial⟩, trivial⟩

theorem serde_roundTrip_mixed :
    (fromValue (.struct mixedFields) (toValue (.struct mixedFields) mixedValue : BitTree) = mixedValue ∧
      tryFromValue (.struct mixedFields) (toValue (.struct mixedFields) mixedValue : BitTree) = .ok mixedValue) ∧
    ∃ vals : List BitVal, tryFromValue (.struct mixedFields) mixedTree = .ok (.struct vals) ∧
      FaithfulFields mixedFields mixedTree vals := by
  obtain ⟨hback, hstrict⟩ := @serde_roundTrip Double Single Empty _ _ mixedFields mixed_derivable
  refine ⟨hback mixedValue ?_ ?_, _, rfl, hstrict mixedTree ?_ _ rfl⟩
  · exact ⟨⟨by decide, by decide⟩, trivial, trivial, ⟨⟨by decide, by decide⟩, trivial, trivial⟩, trivial⟩
  · exact ⟨trivial, rfl, trivial, ⟨trivial, trivial, trivial⟩, trivial⟩
  · exact ⟨⟨trivial, trivial, trivial⟩, trivial, trivial, trivial, trivial⟩

/-- A struct with one field `a`. -/
def oneField (p : Prim) : Fields := .cons (lit ['a']) (.prim p) .nil

/-- The strict form accepts an integer that the field cannot hold, and a signalling NaN comes back as another one. -/
theorem serde_not_faithful :
    (tryFromValue (.struct (oneField .u8)) (.vObj [lit ['a']] [.vInt 300] : BitTree) = .ok (.struct [.int 44] : BitVal) ∧
      ∀ i : Int64, Entry (.vObj [lit ['a']] [.vInt 300] : BitTree) (lit ['a']) (.vInt i) → i.toInt ≠ 44) ∧
    fromValue (.struct (oneField .f32)) (toValue (.struct (oneField .f32)) (.struct [.f32 (.of false 255 1)] : BitVal) : BitTree) =
      (.struct [.f32 (.of false 255 (2 ^ 22 + 1))] : BitVal) := by
  refine ⟨⟨rfl, ?_⟩, ?_⟩
  · rintro i ⟨keys, vals, k, heq, hfind, hval⟩ hi
    obtain ⟨rfl, rfl⟩ := Core.Value.vObj.inj heq
    obtain rfl : 0 = k := Option.some.inj hfind
    obtain rfl : 300 = i := Core.Value.vInt.inj (Option.some.inj hval)
    exact absurd hi (by decide)
  · have hquiet : FloatBits.narrow (FloatBits.widen (.of false 255 1)) = .of false 255 (2 ^ 22 + 1) := by decide +kernel
    exact congrArg (fun x => Val.struct [Val.f32 x]) hquiet

end Bits

end LsLang.Derive
