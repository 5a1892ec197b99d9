import LsLang.Core.Cursor
import LsLang.Core.StrNum

/-! The value tree of `std.core.value`, its JSON text and the reader of such texts. -/

namespace LsLang.Core

inductive Value (F : Type)
  | vNull
  | vBool (b : Bool)
  | vInt (i : Int64)
  | vFloat (f : F)
  | vStr (s : Str)
  | vList (items : List (Value F))
  | vObj (keys : List Str) (vals : List (Value F))

/-- `_json_escape` -/
def jsonEscape (s : Str) : Str :=
  s.flatMap fun b =>
    if b = 34 then [92, 34]
    else if b = 92 then [92, 92]
    else if b = 10 then [92, 110]
    else if b = 9 then [92, 116]
    else if b = 13 then [92, 114]
    else [b]

namespace Value

variable {F : Type} [F64 F]

mutual

/-- `Value.to_json` -/
def toJson : Value F → Str
  | vNull => lit ['n', 'u', 'l', 'l']
  | vBool b => if b then lit ['t', 'r', 'u', 'e'] else lit ['f', 'a', 'l', 's', 'e']
  | vInt i => showInt i.toInt
  | vFloat f => F64.fmt f
  | vStr s => 34 :: (jsonEscape s ++ [34])
  | vList items => 91 :: (itemsJson true items ++ [93])
  | vObj keys vals => 123 :: (fieldsJson true keys vals ++ [125])

/-- The loop over the items; `first` holds at index 0. -/
def itemsJson : Bool → List (Value F) → Str
  | _, [] => []
  | first, v :: items => (if first then [] else [44]) ++ toJson v ++ itemsJson false items

/-- The loop over the keys. With fewer values than keys the source reads past the end. -/
def fieldsJson : Bool → List Str → List (Value F) → Str
  | first, k :: keys, v :: vals =>
    (if first then [] else [44]) ++ 34 :: (k ++ 34 :: 58 :: (toJson v ++ fieldsJson false keys vals))
  | _, _, _ => []

end

end Value

/-- `_vp_hex` -/
def vpHex (c : UInt8) : Int :=
  if 48 ≤ c ∧ c ≤ 57 then int c - 48
  else if 97 ≤ c ∧ c ≤ 102 then int c - 87
  else if 65 ≤ c ∧ c ≤ 70 then int c - 55
  else 0 - 1

/-- `_vp_utf8`: the bytes it pushes. -/
def vpUtf8 (cp : Int) : Str :=
  if cp < 128 then [byteOf cp]
  else if cp < 2048 then [byteOf (192 + cp / 64), byteOf (128 + cp % 64)]
  else [byteOf (224 + cp / 4096), byteOf (128 + cp / 64 % 64), byteOf (128 + cp % 64)]

/-- The loop over the four digits behind `\u`. -/
def vpCode : Str → Int → Option Int
  | [], cp => some cp
  | c :: cs, cp => if vpHex c < 0 then none else vpCode cs (cp * 16 + vpHex c)

/-- What an escape other than `\u` stands for. -/
def vpEscape (e : UInt8) : Option UInt8 :=
  if e = 34 then some 34
  else if e = 92 then some 92
  else if e = 47 then some 47
  else if e = 110 then some 10
  else if e = 116 then some 9
  else if e = 114 then some 13
  else if e = 98 then some 8
  else if e = 102 then some 12
  else none

/-- The loop of `_vp_string`. -/
def vpStringLoop : Str → Nat → Str → Outcome Str
  | [], pos, _ => .err "json: unterminated string" ⟨[], pos⟩
  | c :: rest, pos, out =>
    if c = 34 then .ok out ⟨rest, pos + 1⟩
    else if c = 92 then
      match rest with
      | [] => .err "json: bad escape" ⟨[], pos + 1⟩
      | e :: rest =>
        match vpEscape e with
        | some b => vpStringLoop rest (pos + 2) (out ++ [b])
        | none =>
          if e = 117 then
            match rest with
            | h₁ :: h₂ :: h₃ :: h₄ :: rest' =>
              match vpCode [h₁, h₂, h₃, h₄] 0 with
              -- a surrogate is encoded by itself
              | some cp => vpStringLoop rest' (pos + 6) (out ++ vpUtf8 cp)
              | none => .err "json: bad u hex" ⟨rest, pos + 2⟩
            | _ => .err "json: bad u escape" ⟨rest, pos + 2⟩
          else .err "json: bad escape" ⟨rest, pos + 2⟩
    else vpStringLoop rest (pos + 1) (out ++ [c])

/-- `_vp_string` -/
def vpString (p : Cursor) : Outcome Str :=
  let p := p.advance 1
  vpStringLoop p.rest p.pos []

/-- A byte that `_vp_number` takes. -/
def vpNumByte (c : UInt8) : Bool :=
  isDigit c || c == 46 || c == 101 || c == 69 || c == 43 || c == 45

section Parse

variable {F : Type} [F64 F]

def vpConvert (isf : Bool) (num : Str) (p : Cursor) : Outcome (Value F) :=
  if isf then
    match (num.toFloat : Except String F) with
    | .ok f => .ok (.vFloat f) p
    | .error _ => .err "json: bad float" p
  else
    match num.toI64 with
    | .ok n => .ok (.vInt n) p
    | .error _ => .err "json: bad int" p

/-- `_vp_number` -/
def vpNumber (p : Cursor) : Outcome (Value F) :=
  let minus := if p.rest.head? = some 45 then 1 else 0
  let run := (p.rest.drop minus).takeWhile vpNumByte
  let num := p.rest.take (minus + run.length)
  let p' := p.advance num.length
  if num.length = 0 then .err "json: invalid number" p'
  else vpConvert (run.any fun c => !isDigit c) num p'

mutual

/-- `_vp_value`; every call takes fuel. -/
def vpValue : Nat → Cursor → Outcome (Value F)
  | 0, _ => .diverges
  | n + 1, p =>
    let p := p.ws
    match p.rest.head? with
    | none => .err "json: unexpected end of input" p
    | some c =>
      if c = 123 then vpObject n p
      else if c = 91 then vpArray n p
      else if c = 34 then
        match vpString p with
        | .ok str p => .ok (.vStr str) p
        | .err e p => .err e p
        | .diverges => .diverges
      else if c = 116 then
        if p.rest.take 4 = [116, 114, 117, 101] then .ok (.vBool true) (p.advance 4)
        else .err "json: invalid literal" p
      else if c = 102 then
        if p.rest.take 5 = [102, 97, 108, 115, 101] then .ok (.vBool false) (p.advance 5)
        else .err "json: invalid literal" p
      else if c = 110 then
        if p.rest.take 4 = [110, 117, 108, 108] then .ok .vNull (p.advance 4)
        else .err "json: invalid literal" p
      else vpNumber p

/-- `_vp_array` -/
def vpArray : Nat → Cursor → Outcome (Value F)
  | 0, _ => .diverges
  | n + 1, p =>
    let p := (p.advance 1).ws
    if p.rest.head? = some 93 then .ok (.vList []) (p.advance 1) else vpArrayLoop n [] p

def vpArrayLoop : Nat → List (Value F) → Cursor → Outcome (Value F)
  | 0, _, _ => .diverges
  | n + 1, vs, p =>
    match vpValue n p with
    | .err e p => .err e p
    | .diverges => .diverges
    | .ok v p =>
      let p := p.ws
      match p.rest.head? with
      | none => .err "json: unterminated array" p
      | some c =>
        let p := p.advance 1
        if c = 44 then vpArrayLoop n (vs ++ [v]) p
        else if c = 93 then .ok (.vList (vs ++ [v])) p
        else .err "json: expected comma or close-bracket" p

/-- `_vp_object` -/
def vpObject : Nat → Cursor → Outcome (Value F)
  | 0, _ => .diverges
  | n + 1, p =>
    let p := (p.advance 1).ws
    if p.rest.head? = some 125 then .ok (.vObj [] []) (p.advance 1) else vpObjectLoop n [] [] p

def vpObjectLoop : Nat → List Str → List (Value F) → Cursor → Outcome (Value F)
  | 0, _, _, _ => .diverges
  | n + 1, ks, vs, p =>
    let p := p.ws
    match p.rest.head? with
    | none => .err "json: expected key" p
    | some c =>
      if c ≠ 34 then .err "json: expected key string" p
      else
        match vpString p with
        | .err e p => .err e p
        | .diverges => .diverges
        | .ok key p =>
          let p := p.ws
          if p.rest.head? ≠ some 58 then .err "json: expected colon" p
          else
            match vpValue n (p.advance 1) with
            | .err e p => .err e p
            | .diverges => .diverges
            | .ok val p =>
              let p := p.ws
              match p.rest.head? with
              | none => .err "json: unterminated object" p
              | some c =>
                let p := p.advance 1
                if c = 44 then vpObjectLoop n (ks ++ [key]) (vs ++ [val]) p
                else if c = 125 then .ok (.vObj (ks ++ [key]) (vs ++ [val])) p
                else .err "json: expected comma or close-brace" p

end

/-- `from_json` -/
def fromJson (input : Str) : Outcome (Value F) :=
  match vpValue (3 * input.length + 4) ⟨input, 0⟩ with
  | .ok v p =>
    let p := p.ws
    if p.rest.length ≠ 0 then .err "json: unexpected trailing content" p else .ok v p
  | .err e p => .err e p
  | .diverges => .diverges

end Parse

end LsLang.Core
