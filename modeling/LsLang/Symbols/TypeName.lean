import LsLang.Core.StrNum
import LsLang.Scan.Scanner
import LsLang.Types.Scalar

/-! The names of types (`types.c`), when two types are equal there, and what a type adds to the
key of a generic instance (`mangle.c`). -/

namespace LsLang.Symbols
open LsLang.Core LsLang.Scan LsLang.Types

inductive Basic
  | scalar (t : Scalar)
  | void | nil | lib | object
  deriving DecidableEq

/-- A type; a struct or an enum has a `name` and perhaps an `llvm_name`. -/
inductive Ty
  | basic (b : Basic)
  | nominal (isEnum : Bool) (name : Str) (llvmName : Option Str)
  | pointer (target : Ty)
  | reference (isMut : Bool) (target : Ty)
  | array (elem : Ty) (size : Int)
  | simd (elem : Ty) (lanes : Int)
  | slice (isMut : Bool) (elem : Ty)
  | function (isBlock : Bool) (params : List Ty) (isVararg : Bool) (ret : Ty)

namespace Ty

mutual

/-- `type_equals` -/
def typeEquals : Ty → Ty → Bool
  | basic a, basic b => a = b
  | nominal e n _, nominal e' n' _ => e == e' && n == n'
  | pointer a, pointer b => typeEquals a b
  | reference m a, reference m' b => m == m' && typeEquals a b
  | array a n, array b n' => n == n' && typeEquals a b
  | simd a n, simd b n' => n == n' && typeEquals a b
  | slice m a, slice m' b => m == m' && typeEquals a b
  | function k ps v r, function k' ps' v' r' =>
    k == k' && ps.length == ps'.length && v == v' && typeEquals r r' && paramsEqual ps ps'
  | _, _ => false

def paramsEqual : List Ty → List Ty → Bool
  | p :: ps, p' :: ps' => typeEquals p p' && paramsEqual ps ps'
  | _, _ => true

end

end Ty

def Basic.name : Basic → Str
  | scalar .int => lit ['i', 'n', 't']
  | scalar .i8 => lit ['i', '8']
  | scalar .i16 => lit ['i', '1', '6']
  | scalar .i32 => lit ['i', '3', '2']
  | scalar .i64 => lit ['i', '6', '4']
  | scalar .u8 => lit ['u', '8']
  | scalar .u16 => lit ['u', '1', '6']
  | scalar .u32 => lit ['u', '3', '2']
  | scalar .u64 => lit ['u', '6', '4']
  | scalar .f32 => lit ['f', '3', '2']
  | scalar .f64 => lit ['f', '6', '4']
  | scalar .f16 => lit ['f', '1', '6']
  | scalar .bf16 => lit ['b', 'f', '1', '6']
  | scalar .bool => lit ['b', 'o', 'o', 'l']
  | scalar .char => lit ['c', 'h', 'a', 'r']
  | void => lit ['v', 'o', 'i', 'd']
  | nil => lit ['n', 'i', 'l']
  | lib => lit ['l', 'i', 'b']
  | object => lit ['o', 'b', 'j', 'e', 'c', 't']

def wordArray : Str := lit ['a', 'r', 'r', 'a', 'y']

def wordSimd : Str := lit ['S', 'i', 'm', 'd']

def wordFn (isBlock : Bool) : Str :=
  if isBlock then lit ['B', 'l', 'o', 'c', 'k'] else lit ['d', 'e', 'f']

/-- `isMut ? "!" : ""` -/
def bang (isMut : Bool) : Str := if isMut then lit ['!'] else []

def paramSep (first : Bool) : Str := if first then [] else lit [',', ' ']

def vararg : Str := lit [',', ' ', '.', '.', '.']

def arrow : Str := lit [')', ' ', '-', '>', ' ']

/-- `<word>(<elem>, <n>)` -/
def sized (word elem : Str) (n : Int) : Str :=
  word ++ ch '(' :: (elem ++ (lit [',', ' '] ++ (showInt n ++ lit [')'])))

/-- `&<bang>array(<elem>)` -/
def sliceText (isMut : Bool) (elem : Str) : Str :=
  ch '&' :: (bang isMut ++ (wordArray ++ ch '(' :: (elem ++ lit [')'])))

/-- What `snprintf` leaves of a text in a buffer of 256 bytes. -/
def cut (text : Str) : Str := text.take 255

/-- `snprintf(tmp + pos, 256 - pos, ...)` behind a text of `pos` bytes, of which the buffer has the
first 255. Past the end the size wraps around and the write leaves the buffer. -/
def append (text more : Str) : Option Str := if text.length ≤ 256 then some (text ++ more) else none

def appendVararg (isVararg : Bool) (text : Str) : Option Str :=
  if isVararg then append text vararg else some text

namespace Ty

mutual

/-- `type_name` -/
def typeName : Ty → Option Str
  | basic b => some b.name
  | nominal _ name _ => some name
  | pointer target => do
    let n ← typeName target
    some (cut (ch '*' :: n))
  | reference isMut target => do
    let n ← typeName target
    some (cut (ch '&' :: (bang isMut ++ n)))
  | array elem size => do
    let n ← typeName elem
    some (cut (sized wordArray n size))
  | simd elem lanes => do
    let n ← typeName elem
    some (cut (sized wordSimd n lanes))
  | slice isMut elem => do
    let n ← typeName elem
    some (cut (sliceText isMut n))
  | function isBlock params isVararg ret => do
    let text ← paramNames (wordFn isBlock ++ lit ['(']) true params
    let text ← appendVararg isVararg text
    let n ← typeName ret
    let text ← append text (arrow ++ n)
    some (cut text)

def paramNames : Str → Bool → List Ty → Option Str
  | text, _, [] => some text
  | text, first, p :: ps =>
    if text.length < 256 - 10 then do
      let n ← typeName p
      paramNames (text ++ paramSep first ++ n) false ps
    else some text

end

/-- `mangle_type_arg_name` -/
def mangleTypeArgName : Ty → Option Str
  | nominal _ _ (some llvmName) => some llvmName
  | t => typeName t

/-! The names without the buffers. -/

mutual

def fullName : Ty → Str
  | basic b => b.name
  | nominal _ name _ => name
  | pointer target => ch '*' :: fullName target
  | reference isMut target => ch '&' :: (bang isMut ++ fullName target)
  | array elem size => sized wordArray (fullName elem) size
  | simd elem lanes => sized wordSimd (fullName elem) lanes
  | slice isMut elem => sliceText isMut (fullName elem)
  | function isBlock params isVararg ret =>
    wordFn isBlock ++ lit ['('] ++ paramsText true params ++ (if isVararg then vararg else []) ++
      arrow ++ fullName ret

def paramsText : Bool → List Ty → Str
  | _, [] => []
  | first, p :: ps => paramSep first ++ fullName p ++ paramsText false ps

end

end Ty

/-! Names that a program can have. -/

def nameByte (b : UInt8) : Bool := isWord b || b == ch '?' || b == ch '!'

/-- The parentheses of a text close `n` more than it opens, and each one closes an open one. -/
def balanced : Nat → Str → Bool
  | n, [] => n == 0
  | n, c :: s =>
    if c = ch '(' then balanced (n + 1) s
    else if c = ch ')' then n != 0 && balanced (n - 1) s
    else balanced n s

def Basic.all : List Basic :=
  [.scalar .int, .scalar .i8, .scalar .i16, .scalar .i32, .scalar .i64, .scalar .u8, .scalar .u16,
    .scalar .u32, .scalar .u64, .scalar .f32, .scalar .f64, .scalar .f16, .scalar .bf16,
    .scalar .bool, .scalar .char, .void, .nil, .lib, .object]

def typeWords : List Str :=
  Basic.all.map Basic.name ++ [wordArray, wordSimd, wordFn true, wordFn false]

def ArgsOk (args : Str) : Prop :=
  args = [] ∨ ∃ inner, args = ch '(' :: (inner ++ lit [')']) ∧ balanced 0 inner = true

/-- The name of a struct or an enum: a word, and for an instance its arguments. -/
def NameOk (s : Str) : Prop :=
  ∃ c w args, s = c :: w ++ args ∧ (isAlpha c = true ∨ c = ch '_') ∧
    (∀ b ∈ w, nameByte b = true) ∧ c :: w ∉ typeWords ∧ ArgsOk args

namespace Ty

mutual

def Fits : Ty → Prop
  | basic _ => True
  | nominal _ name llvmName => NameOk name ∧ ∀ l, llvmName = some l → NameOk l
  | pointer target => Fits target ∧ (pointer target).fullName.length ≤ 255
  | reference isMut target => Fits target ∧ (reference isMut target).fullName.length ≤ 255
  | array elem size => Fits elem ∧ (array elem size).fullName.length ≤ 255
  | simd elem lanes => Fits elem ∧ (simd elem lanes).fullName.length ≤ 255
  | slice isMut elem => Fits elem ∧ (slice isMut elem).fullName.length ≤ 255
  | function isBlock params isVararg ret =>
    ParamsFit (wordFn isBlock ++ lit ['(']) true params ∧ Fits ret ∧
      (function isBlock params isVararg ret).fullName.length ≤ 255

def ParamsFit : Str → Bool → List Ty → Prop
  | _, _, [] => True
  | text, first, p :: ps => text.length < 256 - 10 ∧ Fits p ∧
      ParamsFit (text ++ paramSep first ++ p.fullName) false ps

end

theorem append_of_le {text : Str} (h : text.length ≤ 256) (more : Str) :
    append text more = some (text ++ more) := if_pos h

theorem appendVararg_of_le {text : Str} (isVararg : Bool) (h : text.length ≤ 256) :
    appendVararg isVararg text = some (text ++ if isVararg then vararg else []) := by
  unfold appendVararg
  cases isVararg with
  | true => exact append_of_le h _
  | false => grind

theorem typeName_cut {n : Str} {t : Ty} (f : Str → Str) (h : t.typeName = some n)
    (hf : (f n).length ≤ 255) : (do
      let n ← t.typeName
      some (cut (f n))) = some (f n) := by
  rw [h]
  exact congrArg some (List.take_of_length_le hf)

mutual

theorem typeName_of_fits : ∀ t : Ty, t.Fits → t.typeName = some t.fullName
  | basic b, _ => by rw [typeName, fullName]
  | nominal _ _ _, _ => by rw [typeName, fullName]
  | pointer target, h => by
    rw [Fits, fullName] at h
    rw [typeName, fullName]
    exact typeName_cut (ch '*' :: ·) (typeName_of_fits target h.1) h.2
  | reference isMut target, h => by
    rw [Fits, fullName] at h
    rw [typeName, fullName]
    exact typeName_cut (fun n => ch '&' :: (bang isMut ++ n)) (typeName_of_fits target h.1) h.2
  | array elem size, h => by
    rw [Fits, fullName] at h
    rw [typeName, fullName]
    exact typeName_cut (sized wordArray · size) (typeName_of_fits elem h.1) h.2
  | simd elem lanes, h => by
    rw [Fits, fullName] at h
    rw [typeName, fullName]
    exact typeName_cut (sized wordSimd · lanes) (typeName_of_fits elem h.1) h.2
  | slice isMut elem, h => by
    rw [Fits, fullName] at h
    rw [typeName, fullName]
    exact typeName_cut (sliceText isMut) (typeName_of_fits elem h.1) h.2
  | function isBlock params isVararg ret, h => by
    rw [Fits] at h
    obtain ⟨hps, hr, hlen⟩ := h
    rw [fullName] at hlen
    simp only [List.length_append] at hlen
    rw [typeName, paramNames_of_fits _ true params hps, typeName_of_fits ret hr, fullName]
    simp only [Option.bind_eq_bind, Option.bind_some]
    rw [appendVararg_of_le isVararg (by grind), Option.bind_some,
      append_of_le (by grind), Option.bind_some, ← List.append_assoc]
    exact congrArg some (List.take_of_length_le (by grind))

theorem paramNames_of_fits : ∀ (text : Str) (first : Bool) (ps : List Ty), ParamsFit text first ps →
    paramNames text first ps = some (text ++ paramsText first ps)
  | text, first, [], _ => by rw [paramNames, paramsText, List.append_nil]
  | text, first, p :: ps, h => by
    rw [ParamsFit] at h
    obtain ⟨hlen, hp, hps⟩ := h
    rw [paramNames, if_pos hlen, typeName_of_fits p hp, paramsText]
    simp only [Option.bind_eq_bind, Option.bind_some]
    rw [paramNames_of_fits _ false ps hps]
    grind

end

end Ty

/-! When `type_name` stays inside its buffer of 256 bytes. -/

/-- The bytes up to which a parameter may reach, so that what is written behind the parameters starts
inside the buffer. -/
def paramsLimit (isVararg : Bool) : ℕ := if isVararg then 256 - vararg.length else 256

namespace Ty

mutual

def shownLength : Ty → ℕ
  | basic b => b.name.length
  | nominal _ name _ => name.length
  | pointer target => min 255 (1 + shownLength target)
  | reference isMut target => min 255 (1 + (bang isMut).length + shownLength target)
  | array elem size => min 255 ((sized wordArray [] size).length + shownLength elem)
  | simd elem lanes => min 255 ((sized wordSimd [] lanes).length + shownLength elem)
  | slice isMut elem => min 255 ((sliceText isMut []).length + shownLength elem)
  | function isBlock params isVararg ret =>
    min 255 (paramsEnd ((wordFn isBlock).length + 1) true params +
      (if isVararg then vararg.length else 0) + arrow.length + shownLength ret)

def paramsEnd : ℕ → Bool → List Ty → ℕ
  | pos, _, [] => pos
  | pos, first, p :: ps =>
    if pos < 246 then paramsEnd (pos + (paramSep first).length + shownLength p) false ps else pos

end

mutual

/-- In every function and `Block` type that is named, the parameters that start in front of byte 246 end
by byte 256, or by byte 251 if `, ...` follows. -/
def WritesInside : Ty → Prop
  | basic _ | nominal _ _ _ => True
  | pointer target | reference _ target => WritesInside target
  | array elem _ | simd elem _ | slice _ elem => WritesInside elem
  | function isBlock params isVararg ret =>
    ParamsInside (paramsLimit isVararg) ((wordFn isBlock).length + 1) true params ∧ WritesInside ret

def ParamsInside (limit : ℕ) : ℕ → Bool → List Ty → Prop
  | _, _, [] => True
  | pos, first, p :: ps =>
    pos < 246 → WritesInside p ∧ pos + (paramSep first).length + shownLength p ≤ limit ∧
      ParamsInside limit (pos + (paramSep first).length + shownLength p) false ps

end

def Named (t : Ty) : Prop :=
  (t.WritesInside ∧ ∃ n, t.typeName = some n ∧ n.length = t.shownLength) ∨
    (¬ t.WritesInside ∧ t.typeName = none)

/-- The parameters are written and end by the limit, or one of them is not or ends behind it. -/
def ParamsNamed (limit : ℕ) (text : Str) (first : Bool) (ps : List Ty) : Prop :=
  (ParamsInside limit text.length first ps ∧ ∃ out, paramNames text first ps = some out ∧
    out.length = paramsEnd text.length first ps ∧ out.length ≤ limit) ∨
  (¬ ParamsInside limit text.length first ps ∧
    ∀ out, paramNames text first ps = some out → limit < out.length)

theorem length_cut (text : Str) : (cut text).length = min 255 text.length := List.length_take

theorem length_sized (word elem : Str) (n : ℤ) :
    (sized word elem n).length = (sized word [] n).length + elem.length := by
  unfold sized
  grind

theorem length_sliceText (isMut : Bool) (elem : Str) :
    (sliceText isMut elem).length = (sliceText isMut []).length + elem.length := by
  unfold sliceText
  grind

theorem Named.wrap {t u : Ty} (h : Named t) (f : Str → Str) (k : ℕ)
    (hinside : u.WritesInside ↔ t.WritesInside)
    (hname : u.typeName = do
      let n ← t.typeName
      some (cut (f n)))
    (hf : ∀ n, (f n).length = k + n.length) (hlen : u.shownLength = min 255 (k + t.shownLength)) :
    Named u := by
  unfold Named
  rw [hname, hlen, hinside]
  rcases h with ⟨hin, n, hn, hl⟩ | ⟨hout, hn⟩
  · grind [length_cut]
  grind

theorem paramsNamed_nil {limit : ℕ} {text : Str} (first : Bool) (hlen : text.length ≤ limit) :
    ParamsNamed limit text first [] := by
  refine .inl ⟨?_, text, ?_, ?_, hlen⟩
  · rw [ParamsInside]
    trivial
  · rw [paramNames]
  · rw [paramsEnd]

theorem paramNames_stop {text : Str} (hlen : 246 ≤ text.length) (first : Bool) (ps : List Ty) :
    paramNames text first ps = some text := by
  cases ps with
  | nil => rw [paramNames]
  | cons p ps => rw [paramNames, if_neg (by omega)]

theorem ParamsNamed.cons {limit : ℕ} (hlimit : 246 ≤ limit) {text : Str} {p : Ty} {ps : List Ty}
    (first : Bool) (hp : Named p)
    (ih : ∀ out : Str, out.length ≤ limit → ParamsNamed limit out false ps)
    (hlen : text.length ≤ limit) : ParamsNamed limit text first (p :: ps) := by
  unfold ParamsNamed
  rw [ParamsInside, paramNames, paramsEnd]
  by_cases hpos : text.length < 246
  swap
  · grind
  rw [if_pos hpos, if_pos (by omega)]
  rcases hp with ⟨hin, n, hn, hl⟩ | ⟨hout, hn⟩
  swap
  · grind
  have hend : (text ++ paramSep first ++ n).length =
      text.length + (paramSep first).length + p.shownLength := by grind
  rw [hn, ← hend]
  simp only [Option.bind_eq_bind, Option.bind_some]
  by_cases hfit : (text ++ paramSep first ++ n).length ≤ limit
  · rcases ih _ hfit with ⟨hps, out, hwrite⟩ | ⟨hps, hwrite⟩
    · grind
    grind
  -- a parameter that ends behind the limit is the last one
  grind [paramNames_stop]

theorem tail_named {text : Str} (isVararg : Bool) :
    (text.length ≤ paramsLimit isVararg → ∀ more, (do
      let text ← appendVararg isVararg text
      append text more) = some (text ++ (if isVararg then vararg else []) ++ more)) ∧
    (paramsLimit isVararg < text.length → ∀ more, (do
      let text ← appendVararg isVararg text
      append text more) = none) := by
  have hvararg : vararg.length = 5 := rfl
  unfold appendVararg append paramsLimit
  cases isVararg with
  | false =>
    grind
  | true =>
    simp only [if_true, hvararg]
    constructor
    · grind
    · grind

theorem Named.function {isBlock isVararg : Bool} {ps : List Ty} {ret : Ty}
    (hps : ParamsNamed (paramsLimit isVararg) (wordFn isBlock ++ lit ['(']) true ps)
    (hret : Named ret) : Named (function isBlock ps isVararg ret) := by
  have hstart : (wordFn isBlock ++ lit ['(']).length = (wordFn isBlock).length + 1 :=
    List.length_append
  unfold ParamsNamed at hps
  rw [hstart] at hps
  unfold Named
  rw [WritesInside, typeName, shownLength]
  rcases hps with ⟨hin, text, hwrite, hend, hlen⟩ | ⟨hout, hwrite⟩
  · rw [hwrite, Option.bind_eq_bind, Option.bind_some]
    rcases hret with ⟨hr, n, hn, hl⟩ | ⟨hr, hn⟩
    · have htail := (tail_named isVararg).1 hlen (arrow ++ n)
      refine .inl ⟨⟨hin, hr⟩,
        cut (text ++ (if isVararg then vararg else []) ++ (arrow ++ n)), ?_, ?_⟩
      · rw [hn]
        simp only [Option.bind_eq_bind, Option.bind_some] at htail ⊢
        cases happ : appendVararg isVararg text with
        | none => grind
        | some text' =>
          grind
      · rw [length_cut, List.length_append, List.length_append, List.length_append, hend, hl,
          apply_ite List.length, List.length_nil]
        omega
    · refine .inr ⟨fun h => hr h.2, ?_⟩
      rw [hn]
      cases appendVararg isVararg text with
      | none => rfl
      | some text' => rfl
  · refine .inr ⟨fun h => hout h.1, ?_⟩
    cases hnames : paramNames (wordFn isBlock ++ lit ['(']) true ps with
    | none => rfl
    | some text =>
      rw [Option.bind_eq_bind, Option.bind_some]
      cases hname : typeName ret with
      | none =>
        cases appendVararg isVararg text with
        | none => rfl
        | some text' => rfl
      | some n =>
        have htail := (tail_named isVararg).2 (hwrite text hnames) (arrow ++ n)
        cases happ : appendVararg isVararg text with
        | none => rfl
        | some text' =>
          grind

mutual

theorem named : ∀ t : Ty, Named t
  | basic b => .inl ⟨by rw [WritesInside]; trivial, b.name, by rw [typeName], by rw [shownLength]⟩
  | nominal _ name _ => .inl ⟨by rw [WritesInside]; trivial, name, by rw [typeName], by rw [shownLength]⟩
  | pointer target => by
    refine (named target).wrap (ch '*' :: ·) 1 (by rw [WritesInside]) (by rw [typeName]) ?_
      (by rw [shownLength])
    grind
  | reference isMut target => by
    refine (named target).wrap (fun n => ch '&' :: (bang isMut ++ n)) (1 + (bang isMut).length)
      (by rw [WritesInside]) (by rw [typeName]) ?_ (by rw [shownLength])
    grind
  | array elem size =>
    (named elem).wrap (sized wordArray · size) _ (by rw [WritesInside]) (by rw [typeName])
      (fun n => length_sized wordArray n size) (by rw [shownLength])
  | simd elem lanes =>
    (named elem).wrap (sized wordSimd · lanes) _ (by rw [WritesInside]) (by rw [typeName])
      (fun n => length_sized wordSimd n lanes) (by rw [shownLength])
  | slice isMut elem =>
    (named elem).wrap (sliceText isMut) _ (by rw [WritesInside]) (by rw [typeName])
      (length_sliceText isMut) (by rw [shownLength])
  | function isBlock params isVararg ret => by
    have hlimit : 251 ≤ paramsLimit isVararg := by cases isVararg <;> decide
    have hstart : (wordFn isBlock ++ lit ['(']).length ≤ 6 := by cases isBlock <;> decide
    exact Named.function (paramsNamed (by omega) _ true params (by omega)) (named ret)

theorem paramsNamed {limit : ℕ} (hlimit : 246 ≤ limit) : ∀ (text : Str) (first : Bool) (ps : List Ty),
    text.length ≤ limit → ParamsNamed limit text first ps
  | _, first, [], hlen => paramsNamed_nil first hlen
  | _, first, p :: ps, hlen =>
    ParamsNamed.cons hlimit first (named p) (fun out => paramsNamed hlimit out false ps) hlen

end

theorem type_name_inside_iff (t : Ty) : t.typeName.isSome = true ↔ t.WritesInside := by
  rcases named t with ⟨hin, n, hn, -⟩ | ⟨hout, hn⟩
  · rw [hn]
    exact ⟨fun _ => hin, fun _ => rfl⟩
  · rw [hn]
    exact ⟨fun h => absurd h Bool.false_ne_true, fun h => absurd h hout⟩

/-- A `Block` whose parameter is a struct with a name of 255 bytes. -/
def longBlock : Ty :=
  function true [nominal false (List.replicate 255 (ch 'a')) none] false (basic .void)

theorem type_name_not_inside :
    (∀ p ∈ [nominal false (List.replicate 255 (ch 'a')) none],
      ∃ n, p.typeName = some n ∧ n.length ≤ 255) ∧ longBlock.typeName = none := by
  constructor
  · intro p hp
    rw [List.mem_singleton] at hp
    subst hp
    exact ⟨_, by rw [typeName], by rw [List.length_replicate]⟩
  · rw [← Option.not_isSome_iff_eq_none]
    intro h
    have hin := (type_name_inside_iff longBlock).1 h
    rw [longBlock, WritesInside, ParamsInside] at hin
    have hlen := (hin.1 (by decide)).2.1
    rw [shownLength, List.length_replicate] at hlen
    exact absurd hlen (by decide)

end Ty

end LsLang.Symbols
