import LsLang.Word
import Mathlib.Logic.Function.Basic

/-! Programs of `ls_regex.c`: instructions, character classes, the pattern handle, and
the test of one byte that every executor makes. -/

namespace LsLang.Regex

abbrev maxGroups : Nat := 17
abbrev maxNamed : Nat := 16
abbrev maxInstrs : Nat := 2048
abbrev maxThreads : Nat := 512
abbrev maxClasses : Nat := 64
abbrev nameMaxLen : Nat := 64
abbrev reMaxDepth : Nat := 256
abbrev reDfaMaxProg : Nat := 160

/-- A character constant of the source. -/
abbrev byte (c : Char) : UInt8 := UInt8.ofNat c.toNat

def allBytes : List UInt8 := (List.range 256).map UInt8.ofNat

def asciiBytes : List UInt8 := (List.range 128).map UInt8.ofNat

theorem mem_allBytes (b : UInt8) : b ∈ allBytes :=
  List.mem_map.2 ⟨b.toNat, List.mem_range.2 b.toNat_lt, UInt8.ofNat_toNat⟩

/-! `<ctype.h>` in the C locale. -/

def isdigit (c : UInt8) : Bool := byte '0' ≤ c && c ≤ byte '9'

def isalnum (c : UInt8) : Bool :=
  isdigit c || (byte 'A' ≤ c && c ≤ byte 'Z') || (byte 'a' ≤ c && c ≤ byte 'z')

def isxdigit (c : UInt8) : Bool :=
  isdigit c || (byte 'A' ≤ c && c ≤ byte 'F') || (byte 'a' ≤ c && c ≤ byte 'f')

def tolower (c : UInt8) : UInt8 := if byte 'A' ≤ c && c ≤ byte 'Z' then c + 32 else c

def isWordChar (c : UInt8) : Bool := isalnum c || c == byte '_'

def isSpaceChar (c : UInt8) : Bool :=
  c == byte ' ' || c == 9 || c == 10 || c == 13 || c == 12 || c == 11

/-- An instruction, with branch operands of type `α`. The constructors are the opcodes
`OP_CHAR` to `OP_MATCH`, with the operands the opcode uses. -/
inductive Instr (α : Type)
  | char (c : UInt8) | any | cls (id : Nat) | ncls (id : Nat)
  | digit | ndigit | word | nword | space | nspace
  | bol | eol | bos | eos | wordbnd | nwordbnd
  | save (slot : Nat)
  | split (a b : α)
  | jump (a : α)
  | lookahead (a : α) (isNeg : Bool)
  | matched
  deriving DecidableEq

/-- `ReInstr`: the branch operands are absolute. -/
abbrev ReInstr : Type := Instr Nat

def Instr.map {α β : Type} (f : α → β) : Instr α → Instr β
  | .char c => .char c
  | .any => .any
  | .cls id => .cls id
  | .ncls id => .ncls id
  | .digit => .digit
  | .ndigit => .ndigit
  | .word => .word
  | .nword => .nword
  | .space => .space
  | .nspace => .nspace
  | .bol => .bol
  | .eol => .eol
  | .bos => .bos
  | .eos => .eos
  | .wordbnd => .wordbnd
  | .nwordbnd => .nwordbnd
  | .save slot => .save slot
  | .split a b => .split (f a) (f b)
  | .jump a => .jump (f a)
  | .lookahead a isNeg => .lookahead (f a) isNeg
  | .matched => .matched

def Instr.targets {α : Type} : Instr α → List α
  | .split a b => [a, b]
  | .jump a => [a]
  | .lookahead a _ => [a]
  | _ => []

theorem Instr.map_map {α β γ : Type} (f : α → β) (g : β → γ) (i : Instr α) :
    (i.map f).map g = i.map (g ∘ f) := by
  cases i <;> rfl

theorem Instr.map_congr {α β : Type} {f g : α → β} {i : Instr α}
    (h : ∀ a ∈ i.targets, f a = g a) : i.map f = i.map g := by
  cases i <;> simp_all [Instr.map, Instr.targets]

theorem Instr.map_id' {α : Type} {f : α → α} {i : Instr α} (h : ∀ a ∈ i.targets, f a = a) :
    i.map f = i := by
  cases i <;> simp_all [Instr.map, Instr.targets]

@[simp]
theorem Instr.targets_map {α β : Type} (f : α → β) (i : Instr α) :
    (i.map f).targets = i.targets.map f := by
  cases i <;> rfl

/-- The closure of a program counter: which bytes may be read first, and whether `OP_MATCH`
is reached before any. -/
structure ReFirstSet where
  bytes : UInt8 → Bool
  canMatchEmpty : Bool

structure ReSplitInfo where
  a : ReFirstSet
  b : ReFirstSet

/-- The pattern handle. `classes` is the memory of `classes[MAX_CLASSES]` as bits, class `k`
from bit `128 * k` on; `n_classes` and then `named[0].name` lie behind it. `refused` and
`outside` are no fields of the source: they record that `emit` returned -1, and that an
operand was written at index -1. -/
structure ReHandle where
  flags : Nat
  nGroups : Nat
  prog : List ReInstr
  progCap : Nat
  refused : Bool
  outside : Bool
  classes : Nat → Bool
  nClasses : Nat
  name0 : Nat → Bool
  nNamed : Nat
  lit : List UInt8
  litIsWhole : Bool
  firstBytes : Nat → Bool
  hasFirstBytes : Bool
  anchorMode : Nat
  onepass : Bool
  onepassSplits : Nat → ReSplitInfo
  dfaEligible : Bool
  dfaTrans : Nat → UInt8 → Int
  saved : Nat → Int
  dfaOnly : Option (List UInt8 × Nat)

namespace ReHandle

/-- The handle as `calloc` gives it. -/
def zero : ReHandle where
  flags := 0
  nGroups := 0
  prog := []
  progCap := 0
  refused := false
  outside := false
  classes := fun _ => false
  nClasses := 0
  name0 := fun _ => false
  nNamed := 0
  lit := []
  litIsWhole := false
  firstBytes := fun _ => false
  hasFirstBytes := false
  anchorMode := 0
  onepass := false
  onepassSplits := fun _ => ⟨⟨fun _ => false, false⟩, ⟨fun _ => false, false⟩⟩
  dfaEligible := false
  dfaTrans := fun _ _ => 0
  saved := fun _ => 0
  dfaOnly := none

def ignorecase (re : ReHandle) : Bool := re.flags.testBit 0

def multiline (re : ReHandle) : Bool := re.flags.testBit 1

def dotall (re : ReHandle) : Bool := re.flags.testBit 2

/-- `re_slot_count` -/
def slotCount (re : ReHandle) : Nat := min ((re.nGroups + 1) * 2) (maxGroups * 2)

/-- The bit `i` of the memory from `classes` on. -/
def classBit (re : ReHandle) (i : Nat) : Bool :=
  if i < maxClasses * 128 then re.classes i
  else if i < maxClasses * 128 + 32 then re.nClasses.testBit (i - maxClasses * 128)
  else re.name0 (i - (maxClasses * 128 + 32))

/-- Sets the bit `i` of the memory from `classes` on. -/
def setClassBit (re : ReHandle) (i : Nat) : ReHandle :=
  if i < maxClasses * 128 then { re with classes := Function.update re.classes i true }
  else if i < maxClasses * 128 + 32 then
    { re with nClasses := re.nClasses ||| 2 ^ (i - maxClasses * 128) }
  else { re with name0 := Function.update re.name0 (i - (maxClasses * 128 + 32)) true }

/-- `class_set`: no bound holds the byte below 128. -/
def classSet (re : ReHandle) (cid : Nat) (c : UInt8) : ReHandle := re.setClassBit (cid * 128 + c.toNat)

/-- `class_test` -/
def classTest (re : ReHandle) (cid : Nat) (c : UInt8) : Bool := re.classBit (cid * 128 + c.toNat)

/-- The `match_char` of the executors. -/
def matchChar (re : ReHandle) (ins : ReInstr) (ch : UInt8) : Bool :=
  match ins with
  | .char c => if re.ignorecase then tolower ch == tolower c else ch == c
  | .any => ch != byte '\n' || re.dotall
  | .cls id => re.classTest id (if re.ignorecase then tolower ch else ch)
  | .ncls id => !re.classTest id (if re.ignorecase then tolower ch else ch)
  | .digit => isdigit ch
  | .ndigit => !isdigit ch
  | .word => isWordChar ch
  | .nword => !isWordChar ch
  | .space => isSpaceChar ch
  | .nspace => !isSpaceChar ch
  | _ => false

end ReHandle

/-- A consuming instruction: the `default` case of the executors. -/
def Instr.consuming {α : Type} : Instr α → Bool
  | .char _ | .any | .cls _ | .ncls _ | .digit | .ndigit | .word | .nword | .space | .nspace => true
  | _ => false

/-- `^`, `$`, `\A`, `\Z`, `\b` and `\B`. -/
def Instr.isAnchor {α : Type} : Instr α → Bool
  | .bol | .eol | .bos | .eos | .wordbnd | .nwordbnd => true
  | _ => false

inductive Instr.Kind {α : Type} : Instr α → Prop
  | save (slot : Nat) : Kind (.save slot)
  | split (a b : α) : Kind (.split a b)
  | jump (a : α) : Kind (.jump a)
  | lookahead (a : α) (isNeg : Bool) : Kind (.lookahead a isNeg)
  | matched : Kind .matched
  | consuming {ins : Instr α} : ins.consuming = true → Kind ins
  | anchor {ins : Instr α} : ins.isAnchor = true → Kind ins

theorem Instr.kind {α : Type} (ins : Instr α) : ins.Kind := by
  cases ins
  case save slot => exact .save slot
  case split a b => exact .split a b
  case jump a => exact .jump a
  case lookahead a isNeg => exact .lookahead a isNeg
  case matched => exact .matched
  all_goals first | exact .consuming rfl | exact .anchor rfl

section MatchChar

variable {re : ReHandle} {ch : UInt8}

theorem ReHandle.matchChar_char {c : UInt8} :
    re.matchChar (.char c) ch = if re.ignorecase then tolower ch == tolower c else ch == c := rfl

theorem ReHandle.matchChar_any : re.matchChar .any ch = (ch != byte '\n' || re.dotall) := rfl

theorem ReHandle.matchChar_cls {id : Nat} :
    re.matchChar (.cls id) ch = re.classTest id (if re.ignorecase then tolower ch else ch) := rfl

theorem ReHandle.matchChar_ncls {id : Nat} :
    re.matchChar (.ncls id) ch = !re.classTest id (if re.ignorecase then tolower ch else ch) := rfl

end MatchChar

theorem ReHandle.matchChar_of_not_consuming {re : ReHandle} {ins : ReInstr}
    (h : ins.consuming = false) (ch : UInt8) : re.matchChar ins ch = false := by
  cases ins <;> first | rfl | nomatch h

/-- The byte of the text at `pos`. -/
def byteAt (text : List UInt8) (pos : Nat) : UInt8 := text.getD pos 0

namespace ReHandle

variable (re : ReHandle) (text : List UInt8) (pos : Nat)

/-- Whether a positional anchor or `\b`, `\B` lets a thread pass at `pos`. -/
def anchorHolds : ReInstr → Bool
  | .bol => pos == 0 || (re.multiline && byteAt text (pos - 1) == byte '\n')
  | .eol => pos == text.length ||
      (re.multiline && decide (pos < text.length) && byteAt text pos == byte '\n')
  | .bos => pos == 0
  | .eos => pos == text.length
  | .wordbnd =>
    (decide (0 < pos) && isWordChar (byteAt text (pos - 1))) !=
      (decide (pos < text.length) && isWordChar (byteAt text pos))
  | .nwordbnd =>
    (decide (0 < pos) && isWordChar (byteAt text (pos - 1))) ==
      (decide (pos < text.length) && isWordChar (byteAt text pos))
  | _ => false

end ReHandle

end LsLang.Regex
