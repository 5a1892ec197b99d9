import LsLang.Core.Cursor
import LsLang.Core.Map
import LsLang.Core.StrNum

/-! The JSON values of `std.text.json`, their parser and their serializer. -/

namespace LsLang.Text

open LsLang.Core

/-- The table of an object is `none` if an operation on it did not return. -/
inductive JsonValue (F : Type)
  | null
  | bool (val : Bool)
  | number (val : F)
  | text (val : Str)
  | array (items : List (JsonValue F))
  | object (keys : List Str) (entries : Option (Map Str (JsonValue F)))

namespace JsonValue

variable {F : Type}

/-- `entries.set(key, val)` -/
def setEntry (entries : Option (Map Str (JsonValue F))) (key : Str) (val : JsonValue F) :
    Option (Map Str (JsonValue F)) := do
  let m ← entries
  m.set key val

/-- `array_new` -/
def arrayNew : JsonValue F := .array []

/-- `object_new` -/
def objectNew : JsonValue F := .object [] (some Map.empty)

/-- `int_val` -/
def intVal [F64 F] (n : Int) : JsonValue F := .number (F64.ofInt n)

/-- `push`: only an array takes it. -/
def push (self item : JsonValue F) : JsonValue F :=
  match self with
  | .array items => .array (items ++ [item])
  | v => v

/-- `set`: only an object takes it; a key that is there keeps its place. -/
def set (self : JsonValue F) (key : Str) (val : JsonValue F) : JsonValue F :=
  match self with
  | .object keys entries =>
    let nem := entries.map Map.clone
    match nem.bind (·.has key) with
    | some found => .object (if found then keys else keys ++ [key]) (setEntry nem key val)
    | none => .object keys none
  | v => v

end JsonValue

namespace Json

/-- `_peek`; the `int` -1 is `none`. -/
def peek (p : Cursor) : Option UInt8 := p.rest.head?

/-- What an escape other than `\u` stands for. -/
def escape (next : UInt8) : Option UInt8 :=
  if next = ch '"' then some (ch '"')
  else if next = ch '/' then some (ch '/')
  else if next = ch '\\' then some (ch '\\')
  else if next = ch 'n' then some (ch '\n')
  else if next = ch 'r' then some (ch '\r')
  else if next = ch 't' then some (ch '\t')
  else if next = ch 'b' then some 8
  else if next = ch 'f' then some 12
  else none

/-- A `Str` that begins empty holds so many bytes: `Str.reserve` doubles its capacity up to 2^30. Without a limit,
`room` is `none`. -/
def holds (room : Option Nat) (n : Nat) : Bool := room.all fun r => decide (n ≤ r)

/-- What a `Str` holds. -/
def strRoom : Option Nat := some (2 ^ 30)

/-- With a limit, the positions are `int`s as well. -/
def inInt (room : Option Nat) (pos : Nat) : Bool := room.all fun _ => decide (pos < 2 ^ 31)

section Read

variable (room : Option Nat)

/-- The loop of `_parse_string_raw`. A run of plain bytes is copied byte by byte. -/
def parseStringLoop : Str → Nat → Str → Outcome Str
  | [], pos, _ => .err "json: unterminated string" ⟨[], pos⟩
  | c :: rest, pos, result =>
    if c = ch '"' then .ok result ⟨rest, pos + 1⟩
    else if c = ch '\\' then
      match rest with
      | [] => .err s!"json: unknown escape at position {pos + 1}" ⟨[], pos + 1⟩
      | next :: rest =>
        match escape next with
        | some b =>
          if holds room (result.length + 1) then parseStringLoop rest (pos + 2) (result ++ [b]) else .diverges
        | none =>
          if next = ch 'u' then
            if inInt room (pos + 6) then
              match rest with
              -- the four bytes are copied, whatever they are
              | h₁ :: h₂ :: h₃ :: h₄ :: rest' =>
                if holds room (result.length + 6) then
                  parseStringLoop rest' (pos + 6) (result ++ [ch '\\', ch 'u', h₁, h₂, h₃, h₄])
                else .diverges
              | _ => .err s!"json: incomplete \\u escape at position {pos + 2}" ⟨rest, pos + 2⟩
            else .diverges
          else .err s!"json: unknown escape at position {pos + 2}" ⟨rest, pos + 2⟩
    else if holds room (result.length + 1) then parseStringLoop rest (pos + 1) (result ++ [c])
    else .diverges

/-- `_parse_string_raw` -/
def parseStringRaw (p : Cursor) : Outcome Str :=
  match p.rest with
  | [] => .err s!"json: expected '\"' at position {p.pos}" p
  | c :: _ =>
    let p := p.advance 1
    if c ≠ ch '"' then .err s!"json: expected '\"' at position {p.pos}" p
    else parseStringLoop room p.rest p.pos []

end Read

def atDigit (p : Cursor) : Bool := (peek p).any isDigit

def digits (p : Cursor) : Cursor := p.advance (p.rest.takeWhile isDigit).length

/-- The optional fraction of `_parse_number`. -/
def parseFraction (p : Cursor) : Outcome Unit :=
  if peek p = some (ch '.') then
    let p := p.advance 1
    if !atDigit p then .err s!"json: expected digit after '.' at position {p.pos}" p
    else .ok () (digits p)
  else .ok () p

def skipSign (p : Cursor) : Cursor :=
  if peek p = some (ch '+') ∨ peek p = some (ch '-') then p.advance 1 else p

/-- The optional exponent of `_parse_number`. -/
def parseExponent (p : Cursor) : Outcome Unit :=
  if peek p = some (ch 'e') ∨ peek p = some (ch 'E') then
    let p := skipSign (p.advance 1)
    if !atDigit p then .err s!"json: expected digit in exponent at position {p.pos}" p
    else .ok () (digits p)
  else .ok () p

/-- `_match4` and `_match5` -/
def matchChars (p : Cursor) (cs : List Char) : Bool := p.rest.take cs.length == lit cs

section Parse

variable {F : Type} [F64 F] (room : Option Nat)

/-- `_parse_number` -/
def parseNumber (p : Cursor) : Outcome (JsonValue F) :=
  let start := p
  let p := if peek p = some (ch '-') then p.advance 1 else p
  -- zeros in front are taken like other digits
  if !atDigit p then .err s!"json: expected digit at position {p.pos}" p
  else
    match parseFraction (digits p) with
    | .err e p => .err e p
    | .diverges => .diverges
    | .ok _ p =>
      match parseExponent p with
      | .err e p => .err e p
      | .diverges => .diverges
      | .ok _ p =>
        let num := start.rest.take (p.pos - start.pos)
        if holds room num.length then
          match (Str.toFloat num : Except String F) with
          | .ok val => .ok (.number val) p
          | .error _ =>
            let text := String.ofList (num.map fun b => Char.ofNat b.toNat)
            .err s!"json: invalid number '{text}' at position {start.pos}" p
        else .diverges

mutual

/-- `_parse_value`; every call takes fuel. -/
def parseValue : Nat → Nat → Cursor → Outcome (JsonValue F)
  | 0, _, _ => .diverges
  | n + 1, depth, p =>
    if 128 < depth then .err "json: nesting too deep (max 128)" p
    else
      let p := p.ws
      match peek p with
      | none => .err "json: unexpected end of input" p
      | some c =>
        if c = ch '"' then
          match parseStringRaw room p with
          | .ok s p => .ok (.text s) p
          | .err e p => .err e p
          | .diverges => .diverges
        else if c = ch '-' ∨ isDigit c then parseNumber room p
        else if c = ch 't' then
          if matchChars p ['t', 'r', 'u', 'e'] then .ok (.bool true) (p.advance 4)
          else .err s!"json: unexpected token at position {p.pos}" p
        else if c = ch 'f' then
          if matchChars p ['f', 'a', 'l', 's', 'e'] then .ok (.bool false) (p.advance 5)
          else .err s!"json: unexpected token at position {p.pos}" p
        else if c = ch 'n' then
          if matchChars p ['n', 'u', 'l', 'l'] then .ok .null (p.advance 4)
          else .err s!"json: unexpected token at position {p.pos}" p
        else if c = ch '[' then parseArray n depth p
        else if c = ch '\x7b' then parseObject n depth p
        else .err s!"json: unexpected character at position {p.pos}" p
termination_by structural n => n

/-- `_parse_array` -/
def parseArray : Nat → Nat → Cursor → Outcome (JsonValue F)
  | 0, _, _ => .diverges
  | n + 1, depth, p =>
    let p := (p.advance 1).ws
    if peek p = some (ch ']') then .ok (.array []) (p.advance 1) else parseItems n depth [] p
termination_by structural n => n

/-- An element, and the rest of the loop of `_parse_array`. -/
def parseItems : Nat → Nat → List (JsonValue F) → Cursor → Outcome (JsonValue F)
  | 0, _, _, _ => .diverges
  | n + 1, depth, items, p =>
    match parseValue n (depth + 1) p with
    | .err e p => .err e p
    | .diverges => .diverges
    | .ok v p =>
      let items := items ++ [v]
      let p := p.ws
      if peek p = some (ch ',') then parseItems n depth items (p.advance 1).ws
      else if peek p ≠ some (ch ']') then .err s!"json: expected ']' at position {p.pos}" p
      else .ok (.array items) (p.advance 1)
termination_by structural n => n

/-- `_parse_object` -/
def parseObject : Nat → Nat → Cursor → Outcome (JsonValue F)
  | 0, _, _ => .diverges
  | n + 1, depth, p =>
    let p := (p.advance 1).ws
    if peek p = some (ch '\x7d') then .ok (.object [] (some Map.empty)) (p.advance 1)
    else parseFields n depth [] (some Map.empty) p
termination_by structural n => n

/-- A pair, and the rest of the loop of `_parse_object`. -/
def parseFields : Nat → Nat → List Str → Option (Map Str (JsonValue F)) → Cursor →
    Outcome (JsonValue F)
  | 0, _, _, _, _ => .diverges
  | n + 1, depth, ks, entries, p =>
    match parseStringRaw room p.ws with
    | .err e p => .err e p
    | .diverges => .diverges
    | .ok key p =>
      let p := p.ws
      if peek p ≠ some (ch ':') then .err s!"json: expected ':' at position {p.pos}" p
      else
        match parseValue n (depth + 1) (p.advance 1).ws with
        | .err e p => .err e p
        | .diverges => .diverges
        | .ok val p =>
          let entries := JsonValue.setEntry entries key val
          let ks := ks ++ [key]
          let p := p.ws
          if peek p = some (ch ',') then parseFields n depth ks entries (p.advance 1)
          else if peek p ≠ some (ch '\x7d') then .err s!"json: expected '\x7d' at position {p.pos}" p
          else .ok (.object ks entries) (p.advance 1)
termination_by structural n => n

end

/-- `parse`, with strings that hold `room` bytes. -/
def parseIn (input : Str) : Outcome (JsonValue F) :=
  match parseValue room (3 * input.length + 4) 0 ⟨input, 0⟩ with
  | .err e p => .err e p
  | .diverges => .diverges
  | .ok v p =>
    let p := p.ws
    if 0 < p.rest.length then .err s!"json: unexpected trailing content at position {p.pos}" p
    else .ok v p

/-- `parse`, without a limit to the strings. -/
def parse (input : Str) : Outcome (JsonValue F) := parseIn none input

end Parse

/-- `_escape_string`; what it returns is pushed onto a longer `Str` at once. -/
def escapeString (s : Str) : Str :=
  s.flatMap fun b =>
    if b = ch '"' then lit ['\\', '"']
    else if b = ch '\\' then lit ['\\', '\\']
    else if b = ch '\n' then lit ['\\', 'n']
    else if b = ch '\r' then lit ['\\', 'r']
    else if b = ch '\t' then lit ['\\', 't']
    else if b = 8 then lit ['\\', 'b']
    else if b = 12 then lit ['\\', 'f']
    else [b]

/-- A `Str` that was pushed from an empty one. -/
def pushed (s : Str) : Option Str := if holds strRoom s.length then some s else none

/-- `_indent_str` -/
def indentStr (depth indent : Int) : Option Str :=
  let total := depth * indent
  if -2 ^ 31 ≤ total ∧ total < 2 ^ 31 then pushed (List.replicate total.toNat (ch ' ')) else none

section Print

variable {F : Type} [F64 F]

/-- `_format_number` -/
def formatNumber (n : F) : Str :=
  let i := F64.toInt n
  let check : F := F64.ofInt i
  if F64.beq check n && F64.le (F64.ofInt (0 - 2000000000)) n && F64.le n (F64.ofInt 2000000000) then
    showInt i
  else F64.fmt n

def join (sep : Str) : List Str → Str
  | [] => []
  | [part] => part
  | part :: parts => part ++ (sep ++ join sep parts)

def oneLine (opening closing : Char) (parts : List Str) : Str :=
  ch opening :: (join (lit [',']) parts ++ [ch closing])

def lines (childPad closePad : Str) (opening closing : Char) (parts : List Str) : Str :=
  ch opening :: ch '\n' :: (join (lit [',', '\n']) (parts.map (childPad ++ ·)) ++
    ch '\n' :: (closePad ++ [ch closing]))

/-- The four loops of `_stringify_impl`: on lines of their own with a positive indent. -/
def layout (depth indent : Int) (opening closing : Char) (parts : List Str) : Option Str :=
  if indent ≤ 0 then pushed (oneLine opening closing parts)
  else do
    let childPad ← indentStr (depth + 1) indent
    let closePad ← indentStr depth indent
    pushed (lines childPad closePad opening closing parts)

/-- `_stringify_impl`. The tree is entered through tables, so the recursion takes fuel. -/
def stringifyImpl : Nat → JsonValue F → Int → Int → Option Str
  | 0, _, _, _ => none
  | n + 1, val, depth, indent =>
    let child (cv : JsonValue F) : Option Str :=
      if indent ≤ 0 then stringifyImpl n cv depth 0 else stringifyImpl n cv (depth + 1) indent
    match val with
    | .null => some (lit ['n', 'u', 'l', 'l'])
    | .bool b => some (if b then lit ['t', 'r', 'u', 'e'] else lit ['f', 'a', 'l', 's', 'e'])
    | .number x => some (formatNumber x)
    | .text s => pushed (ch '"' :: (escapeString s ++ [ch '"']))
    | .array items =>
      if items.length = 0 then some (lit ['[', ']'])
      else (items.mapM child).bind (layout depth indent '[' ']')
    | .object ks entries =>
      if ks.length = 0 then some (lit ['\x7b', '\x7d'])
      else
        let part (key : Str) : Option Str := do
          let m ← entries
          let head := ch '"' :: (escapeString key ++
            (if indent ≤ 0 then lit ['"', ':'] else lit ['"', ':', ' ']))
          match ← m.get key with
          | some cv => (child cv).map (head ++ ·)
          -- a key that the table does not find is printed without a value
          | none => some head
        (ks.mapM part).bind (layout depth indent '\x7b' '\x7d')

/-- `stringify` -/
def stringify (fuel : Nat) (val : JsonValue F) : Option Str := stringifyImpl fuel val 0 0

/-- `stringify_pretty` -/
def stringifyPretty (fuel : Nat) (val : JsonValue F) (indent : Int) : Option Str :=
  stringifyImpl fuel val 0 indent

end Print

end Json

end LsLang.Text
