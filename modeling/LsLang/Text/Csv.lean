import LsLang.Core.Buffer
import LsLang.Core.Str

/-! The CSV reader and writer of `std.text.csv`. -/

namespace LsLang.Text

open LsLang.Core LsLang.Undefined LsLang.Undefined.Res

structure Csv where
  headers : List Str
  rows : List (List Str)
  deriving DecidableEq

structure CsvOpts where
  delimiter : Int
  quote : Int
  hasHeader : Bool
  trim : Bool

/-- `CsvOpts.default` -/
def CsvOpts.default : CsvOpts := ⟨44, 34, false, false⟩

namespace Csv

/-- `Str.push_byte` -/
abbrev pushByte (out : Buffer UInt8) (b : Int) : Res (Buffer UInt8) := out.push Growth.strReserve (byteOf b)

/-- `Str.push_str` -/
abbrev pushStr (out : Buffer UInt8) (f : Str) : Res (Buffer UInt8) := out.append Growth.strReserve f

section Write

variable (delim quote : Int)

/-- `_needs_quote` -/
def needsQuote (f : Str) : Bool :=
  f.any fun b => int b == delim || int b == quote || b == 10 || b == 13

/-- A turn of the loop of `_write_field`. -/
def writeByte (out : Buffer UInt8) (b : UInt8) : Res (Buffer UInt8) :=
  if int b = quote then do
    let out ← pushByte out quote
    out.push Growth.strReserve b
  else out.push Growth.strReserve b

/-- `_write_field` -/
def writeField (f : Str) (out : Buffer UInt8) : Res (Buffer UInt8) :=
  if needsQuote delim quote f then do
    let out ← pushByte out quote
    let out ← f.foldlM (writeByte quote) out
    pushByte out quote
  else pushStr out f

/-- The loop of `_write_row`, which puts a delimiter in front of every field but the first. -/
def writeFields : List Str → Buffer UInt8 → Res (Buffer UInt8)
  | [], out => .ok out
  | [f], out => writeField delim quote f out
  | f :: fs, out => do
    let out ← writeField delim quote f out
    let out ← pushByte out delim
    writeFields fs out

/-- `_write_row` -/
def writeRow (row : List Str) (out : Buffer UInt8) : Res (Buffer UInt8) := do
  let out ← writeFields delim quote row out
  let out ← pushByte out 13
  pushByte out 10

end Write

/-- `Csv.to_str` -/
def toStr (t : Csv) : Res Str := do
  let out ← (if 0 < t.headers.length then writeRow 44 34 t.headers Buffer.empty else .ok Buffer.empty)
  let out ← t.rows.foldlM (fun out row => writeRow 44 34 row out) out
  .ok out.items

/-- The variables of the loop of `parse_opts`. -/
structure State where
  records : List (List Str)
  curRow : List Str
  cur : Str
  inQuotes : Bool
  fieldStart : Bool
  lineHas : Bool

namespace State

variable (opts : CsvOpts) (s : State)

def pushField : State :=
  { s with curRow := s.curRow ++ [if opts.trim then Str.trim s.cur else s.cur], cur := [] }

def endLine : State :=
  let s :=
    if s.lineHas then
      let s := s.pushField opts
      { s with records := s.records ++ [s.curRow], curRow := [] }
    else s
  { s with lineHas := false, fieldStart := true }

end State

/-- The loop of `parse_opts` over the bytes left. -/
def parseLoop (opts : CsvOpts) : Str → State → State
  | [], s => s
  | b :: rest, s =>
    if s.inQuotes then
      if int b = opts.quote then
        -- a doubled quote stands for one
        if rest.head?.map int = some opts.quote then
          match rest with
          | _ :: rest' => parseLoop opts rest' { s with cur := s.cur ++ [byteOf opts.quote] }
          | [] => s
        else parseLoop opts rest { s with inQuotes := false, fieldStart := false }
      else parseLoop opts rest { s with cur := s.cur ++ [b] }
    -- a quote opens only where a field starts
    else if s.fieldStart ∧ int b = opts.quote then
      parseLoop opts rest { s with inQuotes := true, fieldStart := false, lineHas := true }
    else if int b = opts.delimiter then
      parseLoop opts rest { s.pushField opts with fieldStart := true, lineHas := true }
    else if b = 13 then
      -- CR and LF end one line
      if rest.head? = some 10 then
        match rest with
        | _ :: rest' => parseLoop opts rest' (s.endLine opts)
        | [] => s
      else parseLoop opts rest (s.endLine opts)
    else if b = 10 then parseLoop opts rest (s.endLine opts)
    else parseLoop opts rest { s with cur := s.cur ++ [b], fieldStart := false, lineHas := true }

def bom : Str := [239, 187, 191]

/-- `parse_opts` -/
def parseOpts (text : Str) (opts : CsvOpts) : Except String Csv :=
  let text := if text.take 3 = bom then text.drop 3 else text
  let s := parseLoop opts text ⟨[], [], [], false, true, false⟩
  if s.inQuotes then .error "csv: unterminated quoted field"
  else
    let records := if s.lineHas then s.records ++ [(s.pushField opts).curRow] else s.records
    if opts.hasHeader then
      match records with
      | [] => .ok ⟨[], []⟩
      | headers :: rows => .ok ⟨headers, rows⟩
    else .ok ⟨[], records⟩

def parse (text : Str) : Except String Csv := parseOpts text .default

/-- `parse_header` -/
def parseHeader (text : Str) : Except String Csv :=
  parseOpts text { CsvOpts.default with hasHeader := true }

end Csv

end LsLang.Text

/-! What the writer writes, and when there is room for it. -/

namespace LsLang.Text.Csv

open LsLang.Core LsLang.Lib LsLang.Undefined LsLang.Undefined.Res

section Text

variable (delim quote : Int)

def byteText (b : UInt8) : Str := if int b = quote then [byteOf quote, b] else [b]

def fieldText (f : Str) : Str :=
  if needsQuote delim quote f then byteOf quote :: f.flatMap (byteText quote) ++ [byteOf quote] else f

def fieldsText : List Str → Str
  | [] => []
  | [f] => fieldText delim quote f
  | f :: fs => fieldText delim quote f ++ byteOf delim :: fieldsText fs

def rowText (row : List Str) : Str := fieldsText delim quote row ++ [13, 10]

end Text

def records (t : Csv) : List (List Str) :=
  if 0 < t.headers.length then t.headers :: t.rows else t.rows

def text (t : Csv) : Str := t.records.flatMap (rowText 44 34)

section Adds

variable {delim quote : Int}

theorem adds_writeByte (b : UInt8) : Buffer.str.Adds (fun out => writeByte quote out b) (byteText quote b) := by
  unfold writeByte byteText
  by_cases hb : int b = quote
  · exact ((Buffer.adds_push (byteOf quote)).bind (Buffer.adds_push b)).congr (fun _ => if_pos hb) (if_pos hb)
  · exact (Buffer.adds_push b).congr (fun _ => if_neg hb) (if_neg hb)

theorem adds_writeField (f : Str) : Buffer.str.Adds (writeField delim quote f) (fieldText delim quote f) := by
  unfold writeField fieldText
  by_cases hf : needsQuote delim quote f = true
  · have hloop : Buffer.str.Adds (fun out => f.foldlM (writeByte quote) out) (f.flatMap (byteText quote)) :=
      Holder.adds_foldlM fun b _ => adds_writeByte b
    have hquote := Buffer.adds_push (byteOf quote)
    exact (hquote.bind (hloop.bind hquote)).congr (fun _ => if_pos hf) (if_pos hf)
  · exact (Buffer.adds_append f).congr (fun _ => if_neg hf) (if_neg hf)

theorem adds_writeFields (row : List Str) : Buffer.str.Adds (writeFields delim quote row) (fieldsText delim quote row) := by
  induction row with
  | nil => exact Holder.adds_nil
  | cons f fs ih =>
    cases fs with
    | nil => exact adds_writeField f
    | cons g fs => exact (adds_writeField f).bind ((Buffer.adds_push (byteOf delim)).bind ih)

theorem adds_writeRow (row : List Str) : Buffer.str.Adds (writeRow delim quote row) (rowText delim quote row) :=
  (adds_writeFields row).bind ((Buffer.adds_push 13).bind (Buffer.adds_push 10))

end Adds

theorem text_eq (t : Csv) : t.text =
    (if 0 < t.headers.length then rowText 44 34 t.headers else []) ++ t.rows.flatMap (rowText 44 34) := by
  unfold text records
  split
  · exact List.flatMap_cons
  · rfl

/-- The text is written if and only if a `Str` holds it. -/
theorem toStr_exactly (t : Csv) : Exactly t.toStr (t.text.length ≤ 2 ^ 30) fun s => s = t.text := by
  have hheaders : Buffer.str.Adds (fun out => if 0 < t.headers.length then writeRow 44 34 t.headers out else .ok out)
      (if 0 < t.headers.length then rowText 44 34 t.headers else []) := by
    split
    · exact adds_writeRow t.headers
    · exact Holder.adds_nil
  have hrows : Buffer.str.Adds (fun out => t.rows.foldlM (fun out row => writeRow 44 34 row out) out)
      (t.rows.flatMap (rowText 44 34)) := Holder.adds_foldlM fun row _ => adds_writeRow row
  have hwrite := (hheaders.bind hrows).run Buffer.roomy_empty rfl
  rw [← text_eq] at hwrite
  have hall := hwrite.bind (d := True) fun out hout => Exactly.of_eq (congrArg ok hout.2)
  rw [bind_assoc] at hall
  exact hall.congr (and_iff_left trivial)

/-! How long the text is. -/

def fieldLength (delim quote : Int) (f : Str) : Nat :=
  if needsQuote delim quote f then f.length + f.countP (int · == quote) + 2 else f.length

def rowLength (delim quote : Int) (row : List Str) : Nat :=
  (row.map (fieldLength delim quote)).sum + (row.length - 1) + 2

def length (t : Csv) : Nat := (t.records.map (rowLength 44 34)).sum

section Length

variable {delim quote : Int}

theorem length_fieldText (f : Str) : (fieldText delim quote f).length = fieldLength delim quote f := by
  have hbytes : (f.flatMap (byteText quote)).length = f.length + f.countP (int · == quote) := by
    induction f with
    | nil => rfl
    | cons b f ih =>
      rw [List.flatMap_cons, List.length_append, ih, List.length_cons, List.countP_cons, byteText]
      by_cases hb : int b = quote
      · rw [if_pos hb, if_pos (beq_iff_eq.mpr hb)]
        simp only [List.length_cons, List.length_nil]
        omega
      · rw [if_neg hb, if_neg (mt beq_iff_eq.mp hb)]
        simp only [List.length_cons, List.length_nil]
        omega
  unfold fieldText fieldLength
  split
  · rw [List.length_append, List.length_cons, hbytes, List.length_singleton]
  · rfl

theorem length_rowText (row : List Str) : (rowText delim quote row).length = rowLength delim quote row := by
  have hfields : (fieldsText delim quote row).length =
      (row.map (fieldLength delim quote)).sum + (row.length - 1) := by
    induction row with
    | nil => rfl
    | cons f fs ih =>
      cases fs with
      | nil => exact length_fieldText f
      | cons g fs =>
        have hcons : fieldsText delim quote (f :: g :: fs) =
            fieldText delim quote f ++ byteOf delim :: fieldsText delim quote (g :: fs) := rfl
        have hsum : ((f :: g :: fs).map (fieldLength delim quote)).sum =
            fieldLength delim quote f + ((g :: fs).map (fieldLength delim quote)).sum := List.sum_cons
        rw [hcons, List.length_append, List.length_cons, ih, length_fieldText, hsum]
        simp only [List.length_cons]
        omega
  rw [rowText, List.length_append, hfields]
  rfl

theorem length_text (t : Csv) : t.text.length = t.length := by
  rw [text, length, List.length_flatMap]
  exact congrArg (fun f => (t.records.map f).sum) (funext length_rowText)

end Length

end LsLang.Text.Csv
