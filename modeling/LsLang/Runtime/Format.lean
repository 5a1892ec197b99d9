import LsLang.Runtime.Decimal

/-! The fast formatter of the runtime, against what a format and its arguments say. -/

namespace LsLang.Runtime

open LsLang.Core LsLang.Undefined

/-- A variadic argument, as the caller passed it. -/
inductive Arg
  | int (v : Int32)
  | unsigned (v : UInt32)
  | longLong (v : Int64)
  | unsignedLongLong (v : UInt64)
  /-- A C string, up to its NUL, or NULL. -/
  | str (s : Option Str)
  deriving DecidableEq

/-- The count so far, and the first `size` bytes of the destination. -/
structure Out where
  total : ℕ
  buf : Str
  deriving DecidableEq

/-- `a + b` in `size_t`. -/
def sizeAdd (a b : ℕ) : ℕ := (a + b) % 2 ^ 64

/-- `buf[idx] = b`, in a destination of as many bytes. -/
def store (buf : Str) (idx : ℕ) (b : UInt8) : Res Str :=
  if idx < buf.length then .ok (buf.set idx b) else .stuck

def putLoop (size total : ℕ) : ℕ → Str → Str → Res Str
  | _, [], buf => .ok buf
  | i, b :: src, buf =>
    let idx := sizeAdd total i
    if sizeAdd idx 1 < size then do
      let buf ← store buf idx b
      putLoop size total (i + 1) src buf
    else putLoop size total (i + 1) src buf

/-- `ls_fmt_put` -/
def lsFmtPut (size : ℕ) (out : Out) (src : Str) : Res Out := do
  let buf ← putLoop size out.total 0 src out.buf
  .ok ⟨sizeAdd out.total src.length, buf⟩

/-- `ls_fmt_is_simple` -/
def lsFmtIsSimple : Str → Bool
  | [] => true
  | 37 :: p =>
    match p with
    | 108 :: 108 :: c :: p => (c == 100 || c == 117) && lsFmtIsSimple p
    | c :: p =>
      (c == 37 || c == 100 || c == 105 || c == 117 || c == 115 || c == 99) && lsFmtIsSimple p
    | [] => false
  | _ :: p => lsFmtIsSimple p

/-- `"(null)"` -/
def nullText : Str := [40, 110, 117, 108, 108, 41]

/-- One turn of the loop: the piece that is put, and what is left of the format and the arguments. -/
def vformatStep (p : Str) (args : List Arg) : Res (Str × Str × List Arg) :=
  if p.headD 0 ≠ 37 then .ok (p.takeWhile (· != 37), p.dropWhile (· != 37), args)
  else
    let c := p.getD 1 0
    -- `%%`, then `%d` and `%i`
    if c = 37 then .ok ([37], p.drop 2, args)
    else if c = 100 ∨ c = 105 then
      match args with
      | .int v :: args => do
        let num ← lsI64Dec v.toInt64
        .ok (num, p.drop 2, args)
      | _ => .stuck
    -- `%u`, `%s` and `%c`
    else if c = 117 then
      match args with
      | .unsigned v :: args => do
        let num ← lsU64Dec v.toUInt64
        .ok (num, p.drop 2, args)
      | _ => .stuck
    else if c = 115 then
      match args with
      | .str s :: args => .ok (s.getD nullText, p.drop 2, args)
      | _ => .stuck
    else if c = 99 then
      match args with
      | .int ch :: args => .ok ([ch.toUInt32.toUInt8], p.drop 2, args)
      | _ => .stuck
    -- `%lld` and `%llu`, of which `ls_fmt_is_simple` has made sure
    else if p.length < 4 then .stuck
    else if p.getD 3 0 = 100 then
      match args with
      | .longLong v :: args => do
        let num ← lsI64Dec v
        .ok (num, p.drop 4, args)
      | _ => .stuck
    else
      match args with
      | .unsignedLongLong v :: args => do
        let num ← lsU64Dec v
        .ok (num, p.drop 4, args)
      | _ => .stuck

/-- `while (*p)`; every turn consumes a byte of the format. -/
def vformatLoop (size : ℕ) : ℕ → Str → List Arg → Out → Res Out
  | _, [], _, out => .ok out
  | 0, _ :: _, _, _ => .stuck
  | fuel + 1, c :: p, args, out => do
    let (piece, p, args) ← vformatStep (c :: p) args
    let out ← lsFmtPut size out piece
    vformatLoop size fuel p args out

/-- `ls_fast_vformat`; the result is the `int` it returns, and the bytes of the destination. -/
def lsFastVformat (size : ℕ) (buf fmt : Str) (args : List Arg) : Res (Int32 × Str) := do
  let out ← vformatLoop size fmt.length fmt args ⟨0, buf⟩
  if 0 < size then do
    let buf ← store out.buf (if out.total < size then out.total else size - 1) 0
    .ok (Int32.ofNat out.total, buf)
  else .ok (Int32.ofNat out.total, out.buf)

/-- `__ls_fstr_format`; `vsnprintf` stands for the function of the C library. -/
def lsFstrFormat (vsnprintf : ℕ → Str → Str → List Arg → Res (Int32 × Str)) (size : ℕ) (buf fmt : Str)
    (args : List Arg) : Res (Int32 × Str) :=
  if lsFmtIsSimple fmt then lsFastVformat size buf fmt args else vsnprintf size buf fmt args

/-! ### What a format says -/

/-- The text of a format of simple conversions with arguments that match it. -/
inductive Formats : Str → List Arg → Str → Prop
  | nil {args : List Arg} : Formats [] args []
  | plain {c : UInt8} {p text : Str} {args : List Arg} : c ≠ 37 → Formats p args text →
    Formats (c :: p) args (c :: text)
  | percent {p text : Str} {args : List Arg} : Formats p args text →
    Formats (37 :: 37 :: p) args (37 :: text)
  | int {c : UInt8} {p text : Str} {args : List Arg} (v : Int32) : c = 100 ∨ c = 105 →
    Formats p args text → Formats (37 :: c :: p) (.int v :: args) (showInt v.toInt ++ text)
  | unsigned {p text : Str} {args : List Arg} (v : UInt32) : Formats p args text →
    Formats (37 :: 117 :: p) (.unsigned v :: args) (showNat v.toNat ++ text)
  | str {p text : Str} {args : List Arg} (s : Str) : Formats p args text →
    Formats (37 :: 115 :: p) (.str (some s) :: args) (s ++ text)
  | null {p text : Str} {args : List Arg} : Formats p args text →
    Formats (37 :: 115 :: p) (.str none :: args) (nullText ++ text)
  | char {p text : Str} {args : List Arg} (ch : Int32) : Formats p args text →
    Formats (37 :: 99 :: p) (.int ch :: args) (ch.toUInt32.toUInt8 :: text)
  | longLong {p text : Str} {args : List Arg} (v : Int64) : Formats p args text →
    Formats (37 :: 108 :: 108 :: 100 :: p) (.longLong v :: args) (showInt v.toInt ++ text)
  | unsignedLongLong {p text : Str} {args : List Arg} (v : UInt64) : Formats p args text →
    Formats (37 :: 108 :: 108 :: 117 :: p) (.unsignedLongLong v :: args) (showNat v.toNat ++ text)

section Step

variable {p text : Str} {args : List Arg}

theorem Formats.plains (h : Formats p args text) :
    ∃ rest, text = p.takeWhile (· != 37) ++ rest ∧ Formats (p.dropWhile (· != 37)) args rest := by
  induction h with
  | nil => exact ⟨[], rfl, .nil⟩
  | @plain c p text args hc h ih =>
    obtain ⟨rest, htext, hrest⟩ := ih
    have hne : (c != 37) = true := by simpa using hc
    refine ⟨rest, ?_, ?_⟩
    · rw [List.takeWhile_cons, if_pos hne, htext, List.cons_append]
    · rwa [List.dropWhile_cons, if_pos hne]
  | percent h => exact ⟨_, rfl, .percent h⟩
  | int v hc h => exact ⟨_, rfl, .int v hc h⟩
  | unsigned v h => exact ⟨_, rfl, .unsigned v h⟩
  | str s h => exact ⟨_, rfl, .str s h⟩
  | null h => exact ⟨_, rfl, .null h⟩
  | char ch h => exact ⟨_, rfl, .char ch h⟩
  | longLong v h => exact ⟨_, rfl, .longLong v h⟩
  | unsignedLongLong v h => exact ⟨_, rfl, .unsignedLongLong v h⟩

theorem int_text (v : Int32) : lsI64Dec v.toInt64 = .ok (showInt v.toInt) := by
  rw [lsI64Dec_eq, Int32.toInt_toInt64]

theorem unsigned_text (v : UInt32) : lsU64Dec v.toUInt64 = .ok (showNat v.toNat) := by
  rw [lsU64Dec_eq, UInt32.toNat_toUInt64]

theorem Formats.turn (h : Formats p args text) (hne : p ≠ []) :
    ∃ (piece p' : Str) (args' : List Arg) (rest : Str), vformatStep p args = .ok (piece, p', args') ∧
      text = piece ++ rest ∧ Formats p' args' rest ∧ p'.length < p.length := by
  cases h with
  | nil => exact absurd rfl hne
  | @plain c p text args hc h =>
    obtain ⟨rest, htext, hrest⟩ := (Formats.plain hc h).plains
    refine ⟨_, _, args, rest, ?_, htext, hrest, ?_⟩
    · unfold vformatStep
      rw [if_pos (by exact hc)]
    · have hcne : (c != 37) = true := by simpa using hc
      rw [List.dropWhile_cons, if_pos hcne]
      exact Nat.lt_succ_of_le (List.dropWhile_sublist _).length_le
  | @percent p text args h => exact ⟨[37], p, args, text, rfl, rfl, h, by grind⟩
  | @int c p text args v hc h =>
    refine ⟨showInt v.toInt, p, args, text, ?_, rfl, h, by grind⟩
    have hstep : vformatStep (37 :: c :: p) (.int v :: args) =
        (lsI64Dec v.toInt64 >>= fun num => .ok (num, p, args)) := by
      rcases hc with rfl | rfl
      · rfl
      · rfl
    rw [hstep, int_text]
    rfl
  | @unsigned p text args v h =>
    refine ⟨showNat v.toNat, p, args, text, ?_, rfl, h, by grind⟩
    have hstep : vformatStep (37 :: 117 :: p) (.unsigned v :: args) =
        (lsU64Dec v.toUInt64 >>= fun num => .ok (num, p, args)) := rfl
    rw [hstep, unsigned_text]
    rfl
  | @str p text args s h => exact ⟨s, p, args, text, rfl, rfl, h, by grind⟩
  | @null p text args h =>
    exact ⟨nullText, p, args, text, rfl, rfl, h, by grind⟩
  | @char p text args ch h =>
    exact ⟨[ch.toUInt32.toUInt8], p, args, text, rfl, rfl, h, by grind⟩
  | @longLong p text args v h =>
    refine ⟨showInt v.toInt, p, args, text, ?_, rfl, h, by grind⟩
    have hstep : vformatStep (37 :: 108 :: 108 :: 100 :: p) (.longLong v :: args) =
        (lsI64Dec v >>= fun num => .ok (num, p, args)) := rfl
    rw [hstep, lsI64Dec_eq]
    rfl
  | @unsignedLongLong p text args v h =>
    refine ⟨showNat v.toNat, p, args, text, ?_, rfl, h, by grind⟩
    have hstep : vformatStep (37 :: 108 :: 108 :: 117 :: p) (.unsignedLongLong v :: args) =
        (lsU64Dec v >>= fun num => .ok (num, p, args)) := rfl
    rw [hstep, lsU64Dec_eq]
    rfl

end Step

/-! ### The destination -/

/-- A destination with the start of a text in it; the last byte is kept for the NUL. -/
def filled (size : ℕ) (buf text : Str) : Str :=
  text.take (size - 1) ++ buf.drop (min text.length (size - 1))

def Sound (size : ℕ) (buf : Str) (out : Out) (text : Str) : Prop :=
  out.total = text.length ∧ out.buf = filled size buf text

section Destination

variable {size : ℕ} {buf text : Str}

theorem filled_length (hbuf : buf.length = size) (text : Str) : (filled size buf text).length = size := by
  unfold filled
  grind

theorem filled_nil (size : ℕ) (buf : Str) : filled size buf [] = buf := by
  unfold filled
  grind

theorem filled_store (hbuf : buf.length = size) (b : UInt8) (h : text.length + 1 < size) :
    store (filled size buf text) text.length b = .ok (filled size buf (text ++ [b])) := by
  unfold store
  rw [if_pos (by rw [filled_length hbuf]; omega)]
  have htake : text.take (size - 1) = text := List.take_of_length_le (by omega)
  have htake' : (text ++ [b]).take (size - 1) = text ++ [b] :=
    List.take_of_length_le (by grind)
  have hlen : (text ++ [b]).length = text.length + 1 := by grind
  unfold filled
  rw [htake, htake', hlen, Nat.min_eq_left (by omega), Nat.min_eq_left (by omega),
    List.drop_eq_getElem_cons (by omega : text.length < buf.length), List.set_append_right _ _ le_rfl,
    Nat.sub_self, List.set_cons_zero, List.append_assoc, List.singleton_append]

theorem filled_full (b : UInt8) (h : ¬ text.length + 1 < size) :
    filled size buf (text ++ [b]) = filled size buf text := by
  have hlen : (text ++ [b]).length = text.length + 1 := by grind
  unfold filled
  grind

theorem putLoop_filled (hbuf : buf.length = size) {total i : ℕ} (src : Str) (hi : total + i = text.length)
    (hbig : text.length + src.length < 2 ^ 63) :
    putLoop size total i src (filled size buf text) = .ok (filled size buf (text ++ src)) := by
  induction src generalizing i text with
  | nil =>
    rw [List.append_nil]
    rfl
  | cons b src ih =>
    rw [List.length_cons] at hbig
    have hidx : sizeAdd total i = text.length := by
      unfold sizeAdd
      grind
    have hnext : sizeAdd text.length 1 = text.length + 1 := Nat.mod_eq_of_lt (by omega)
    have hlen : (text ++ [b]).length = text.length + 1 := by grind
    have hrest : putLoop size total (i + 1) src (filled size buf (text ++ [b])) =
        .ok (filled size buf (text ++ [b] ++ src)) := ih (by omega) (by omega)
    rw [List.append_assoc, List.singleton_append] at hrest
    unfold putLoop
    dsimp only
    rw [hidx, hnext]
    by_cases hroom : text.length + 1 < size
    · rw [if_pos hroom, filled_store hbuf b hroom]
      exact hrest
    · rw [if_neg hroom, ← hrest, filled_full b hroom]

theorem lsFmtPut_sound (hbuf : buf.length = size) {out : Out} (src : Str) (h : Sound size buf out text)
    (hbig : text.length + src.length < 2 ^ 63) :
    ∃ out', lsFmtPut size out src = .ok out' ∧ Sound size buf out' (text ++ src) := by
  obtain ⟨htotal, hout⟩ := h
  refine ⟨⟨(text ++ src).length, filled size buf (text ++ src)⟩, ?_, rfl, rfl⟩
  have hsum : sizeAdd text.length src.length = (text ++ src).length := by
    rw [List.length_append]
    exact Nat.mod_eq_of_lt (by omega)
  unfold lsFmtPut
  rw [hout, putLoop_filled hbuf src (by rw [htotal]; rfl) hbig, htotal, ← hsum]
  rfl

theorem vformatLoop_sound (hbuf : buf.length = size) {fuel : ℕ} {p rest : Str} {args : List Arg} {out : Out}
    (h : Formats p args rest) (hfuel : p.length ≤ fuel) (hout : Sound size buf out text)
    (hbig : text.length + rest.length < 2 ^ 63) :
    ∃ out', vformatLoop size fuel p args out = .ok out' ∧ Sound size buf out' (text ++ rest) := by
  induction fuel generalizing p rest args out text with
  | zero =>
    obtain rfl : p = [] := List.length_eq_zero_iff.1 (by omega)
    cases h
    exact ⟨out, rfl, by rwa [List.append_nil]⟩
  | succ fuel ih =>
    cases p with
    | nil =>
      cases h
      exact ⟨out, rfl, by rwa [List.append_nil]⟩
    | cons c p =>
      obtain ⟨piece, p', args', rest', hstep, rfl, hrest, hless⟩ := h.turn (List.cons_ne_nil c p)
      rw [List.length_append] at hbig
      obtain ⟨out', hput, hout'⟩ := lsFmtPut_sound hbuf piece hout (by omega)
      have hlen : (text ++ piece).length = text.length + piece.length := List.length_append
      obtain ⟨end', hend, hsound⟩ := ih hrest (by omega) hout' (by omega)
      rw [List.append_assoc] at hsound
      refine ⟨end', ?_, hsound⟩
      unfold vformatLoop
      rw [hstep]
      change (lsFmtPut size out piece >>= fun out => vformatLoop size fuel p' args' out) = _
      rw [hput]
      exact hend

theorem filled_finish (hbuf : buf.length = size) (hpos : 0 < size) (text : Str) :
    store (filled size buf text) (if text.length < size then text.length else size - 1) 0 =
      .ok (text.take (size - 1) ++ 0 :: buf.drop (min text.length (size - 1) + 1)) := by
  have hidx : (if text.length < size then text.length else size - 1) = min text.length (size - 1) := by
    split <;> omega
  have hlen : (text.take (size - 1)).length = min text.length (size - 1) := by grind
  unfold store
  rw [hidx, if_pos (by rw [filled_length hbuf]; omega)]
  unfold filled
  rw [List.set_append_right _ _ (by rw [hlen]), hlen, Nat.sub_self,
    List.drop_eq_getElem_cons (by omega : min text.length (size - 1) < buf.length), List.set_cons_zero]

end Destination

/-- What `snprintf` leaves behind: the count, and the start of the text with a NUL behind it. -/
structure Written (size : ℕ) (buf text : Str) (n : Int32) (buf' : Str) : Prop where
  count : n.toInt = text.length
  bytes : buf' = if 0 < size then text.take (size - 1) ++ 0 :: buf.drop (min text.length (size - 1) + 1)
    else buf

section Vformat

variable {fmt text : Str} {args : List Arg}

theorem toInt_ofNat_lt {n : ℕ} (h : n < 2 ^ 31) : (Int32.ofNat n).toInt = n := by
  rw [Int32.toInt_ofNat_of_lt h]

theorem lsFastVformat_written {size : ℕ} (buf : Str) (hbuf : buf.length = size) (h : Formats fmt args text)
    (hbig : text.length < 2 ^ 31) :
    ∃ n buf', lsFastVformat size buf fmt args = .ok (n, buf') ∧ Written size buf text n buf' := by
  have hstart : Sound size buf ⟨0, buf⟩ [] := ⟨rfl, (filled_nil size buf).symm⟩
  obtain ⟨out, hloop, htotal, hout⟩ := vformatLoop_sound hbuf h le_rfl hstart
    (by rw [List.length_nil]; omega)
  rw [List.nil_append] at htotal hout
  have hcount : (Int32.ofNat out.total).toInt = text.length := by
    rw [htotal]
    exact toInt_ofNat_lt hbig
  unfold lsFastVformat
  rw [hloop]
  by_cases hpos : 0 < size
  · refine ⟨Int32.ofNat out.total, _, ?_, hcount, (if_pos hpos).symm⟩
    change (if 0 < size then _ else _) = _
    rw [if_pos hpos, hout, htotal, filled_finish hbuf hpos]
    rfl
  · refine ⟨Int32.ofNat out.total, _, ?_, hcount, (if_neg hpos).symm⟩
    change (if 0 < size then _ else _) = _
    obtain rfl : size = 0 := by omega
    obtain rfl : buf = [] := List.length_eq_zero_iff.1 hbuf
    have hempty : filled 0 [] text = [] := List.length_eq_zero_iff.1 (filled_length hbuf text)
    grind

theorem Written.lt {size : ℕ} {buf buf' : Str} {n : Int32} (h : Written size buf text n buf') :
    text.length < 2 ^ 31 := by
  have hlt := n.toInt_lt
  rw [h.count] at hlt
  omega

end Vformat

/-- Measuring and then filling gives the text: the first call counts, and the second has room for it. -/
def TwoPass (vsnprintf : ℕ → Str → Str → List Arg → Res (Int32 × Str)) (fmt : Str) (args : List Arg)
    (text : Str) : Prop :=
  ∀ first : Str, ∃ (n : Int32) (first' : Str), lsFstrFormat vsnprintf first.length first fmt args = .ok (n, first') ∧
    n.toInt = text.length ∧ ∀ buf : Str, buf.length = n.toInt + 1 →
      lsFstrFormat vsnprintf buf.length buf fmt args = .ok (n, text ++ [0])

/-- The fast formatter is `snprintf` exactly on texts that an `int` can count. -/
theorem fast_vformat_iff (vsnprintf : ℕ → Str → Str → List Arg → Res (Int32 × Str)) (size : ℕ) (buf fmt : Str)
    (args : List Arg) (text : Str) (hsimple : lsFmtIsSimple fmt = true) (hmatch : Formats fmt args text)
    (hbuf : buf.length = size) :
    ((∃ n buf', lsFastVformat size buf fmt args = .ok (n, buf') ∧ Written size buf text n buf') ↔
      text.length < 2 ^ 31) ∧
    (TwoPass vsnprintf fmt args text ↔ text.length < 2 ^ 31) := by
  refine ⟨⟨?_, lsFastVformat_written buf hbuf hmatch⟩, ?_, ?_⟩
  · rintro ⟨n, buf', -, hw⟩
    exact hw.lt
  · intro htwo
    obtain ⟨n, -, -, hcount, -⟩ := htwo []
    have hlt := n.toInt_lt
    omega
  · intro hbig first
    have hfast : ∀ buf : Str, lsFstrFormat vsnprintf buf.length buf fmt args =
        lsFastVformat buf.length buf fmt args := fun buf => if_pos hsimple
    obtain ⟨n, first', hfirst, hw⟩ := lsFastVformat_written first rfl hmatch hbig
    refine ⟨n, first', (hfast first).trans hfirst, hw.count, fun buf hlen => ?_⟩
    obtain ⟨n', buf', hfill, hw'⟩ := lsFastVformat_written buf rfl hmatch hbig
    have hn : n' = n := by
      rw [← Int32.toInt_inj, hw'.count, hw.count]
    have hroom : buf.length = text.length + 1 := by
      have := hw.count
      omega
    have hbytes : buf' = text ++ [0] := by
      rw [hw'.bytes, if_pos (by omega), hroom, Nat.add_sub_cancel, List.take_length, Nat.min_self,
        List.drop_of_length_le (by omega)]
    rw [hfast buf, hfill, hn, hbytes]

/-- A number and a string, cut off in the middle. -/
theorem fast_vformat_iff_cut :
    ((∃ n buf', lsFastVformat 5 [1, 1, 1, 1, 1] [120, 61, 37, 100, 37, 37] [.int (-12)] = .ok (n, buf') ∧
      Written 5 [1, 1, 1, 1, 1] [120, 61, 45, 49, 50, 37] n buf') ↔
        ([120, 61, 45, 49, 50, 37] : Str).length < 2 ^ 31) ∧
    (TwoPass (fun _ _ _ _ => .fail) [120, 61, 37, 100, 37, 37] [.int (-12)] [120, 61, 45, 49, 50, 37] ↔
      ([120, 61, 45, 49, 50, 37] : Str).length < 2 ^ 31) := by
  have hmatch : Formats [120, 61, 37, 100, 37, 37] [.int (-12)] [120, 61, 45, 49, 50, 37] :=
    .plain (by decide) (.plain (by decide) (.int (-12) (.inl rfl) (.percent .nil)))
  exact fast_vformat_iff _ 5 _ _ _ _ (by decide) hmatch rfl

/-- A text of 2^31 bytes: the count wraps around. -/
theorem fast_vformat_wraps :
    ¬ ∃ n buf', lsFastVformat 0 [] [37, 115] [.str (some (List.replicate (2 ^ 31) 97))] = .ok (n, buf') ∧
      Written 0 [] (List.replicate (2 ^ 31) 97) n buf' := by
  rintro ⟨n, buf', -, hw⟩
  have hlt := hw.lt
  rw [List.length_replicate] at hlt
  exact lt_irrefl _ hlt

end LsLang.Runtime
