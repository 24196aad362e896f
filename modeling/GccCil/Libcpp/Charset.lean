import Mathlib.Data.Nat.Bitwise
import Mathlib.Tactic.IntervalCases

/-!
# Conversions between UTF-8, UTF-16 and UTF-32

The conversions of `charset.c` that need no `iconv`.  A pointer into a buffer
and the number of bytes left is the list of the bytes left.  A conversion that
fails leaves its pointers alone.
-/

namespace GccCil.Libcpp.Charset

inductive Errno
  | e2big
  | eilseq
  | einval
  deriving DecidableEq, Repr

/-- `masks` of `one_utf8_to_cppchar`. -/
def decodingMasks : List Nat := [0x7F, 0x1F, 0x0F, 0x07, 0x02, 0x01]

def patns : List Nat := [0x00, 0xC0, 0xE0, 0xF0, 0xF8, 0xFC]

def sequenceLength (c : Nat) : Option Nat :=
  [2, 3, 4, 5, 6].find? fun nbytes =>
    c &&& (0xFFFFFFFF ^^^ decodingMasks.getD (nbytes - 1) 0) == patns.getD (nbytes - 1) 0

def continueSequence : Nat → Nat → List UInt8 → Except Errno (Nat × List UInt8)
  | 0, c, inbuf => .ok (c, inbuf)
  | _ + 1, _, [] => .error .einval
  | i + 1, c, n :: inbuf =>
    if n.toNat &&& 0xC0 ≠ 0x80 then .error .eilseq
    else continueSequence i (((c <<< 6) + (n.toNat &&& 0x3F)) % 2 ^ 32) inbuf

def Overlong (nbytes c : Nat) : Prop :=
  (c ≤ 0x7F ∧ nbytes > 1) ∨ (c ≤ 0x7FF ∧ nbytes > 2) ∨ (c ≤ 0xFFFF ∧ nbytes > 3) ∨
    (c ≤ 0x1FFFFF ∧ nbytes > 4) ∨ (c ≤ 0x3FFFFFF ∧ nbytes > 5)

instance (nbytes c : Nat) : Decidable (Overlong nbytes c) := inferInstanceAs (Decidable (_ ∨ _))

def IsSurrogate (c : Nat) : Prop := 0xD800 ≤ c ∧ c ≤ 0xDFFF

instance (c : Nat) : Decidable (IsSurrogate c) := inferInstanceAs (Decidable (_ ∧ _))

def oneUtf8ToCppchar : List UInt8 → Except Errno (Nat × List UInt8)
  | [] => .error .einval
  | first :: inbuf =>
    if first.toNat < 0x80 then .ok (first.toNat, inbuf)
    else match sequenceLength first.toNat with
      | none => .error .eilseq
      | some nbytes =>
        if inbuf.length + 1 < nbytes then .error .einval
        else
          (continueSequence (nbytes - 1) (first.toNat &&& decodingMasks.getD (nbytes - 1) 0)
            inbuf).bind fun decoded =>
            if Overlong nbytes decoded.1 then .error .eilseq
            else if decoded.1 > 0x7FFFFFFF ∨ IsSurrogate decoded.1 then .error .eilseq
            else .ok decoded

/-- `masks` of `one_cppchar_to_utf8`. -/
def encodingMasks : List Nat := [0x00, 0xC0, 0xE0, 0xF0, 0xF8, 0xFC]

def limits : List Nat := [0x80, 0xE0, 0xF0, 0xF8, 0xFC, 0xFE]

def encodeSequence (c nbytes : Nat) (p : List UInt8) : List UInt8 :=
  if c >>> 6 ≥ 0x3F ∨ (c >>> 6) &&& limits.getD nbytes 0 ≠ 0 then
    encodeSequence (c >>> 6) (nbytes + 1) (UInt8.ofNat ((c &&& 0x3F) ||| 0x80) :: p)
  else
    UInt8.ofNat (c >>> 6 ||| encodingMasks.getD nbytes 0) ::
      UInt8.ofNat ((c &&& 0x3F) ||| 0x80) :: p
  termination_by c
  decreasing_by
    rename_i continues
    rw [Nat.shiftRight_eq_div_pow] at continues ⊢
    apply Nat.div_lt_self _ (by decide)
    apply Nat.pos_of_ne_zero
    rintro rfl
    simp at continues

abbrev Converted := Except Errno (List UInt8 × List UInt8)

def oneCppcharToUtf8 (c : Nat) (outbytesleft : Nat) : Except Errno (List UInt8) :=
  let bytes := if c < 0x80 then [UInt8.ofNat c] else encodeSequence c 1 []
  if outbytesleft < bytes.length then .error .e2big else .ok bytes

def oneUtf8ToUtf32 (bigend : Bool) (inbuf : List UInt8) (outbytesleft : Nat) : Converted :=
  if outbytesleft < 4 then .error .e2big
  else
    (oneUtf8ToCppchar inbuf).bind fun (s, inbuf) =>
      let b0 := UInt8.ofNat (s &&& 0x000000FF)
      let b1 := UInt8.ofNat ((s &&& 0x0000FF00) >>> 8)
      let b2 := UInt8.ofNat ((s &&& 0x00FF0000) >>> 16)
      let b3 := UInt8.ofNat ((s &&& 0xFF000000) >>> 24)
      .ok (if bigend then [b3, b2, b1, b0] else [b0, b1, b2, b3], inbuf)

def oneUtf32ToUtf8 (bigend : Bool) (inbuf : List UInt8) (outbytesleft : Nat) : Converted :=
  match inbuf with
  | b0 :: b1 :: b2 :: b3 :: rest =>
    let word := fun x3 x2 x1 x0 : UInt8 =>
      x3.toNat <<< 24 + x2.toNat <<< 16 + x1.toNat <<< 8 + x0.toNat
    let s := if bigend then word b0 b1 b2 b3 else word b3 b2 b1 b0
    if s ≥ 0x7FFFFFFF ∨ IsSurrogate s then .error .eilseq
    else (oneCppcharToUtf8 s outbytesleft).bind fun bytes => .ok (bytes, rest)
  | _ => .error .einval

def storeUnit (bigend : Bool) (s : Nat) : List UInt8 :=
  let low := UInt8.ofNat (s &&& 0x00FF)
  let high := UInt8.ofNat ((s &&& 0xFF00) >>> 8)
  if bigend then [high, low] else [low, high]

def oneUtf8ToUtf16 (bigend : Bool) (inbuf : List UInt8) (outbytesleft : Nat) : Converted :=
  (oneUtf8ToCppchar inbuf).bind fun (s, inbuf) =>
    if s > 0x0010FFFF then .error .eilseq
    else if s < 0xFFFF then
      if outbytesleft < 2 then .error .e2big else .ok (storeUnit bigend s, inbuf)
    else if outbytesleft < 4 then .error .e2big
    else
      -- A `cppchar_t` is unsigned.
      let offset := (s + (2 ^ 32 - 0x10000)) % 2 ^ 32
      .ok (storeUnit bigend (offset / 0x400 + 0xD800) ++
        storeUnit bigend (offset % 0x400 + 0xDC00), inbuf)

def loadUnit (bigend : Bool) (b0 b1 : UInt8) : Nat :=
  if bigend then b0.toNat <<< 8 + b1.toNat else b1.toNat <<< 8 + b0.toNat

def oneUtf16ToUtf8 (bigend : Bool) (inbuf : List UInt8) (outbytesleft : Nat) : Converted :=
  match inbuf with
  | b0 :: b1 :: rest =>
    let s := loadUnit bigend b0 b1
    if s ≥ 0xDC00 ∧ s ≤ 0xDFFF then .error .eilseq
    else if s ≥ 0xD800 ∧ s ≤ 0xDBFF then
      match rest with
      | b2 :: b3 :: rest =>
        let lo := loadUnit bigend b2 b3
        if lo < 0xDC00 ∨ lo > 0xDFFF then .error .eilseq
        else
          (oneCppcharToUtf8 ((s - 0xD800) * 0x400 + (lo - 0xDC00) + 0x10000)
            outbytesleft).bind fun bytes => .ok (bytes, rest)
      | _ => .error .einval
    else (oneCppcharToUtf8 s outbytesleft).bind fun bytes => .ok (bytes, rest)
  | _ => .error .einval

def outbufBlockSize : Nat := 256

/-- A conversion of one character, which reads something where it succeeds,
writes no more than there is room for, and asks for no more than a block. -/
structure OneConversion where
  convert : Bool → List UInt8 → Nat → Converted
  reads : ∀ {bigend inbuf outbytesleft written rest},
    convert bigend inbuf outbytesleft = .ok (written, rest) → rest.length < inbuf.length
  writes : ∀ {bigend inbuf outbytesleft written rest},
    convert bigend inbuf outbytesleft = .ok (written, rest) → written.length ≤ outbytesleft
  fits : ∀ {bigend inbuf outbytesleft},
    convert bigend inbuf outbytesleft = .error .e2big → outbytesleft < outbufBlockSize

/-- `struct _cpp_strbuf`: the text of length `len`, in `asize` bytes. -/
structure Strbuf where
  text : List UInt8
  asize : Nat
  fits : text.length ≤ asize

namespace Strbuf

def outbytesleft (buf : Strbuf) : Nat := buf.asize - buf.text.length

def append (buf : Strbuf) (bytes : List UInt8) (room : bytes.length ≤ buf.outbytesleft) : Strbuf where
  text := buf.text ++ bytes
  asize := buf.asize
  fits := by
    have fits := buf.fits
    unfold outbytesleft at room
    rw [List.length_append]
    omega

def grow (buf : Strbuf) : Strbuf where
  text := buf.text
  asize := buf.asize + outbufBlockSize
  fits := buf.fits.trans (Nat.le_add_right _ _)

theorem outbytesleft_grow (buf : Strbuf) :
    buf.grow.outbytesleft = buf.outbytesleft + outbufBlockSize := by
  have fits := buf.fits
  unfold outbytesleft grow
  dsimp only
  omega

end Strbuf

/-- On an error the text is what it was, and the buffer perhaps larger. -/
def conversionLoop (one : OneConversion) (bigend : Bool) (inbuf : List UInt8) (buf : Strbuf) :
    Except Errno Strbuf :=
  match converted : one.convert bigend inbuf buf.outbytesleft with
  | .ok (written, rest) =>
    if rest = [] then .ok (buf.append written (one.writes converted))
    else conversionLoop one bigend rest (buf.append written (one.writes converted))
  | .error errno =>
    if inbuf = [] then .ok buf
    else if errno = .e2big then conversionLoop one bigend inbuf buf.grow
    else .error errno
  termination_by (inbuf.length, if buf.outbytesleft < outbufBlockSize then 1 else 0)
  decreasing_by
    · exact Prod.Lex.left _ _ (one.reads converted)
    · rename_i isE2big
      apply Prod.Lex.right
      rw [isE2big] at converted
      rw [if_pos (one.fits converted), if_neg]
      · exact Nat.one_pos
      · rw [Strbuf.outbytesleft_grow]
        omega

end GccCil.Libcpp.Charset
