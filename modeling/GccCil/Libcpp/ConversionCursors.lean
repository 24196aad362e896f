import GccCil.Libcpp.CharsetRoundTrip

/-!
# Conversion through cursors

The conversions of one character as they move the four cursors of their caller:
a position in the input and one in the text, each with the number of bytes left.
What a conversion stores into the text is part of the state.  A conversion that
fails gives back the state that it was given, also where it has decoded the
character before it finds that the output does not fit.
-/

namespace GccCil.Libcpp.Charset

/-- `inbuf`, `inbytesleft`, `outbuf`, `outbytesleft` and what `outbuf` points into. -/
structure Cursors where
  inbuf : Nat
  inbytesleft : Nat
  outbuf : Nat
  outbytesleft : Nat
  text : List UInt8
  deriving DecidableEq, Repr

def load (source : List UInt8) (i : Nat) : UInt8 := source.getD i 0

def store (text : List UInt8) : Nat → List UInt8 → List UInt8
  | _, [] => text
  | i, byte :: bytes => store (text.set i byte) (i + 1) bytes

namespace Cursors

def read (s : Cursors) (count : Nat) : Cursors :=
  { s with inbuf := s.inbuf + count, inbytesleft := s.inbytesleft - count }

def write (s : Cursors) (bytes : List UInt8) : Cursors :=
  { s with
    text := store s.text s.outbuf bytes
    outbuf := s.outbuf + bytes.length
    outbytesleft := s.outbytesleft - bytes.length }

@[simp]
theorem read_outbytesleft (s : Cursors) (count : Nat) :
    (s.read count).outbytesleft = s.outbytesleft :=
  rfl

end Cursors

def continueFrom (source : List UInt8) : Nat → Nat → Nat → Option Nat
  | 0, c, _ => some c
  | count + 1, c, inbuf =>
    let n := (load source inbuf).toNat
    if n &&& 0xC0 ≠ 0x80 then none
    else continueFrom source count (((c <<< 6) + (n &&& 0x3F)) % 2 ^ 32) (inbuf + 1)

def readUtf8 (source : List UInt8) (s : Cursors) : Except Errno Nat × Cursors :=
  if s.inbytesleft < 1 then (.error .einval, s)
  else
    let c := (load source s.inbuf).toNat
    if c < 0x80 then (.ok c, s.read 1)
    else match sequenceLength c with
      | none => (.error .eilseq, s)
      | some nbytes =>
        if s.inbytesleft < nbytes then (.error .einval, s)
        else match continueFrom source (nbytes - 1)
            (c &&& decodingMasks.getD (nbytes - 1) 0) (s.inbuf + 1) with
          | none => (.error .eilseq, s)
          | some c =>
            if Overlong nbytes c then (.error .eilseq, s)
            else if c > 0x7FFFFFFF ∨ IsSurrogate c then (.error .eilseq, s)
            else (.ok c, s.read nbytes)

def writeUtf8 (c : Nat) (s : Cursors) : Option Errno × Cursors :=
  let bytes := if c < 0x80 then [UInt8.ofNat c] else encodeSequence c 1 []
  if s.outbytesleft < bytes.length then (some .e2big, s) else (none, s.write bytes)

abbrev Converter := List UInt8 → Cursors → Option Errno × Cursors

namespace Converter

def utf8ToUtf32 (bigend : Bool) : Converter := fun source s =>
  if s.outbytesleft < 4 then (some .e2big, s)
  else match readUtf8 source s with
    | (.error errno, s) => (some errno, s)
    | (.ok c, s) =>
      let b0 := UInt8.ofNat (c &&& 0x000000FF)
      let b1 := UInt8.ofNat ((c &&& 0x0000FF00) >>> 8)
      let b2 := UInt8.ofNat ((c &&& 0x00FF0000) >>> 16)
      let b3 := UInt8.ofNat ((c &&& 0xFF000000) >>> 24)
      (none, s.write (if bigend then [b3, b2, b1, b0] else [b0, b1, b2, b3]))

def utf32ToUtf8 (bigend : Bool) : Converter := fun source s =>
  if s.inbytesleft < 4 then (some .einval, s)
  else
    let byte := fun i => (load source (s.inbuf + i)).toNat
    let c := byte (if bigend then 0 else 3) <<< 24 + byte (if bigend then 1 else 2) <<< 16 +
      byte (if bigend then 2 else 1) <<< 8 + byte (if bigend then 3 else 0)
    if c ≥ 0x7FFFFFFF ∨ IsSurrogate c then (some .eilseq, s)
    else match writeUtf8 c s with
      | (some errno, s) => (some errno, s)
      | (none, s) => (none, s.read 4)

/-- The input cursors are saved, and restored where the output does not fit. -/
def utf8ToUtf16 (bigend : Bool) : Converter := fun source s =>
  let saveInbuf := s.inbuf
  let saveInbytesleft := s.inbytesleft
  match readUtf8 source s with
  | (.error errno, s) => (some errno, s)
  | (.ok c, s) =>
    let restored := { s with inbuf := saveInbuf, inbytesleft := saveInbytesleft }
    if c > 0x0010FFFF then (some .eilseq, restored)
    else if c < 0xFFFF then
      if s.outbytesleft < 2 then (some .e2big, restored)
      else (none, s.write (storeUnit bigend c))
    else if s.outbytesleft < 4 then (some .e2big, restored)
    else
      let offset := (c + (2 ^ 32 - 0x10000)) % 2 ^ 32
      (none, s.write (storeUnit bigend (offset / 0x400 + 0xD800) ++
        storeUnit bigend (offset % 0x400 + 0xDC00)))

def finishUtf16 (c : Nat) (s : Cursors) : Option Errno × Cursors :=
  match writeUtf8 c s with
  | (some errno, s) => (some errno, s)
  | (none, s) => (none, s.read (if c ≤ 0xFFFF then 2 else 4))

def utf16ToUtf8 (bigend : Bool) : Converter := fun source s =>
  if s.inbytesleft < 2 then (some .einval, s)
  else
    let hi := loadUnit bigend (load source s.inbuf) (load source (s.inbuf + 1))
    if hi ≥ 0xDC00 ∧ hi ≤ 0xDFFF then (some .eilseq, s)
    else if hi ≥ 0xD800 ∧ hi ≤ 0xDBFF then
      if s.inbytesleft < 4 then (some .einval, s)
      else
        let lo := loadUnit bigend (load source (s.inbuf + 2)) (load source (s.inbuf + 2 + 1))
        if lo < 0xDC00 ∨ lo > 0xDFFF then (some .eilseq, s)
        else finishUtf16 ((hi - 0xD800) * 0x400 + (lo - 0xDC00) + 0x10000) s
    else finishUtf16 hi s

end Converter

theorem drop_eq_load_cons {source : List UInt8} {i : Nat} (inside : i < source.length) :
    source.drop i = load source i :: source.drop (i + 1) := by
  rw [List.drop_eq_getElem_cons inside, load, List.getD_eq_getElem _ _ inside]

theorem drop_eq_two_loads {source : List UInt8} {i : Nat} (inside : i + 2 ≤ source.length) :
    source.drop i = load source i :: load source (i + 1) :: source.drop (i + 2) := by
  rw [drop_eq_load_cons (by omega), drop_eq_load_cons (by omega)]

def Cursors.Within (s : Cursors) (source : List UInt8) : Prop :=
  s.inbuf + s.inbytesleft = source.length

theorem Cursors.Within.length_drop {s : Cursors} {source : List UInt8} (within : s.Within source) :
    (source.drop s.inbuf).length = s.inbytesleft := by
  rw [Cursors.Within] at within
  rw [List.length_drop]
  omega

def Moves (source : List UInt8) (s after : Cursors) (written rest : List UInt8) : Prop :=
  ∃ count ≤ s.inbytesleft, rest = source.drop (s.inbuf + count) ∧
    after = (s.read count).write written

/-- The outcome of a conversion through cursors is that of one on the bytes left:
where that one fails, the cursors and the text are as they were. -/
def Agrees (source : List UInt8) (s : Cursors) (outcome : Option Errno × Cursors) :
    Converted → Prop
  | .error errno => outcome = (some errno, s)
  | .ok (written, rest) => ∃ after, outcome = (none, after) ∧ Moves source s after written rest

def Refines (converter : Converter) (convert : List UInt8 → Nat → Converted) : Prop :=
  ∀ (source : List UInt8) (s : Cursors), s.Within source →
    Agrees source s (converter source s) (convert (source.drop s.inbuf) s.outbytesleft)

theorem Agrees.guard {source : List UInt8} {s : Cursors} {fails : Prop} [Decidable fails]
    {errno : Errno} {outcome : Option Errno × Cursors} {converted : Converted}
    (passes : ¬fails → Agrees source s outcome converted) :
    Agrees source s (if fails then (some errno, s) else outcome)
      (if fails then .error errno else converted) := by
  by_cases failed : fails
  · rw [if_pos failed, if_pos failed]
    rfl
  · rw [if_neg failed, if_neg failed]
    exact passes failed

theorem continueSequence_drop {source : List UInt8} {count c i : Nat}
    (enough : i + count ≤ source.length) :
    continueSequence count c (source.drop i) =
      match continueFrom source count c i with
      | none => .error .eilseq
      | some c => .ok (c, source.drop (i + count)) := by
  induction count generalizing c i with
  | zero => rfl
  | succ count ih =>
    rw [drop_eq_load_cons (by omega), continueSequence, continueFrom]
    split
    · rfl
    · rw [ih (by omega), Nat.add_assoc, Nat.add_comm 1 count]

theorem readUtf8_eq {source : List UInt8} {s : Cursors} (within : s.Within source) :
    readUtf8 source s =
      match oneUtf8ToCppchar (source.drop s.inbuf) with
      | .error errno => (.error errno, s)
      | .ok (c, rest) => (.ok c, s.read (s.inbytesleft - rest.length)) := by
  have length := within.length_drop
  by_cases empty : s.inbytesleft < 1
  · rw [List.eq_nil_of_length_eq_zero (show (source.drop s.inbuf).length = 0 by omega)]
    rw [readUtf8, if_pos empty]
    rfl
  · have inside : s.inbuf < source.length := by
      rw [Cursors.Within] at within
      omega
    have shorter : (source.drop (s.inbuf + 1)).length = s.inbytesleft - 1 := by
      rw [List.length_drop, ← within]
      omega
    rw [readUtf8, if_neg empty, drop_eq_load_cons inside, oneUtf8ToCppchar]
    by_cases ascii : (load source s.inbuf).toNat < 0x80
    · simp only [ascii, if_true, shorter]
      rw [show s.inbytesleft - (s.inbytesleft - 1) = 1 by omega]
    · simp only [ascii, if_false]
      cases announced : sequenceLength (load source s.inbuf).toNat with
      | none => rfl
      | some nbytes =>
        have several : 2 ≤ nbytes := by
          have member := List.mem_of_find?_eq_some announced
          revert member
          simp only [List.mem_cons, List.not_mem_nil, or_false]
          omega
        simp only [shorter]
        by_cases incomplete : s.inbytesleft < nbytes
        · rw [if_pos incomplete, if_pos (by omega)]
        · rw [if_neg incomplete, if_neg (by omega), continueSequence_drop (by
            rw [Cursors.Within] at within
            omega)]
          cases continueFrom source (nbytes - 1)
              ((load source s.inbuf).toNat &&& decodingMasks.getD (nbytes - 1) 0)
              (s.inbuf + 1) with
          | none => rfl
          | some c =>
            have rest : (source.drop (s.inbuf + 1 + (nbytes - 1))).length =
                s.inbytesleft - nbytes := by
              rw [List.length_drop, ← within]
              omega
            simp only [Except.bind]
            by_cases overlong : Overlong nbytes c
            · rw [if_pos overlong, if_pos overlong]
            · by_cases invalid : c > 0x7FFFFFFF ∨ IsSurrogate c
              · rw [if_neg overlong, if_neg overlong, if_pos invalid, if_pos invalid]
              · rw [if_neg overlong, if_neg overlong, if_neg invalid, if_neg invalid]
                simp only [rest]
                rw [show s.inbytesleft - (s.inbytesleft - nbytes) = nbytes by omega]

theorem drop_of_append {source encoded rest : List UInt8} {s : Cursors} (within : s.Within source)
    (append : source.drop s.inbuf = encoded ++ rest) :
    s.inbytesleft - rest.length ≤ s.inbytesleft ∧
      rest = source.drop (s.inbuf + (s.inbytesleft - rest.length)) := by
  have length := within.length_drop
  rw [append, List.length_append] at length
  refine ⟨Nat.sub_le _ _, ?_⟩
  rw [← List.drop_drop, append, show s.inbytesleft - rest.length = encoded.length by omega,
    List.drop_left]

theorem writeUtf8_eq (c : Nat) (s : Cursors) :
    writeUtf8 c s =
      match oneCppcharToUtf8 c s.outbytesleft with
      | .error errno => (some errno, s)
      | .ok bytes => (none, s.write bytes) := by
  simp only [writeUtf8, oneCppcharToUtf8]
  split <;> split <;> rfl

theorem utf8ToUtf32_refines (bigend : Bool) :
    Refines (Converter.utf8ToUtf32 bigend) (oneUtf8ToUtf32 bigend) := by
  intro source s within
  refine Agrees.guard fun room => ?_
  rw [readUtf8_eq within]
  cases decoded : oneUtf8ToCppchar (source.drop s.inbuf) with
  | error errno => rfl
  | ok value =>
    obtain ⟨c, rest⟩ := value
    obtain ⟨bounded, isRest⟩ := drop_of_append within (oneUtf8ToCppchar_iff.mp decoded).1
    exact ⟨_, rfl, _, bounded, isRest, rfl⟩

theorem utf8ToUtf16_refines (bigend : Bool) :
    Refines (Converter.utf8ToUtf16 bigend) (oneUtf8ToUtf16 bigend) := by
  intro source s within
  simp only [Converter.utf8ToUtf16, oneUtf8ToUtf16, readUtf8_eq within]
  cases decoded : oneUtf8ToCppchar (source.drop s.inbuf) with
  | error errno => rfl
  | ok value =>
    obtain ⟨c, rest⟩ := value
    obtain ⟨bounded, isRest⟩ := drop_of_append within (oneUtf8ToCppchar_iff.mp decoded).1
    simp only [Except.bind, Cursors.read_outbytesleft]
    -- The saved cursors are restored: the state is the one before the decoding.
    refine Agrees.guard fun _ => ?_
    by_cases unit : c < 0xFFFF
    · rw [if_pos unit, if_pos unit]
      exact Agrees.guard fun _ => ⟨_, rfl, _, bounded, isRest, rfl⟩
    · rw [if_neg unit, if_neg unit]
      exact Agrees.guard fun _ => ⟨_, rfl, _, bounded, isRest, rfl⟩

theorem finish_agrees {source : List UInt8} {s : Cursors} (c : Nat) {count : Nat}
    (bounded : count ≤ s.inbytesleft) :
    Agrees source s
      (match writeUtf8 c s with
        | (some errno, s) => (some errno, s)
        | (none, s) => (none, s.read count))
      ((oneCppcharToUtf8 c s.outbytesleft).bind fun bytes =>
        .ok (bytes, source.drop (s.inbuf + count))) := by
  rw [writeUtf8_eq]
  cases oneCppcharToUtf8 c s.outbytesleft with
  | error errno => rfl
  | ok bytes => exact ⟨_, rfl, count, bounded, rfl, rfl⟩

theorem finishUtf16_agrees {source : List UInt8} {s : Cursors} {c count : Nat}
    (size : (if c ≤ 0xFFFF then 2 else 4) = count) (bounded : count ≤ s.inbytesleft) :
    Agrees source s (Converter.finishUtf16 c s)
      ((oneCppcharToUtf8 c s.outbytesleft).bind fun bytes =>
        .ok (bytes, source.drop (s.inbuf + count))) := by
  rw [Converter.finishUtf16, size]
  exact finish_agrees c bounded

theorem utf32ToUtf8_refines (bigend : Bool) :
    Refines (Converter.utf32ToUtf8 bigend) (oneUtf32ToUtf8 bigend) := by
  intro source s within
  have length := within.length_drop
  by_cases incomplete : s.inbytesleft < 4
  · have short : oneUtf32ToUtf8 bigend (source.drop s.inbuf) s.outbytesleft = .error .einval := by
      rw [← length] at incomplete
      match source.drop s.inbuf, incomplete with
      | [], _ => rfl
      | [_], _ => rfl
      | [_, _], _ => rfl
      | [_, _, _], _ => rfl
    rw [short, Converter.utf32ToUtf8, if_pos incomplete]
    rfl
  · have enough : s.inbuf + 4 ≤ source.length := by
      rw [Cursors.Within] at within
      omega
    rw [drop_eq_load_cons (by omega), drop_eq_load_cons (by omega),
      drop_eq_load_cons (by omega), drop_eq_load_cons (by omega), oneUtf32ToUtf8,
      Converter.utf32ToUtf8, if_neg incomplete]
    cases bigend with
    | true => exact Agrees.guard fun _ => finish_agrees _ (not_lt.mp incomplete)
    | false => exact Agrees.guard fun _ => finish_agrees _ (not_lt.mp incomplete)

theorem utf16ToUtf8_refines (bigend : Bool) :
    Refines (Converter.utf16ToUtf8 bigend) (oneUtf16ToUtf8 bigend) := by
  intro source s within
  have length := within.length_drop
  by_cases incomplete : s.inbytesleft < 2
  · have short : oneUtf16ToUtf8 bigend (source.drop s.inbuf) s.outbytesleft = .error .einval := by
      rw [← length] at incomplete
      match source.drop s.inbuf, incomplete with
      | [], _ => rfl
      | [_], _ => rfl
    rw [short, Converter.utf16ToUtf8, if_pos incomplete]
    rfl
  · have enough : s.inbuf + 2 ≤ source.length := by
      rw [Cursors.Within] at within
      omega
    rw [drop_eq_two_loads enough]
    unfold oneUtf16ToUtf8 Converter.utf16ToUtf8
    rw [if_neg incomplete]
    refine Agrees.guard fun _ => ?_
    have small := loadUnit_lt bigend (load source s.inbuf) (load source (s.inbuf + 1))
    by_cases high : loadUnit bigend (load source s.inbuf) (load source (s.inbuf + 1)) ≥ 0xD800 ∧
        loadUnit bigend (load source s.inbuf) (load source (s.inbuf + 1)) ≤ 0xDBFF
    · rw [if_pos high, if_pos high]
      by_cases single : s.inbytesleft < 4
      · have short : (source.drop (s.inbuf + 2)).length < 2 := by
          rw [List.length_drop, ← within]
          omega
        rw [if_pos single]
        match source.drop (s.inbuf + 2), short with
        | [], _ => rfl
        | [_], _ => rfl
      · have four : s.inbuf + 4 ≤ source.length := by
          rw [Cursors.Within] at within
          omega
        rw [if_neg single, drop_eq_two_loads four]
        refine Agrees.guard fun _ => ?_
        exact finishUtf16_agrees (if_neg (by omega)) (not_lt.mp single)
    · rw [if_neg high, if_neg high]
      exact finishUtf16_agrees (if_pos (by omega)) (not_lt.mp incomplete)

end GccCil.Libcpp.Charset
