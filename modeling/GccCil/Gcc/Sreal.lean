import Mathlib.Data.Nat.Bitwise
import Mathlib.Data.Nat.Log

/-!
# Simple reals

`sreal.c` has numbers `sig * 2 ^ exp`.  On a host whose `HOST_WIDE_INT` has at
least 64 bits a significand is one word, of which a normalized number uses the
lower half, `part` bits.  On other hosts it is two words of `part` bits each.
Both variants are here.  A result `none` stands for a failed assertion or for a
signed overflow of the exponent, which C leaves undefined.
-/

namespace GccCil.Gcc

def intMax : Int := 2 ^ 31 - 1

def intMin : Int := -2 ^ 31

def srealMaxExp : Int := intMax / 4

section

variable (part : Nat)

def srealMinSig : Nat := 2 ^ (part - 1)

def srealMaxSig : Nat := 2 ^ part - 1

structure Shifted where
  sig : Nat
  exp : Int
  shift : Nat

/-- The loop of `normalize` that shifts a small significand left. -/
def raise (x : Shifted) : Shifted :=
  if 0 < x.sig ∧ x.sig < srealMinSig part then
    raise ⟨x.sig <<< 1, x.exp - 1, x.shift + 1⟩
  else x
  termination_by srealMinSig part - x.sig
  decreasing_by
    rw [Nat.shiftLeft_eq]
    omega

def lower (x : Shifted) (lastBit : Nat) : Shifted × Nat :=
  if srealMaxSig part < x.sig then
    lower ⟨x.sig >>> 1, x.exp + 1, x.shift + 1⟩ (x.sig &&& 1)
  else (x, lastBit)
  termination_by x.sig
  decreasing_by
    rw [Nat.shiftRight_one]
    omega

end

structure Sreal where
  sig : Nat
  exp : Int
  deriving DecidableEq, Repr

namespace Sreal

variable (part : Nat)

def Normalized (x : Sreal) : Prop :=
  (x.sig = 0 ∧ x.exp = -srealMaxExp) ∨
    (srealMinSig part ≤ x.sig ∧ x.sig ≤ srealMaxSig part ∧
      -srealMaxExp ≤ x.exp ∧ x.exp ≤ srealMaxExp)

instance (x : Sreal) : Decidable (x.Normalized part) :=
  inferInstanceAs (Decidable (_ ∨ _))

def shiftRight (x : Sreal) (s : Nat) : Option Sreal :=
  if 0 < s ∧ s ≤ part ∧ x.exp + s ≤ srealMaxExp then
    some ⟨(x.sig + 1 <<< (s - 1)) >>> s, x.exp + s⟩
  else none

def round (x : Shifted) (lastBit : Nat) : Sreal :=
  if srealMaxSig part < x.sig + lastBit then ⟨(x.sig + lastBit) >>> 1, x.exp + 1⟩
  else ⟨x.sig + lastBit, x.exp⟩

def normalize (x : Sreal) : Option Sreal :=
  if x.sig = 0 then some ⟨0, -srealMaxExp⟩
  else if x.sig < srealMinSig part then
    let raised := raise part ⟨x.sig, x.exp, 0⟩
    if raised.exp < intMin then none
    else if raised.exp < -srealMaxExp then some ⟨0, -srealMaxExp⟩
    else some ⟨raised.sig, raised.exp⟩
  else if srealMaxSig part < x.sig then
    let lowered := lower part ⟨x.sig, x.exp, 0⟩ 0
    let rounded := round part lowered.1 lowered.2
    if intMax < rounded.exp then none
    else if srealMaxExp < rounded.exp then some ⟨srealMaxSig part, srealMaxExp⟩
    else some rounded
  else some x

def init (sig : Nat) (exp : Int) : Option Sreal := normalize part ⟨sig, exp⟩

/-- `sreal_compare`, as an ordering. -/
def compare (a b : Sreal) : Ordering :=
  if b.exp < a.exp then .gt
  else if a.exp < b.exp then .lt
  else if b.sig < a.sig then .gt
  else if a.sig < b.sig then .lt
  else .eq

def align (b : Sreal) (dexp : Nat) : Option Sreal :=
  if dexp = 0 then some b else shiftRight part b dexp

/-- `sreal_add` and `sreal_sub`, for operands of which the first is not smaller:
`combine` adds or subtracts the significands. -/
def combineAligned (combine : Nat → Nat → Nat) (a b : Sreal) : Option Sreal :=
  let dexp := (a.exp - b.exp).toNat
  if dexp > part then some ⟨a.sig, a.exp⟩
  else (align part b dexp).bind fun bb => normalize part ⟨combine a.sig bb.sig, a.exp⟩

def add (a b : Sreal) : Option Sreal :=
  let sum := fun x y => (x + y) % 2 ^ (2 * part)
  if compare a b = .lt then combineAligned part sum b a else combineAligned part sum a b

def sub (a b : Sreal) : Option Sreal :=
  if compare a b = .lt then none
  else combineAligned part (fun x y => (x + (2 ^ (2 * part) - y)) % 2 ^ (2 * part)) a b

def mul (a b : Sreal) : Option Sreal :=
  if a.sig < srealMinSig part ∨ b.sig < srealMinSig part then some ⟨0, -srealMaxExp⟩
  else normalize part ⟨a.sig * b.sig % 2 ^ (2 * part), a.exp + b.exp⟩

def div (a b : Sreal) : Option Sreal :=
  if b.sig = 0 then none
  else normalize part ⟨a.sig <<< part % 2 ^ (2 * part) / b.sig, a.exp - b.exp - part⟩

end Sreal

structure WideSreal where
  sigHi : Nat
  sigLo : Nat
  exp : Int
  deriving DecidableEq, Repr

namespace WideSreal

variable (part : Nat)

def zero : WideSreal := ⟨0, 0, -srealMaxExp⟩

def Normalized (x : WideSreal) : Prop :=
  x = zero ∨
    (srealMinSig part ≤ x.sigHi ∧ x.sigHi ≤ srealMaxSig part ∧ x.sigLo ≤ srealMaxSig part ∧
      -srealMaxExp ≤ x.exp ∧ x.exp ≤ srealMaxExp)

def carry (x : WideSreal) : WideSreal :=
  if x.sigLo &&& 1 <<< part ≠ 0 then { x with sigHi := x.sigHi + 1, sigLo := x.sigLo - 1 <<< part }
  else x

def shiftRight (x : WideSreal) (s : Nat) : Option WideSreal :=
  if 0 < s ∧ s ≤ 2 * part ∧ x.exp + s ≤ srealMaxExp then
    if s > part then
      some ⟨0, (x.sigHi + 1 <<< (s - part - 1)) >>> (s - part), x.exp + s⟩
    else
      let rounded := carry part { x with sigLo := x.sigLo + 1 <<< (s - 1) }
      some ⟨rounded.sigHi >>> s,
        rounded.sigLo >>> s ||| (rounded.sigHi &&& (1 <<< s - 1)) <<< (part - s), x.exp + s⟩
  else none

/-- The branch of `normalize` for a small significand. -/
def normalizeSmall (x : WideSreal) : Option WideSreal :=
  let x := if x.sigHi = 0 then ⟨x.sigLo, 0, x.exp - part⟩ else x
  let raised := raise part ⟨x.sigHi, x.exp, 0⟩
  if raised.exp < intMin then none
  else if raised.exp < -srealMaxExp then some zero
  else if raised.shift ≠ 0 then
    let mask := 1 <<< part - 1 <<< (part - raised.shift)
    some ⟨raised.sig ||| (x.sigLo &&& mask) >>> (part - raised.shift),
      x.sigLo <<< raised.shift &&& (1 <<< part - 1), raised.exp⟩
  else some ⟨raised.sig, x.sigLo, raised.exp⟩

def carryRounded (x : WideSreal) : WideSreal :=
  if x.sigLo &&& 1 <<< part ≠ 0 then
    let carried := carry part x
    if srealMaxSig part < carried.sigHi then
      ⟨carried.sigHi >>> 1, carried.sigLo >>> 1, carried.exp + 1⟩
    else carried
  else x

/-- The branch of `normalize` for a large significand. -/
def normalizeLarge (x : WideSreal) : Option WideSreal :=
  let shift := (lower part ⟨x.sigHi, x.exp, 0⟩ 0).1.shift
  let lo := (x.sigLo + 1 <<< (shift - 1)) >>> shift +
    (x.sigHi &&& (1 <<< shift - 1)) <<< (part - shift)
  let rounded := carryRounded part ⟨x.sigHi >>> shift, lo, x.exp + shift⟩
  if intMax < rounded.exp then none
  else if srealMaxExp < rounded.exp then some ⟨srealMaxSig part, srealMaxSig part, srealMaxExp⟩
  else some rounded

def normalize (x : WideSreal) : Option WideSreal :=
  if x.sigLo = 0 ∧ x.sigHi = 0 then some { x with exp := -srealMaxExp }
  else if x.sigHi < srealMinSig part then normalizeSmall part x
  else if srealMaxSig part < x.sigHi then normalizeLarge part x
  else some x

def init (sig : Nat) (exp : Int) : Option WideSreal :=
  if exp - 16 < intMin then none else normalize part ⟨sig, 0, exp - 16⟩

def compare (a b : WideSreal) : Ordering :=
  if b.exp < a.exp then .gt
  else if a.exp < b.exp then .lt
  else if b.sigHi < a.sigHi then .gt
  else if a.sigHi < b.sigHi then .lt
  else if b.sigLo < a.sigLo then .gt
  else if a.sigLo < b.sigLo then .lt
  else .eq

def align (b : WideSreal) (dexp : Nat) : Option WideSreal :=
  if dexp = 0 then some b else shiftRight part b dexp

/-- `sreal_add` and `sreal_sub`, for operands of which the first is not smaller. -/
def combineAligned (combine : WideSreal → WideSreal → WideSreal) (a b : WideSreal) :
    Option WideSreal :=
  let dexp := (a.exp - b.exp).toNat
  if dexp > 2 * part then some a
  else (align part b dexp).bind fun bb => normalize part (combine a bb)

def add (a b : WideSreal) : Option WideSreal :=
  let sum := fun a b : WideSreal => carry part ⟨a.sigHi + b.sigHi, a.sigLo + b.sigLo, a.exp⟩
  if compare a b = .lt then combineAligned part sum b a else combineAligned part sum a b

def subWords (a b : WideSreal) : WideSreal :=
  let word := 2 ^ (2 * part)
  if a.sigLo < b.sigLo then
    ⟨(a.sigHi + (word - b.sigHi) + (word - 1)) % word, a.sigLo + 1 <<< part - b.sigLo, a.exp⟩
  else ⟨(a.sigHi + (word - b.sigHi)) % word, a.sigLo - b.sigLo, a.exp⟩

def sub (a b : WideSreal) : Option WideSreal :=
  if compare a b = .lt then none else combineAligned part (subWords part) a b

def mulWords (a b : WideSreal) : WideSreal :=
  let word := 2 ^ (2 * part)
  let mask := 1 <<< part - 1
  let tmp1 := a.sigLo * b.sigLo % word
  let tmp2 := a.sigLo * b.sigHi % word
  let tmp3 := (a.sigHi * b.sigLo + tmp1 >>> part) % word
  let sum := (tmp2 &&& mask) + (tmp3 &&& mask)
  ⟨(a.sigHi * b.sigHi + (tmp2 >>> part + tmp3 >>> part) + sum >>> part) % word, sum &&& mask,
    a.exp + b.exp + part⟩

def mul (a b : WideSreal) : Option WideSreal :=
  if a.sigHi < srealMinSig part ∨ b.sigHi < srealMinSig part then some zero
  else if compare a b = .lt then normalize part (mulWords part b a)
  else normalize part (mulWords part a b)

def divisor (b : WideSreal) : Nat :=
  let first := b.sigHi <<< (part / 2) + b.sigLo >>> (part / 2)
  if b.sigLo &&& 1 <<< (part / 2 - 1) ≠ 0 then first + 1 else first

def divWords (a : WideSreal) (tmp2 : Nat) : Nat :=
  let word := 2 ^ (2 * part)
  let half := part / 2
  let tmp1 := (a.sigHi <<< part + a.sigLo) % word
  let tmp1' := (tmp1 % tmp2) <<< half % word
  let tmp1'' := (tmp1' % tmp2) <<< half % word
  ((tmp1 / tmp2) <<< part + (tmp1' / tmp2) <<< half + tmp1'' / tmp2) % word

def div (a b : WideSreal) : Option WideSreal :=
  if b.sigHi < srealMinSig part then none
  else if a.sigHi < srealMinSig part then some zero
  else normalize part
    ⟨divWords part a (divisor part b), 0, a.exp - b.exp - 2 * part - (part / 2 : Nat)⟩

end WideSreal

end GccCil.Gcc
