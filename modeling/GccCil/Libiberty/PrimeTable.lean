import GccCil.Lib.ReciprocalDivision

/-!
# The primes of the hash tables

`prime_tab` of `hashtab.c` lists the sizes of hash tables with the multipliers that
divide by a size and by the size less two.  A multiplier has an implied bit 32, and it
is a reciprocal of its divisor whose error stays below the scale for every 32-bit
dividend.
-/

namespace GccCil.Libiberty.Hashtab

open GccCil.Lib

/-- `struct prime_ent`. -/
structure PrimeEnt where
  prime : BitVec 32
  inv : BitVec 32
  invM2 : BitVec 32
  shift : Nat
  deriving DecidableEq, Repr

def primeTab : List PrimeEnt :=
  [ ⟨7, 0x24924925, 0x9999999b, 2⟩,
    ⟨13, 0x3b13b13c, 0x745d1747, 3⟩,
    ⟨31, 0x08421085, 0x1a7b9612, 4⟩,
    ⟨61, 0x0c9714fc, 0x15b1e5f8, 5⟩,
    ⟨127, 0x02040811, 0x0624dd30, 6⟩,
    ⟨251, 0x05197f7e, 0x073260a5, 7⟩,
    ⟨509, 0x01824366, 0x02864fc8, 8⟩,
    ⟨1021, 0x00c0906d, 0x014191f7, 9⟩,
    ⟨2039, 0x0121456f, 0x0161e69e, 10⟩,
    ⟨4093, 0x00300902, 0x00501908, 11⟩,
    ⟨8191, 0x00080041, 0x00180241, 12⟩,
    ⟨16381, 0x000c0091, 0x00140191, 13⟩,
    ⟨32749, 0x002605a5, 0x002a06e6, 14⟩,
    ⟨65521, 0x000f00e2, 0x00110122, 15⟩,
    ⟨131071, 0x00008001, 0x00018003, 16⟩,
    ⟨262139, 0x00014002, 0x0001c004, 17⟩,
    ⟨524287, 0x00002001, 0x00006001, 18⟩,
    ⟨1048573, 0x00003001, 0x00005001, 19⟩,
    ⟨2097143, 0x00004801, 0x00005801, 20⟩,
    ⟨4194301, 0x00000c01, 0x00001401, 21⟩,
    ⟨8388593, 0x00001e01, 0x00002201, 22⟩,
    ⟨16777213, 0x00000301, 0x00000501, 23⟩,
    ⟨33554393, 0x00001381, 0x00001481, 24⟩,
    ⟨67108859, 0x00000141, 0x000001c1, 25⟩,
    ⟨134217689, 0x000004e1, 0x00000521, 26⟩,
    ⟨268435399, 0x00000391, 0x000003b1, 27⟩,
    ⟨536870909, 0x00000019, 0x00000029, 28⟩,
    ⟨1073741789, 0x0000008d, 0x00000095, 29⟩,
    ⟨2147483647, 0x00000003, 0x00000007, 30⟩,
    ⟨0xfffffffb, 0x00000006, 0x00000008, 31⟩ ]

/-- `htab_mod_1`, where there is a 64-bit type. -/
def htabMod1 (x y inv : BitVec 32) (shift : Nat) : BitVec 32 :=
  let t1 := ((x.setWidth 64 * inv.setWidth 64) >>> 32).setWidth 32
  let t2 := x - t1
  let t3 := t2 >>> 1
  let t4 := t1 + t3
  let q := t4 >>> shift
  x - q * y

theorem upper_product (x inv : BitVec 32) :
    (((x.setWidth 64 * inv.setWidth 64) >>> 32).setWidth 32).toNat =
      x.toNat * inv.toNat / 2 ^ 32 := by
  have product : x.toNat * inv.toNat < 2 ^ 32 * 2 ^ 32 :=
    Nat.mul_lt_mul'' x.isLt inv.isLt
  have xLt := x.isLt
  have invLt := inv.isLt
  simp only [BitVec.toNat_setWidth, BitVec.toNat_ushiftRight, BitVec.toNat_mul,
    Nat.shiftRight_eq_div_pow]
  rw [Nat.mod_eq_of_lt (xLt.trans (by decide)), Nat.mod_eq_of_lt (invLt.trans (by decide)),
    Nat.mod_eq_of_lt (product.trans_eq (by decide)), Nat.mod_eq_of_lt]
  exact Nat.div_lt_of_lt_mul product

/-- A row of the table divides by `y`: the multiplier with its implied bit is a reciprocal,
with an error that no 32-bit dividend raises to the scale. -/
def Divides (y inv : BitVec 32) (shift : Nat) : Prop :=
  Reciprocal (2 ^ 33 * 2 ^ shift) (2 * 2 ^ shift) y.toNat (2 ^ 32 + inv.toNat)

theorem quotient_toNat {y inv : BitVec 32} {shift : Nat} (divides : Divides y inv shift)
    (x : BitVec 32) {t1 : BitVec 32} (upper : t1.toNat = x.toNat * inv.toNat / 2 ^ 32) :
    ((t1 + (x - t1) >>> 1) >>> shift).toNat = x.toNat / y.toNat := by
  have small : x.toNat * (2 * 2 ^ shift) < 2 ^ 33 * 2 ^ shift := by
    calc x.toNat * (2 * 2 ^ shift) < 2 ^ 32 * (2 * 2 ^ shift) :=
          Nat.mul_lt_mul_of_pos_right x.isLt (by positivity)
      _ = 2 ^ 33 * 2 ^ shift := by ring
  rw [BitVec.toNat_ushiftRight, halves x inv.toNat inv.isLt upper, Nat.shiftRight_eq_div_pow,
    Nat.div_div_eq_div_mul, Nat.div_div_eq_div_mul, Nat.add_comm inv.toNat, ← Nat.mul_assoc]
  exact Reciprocal.mul_div divides small

theorem htabMod1_toNat {y inv : BitVec 32} {shift : Nat} (divides : Divides y inv shift)
    (x : BitVec 32) : (htabMod1 x y inv shift).toNat = x.toNat % y.toNat := by
  have quotient := quotient_toNat divides x (upper_product x inv)
  have atMost : x.toNat / y.toNat * y.toNat ≤ x.toNat := Nat.div_mul_le_self _ _
  rw [htabMod1]
  set q := (_ : BitVec 32) >>> shift
  have product : (q * y).toNat = x.toNat / y.toNat * y.toNat := by
    rw [BitVec.toNat_mul, quotient, Nat.mod_eq_of_lt (atMost.trans_lt x.isLt)]
  have fits : q * y ≤ x := by
    rw [BitVec.le_def, product]
    exact atMost
  rw [BitVec.toNat_sub_of_le fits, product, Nat.mod_eq_sub_div_mul]

theorem divides_prime : ∀ row ∈ primeTab, Divides row.prime row.inv row.shift := by
  have bounds : ∀ row ∈ primeTab,
      2 ^ 33 * 2 ^ row.shift < (2 ^ 32 + row.inv.toNat) * row.prime.toNat ∧
      (2 ^ 32 + row.inv.toNat) * row.prime.toNat ≤ 2 ^ 33 * 2 ^ row.shift + 2 * 2 ^ row.shift := by
    decide
  exact fun row isRow => ⟨(bounds row isRow).1, (bounds row isRow).2⟩

theorem divides_prime_m2 : ∀ row ∈ primeTab, Divides (row.prime - 2) row.invM2 row.shift := by
  have bounds : ∀ row ∈ primeTab,
      2 ^ 33 * 2 ^ row.shift < (2 ^ 32 + row.invM2.toNat) * (row.prime - 2).toNat ∧
      (2 ^ 32 + row.invM2.toNat) * (row.prime - 2).toNat ≤
        2 ^ 33 * 2 ^ row.shift + 2 * 2 ^ row.shift := by
    decide
  exact fun row isRow => ⟨(bounds row isRow).1, (bounds row isRow).2⟩

/-- Every row of the table gives the remainders of every 32-bit value by its prime and by
its prime less two. -/
theorem htabMod1_primeTab (row : PrimeEnt) (isRow : row ∈ primeTab) (x : BitVec 32) :
    htabMod1 x row.prime row.inv row.shift = x % row.prime ∧
      htabMod1 x (row.prime - 2) row.invM2 row.shift = x % (row.prime - 2) := by
  refine ⟨BitVec.eq_of_toNat_eq ?_, BitVec.eq_of_toNat_eq ?_⟩
  · rw [htabMod1_toNat (divides_prime row isRow), BitVec.toNat_umod]
  · rw [htabMod1_toNat (divides_prime_m2 row isRow), BitVec.toNat_umod]

theorem htabMod1_primeTab_last :
    htabMod1 0xffffffff 0xfffffffb 6 31 = 4 ∧ htabMod1 0xffffffff 0xfffffff9 8 31 = 6 :=
  htabMod1_primeTab ⟨0xfffffffb, 6, 8, 31⟩ (by decide) 0xffffffff

end GccCil.Libiberty.Hashtab
