/-!
# Binary64 numbers

The numbers of the 64-bit binary floating format, held as sign, mantissa and exponent, and the
rounding of an exact ratio to the nearest of them.  Nothing here computes in floating point: a
ratio of natural numbers is divided exactly, and only the last step rounds, to the nearer mantissa
and to the even one of two equally near.
-/

namespace ProjectIndex

/-- A number of the 64-bit binary format. -/
inductive Binary64
  /-- Not a number. -/
  | nan
  /-- An infinity with its sign. -/
  | infinite (negative : Bool)
  /-- The number `± mantissa * 2 ^ exponent`.  Rounding builds it with a mantissa below `2 ^ 53`,
  and below `2 ^ 52` only for the least exponent. -/
  | finite (negative : Bool) (mantissa : Nat) (exponent : Int)
  deriving DecidableEq, Repr

namespace Binary64

/-- The exponent of the least positive number. -/
def leastExponent : Int := -1074

/-- The exponent of the greatest numbers. -/
def greatestExponent : Int := 971

/-- The least mantissa of 53 bits, `2 ^ 52`. -/
def hiddenBit : Nat := 0x10000000000000

/-- The bit that tells a negative number. -/
def signBit : Nat := 0x8000000000000000

/-- Zero with a sign. -/
def zero (negative : Bool) : Binary64 := .finite negative 0 leastExponent

/-- The quotient rounded to the nearest natural number, an exact half to the even one. -/
def nearestQuotient (num den : Nat) : Nat :=
  let q := num / den
  let twice := 2 * (num % den)
  if twice < den then q
  else if den < twice then q + 1
  else if q % 2 = 0 then q else q + 1

/-- The ratio `num / den * 2 ^ (-e)` as a numerator and a denominator. -/
def scaled (num den : Nat) (e : Int) : Nat × Nat :=
  if 0 ≤ e then (num, den * .pow 2 e.toNat) else (num * .pow 2 (-e).toNat, den)

/-- The exponent at which the ratio has a mantissa of 53 bits, or the least exponent. -/
def exponentOf (num den : Nat) : Int :=
  let guess : Int := (num.log2 : Int) - den.log2 - 52
  let s := scaled num den guess
  let e := if s.1 < s.2 * hiddenBit then guess - 1 else guess
  max e leastExponent

/-- The number nearest to the positive ratio `num / den`. -/
def ofRatio (negative : Bool) (num den : Nat) : Binary64 :=
  let e := exponentOf num den
  let s := scaled num den e
  let m := nearestQuotient s.1 s.2
  let r : Nat × Int := if m < 2 * hiddenBit then (m, e) else (hiddenBit, e + 1)
  if greatestExponent < r.2 then .infinite negative else .finite negative r.1 r.2

/-- The number nearest to `digits * 10 ^ exponent`.  Ratios beyond all numbers of the format are
answered without computing them: `digits` has `length` decimal digits. -/
def ofDecimal (negative : Bool) (digits length : Nat) (exponent : Int) : Binary64 :=
  if digits = 0 then zero negative
  else if 400 < (length : Int) + exponent then .infinite negative
  else if (length : Int) + exponent < -400 then zero negative
  else if 0 ≤ exponent then ofRatio negative (digits * .pow 10 exponent.toNat) 1
  else ofRatio negative digits (.pow 10 (-exponent).toNat)

/-- Whether the number is not an infinity and is a number at all. -/
def isFinite : Binary64 → Bool
  | finite .. => true
  | _ => false

/-- Numerical equality, under which the zeros are equal, except that all numbers that are not
numbers count as equal. -/
def same : Binary64 → Binary64 → Bool
  | nan, nan => true
  | infinite s, infinite t => s == t
  | finite s m e, finite t n f => (m == 0 && n == 0) || (s == t && m == n && e == f)
  | _, _ => false

/-- The 64 bits of the number, as a natural number. -/
def bits : Binary64 → Nat
  | nan => 0x7FF8000000000000
  | infinite s => (if s then signBit else 0) + 0x7FF0000000000000
  | finite s m e =>
    (if s then signBit else 0) +
      if m < hiddenBit then m else (e - leastExponent + 1).toNat * hiddenBit + (m - hiddenBit)

end Binary64

end ProjectIndex
