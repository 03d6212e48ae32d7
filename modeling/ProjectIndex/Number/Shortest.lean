import ProjectIndex.Number.Binary64

/-!
# The shortest decimal text of a binary number

A binary number is written with the fewest decimal digits that read back as that number, and of
those with the nearest.  `shortest` finds the digits in exact arithmetic: it walks the decimal
grids from one digit to seventeen and takes the first grid of which one of the number's two
neighbours lies in the interval of ratios that round to the number.

Where the point goes is a matter of the output format, given by a `Layout`.
-/

namespace ProjectIndex.Binary64

/-- The positive number `digits * 10 ^ exponent`. -/
structure Decimal where
  digits : Nat
  exponent : Int
  deriving DecidableEq, Repr

/-- The decimal digits of a natural number, none for zero. -/
def digitsOf (n : Nat) : List Char := (toString n).toList

/-- The greatest power of ten not above the positive ratio `num / den`; `fuel` bounds how far below
one the ratio may lie. -/
def tenExponent (num den : Nat) : (fuel : Nat) → Int
  | 0 => 0
  | fuel + 1 =>
    if den ≤ num then ((digitsOf (num / den)).length : Int) - 1
    else tenExponent (num * 10) den fuel - 1

/-- The ratio `num / den` in units of `10 ^ k`. -/
def inTens (num den : Nat) (k : Int) : Nat × Nat :=
  if 0 ≤ k then (num, den * .pow 10 k.toNat) else (num * .pow 10 (-k).toNat, den)

/-- Removes the trailing zeros; `fuel` bounds their number. -/
def Decimal.trim : (fuel : Nat) → Decimal → Decimal
  | 0, d => d
  | fuel + 1, d =>
    if d.digits ≠ 0 ∧ d.digits % 10 = 0 then trim fuel ⟨d.digits / 10, d.exponent + 1⟩ else d

/-- The shortest decimal of the positive number `m * 2 ^ e`, the nearest of those, and the even one
of two equally near. -/
def shortest (m : Nat) (e : Int) : Decimal :=
  -- All ratios are in quarters of the last place, so that the interval has whole ends.
  let at4 (n : Nat) : Nat × Nat :=
    if 2 ≤ e then (n * .pow 2 (e - 2).toNat, 1) else (n, .pow 2 (2 - e).toNat)
  let value := at4 (4 * m)
  let low := at4 (if m = hiddenBit ∧ leastExponent < e then 4 * m - 1 else 4 * m - 2)
  let high := at4 (4 * m + 2)
  let closed := m % 2 = 0
  let top := tenExponent value.1 value.2 400
  let reads (d : Nat) (k : Int) : Bool :=
    let l := inTens low.1 low.2 k
    let h := inTens high.1 high.2 k
    if closed then l.1 ≤ d * l.2 && d * h.2 ≤ h.1 else l.1 < d * l.2 && d * h.2 < h.1
  let rec search : (fuel : Nat) → (k : Int) → Decimal
    | 0, k => ⟨nearestQuotient (inTens value.1 value.2 k).1 (inTens value.1 value.2 k).2, k⟩
    | fuel + 1, k =>
      let v := inTens value.1 value.2 k
      let below := v.1 / v.2
      let near := nearestQuotient v.1 v.2
      let far := if near = below then below + 1 else below
      if reads near k then ⟨near, k⟩
      else if reads far k then ⟨far, k⟩
      else search fuel (k - 1)
  (search 17 top).trim 400

/-- Which numbers are written with a point in place and no power of ten: those whose digits, read
as a fraction after the point, stand at a power of ten above `low` and not above `high`. -/
structure Layout where
  low : Option Int
  high : Option Int

/-- A point in place whatever the size. -/
def Layout.positional : Layout := ⟨none, none⟩

/-- A point in place from five zeros after the point up to sixteen digits before it. -/
def Layout.compact : Layout := ⟨some (-5), some 16⟩

/-- The text of `d`, which always holds a point or a power of ten. -/
def Decimal.text (layout : Layout) (d : Decimal) : String :=
  let ds := digitsOf d.digits
  let point : Int := ds.length + d.exponent
  let zeros (n : Nat) : List Char := List.replicate n '0'
  let inPlace := (layout.low.all (· < point)) && (layout.high.all (point ≤ ·))
  String.ofList <|
    if inPlace then
      if 0 ≤ d.exponent then ds ++ zeros d.exponent.toNat ++ ['.', '0']
      else if 0 < point then ds.take point.toNat ++ ['.'] ++ ds.drop point.toNat
      else ['0', '.'] ++ zeros (-point).toNat ++ ds
    else
      let fraction := if ds.length ≤ 1 then [] else ['.'] ++ ds.drop 1
      ds.take 1 ++ fraction ++ ['e'] ++ (toString (point - 1)).toList

/-- The text of a finite number. -/
def finiteText (layout : Layout) (negative : Bool) (m : Nat) (e : Int) : String :=
  (if negative then "-" else "") ++
    if m = 0 then "0.0" else (shortest m e).text layout

end ProjectIndex.Binary64
