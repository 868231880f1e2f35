/-! # Reals of 64 bits

Reals with 53 significant bits and exponents from -1074 on, as decimals denote them, and the
decimals with the fewest digits that denote them.  All arithmetic is exact.

* `Binary64.ofDecimal` takes the nearest real, the even one of two.
* `Binary64.shortest` finds the fewest digits.
* `Binary64.text` writes a real positionally from `0.0001` up to `10^16` and otherwise with an
  exponent; a positional text has digits on both sides of the point. -/

namespace PackageOutline

/-- A real of 64 bits. -/
inductive Binary64 where
  | notANumber
  | infinite (negative : Bool)
  /-- The number `mantissa * 2 ^ exponent`, with a sign. -/
  | finite (negative : Bool) (mantissa : Nat) (exponent : Int)
deriving DecidableEq, Repr

namespace Binary64

/-- The least exponent. -/
def minExponent : Int := -1074

/-- The number of significant bits. -/
def precision : Nat := 53

/-- The number of decimal digits of a whole number. -/
def digitCount (n : Nat) : Nat := (Nat.toDigits 10 n).length

/-- A quotient rounded to the nearest whole number, the even one of two. -/
def roundQuotient (num den : Nat) : Nat :=
  let q := num / den
  let r := num % den
  if den < 2 * r ∨ (den = 2 * r ∧ q % 2 = 1) then q + 1 else q

/-- The terms of the quotient `num / den * base ^ e`. -/
def scale (base : Nat) (e : Int) (num den : Nat) : Nat × Nat :=
  (num * base.pow e.toNat, den * base.pow (-e).toNat)

/-- The real nearest to a positive quotient. -/
def ofQuotient (negative : Bool) (num den : Nat) : Binary64 :=
  let guess : Int := (num.log2 : Int) - den.log2 - (precision - 1)
  let (n, d) := scale 2 (-guess) num den
  let e := max (if n / d < 1 <<< (precision - 1) then guess - 1 else guess) minExponent
  let (n, d) := scale 2 (-e) num den
  let m := roundQuotient n d
  let (m, e) := if m = 1 <<< precision then (1 <<< (precision - 1), e + 1) else (m, e)
  if 1024 < e + precision then .infinite negative else .finite negative m e

/-- The real nearest to `digits * 10 ^ e`.  Decimals from `10 ^ 400` on are infinite and those below
`10 ^ -400` zero, so that no large power is taken. -/
def ofDecimal (negative : Bool) (digits : Nat) (e : Int) : Binary64 :=
  let magnitude := (digitCount digits : Int) + e
  if digits = 0 ∨ magnitude < -400 then .finite negative 0 0
  else if 400 < magnitude then .infinite negative
  else
    let (num, den) := scale 10 e digits 1
    ofQuotient negative num den

/-- Whether `a * 10 ^ t` is less than `b * 2 ^ e`, or, if wanted, equal to it. -/
def isBelow (orEqual : Bool) (a : Nat) (t : Int) (b : Nat) (e : Int) : Bool :=
  let (p, q) := scale 10 t a 1
  let (r, s) := scale 2 e b 1
  if orEqual then p * s ≤ r * q else p * s < r * q

/-- Whether `a * 10 ^ t` denotes `m * 2 ^ e`: it lies between the ends of what rounds to it, which
belong to it when `m` is even. -/
def denotes (a : Nat) (t : Int) (m : Nat) (e : Int) : Bool :=
  let even := m % 2 == 0
  -- the ends in quarters of the last bit
  let low := if m = 1 <<< (precision - 1) ∧ minExponent < e then 4 * m - 1 else 4 * m - 2
  let high := 4 * m + 2
  !isBelow (!even) a t low (e - 2) && isBelow even a t high (e - 2)

/-- The number nearest to `m * 2 ^ e` on the grid of multiples of `10 ^ t`, if it denotes it. -/
def onGrid (m : Nat) (e t : Int) : Option (Nat × Int) :=
  let (p, q) := scale 2 e m 1
  let (p, q) := scale 10 (-t) p q
  let down := p / q
  match denotes down t m e, denotes (down + 1) t m e with
  | true, true => some (if 2 * (p % q) ≤ q then down else down + 1, t)
  | true, false => some (down, t)
  | false, true => some (down + 1, t)
  | false, false => none

/-- The place of the first digit of `m * 2 ^ e` before the point. -/
def firstPlace (m : Nat) (e : Int) : Int :=
  let (p, q) := scale 2 e m 1
  if q ≤ p then digitCount (p / q) else 1 - digitCount (q / p)

/-- The decimal `c * 10 ^ t` with the fewest digits that denotes `m * 2 ^ e`. -/
def shortest (m : Nat) (e : Int) : Nat × Int :=
  let place := firstPlace m e
  let (c, t) := ((List.range 17).findSome? fun (n : Nat) => onGrid m e (place - n - 1)).getD (m, e)
  -- the coarsest grid may answer the next power of ten
  if c = 10 then (1, t + 1) else (c, t)

/-- The text of `c * 10 ^ t`. -/
def decimalText (c : Nat) (t : Int) : String :=
  let digits := Nat.toDigits 10 c
  let point := (digits.length : Int) + t
  let zeros := fun (n : Int) => List.replicate n.toNat '0'
  String.ofList <|
    if point < -3 ∨ 16 < point then
      let fraction := digits.tail
      digits.take 1 ++ (if fraction.isEmpty then [] else '.' :: fraction) ++
        'e' :: (toString (point - 1)).toList
    else if point ≤ 0 then '0' :: '.' :: zeros (-point) ++ digits
    else if 0 ≤ t then digits ++ zeros t ++ ['.', '0']
    else digits.take point.toNat ++ '.' :: digits.drop point.toNat

/-- A real as text. -/
def text : Binary64 → String
  | .notANumber => "NaN"
  | .infinite negative => if negative then "-inf" else "inf"
  | .finite negative m e =>
    let (c, t) := if m = 0 then (0, 0) else shortest m e
    (if negative then "-" else "") ++ decimalText c t

end Binary64

end PackageOutline
