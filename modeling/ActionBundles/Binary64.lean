/-!
# Binary numbers of double precision

A finite binary number has a mantissa of at most fifty-three bits and an exponent within bounds.
`Binary64.nearest?` rounds a decimal number to the nearest of them, a half to the even neighbour;
where the nearest would need a larger exponent, there is none. The number is kept in one form, so
equal numbers are equal.
-/

namespace ActionBundles

/-- The product of `mantissa` and two to the power `exponent`. -/
structure Binary64 where
  mantissa : Int
  exponent : Int
  deriving DecidableEq

namespace Binary64

/-- The most bits of a mantissa. -/
def mantissaBits : Nat := 53

/-- The smallest exponent. -/
def minExponent : Int := -1074

/-- The largest exponent. -/
def maxExponent : Int := 971

/-- The quotient rounded to the nearest whole number, a half to the even one. -/
def roundDiv (a b : Nat) : Nat :=
  let q := a / b
  let r := a % b
  if b < 2 * r || (b = 2 * r && q % 2 = 1) then q + 1 else q

/-- The two terms of the fraction `num / den` divided by two to the power `q`. -/
def scale (num den : Nat) (q : Int) : Nat × Nat :=
  if q < 0 then (num <<< (-q).toNat, den) else (num, den <<< q.toNat)

/-- The exponent with which a positive fraction has a mantissa of fifty-three bits, or the smallest
exponent. -/
def exponentFor (num den : Nat) : Int :=
  let guess : Int := num.log2 - den.log2 - mantissaBits
  let scaled := scale num den guess
  let exact := if mantissaBits ≤ (scaled.1 / scaled.2).log2 then guess + 1 else guess
  max minExponent exact

/-- The number nearest to a positive fraction. -/
def ofFraction? (num den : Nat) : Option Binary64 :=
  let q := exponentFor num den
  let scaled := scale num den q
  let m := roundDiv scaled.1 scaled.2
  let (m, q) := if mantissaBits ≤ m.log2 then (m / 2, q + 1) else (m, q)
  if maxExponent < q then none else some ⟨m, q⟩

/-- Zero. -/
def zero : Binary64 := ⟨0, minExponent⟩

/-- The number with the opposite sign; zero has no sign. -/
def neg (x : Binary64) : Binary64 := { x with mantissa := -x.mantissa }

/-- The number nearest to the product of `n`, which has `size` digits, and ten to the power `e`. Far
beyond the bounds on exponents the digits do not matter. -/
def nearest? (n size : Nat) (e : Int) : Option Binary64 :=
  if n = 0 || size + e < -400 then some zero
  else if 400 < size + e then none
  else if e < 0 then ofFraction? n (Nat.pow 10 (-e).toNat)
  else ofFraction? (n * Nat.pow 10 e.toNat) 1

end Binary64

end ActionBundles
