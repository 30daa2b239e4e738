/-!
# Elementary functions in fixed point

A fixed-point number with `p` fraction bits is an integer, to be divided by
`2 ^ p`.  The functions here sum power series on such numbers.  Products and
quotients are cut toward zero, so the terms of a series reach zero and the sum
ends there.  Each function is off by a few units for each of its terms, and the
callers leave room for that.
-/

namespace Ia32.Fixed

/-- The number one. -/
def one (p : Nat) : Int := Int.pow 2 p

/-- The product of two fixed-point numbers. -/
def mul (p : Nat) (a b : Int) : Int := Int.tdiv (a * b) (Int.pow 2 p)

/-- The quotient of two fixed-point numbers. -/
def div (p : Nat) (a b : Int) : Int := Int.tdiv (a * Int.pow 2 p) b

/-- A fixed-point number with fewer fraction bits. -/
def drop (bits : Nat) (a : Int) : Int := a >>> bits

/-- The sum of `power / weight k` from term `k` on.  Each power comes from the one before by
`next`, and the sum ends when one is zero or the fuel is used up. -/
def series (next : Nat → Int → Int) (weight : Nat → Int) : Nat → Nat → Int → Int
  | 0, _, _ => 0
  | fuel + 1, k, power =>
    if power = 0 then 0
    else Int.tdiv power (weight k) + series next weight fuel (k + 1) (next k power)

/-- Enough terms for every series here: each power is at most half of the one before, or is
divided by ever larger numbers. -/
def enoughTerms (p : Nat) : Nat := 2 * p + 16

/-- The exponential of a number between minus one and one. -/
def exp (p : Nat) (x : Int) : Int :=
  series (fun k power => Int.tdiv (mul p power x) (k + 1)) (fun _ => 1) (enoughTerms p) 0 (one p)

/-- The sine of a number between minus one and one. -/
def sin (p : Nat) (x : Int) : Int :=
  let square := mul p x x
  series (fun k power => -Int.tdiv (mul p power square) ((2 * k + 2) * (2 * k + 3)))
    (fun _ => 1) (enoughTerms p) 0 x

/-- The cosine of a number between minus one and one. -/
def cos (p : Nat) (x : Int) : Int :=
  let square := mul p x x
  series (fun k power => -Int.tdiv (mul p power square) ((2 * k + 1) * (2 * k + 2)))
    (fun _ => 1) (enoughTerms p) 0 (one p)

/-- The inverse tangent of a number between minus a half and a half. -/
def arctanSmall (p : Nat) (x : Int) : Int :=
  let square := mul p x x
  series (fun _ power => -mul p power square) (fun k => 2 * k + 1) (enoughTerms p) 0 x

/-- The inverse hyperbolic tangent of a number between minus a half and a half. -/
def artanh (p : Nat) (x : Int) : Int :=
  let square := mul p x x
  series (fun _ power => mul p power square) (fun k => 2 * k + 1) (enoughTerms p) 0 x

/-- The ratio of a circle's circumference to its diameter. -/
def pi (p : Nat) : Int :=
  4 * (4 * arctanSmall p (Int.tdiv (one p) 5) - arctanSmall p (Int.tdiv (one p) 239))

/-- The natural logarithm of two. -/
def lnTwo (p : Nat) : Int := 2 * artanh p (Int.tdiv (one p) 3)

/-- The inverse tangent of a number between zero and one. -/
def arctan (p : Nat) (x : Int) : Int :=
  if one p < 2 * x then
    Int.tdiv (pi p) 4 - arctanSmall p (div p (one p - x) (one p + x))
  else arctanSmall p x

/-- The logarithm to base two of a number between a half and two. -/
def log2 (p : Nat) (x : Int) : Int :=
  div p (2 * artanh p (div p (x - one p) (x + one p))) (lnTwo p)

end Ia32.Fixed
