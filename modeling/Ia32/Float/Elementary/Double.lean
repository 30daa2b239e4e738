import Ia32.Float.Elementary.Fixed
import Ia32.Float.Interchange

/-!
# Elementary functions, correctly rounded

Each function takes doubles, which are extended numbers that a double can hold,
and gives the double nearest to the exact value.  The value is bracketed in
fixed point.  When both ends of the bracket round to one double, that is the
answer; otherwise the precision is doubled.  No value of these functions but the
ones treated apart lies exactly between two doubles, so this ends.
-/

namespace Ia32.Elementary

/-! ## Brackets -/

/-- The nearest double to a fixed-point number.  Of its magnitude 128 bits are enough. -/
def roundFixed (p : Nat) (value : Int) : Extended :=
  let count := value.natAbs.log2 - 127
  let bits := value.natAbs >>> count
  (roundTo .double .nearest (value < 0) (orSticky bits (bits <<< count != value.natAbs))
    (count - p)).value

/-- How many units an approximation may be off. -/
def margin : Int := 4096

/-- The nearest double to a value.  `approx p` is the value with `p` fraction bits, less than
`margin` units off.  The precision is doubled up to `tries` times. -/
def nearest (approx : Nat → Int) : (tries : Nat) → (p : Nat) → Extended
  | 0, p => roundFixed p (approx p)
  | tries + 1, p =>
    let value := approx p
    let low := roundFixed p (value - margin)
    if low = roundFixed p (value + margin) then low else nearest approx tries (2 * p)

/-- The nearest double to a value of about `2 ^ -small`. -/
def nearestOf (approx : Nat → Int) (small : Int) : Extended :=
  nearest approx 10 (192 + small.toNat)

/-- A finite number with `p` fraction bits. -/
def toFixed (p : Nat) (x : Extended) : Int :=
  let magnitude : Int := Extended.shift x.significand.toNat (x.scale + p)
  if x.sign then -magnitude else magnitude

/-! ## Sine, cosine and tangent -/

/-- An angle less a multiple of a right angle. -/
structure Reduced where
  /-- How many right angles were taken away, modulo four. -/
  quadrant : Nat
  /-- What is left: at most half a right angle either way. -/
  rest : Int

/-- Takes away right angles. -/
def reduce (p : Nat) (x : Extended) : Reduced :=
  let angle := toFixed p x
  let right := Fixed.pi p / 2
  let n := (2 * angle + right) / (2 * right)
  ⟨(n % 4).toNat, angle - n * right⟩

/-- The sine of an angle that has `quadrant` right angles more than `rest`. -/
def sinIn (p : Nat) (quadrant : Nat) (rest : Int) : Int :=
  match quadrant % 4 with
  | 0 => Fixed.sin p rest
  | 1 => Fixed.cos p rest
  | 2 => -Fixed.sin p rest
  | _ => -Fixed.cos p rest

/-- Bits by which the precision exceeds the one asked for, since an angle below `2 ^ 63` loses
that many when it is reduced, and a quotient of two small numbers loses twice as many. -/
def spare : Nat := 256

/-- The sine of a finite double. -/
def sin (x : Extended) : Extended :=
  if x.isZero then x else
  nearestOf (fun p =>
    let r := reduce (p + spare) x
    Fixed.drop spare (sinIn (p + spare) r.quadrant r.rest)) (-x.leadingExponent)

/-- The cosine of a finite double. -/
def cos (x : Extended) : Extended :=
  if x.isZero then .one else
  nearestOf (fun p =>
    let r := reduce (p + spare) x
    Fixed.drop spare (sinIn (p + spare) (r.quadrant + 1) r.rest)) 0

/-- The tangent of a finite double. -/
def tan (x : Extended) : Extended :=
  if x.isZero then x else
  nearestOf (fun p =>
    let q := p + spare
    let r := reduce q x
    Fixed.drop spare (Fixed.div q (sinIn q r.quadrant r.rest) (sinIn q (r.quadrant + 1) r.rest)))
    (-x.leadingExponent)

/-! ## Exponential and logarithm -/

/-- The natural logarithm of two, as a double. -/
def lnTwo : Extended := Extended.decode .double 0x3FE62E42FEFA39EF

/-- The product of two doubles, as a double. -/
def mul (a b : Extended) : Extended :=
  let sign := a.sign != b.sign
  if a.isInfinite || b.isInfinite then
    if a.isZero || b.isZero then .indefinite else .infinity sign
  else
    (roundTo .double .nearest sign (a.significand.toNat * b.significand.toNat)
      (a.scale + b.scale)).value

/-- The exponential of a double, less one. -/
def expm1 (x : Extended) : Extended :=
  if x.isZero then x
  else if x.isInfinite || 10 ≤ x.leadingExponent then
    if x.sign then Extended.one.neg else .infinity false
  else
    nearestOf (fun p =>
      let q := p + 2 * 1024 + 64
      let value := toFixed q x
      let ln := Fixed.lnTwo q
      let n := value / ln
      let power := Fixed.exp q (value - n * ln)
      let scaled := if 0 ≤ n then power * Int.pow 2 n.toNat else power / Int.pow 2 (-n).toNat
      Fixed.drop (q - p) (scaled - Fixed.one q)) (-x.leadingExponent)

/-- The logarithm of a double that is not negative, to base two. -/
def log2 (x : Extended) : Extended :=
  if x.isZero then .infinity true
  else if x.isInfinite then x
  else
    let exponent := x.leadingExponent
    if x.significand.toNat = Nat.pow 2 x.significand.toNat.log2 then .ofInt exponent
    else
      nearestOf (fun p =>
        let q := p + 64
        let mantissa := Int.tdiv (x.significand.toNat * Int.pow 2 q) (Int.pow 2 x.significand.toNat.log2)
        let value :=
          if 3 * Fixed.one q < 2 * mantissa then
            (exponent + 1) * Fixed.one q + Fixed.log2 q (mantissa / 2)
          else exponent * Fixed.one q + Fixed.log2 q mantissa
        Fixed.drop 64 value) 64

/-! ## Inverse tangent -/

/-- The quotient of two positive numbers with `p` fraction bits. -/
def ratio (p : Nat) (a b : Extended) : Int :=
  let k := a.scale - b.scale + p
  if 0 ≤ k then (a.significand.toNat <<< k.toNat) / b.significand.toNat
  else a.significand.toNat / (b.significand.toNat <<< (-k).toNat)

/-- The angle of a point with finite coordinates that are not zero, taken above the axis. -/
def angleFixed (p : Nat) (y x : Extended) : Int :=
  let y := y.abs
  let acute :=
    if y.leadingExponent < x.leadingExponent || Fixed.one p ≤ ratio p x.abs y then
      Fixed.arctan p (ratio p y x.abs)
    else Fixed.pi p / 2 - Fixed.arctan p (ratio p x.abs y)
  if x.sign then Fixed.pi p - acute else acute

/-- The angle of a multiple of an eighth of a turn. -/
def eighths (n : Int) (sign : Bool) : Extended :=
  let angle := nearestOf (fun p => Fixed.drop 64 (n * Fixed.pi (p + 64) / 4)) 0
  if sign then angle.neg else angle

/-- The angle of the point with abscissa `x` and ordinate `y`. -/
def atan2 (y x : Extended) : Extended :=
  if y.isZero then
    if x.sign then eighths 4 y.sign else y
  else if x.isZero then eighths 2 y.sign
  else if y.isInfinite then
    if x.isInfinite then eighths (if x.sign then 3 else 1) y.sign else eighths 2 y.sign
  else if x.isInfinite then
    if x.sign then eighths 4 y.sign else .zero y.sign
  else
    let angle := nearestOf (fun p => Fixed.drop 64 (angleFixed (p + 64) y x))
      (if x.sign then 0 else x.leadingExponent - y.leadingExponent)
    if y.sign then angle.neg else angle

end Ia32.Elementary
