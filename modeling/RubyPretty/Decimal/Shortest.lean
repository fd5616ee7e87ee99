import RubyPretty.Json.Basic
/-!
# Shortest decimals

A number with a fraction is held to binary64 precision: `nearest` rounds a decimal to that grid,
half to even, and `shortest` is the decimal with the fewest digits that rounds back to the same
grid point, of two such the nearer one.
-/

namespace RubyPretty.Decimal

/-- The number `mantissa * 2 ^ exponent`. -/
structure Binary where
  mantissa : Nat
  exponent : Int
deriving DecidableEq, Repr

structure Ratio where
  num : Nat
  den : Nat
deriving DecidableEq, Repr

def Ratio.scale (r : Ratio) (base : Nat) (e : Int) : Ratio :=
  if 0 ≤ e then ⟨r.num * Nat.pow base e.toNat, r.den⟩
  else ⟨r.num, r.den * Nat.pow base (-e).toNat⟩

def Ratio.le (a b : Ratio) : Bool := a.num * b.den ≤ b.num * a.den

def Ratio.lt (a b : Ratio) : Bool := a.num * b.den < b.num * a.den

/-- The nearest whole number, half to even. -/
def Ratio.round (r : Ratio) : Nat :=
  let q := r.num / r.den
  let twice := 2 * (r.num % r.den)
  if twice < r.den || (twice == r.den && q % 2 == 0) then q else q + 1

def leastMantissa : Nat := Nat.pow 2 52

/-- The binary64 number nearest to a positive quotient; `none` if it is too large. -/
def nearest (r : Ratio) : Option Binary :=
  let guess : Int := (Nat.log2 r.num : Int) - Nat.log2 r.den - 52
  let low := if (r.scale 2 (-guess)).lt ⟨leastMantissa, 1⟩ then guess - 1 else guess
  let e := max low (-1074)
  let m := (r.scale 2 (-e)).round
  let b : Binary := if m = 2 * leastMantissa then ⟨leastMantissa, e + 1⟩ else ⟨m, e⟩
  if b.exponent > 971 then none else some b

def magnitude (r : Ratio) : Int :=
  let guess : Int := (Nat.toDigits 10 r.num).length - (Nat.toDigits 10 r.den).length
  if (r.scale 10 (-guess)).lt ⟨1, 1⟩ then guess - 1 else guess

/-- Whether a quotient rounds to `b`: the ends of the interval belong to it if the mantissa is
even, and below a power of two the grid is twice as fine. -/
def Binary.rounds (b : Binary) (r : Ratio) : Bool :=
  let low : Ratio :=
    if b.mantissa = leastMantissa ∧ b.exponent > -1074 then
      (⟨4 * b.mantissa - 1, 1⟩ : Ratio).scale 2 (b.exponent - 2)
    else (⟨2 * b.mantissa - 1, 1⟩ : Ratio).scale 2 (b.exponent - 1)
  let high : Ratio := (⟨2 * b.mantissa + 1, 1⟩ : Ratio).scale 2 (b.exponent - 1)
  if b.mantissa % 2 = 0 then low.le r && r.le high else low.lt r && r.lt high

/-- The best decimal with the last digit at `10 ^ e`, as a number of such units. -/
def Binary.unitsAt? (b : Binary) (e : Int) : Option Nat :=
  let scaled := (⟨b.mantissa, 1⟩ : Ratio).scale 2 b.exponent |>.scale 10 (-e)
  let below := scaled.num / scaled.den
  let fits (n : Nat) : Bool := 0 < n && b.rounds ((⟨n, 1⟩ : Ratio).scale 10 e)
  match fits below, fits (below + 1) with
  | true, true => some (if scaled.round = below then below else below + 1)
  | true, false => some below
  | false, true => some (below + 1)
  | false, false => none

/-- The digits of the shortest decimal that rounds to a positive `b`, and the exponent of the
last of them. -/
def shortest (b : Binary) : Nat × Int :=
  let top := magnitude ((⟨b.mantissa, 1⟩ : Ratio).scale 2 b.exponent)
  let found := (List.range 17).findSome? fun (k : Nat) =>
    let e := top - k
    (b.unitsAt? e).map fun n => (n, e)
  found.getD (b.mantissa, 0)

/-- Digits in positional notation with a point, or with an exponent of at least two digits when
the first digit stands outside `10 ^ -4` to `10 ^ 15`. -/
def written (digits : List Char) (point : Int) : String :=
  let ds := dropZeros digits
  if -4 < point ∧ point ≤ 16 then
    if point ≤ 0 then
      "0." ++ String.ofList (List.replicate (-point).toNat '0' ++ ds)
    else
      let whole := ds.take point.toNat
      let pad := List.replicate (point.toNat - whole.length) '0'
      let part := ds.drop point.toNat
      String.ofList (whole ++ pad) ++ "." ++ (if part.isEmpty then "0" else String.ofList part)
  else
    let e := point - 1
    let eDigits := Nat.toDigits 10 e.natAbs
    let mantissa := match ds with
      | [] => "0"
      | [d] => String.ofList [d]
      | d :: rest => String.ofList (d :: '.' :: rest)
    mantissa ++ (if e < 0 then "e-" else "e+") ++
      String.ofList (List.replicate (2 - eDigits.length) '0' ++ eDigits)
where
  dropZeros (ds : List Char) : List Char := (ds.reverse.dropWhile (· == '0')).reverse

end RubyPretty.Decimal

namespace RubyPretty

def Decimal.positive (digits : Nat) (exponent : Int) : Option String :=
  let size : Int := (Nat.toDigits 10 digits).length + exponent
  if size > 400 then none
  else if size < -400 then some "0.0"
  else do
    let b ← Decimal.nearest ((⟨digits, 1⟩ : Decimal.Ratio).scale 10 exponent)
    if b.mantissa = 0 then return "0.0"
    let (n, e) := Decimal.shortest b
    let ds := Nat.toDigits 10 n
    return Decimal.written ds (ds.length + e)

/-- The text of a number, given the word for infinity and the word for no number. -/
def Real.textWith (infinite invalid : String) : Real → String
  | .decimal negative digits exponent =>
      let body :=
        if digits = 0 then "0.0" else (Decimal.positive digits exponent).getD infinite
      if negative then "-" ++ body else body
  | .infinity negative => if negative then "-" ++ infinite else infinite
  | .nan => invalid

end RubyPretty
