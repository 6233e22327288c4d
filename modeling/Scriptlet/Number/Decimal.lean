/-!
Decimal text of binary floating-point numbers.

A finite number is an integer multiple of a power of two.  A whole number is written with all its
digits and one zero after the point.  Any other number is written with the fewest decimal places
that still read back as the same number; of several such decimals the nearest is chosen.  No number
is written with an exponent.
-/

namespace Scriptlet.Decimal

structure Binary where
  mantissa : Nat
  exponent : Int
  deriving DecidableEq, Repr

structure Fields where
  negative : Bool
  exponent : Nat
  fraction : Nat
  deriving DecidableEq, Repr

def fields (x : Float) : Fields :=
  let bits := x.toBits.toNat
  ⟨bits / Nat.pow 2 63 == 1, bits / Nat.pow 2 52 % Nat.pow 2 11, bits % Nat.pow 2 52⟩

/-- Magnitude of a finite number; the least exponent field marks the subnormal numbers. -/
def Fields.magnitude (f : Fields) : Binary :=
  if f.exponent = 0 then ⟨f.fraction, -1074⟩
  else ⟨Nat.pow 2 52 + f.fraction, (f.exponent : Int) - 1075⟩

def Binary.whole? (b : Binary) : Option Nat :=
  if 0 ≤ b.exponent then some (b.mantissa * Nat.pow 2 b.exponent.toNat)
  else if b.mantissa % Nat.pow 2 (-b.exponent).toNat = 0 then
    some (b.mantissa / Nat.pow 2 (-b.exponent).toNat)
  else none

/-- Bounds of the numbers that round to a double, in quarters of its last place.  Below a power of
two the neighbours stand twice as close.  The bounds themselves round to an even mantissa only. -/
structure Interval where
  lower : Nat
  upper : Nat
  closed : Bool
  deriving DecidableEq, Repr

def Fields.interval (f : Fields) : Interval :=
  let m := f.magnitude.mantissa
  let gap := if f.fraction = 0 && 1 < f.exponent then 1 else 2
  ⟨4 * m - gap, 4 * m + 2, m % 2 = 0⟩

def Interval.holds (i : Interval) (unit scale n : Nat) : Bool :=
  let point := 4 * n * unit
  if i.closed then i.lower * scale ≤ point && point ≤ i.upper * scale
  else i.lower * scale < point && point < i.upper * scale

/-- The better of the two neighbours of `mantissa / unit` with `places` decimal places, if one of
them lies in the interval. -/
def neighbour? (i : Interval) (mantissa unit places : Nat) : Option Nat :=
  let scale := Nat.pow 10 places
  let below := mantissa * scale / unit
  match i.holds unit scale below, i.holds unit scale (below + 1) with
  | true, true =>
      if 2 * mantissa * scale < (2 * below + 1) * unit then some below else some (below + 1)
  | true, false => some below
  | false, true => some (below + 1)
  | false, false => none

def shortestFrom (i : Interval) (mantissa unit : Nat) : Nat → Nat → Nat × Nat
  | 0, places => (mantissa * Nat.pow 10 places / unit, places)
  | fuel + 1, places =>
      match neighbour? i mantissa unit places with
      | some n => (n, places)
      | none => shortestFrom i mantissa unit fuel (places + 1)

def Fields.shortest (f : Fields) : Nat × Nat :=
  let b := f.magnitude
  shortestFrom f.interval b.mantissa (Nat.pow 2 (-b.exponent).toNat) 1074 0

def positional (n places : Nat) : String :=
  let digits := toString (n % Nat.pow 10 places)
  toString (n / Nat.pow 10 places) ++ "." ++
    String.ofList (List.replicate (places - digits.length) '0') ++ digits

def Fields.magnitudeText (f : Fields) : String :=
  match f.magnitude.whole? with
  | some n => toString n ++ ".0"
  | none => positional f.shortest.1 f.shortest.2

def ofFloat (x : Float) : String :=
  let f := fields x
  if f.exponent = 2047 then
    if f.fraction ≠ 0 then "NaN" else if f.negative then "-inf" else "inf"
  else if f.negative then "-" ++ f.magnitudeText
  else f.magnitudeText

def natOfDigits (s : List Char) : Nat :=
  s.foldl (fun n c => 10 * n + (c.toNat - '0'.toNat)) 0

def toFloat (whole fraction : List Char) : Float :=
  Float.ofScientific (natOfDigits (whole ++ fraction)) true fraction.length

/-- Remainder of division toward zero, exact, with the sign of the dividend. -/
def remainder (x y : Float) : Float :=
  let fx := fields x
  let fy := fields y
  if x.isNaN || y.isNaN || fx.exponent = 2047 || fy.magnitude.mantissa = 0 then 0.0 / 0.0
  else if fy.exponent = 2047 then x
  else
    let bx := fx.magnitude
    let bz := fy.magnitude
    let e := min bx.exponent bz.exponent
    let scaled (b : Binary) := b.mantissa * Nat.pow 2 (b.exponent - e).toNat
    let m := scaled bx % scaled bz
    let r :=
      if 0 ≤ e then Float.ofScientific (m * Nat.pow 2 e.toNat) false 0
      else Float.ofScientific (m * Nat.pow 5 (-e).toNat) true (-e).toNat
    if fx.negative then -r else r

end Scriptlet.Decimal
