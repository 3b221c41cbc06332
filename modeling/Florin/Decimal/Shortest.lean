/-! # Shortest decimals

The decimal with the fewest digits that reads back as a given binary number, and of those the
nearest one. A number is written positionally unless its point lies far from its digits.
-/
namespace Florin.Decimal

def twoTo (n : Nat) : Nat := Nat.pow 2 n

def tenTo (n : Nat) : Nat := Nat.pow 10 n

/-- A number with the ends of the interval of reals that round to it, all over one denominator. -/
structure Neighbourhood where
  value : Nat
  low : Nat
  high : Nat
  denominator : Nat
  closed : Bool
  deriving Repr

def Neighbourhood.ofBits (bits : Nat) : Neighbourhood :=
  let field := bits / twoTo 52 % twoTo 11
  let fraction := bits % twoTo 52
  let m := if field = 0 then fraction else fraction + twoTo 52
  let e := if field = 0 then 1 else field
  let scale := if e ≥ 1077 then twoTo (e - 1077) else 1
  let denominator := if e ≥ 1077 then 1 else twoTo (1077 - e)
  let below := if fraction = 0 && 1 < field then 1 else 2
  ⟨4 * m * scale, (4 * m - below) * scale, (4 * m + 2) * scale, denominator, m % 2 = 0⟩

structure Digits where
  digits : Nat
  exponent : Int
  deriving Repr

/-- Both sides of a comparison with a decimal, over one denominator. -/
def Neighbourhood.scaled (n : Neighbourhood) (d : Digits) : Nat × Nat :=
  if 0 ≤ d.exponent then (d.digits * tenTo d.exponent.toNat * n.denominator, 1)
  else (d.digits * n.denominator, tenTo (-d.exponent).toNat)

def Neighbourhood.contains (n : Neighbourhood) (d : Digits) : Bool :=
  let (x, unit) := n.scaled d
  if n.closed then n.low * unit ≤ x && x ≤ n.high * unit
  else n.low * unit < x && x < n.high * unit

/-- How far a decimal is from the value, in units that depend on the exponent alone. -/
def Neighbourhood.distance (n : Neighbourhood) (d : Digits) : Nat :=
  let (x, unit) := n.scaled d
  (x - n.value * unit) + (n.value * unit - x)

def Neighbourhood.floor (n : Neighbourhood) (exponent : Int) : Digits :=
  if 0 ≤ exponent then ⟨n.value / (n.denominator * tenTo exponent.toNat), exponent⟩
  else ⟨n.value * tenTo (-exponent).toNat / n.denominator, exponent⟩

/-- The nearer one of the two neighbours of the value on a grid that reads back. -/
def Neighbourhood.onGrid? (n : Neighbourhood) (exponent : Int) : Option Digits :=
  let down := n.floor exponent
  let up : Digits := ⟨down.digits + 1, exponent⟩
  match n.contains down, n.contains up with
  | true, true =>
    let (a, b) := (n.distance down, n.distance up)
    some (if a < b || (a = b && down.digits % 2 = 0) then down else up)
  | true, false => some down
  | false, true => some up
  | false, false => none

/-- The coarsest grid that holds a decimal which reads back; grids of 10 ^ 309 down to 10 ^ (-342)
are tried. -/
def Neighbourhood.shortest (n : Neighbourhood) : Digits :=
  ((List.range 652).findSome? fun (i : Nat) => n.onGrid? (309 - (i : Int))).getD ⟨0, 0⟩

/-- Positional between 10 ^ (-5) and 10 ^ 16, else with an exponent and its sign; always with a
fraction if it is positional. -/
def Digits.text (d : Digits) : List Char :=
  let ds := Nat.toDigits 10 d.digits
  let point := d.exponent + ds.length
  if 0 ≤ d.exponent && point ≤ 16 then
    ds ++ List.replicate d.exponent.toNat '0' ++ ['.', '0']
  else if 0 < point && point ≤ 16 then ds.take point.toNat ++ ['.'] ++ ds.drop point.toNat
  else if -5 < point && point ≤ 0 then
    ['0', '.'] ++ List.replicate (-point).toNat '0' ++ ds
  else
    let mantissa := if ds.length = 1 then ds else ds.take 1 ++ ['.'] ++ ds.drop 1
    mantissa ++ (if 0 < point then ['e', '+'] else ['e', '-']) ++
      Nat.toDigits 10 (point - 1).natAbs

def text (x : Float) : List Char :=
  let bits := x.toBits.toNat
  (if bits / twoTo 63 = 1 then ['-'] else []) ++
  (if bits % twoTo 63 = 0 then ['0', '.', '0']
  else (Neighbourhood.ofBits (bits % twoTo 63)).shortest.text)

end Florin.Decimal
