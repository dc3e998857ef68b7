/-!
The shortest decimal text of a double. A decimal reads back as the same double when it lies between
the points halfway to the two neighbours. The powers of ten are tried as grids from coarse to fine;
the first grid with a point in that interval gives the fewest digits, and of two such points the
nearer one is taken.
-/

namespace Calculator

/-- The positive number `significand * 2 ^ exponent`. It is `narrow` if its lower neighbour is only
half as far away as its upper one. -/
structure Magnitude where
  significand : Nat
  exponent : Int
  narrow : Bool
deriving DecidableEq, Repr

/-- The number `digits * 10 ^ exponent`. -/
structure Decimal where
  digits : Nat
  exponent : Int
deriving DecidableEq, Repr

namespace Magnitude

/-- Distances are counted in quarters of the step to the upper neighbour; this is the number
itself. -/
def quarters (v : Magnitude) : Nat := 4 * v.significand

def lowerEnd (v : Magnitude) : Nat := v.quarters - if v.narrow then 1 else 2

def upperEnd (v : Magnitude) : Nat := v.quarters + 2

/-- A quarter of a step in relation to a point of the grid `10 ^ grid`: so many of the second make up
as much as so many of the first. -/
def perQuarter (v : Magnitude) (grid : Int) : Nat :=
  Nat.pow 2 (v.exponent - 2).toNat * Nat.pow 10 (-grid).toNat

def perPoint (v : Magnitude) (grid : Int) : Nat :=
  Nat.pow 2 (2 - v.exponent).toNat * Nat.pow 10 grid.toNat

theorem perPoint_pos (v : Magnitude) (grid : Int) : 0 < v.perPoint grid :=
  Nat.mul_pos (Nat.pow_pos (by decide)) (Nat.pow_pos (by decide))

/-- Whether `digits * 10 ^ grid` reads back as this number. A point halfway between two numbers goes
to the one with the even significand. -/
def readsBack (v : Magnitude) (grid : Int) (digits : Nat) : Bool :=
  let low := v.lowerEnd * v.perQuarter grid
  let here := digits * v.perPoint grid
  let high := v.upperEnd * v.perQuarter grid
  if v.significand % 2 = 0 then low ≤ here && here ≤ high else low < here && here < high

def below (v : Magnitude) (grid : Int) : Nat := v.quarters * v.perQuarter grid / v.perPoint grid

theorem below_le (v : Magnitude) (grid : Int) :
    v.below grid * v.perPoint grid ≤ v.quarters * v.perQuarter grid :=
  Nat.div_mul_le_self _ _

theorem lt_below_succ (v : Magnitude) (grid : Int) :
    v.quarters * v.perQuarter grid < (v.below grid + 1) * v.perPoint grid := by
  rw [Nat.mul_comm (v.below grid + 1)]
  exact Nat.lt_mul_div_succ _ (v.perPoint_pos grid)

/-- The grid point that reads back and is nearest; the upper one if two are equally near. -/
def nearest? (v : Magnitude) (grid : Int) : Option Nat :=
  let lower := v.below grid
  let upper := lower + 1
  if v.readsBack grid lower then
    if v.readsBack grid upper &&
        (lower + upper) * v.perPoint grid ≤ 2 * v.quarters * v.perQuarter grid then
      some upper
    else some lower
  else if v.readsBack grid upper then some upper
  else none

theorem readsBack_of_nearest? {v : Magnitude} {grid : Int} {digits : Nat}
    (h : v.nearest? grid = some digits) : v.readsBack grid digits = true := by
  simp only [nearest?] at h
  split at h
  next hlower =>
      split at h
      next hupper =>
          cases h
          exact (Bool.and_eq_true_iff.1 hupper).1
      next =>
          cases h
          exact hlower
  next =>
      split at h
      next hupper =>
          cases h
          exact hupper
      next => cases h

/-- A grid coarser than the number: a decimal place is worth more than three bits and less than
four. -/
def coarsest (v : Magnitude) : Int :=
  let bits : Int := Nat.log2 v.significand + 1 + v.exponent
  if 0 ≤ bits then (bits + 2) / 3 else -(-bits / 4)

def finest (v : Magnitude) : Int := min v.exponent 0

def exact (v : Magnitude) : Decimal :=
  ⟨v.significand * Nat.pow 2 v.exponent.toNat * Nat.pow 5 (-v.exponent).toNat, v.finest⟩

def search (v : Magnitude) (grid : Int) : Nat → Decimal
  | 0 => v.exact
  | n + 1 =>
      match v.nearest? grid with
      | some digits => ⟨digits, grid⟩
      | none => v.search (grid - 1) n

def shortest (v : Magnitude) : Decimal := v.search v.coarsest (v.coarsest - v.finest).toNat

end Magnitude

namespace Decimal

def text (d : Decimal) : String :=
  let digits := (toString d.digits).toList
  let places := (-d.exponent).toNat
  String.ofList
    (if 0 ≤ d.exponent then digits ++ List.replicate d.exponent.toNat '0'
    else if places < digits.length then
      digits.take (digits.length - places) ++ '.' :: digits.drop (digits.length - places)
    else '0' :: '.' :: (List.replicate (places - digits.length) '0' ++ digits))

end Decimal

def Magnitude.ofFields (scale fraction : Nat) : Magnitude :=
  if scale = 0 then ⟨fraction, -1074, false⟩
  else ⟨(1 <<< 52) + fraction, scale - 1075, fraction = 0 ∧ 1 < scale⟩

def realText (x : Float) : String :=
  let bits := x.toBits.toNat
  let sign := if bits >>> 63 = 0 then "" else "-"
  let scale := (bits >>> 52) % (1 <<< 11)
  let fraction := bits % (1 <<< 52)
  if scale = 2047 then if fraction = 0 then sign ++ "inf" else "NaN"
  else if scale = 0 ∧ fraction = 0 then sign ++ "0"
  else sign ++ (Magnitude.ofFields scale fraction).shortest.text

end Calculator
