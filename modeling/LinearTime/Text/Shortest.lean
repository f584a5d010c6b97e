/-
  LinearTime.Text.Shortest — floating-point numbers in positional notation.

  A positive finite number is `m · 2^q`.  The reals that round to it form an
  interval: from half way to the number below up to half way to the number
  above, the ends included if `m` is even.  What is written is the decimal on
  the coarsest grid of powers of ten that has a point in this interval, so the
  one with the fewest digits; of two on that grid the closer one, and of two
  equally close ones the larger.  There is never an exponent.

  Everything is computed on integers: a comparison is multiplied out, and the
  neighbours of the number on a grid are a quotient and its successor.

  Core only.
-/

namespace LinearTime.Text

/-! ## §1. Binary and decimal numbers -/

/-- The positive number `significand · 2^exponent`. The number below may be only
    half as far away as the number above. -/
structure Binary where
  significand : Nat
  exponent : Int
  narrowBelow : Bool

/-- The number `digits · 10^exponent`. -/
structure Scientific where
  digits : Nat
  exponent : Int
  deriving DecidableEq, Repr

/-- How `a · 10^i` compares with `b · 2^j`. -/
def compareScaled (a : Nat) (i : Int) (b : Nat) (j : Int) : Ordering :=
  compare (a * Nat.pow 10 i.toNat * Nat.pow 2 (-j).toNat)
    (b * Nat.pow 2 j.toNat * Nat.pow 10 (-i).toNat)

namespace Binary

/-- Whether a decimal lies among the reals that round to the number. The ends of
    the interval are counted in quarters of the last place. -/
def admits (x : Binary) (d : Scientific) : Bool :=
  -- half way to the number below, which may be only half as far away
  let low := if x.narrowBelow then 4 * x.significand - 1 else 4 * x.significand - 2
  let high := 4 * x.significand + 2
  let closed := x.significand % 2 == 0
  let above := compareScaled d.digits d.exponent low (x.exponent - 2)
  let below := compareScaled d.digits d.exponent high (x.exponent - 2)
  (above == .gt || (closed && above == .eq)) && (below == .lt || (closed && below == .eq))

/-- The multiple of `10^k` to write for the number, if one rounds to it. -/
def onGrid? (x : Binary) (k : Int) : Option Scientific :=
  let scaled := x.significand * Nat.pow 2 x.exponent.toNat * Nat.pow 10 (-k).toNat
  let unit := Nat.pow 10 k.toNat * Nat.pow 2 (-x.exponent).toNat
  let lower : Scientific := ⟨scaled / unit, k⟩
  let upper : Scientific := ⟨scaled / unit + 1, k⟩
  -- the two neighbours of the number on the grid; the closer one if both round to it
  match x.admits lower, x.admits upper with
  | true, true => some (if 2 * (scaled % unit) < unit then lower else upper)
  | true, false => some lower
  | false, true => some upper
  | false, false => none

/-- The number itself as a decimal. -/
def exact (x : Binary) : Scientific :=
  if x.exponent < 0 then ⟨x.significand * Nat.pow 5 (-x.exponent).toNat, x.exponent⟩
  else ⟨x.significand * Nat.pow 2 x.exponent.toNat, 0⟩

/-- The decimal on the first grid from `10^k` downwards that has one. -/
def search (x : Binary) : (grids : Nat) → (k : Int) → Scientific
  | 0, _ => x.exact
  | grids + 1, k =>
    match x.onGrid? k with
    | some d => d
    | none => search x grids (k - 1)

/-- The decimal with the fewest digits that rounds to the number. No number
    reaches `10^309`, and all are multiples of `10^(-1074)`. -/
def shortest (x : Binary) : Scientific := x.search 1384 309

end Binary

/-! ## §2. Writing -/

/-- The digits with zeros behind them, or with the point among or before them. -/
def Scientific.positional (d : Scientific) : String :=
  let places := (-d.exponent).toNat
  if places = 0 then d.digits.repr.pushn '0' d.exponent.toNat
  else
    let unit := Nat.pow 10 places
    let fraction := (d.digits % unit).repr
    (d.digits / unit).repr ++ "." ++ "".pushn '0' (places - fraction.length) ++ fraction

/-- The positional form of a floating-point number, with a sign also in front of
    a negative zero. -/
def writeFloat (x : Float) : String :=
  let bits := x.toBits
  let sign := if bits >>> 63 == 1 then "-" else ""
  let scale := ((bits >>> 52) &&& 0x7FF).toNat
  let fraction := (bits &&& 0xFFFFFFFFFFFFF).toNat
  if scale = 0x7FF then if fraction = 0 then sign ++ "inf" else "NaN"
  else if scale = 0 ∧ fraction = 0 then sign ++ "0"
  else
    let x : Binary :=
      if scale = 0 then ⟨fraction, -1074, false⟩
      else ⟨Nat.pow 2 52 + fraction, scale - 1075, fraction = 0 && 1 < scale⟩
    sign ++ x.shortest.positional

end LinearTime.Text
