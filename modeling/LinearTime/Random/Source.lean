/-
  LinearTime.Random.Source — where random answers come from.

  The generators of formulas, words and graphs ask three kinds of questions: a
  number below a bound, a coin, and an event of given probability.  `Source`
  is anything that answers them; bounds are positive by type.

  `Wyrand` is the seeded source: a 64-bit state that grows by a constant, and
  answers taken from the product of the state with a scrambled copy of itself.

  Core only.
-/

namespace LinearTime.Random

/-- Answers random questions while changing a state. -/
structure Source (σ : Type) where
  below : (n : Nat) → 0 < n → StateM σ (Fin n)
  coin : StateM σ Bool
  event : Float → StateM σ Bool

/-- A generator with 64 bits of state. -/
structure Wyrand where
  state : UInt64

namespace Wyrand

/-- The next 64 random bits: the halves of a 128-bit product, combined. -/
def next : StateM Wyrand UInt64 := fun g =>
  let s := g.state + 0x2d358dccaa6c78a5
  let product := s.toNat * (s ^^^ 0x8bb84b93962eacc9).toNat
  (UInt64.ofNat product ^^^ UInt64.ofNat (product >>> 64), ⟨s⟩)

/-- The part of `n` that a draw selects. -/
def scale (n : Nat) (draw : UInt64) : Nat := (draw.toNat * n) >>> 64

theorem scale_lt {n : Nat} (h : 0 < n) (draw : UInt64) : scale n draw < n := by
  unfold scale
  rw [Nat.shiftRight_eq_div_pow]
  refine Nat.div_lt_of_lt_mul ?_
  exact Nat.mul_lt_mul_of_pos_right draw.toNat_lt h

/-- Whether a draw has to be repeated, so that all parts are equally likely. -/
def isBiased (n : Nat) (draw : UInt64) : Bool :=
  draw.toNat * n % UInt64.size < (UInt64.size - n) % n

/-- Draws until a draw is not biased; the states repeat after `2^64` draws. -/
def drawUnbiased (n : Nat) : (draws : Nat) → StateM Wyrand UInt64
  | 0 => next
  | draws + 1 => do
    let draw ← next
    if isBiased n draw then drawUnbiased n draws else return draw

/-- A number below `n`. -/
def below (n : Nat) (h : 0 < n) : StateM Wyrand (Fin n) := do
  let draw ← drawUnbiased n UInt64.size
  return ⟨scale n draw, scale_lt h draw⟩

/-- Heads for even draws. -/
def coin : StateM Wyrand Bool := do return (← next) % 2 == 0

/-- Draws a fraction in `[0, 1)` with 63 bits. -/
def fraction : (draws : Nat) → StateM Wyrand Float
  | 0 => return 0
  | draws + 1 => do
    let x := ((← next) >>> 1).toFloat / 9223372036854775808.0
    if x < 1.0 then return x else fraction draws

/-- The seeded generator as a source. -/
def source : Source Wyrand where
  below := below
  coin := coin
  event p := do return (← fraction UInt64.size) < p

end Wyrand

/-- The name of the proposition with index `i`. -/
def propositionName (i : Nat) : String := "p" ++ i.repr

end LinearTime.Random
