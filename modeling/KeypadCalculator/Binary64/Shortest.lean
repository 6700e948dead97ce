import KeypadCalculator.Binary64.Basic
import KeypadCalculator.Text.Decimal

/-!
The shortest decimal that reads back as a given magnitude. Grids of powers of ten are tried from
coarse to fine; on each, only the two neighbours of the magnitude can read back as it when any
point of the grid does.
-/

namespace KeypadCalculator.Binary64

/-- Which of two equally near decimals of one length is taken. -/
inductive Tie where
  | larger
  | evenDigit
  deriving DecidableEq

/-- How often `10^-1074` goes into the smallest positive magnitude. -/
@[irreducible] def decimalUnitsPerUnit : Nat := Nat.pow 5 1074

/-- The magnitude of a rank in units of `10^-1074`, exactly. -/
def decimalUnits (rank : Nat) : Nat :=
  units rank * decimalUnitsPerUnit

/-- Whether `coefficient * 10^(grid - 1074)` rounds to the rank. -/
def readsBack (rank grid coefficient : Nat) : Bool :=
  nearestRank (coefficient * Nat.pow 10 grid) decimalUnitsPerUnit == rank

/-- The two neighbours on the grid, the nearer one first. -/
def neighbours (tie : Tie) (rank grid : Nat) : List Nat :=
  let step := Nat.pow 10 grid
  let below := decimalUnits rank / step
  let excess := 2 * (decimalUnits rank % step)
  if excess < step ∨ (excess = step ∧ tie = .evenDigit ∧ below % 2 = 0) then [below, below + 1]
  else [below + 1, below]

/-- The neighbour that reads back as the rank, the nearer one if both do. -/
def onGrid? (tie : Tie) (rank grid : Nat) : Option Decimal :=
  ((neighbours tie rank grid).find? (readsBack rank grid)).map
    fun coefficient => ⟨coefficient, (grid : Int) - 1074⟩

/-- The decimal on the coarsest grid that has one. The finest grid holds every magnitude exactly. -/
def shortest (tie : Tie) (rank : Nat) : Decimal :=
  let coarsest := (Text.numeral (decimalUnits rank)).length
  ((List.range' 1 coarsest).reverse.findSome? (onGrid? tie rank)).getD ⟨decimalUnits rank, -1074⟩

/-- The positional text of a number. Both zeros are written alike. -/
def text : Binary64 → Text
  | nan => "NaN".toList
  | infinite negative => if negative then "-inf".toList else "inf".toList
  | finite negative rank =>
    if rank.val = 0 then ['0']
    else
      let digits := (shortest .larger rank).positional
      if negative then '-' :: digits else digits

end KeypadCalculator.Binary64
