/-!
IEEE 754 binary64 numbers in exact natural-number arithmetic. A finite magnitude is known by its
rank among the finite magnitudes, and every operation is its exact result rounded once to the
nearest rank, ties to the even one.
-/

namespace KeypadCalculator

/-- How many magnitudes share a power of two: `2^52`. -/
abbrev binade : Nat := Nat.pow 2 52

/-- How many finite magnitudes there are, the subnormal ones included. -/
abbrev finiteRanks : Nat := 2047 * binade

/-- All NaNs are one. The rank of a magnitude counts the smaller magnitudes; it is also what the
exponent and fraction fields of the encoding hold. -/
inductive Binary64 where
  | nan
  | infinite (negative : Bool)
  | finite (negative : Bool) (rank : Fin finiteRanks)
  deriving DecidableEq

namespace Binary64

/-- The magnitude of a rank, in units of the smallest positive magnitude, `2^-1074`. -/
def units (rank : Nat) : Nat :=
  if rank < binade then rank
  else (binade + rank % binade) * Nat.pow 2 (rank / binade - 1)

/-- The units that make up one. -/
@[irreducible] def unitsPerOne : Nat := Nat.pow 2 1074

/-- The natural number nearest to `num / den`, the even one of two. -/
def roundHalfEven (num den : Nat) : Nat :=
  let q := num / den
  let r := num % den
  if 2 * r < den then q else if den < 2 * r then q + 1 else q + q % 2

/-- The rank nearest to `num / den` units. A carry out of the fraction moves on to the next binade,
and a result past the finite ranks is an overflow. -/
def nearestRank (num den : Nat) : Nat :=
  let shift := (num / den).log2 - 52
  shift * binade + roundHalfEven num (den * Nat.pow 2 shift)

def ofRank (negative : Bool) (rank : Nat) : Binary64 :=
  if h : rank < finiteRanks then finite negative ⟨rank, h⟩ else infinite negative

/-- The number nearest to `num / den` units with the given sign. -/
def round (negative : Bool) (num den : Nat) : Binary64 :=
  ofRank negative (nearestRank num den)

def zero (negative : Bool) : Binary64 :=
  finite negative ⟨0, by decide⟩

/-- The number nearest to `coefficient / 10^places`. -/
def ofDecimal (coefficient places : Nat) : Binary64 :=
  round false (coefficient * unitsPerOne) (Nat.pow 10 places)

def ofNat (n : Nat) : Binary64 :=
  ofDecimal n 0

/-- The number nearest to `2^-places`. -/
def ofHalvings (places : Nat) : Binary64 :=
  round false unitsPerOne (Nat.pow 2 places)

def isFinite : Binary64 → Bool
  | finite _ _ => true
  | _ => false

/-- A magnitude with its sign. -/
def signed (negative : Bool) (magnitude : Nat) : Int :=
  if negative then -magnitude else magnitude

/-- Where a number lies on the line, in units. Infinities lie past all finite numbers, and a NaN
lies nowhere. -/
def position? : Binary64 → Option Int
  | nan => none
  | infinite negative => some (signed negative (Nat.pow 2 2098))
  | finite negative rank => some (signed negative (units rank))

/-- Numeric comparison: zeros are equal whatever their sign, and a NaN compares with nothing. -/
def equals (x y : Binary64) : Bool :=
  match x.position?, y.position? with
  | some a, some b => a == b
  | _, _ => false

def less (x y : Binary64) : Bool :=
  match x.position?, y.position? with
  | some a, some b => decide (a < b)
  | _, _ => false

def atLeast (x y : Binary64) : Bool :=
  match x.position?, y.position? with
  | some a, some b => decide (b ≤ a)
  | _, _ => false

def abs : Binary64 → Binary64
  | nan => nan
  | infinite _ => infinite false
  | finite _ rank => finite false rank

def neg : Binary64 → Binary64
  | nan => nan
  | infinite negative => infinite !negative
  | finite negative rank => finite (!negative) rank

/-- An exact sum of zero is negative only when both terms are negative zeros. -/
def add : Binary64 → Binary64 → Binary64
  | finite s a, finite t b =>
    let sum := signed s (units a) + signed t (units b)
    if sum = 0 then zero (s && t) else round (decide (sum < 0)) sum.natAbs 1
  | finite _ _, infinite t => infinite t
  | infinite s, finite _ _ => infinite s
  | infinite s, infinite t => if s = t then infinite s else nan
  | _, _ => nan

def sub (x y : Binary64) : Binary64 :=
  x.add y.neg

def mul : Binary64 → Binary64 → Binary64
  | finite s a, finite t b => round (s != t) (units a * units b) unitsPerOne
  | finite s a, infinite t => if a.val = 0 then nan else infinite (s != t)
  | infinite s, finite t b => if b.val = 0 then nan else infinite (s != t)
  | infinite s, infinite t => infinite (s != t)
  | _, _ => nan

/-- A zero divisor gives an infinity, or a NaN when the dividend is zero as well. -/
def div : Binary64 → Binary64 → Binary64
  | finite s a, finite t b =>
    if b.val = 0 then
      if a.val = 0 then nan else infinite (s != t)
    else round (s != t) (units a * unitsPerOne) (units b)
  | finite s _, infinite t => zero (s != t)
  | infinite s, finite t _ => infinite (s != t)
  | _, _ => nan

instance : Neg Binary64 := ⟨neg⟩
instance : Add Binary64 := ⟨add⟩
instance : Sub Binary64 := ⟨sub⟩
instance : Mul Binary64 := ⟨mul⟩
instance : Div Binary64 := ⟨div⟩

protected theorem neg_neg (x : Binary64) : - -x = x := by
  cases x <;> simp [Neg.neg, neg]

/-- The nearest integer, a half away from zero. The sign stays, also on a zero. -/
def roundToInteger : Binary64 → Binary64
  | finite negative rank =>
    round negative ((units rank + unitsPerOne / 2) / unitsPerOne * unitsPerOne) 1
  | x => x

/-- The weight of the sign in the interchange encoding, whose other bits hold the rank. -/
def signWeight : Nat := 2048 * binade

/-- The 64 bits of the interchange encoding. A NaN has no bits of its own. -/
def toBits? : Binary64 → Option Nat
  | nan => none
  | infinite negative => some (negative.toNat * signWeight + finiteRanks)
  | finite negative rank => some (negative.toNat * signWeight + rank)

def ofBits (bits : Nat) : Binary64 :=
  let negative := bits / signWeight % 2 == 1
  let rank := bits % signWeight
  if rank ≤ finiteRanks then ofRank negative rank else nan

end Binary64

end KeypadCalculator
