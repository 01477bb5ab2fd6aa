/-!
# Shortest decimals

The shortest decimal of a binary floating-point value is the one with the fewest digits among those
that round back to the value, and of these the one nearest to it. A value is an exact multiple of a
power of two, so all comparisons are between natural numbers. For each number of digits only the
two neighbours of the value on that decimal grid can be the answer.
-/

namespace CaseFiles.Decimal

/-- A finite value without its sign: `mantissa * 2 ^ exponent`. -/
structure Binary where
  mantissa : Nat
  exponent : Int
  /-- Whether the next value below is only half as far away as the next one above. -/
  tightBelow : Bool
  deriving DecidableEq, Repr

/-- A decimal: `digits * 10 ^ exponent`. -/
structure Digits where
  digits : Nat
  exponent : Int
  deriving DecidableEq, Repr

/-- The value with the given bits, the sign left out. Not for infinities and what is no number. -/
def Binary.ofBits (bits : UInt64) : Binary :=
  let field : Nat := (bits >>> 52).toNat % Nat.pow 2 11
  let fraction : Nat := bits.toNat % Nat.pow 2 52
  if field = 0 then ⟨fraction, -1074, false⟩
  else ⟨Nat.pow 2 52 + fraction, (field : Int) - 1075, fraction = 0 ∧ 1 < field⟩

/-- Compares `a * 10 ^ i` with `b * 2 ^ j`. -/
def compareScaled (a : Nat) (i : Int) (b : Nat) (j : Int) : Ordering :=
  compare (a * Nat.pow 10 i.toNat * Nat.pow 2 (-j).toNat)
    (b * Nat.pow 2 j.toNat * Nat.pow 10 (-i).toNat)

/-- Whether a decimal rounds to the value. A decimal halfway to a neighbour goes to the value with
the even mantissa. -/
def Binary.readsBack (x : Binary) (d : Digits) : Bool :=
  let below := 4 * x.mantissa - (if x.tightBelow then 1 else 2)
  let above := 4 * x.mantissa + 2
  let low := compareScaled d.digits d.exponent below (x.exponent - 2)
  let high := compareScaled d.digits d.exponent above (x.exponent - 2)
  if x.mantissa % 2 = 0 then low != .lt && high != .gt else low == .gt && high == .lt

/-- The multiple of `10 ^ i` at or below the value, as the number of times. -/
def Binary.floorAt (x : Binary) (i : Int) : Nat :=
  x.mantissa * Nat.pow 2 x.exponent.toNat * Nat.pow 10 (-i).toNat /
    (Nat.pow 10 i.toNat * Nat.pow 2 (-x.exponent).toNat)

/-- The decimal on the grid of `10 ^ i` that reads back and is nearest; of two that are equally
near, the even one. -/
def Binary.onGrid (x : Binary) (i : Int) : Option Digits :=
  let d : Digits := ⟨x.floorAt i, i⟩
  let u : Digits := ⟨x.floorAt i + 1, i⟩
  match x.readsBack d, x.readsBack u with
  | true, false => some d
  | false, true => some u
  | false, false => none
  | true, true =>
    match compareScaled (d.digits + u.digits) i (2 * x.mantissa) x.exponent with
    | .gt => some d
    | .lt => some u
    | .eq => some (if d.digits % 2 = 0 then d else u)

/-- The least `k` in a range upwards from `k` with the value below `10 ^ k`. -/
def Binary.scaleFrom (x : Binary) : Nat → Int → Int
  | 0, k => k
  | n + 1, k =>
    if compareScaled 1 k x.mantissa x.exponent == .gt then k else x.scaleFrom n (k + 1)

/-- The exponent of the least power of ten above the value. -/
def Binary.scale (x : Binary) : Int := x.scaleFrom 640 (-325)

/-- The shortest decimal with at most the given number of digits more than those tried. -/
def Binary.search (x : Binary) (scale : Int) : Nat → Nat → Option Digits
  | 0, _ => none
  | n + 1, count =>
    match x.onGrid (scale - count) with
    | some d => some d
    | none => x.search scale n (count + 1)

/-- The value itself as a decimal. -/
def Binary.exact (x : Binary) : Digits :=
  ⟨x.mantissa * Nat.pow 2 x.exponent.toNat * Nat.pow 5 (-x.exponent).toNat, min x.exponent 0⟩

/-- The shortest decimal that rounds back to the value. Seventeen digits are always enough. -/
def Binary.shortest (x : Binary) : Digits :=
  if x.mantissa = 0 then ⟨0, 0⟩
  else (x.search x.scale 17 1).getD x.exact

/-- How a decimal is laid out. -/
structure Layout where
  /-- The least position of the point that is written out; the point of `0.d₁d₂…` has position 0. -/
  leastPoint : Int
  /-- The greatest position of the point that is written out. -/
  mostPoint : Int
  /-- What is written before the exponent of ten. -/
  mark : Char
  deriving DecidableEq, Repr

/-- Writes digits and the position of the point, with an exponent if the point is too far away. -/
def Layout.write (l : Layout) (digits : List Char) (point : Int) : List Char :=
  if l.leastPoint ≤ point ∧ point ≤ l.mostPoint then
    if point ≤ 0 then '0' :: '.' :: List.replicate (-point).toNat '0' ++ digits
    else if (digits.length : Int) ≤ point then
      digits ++ List.replicate (point - digits.length).toNat '0'
    else digits.take point.toNat ++ '.' :: digits.drop point.toNat
  else
    let sign := if 0 < point then '+' else '-'
    let power := sign :: Nat.toDigits 10 (point - 1).natAbs
    match digits with
    | [] => []
    | [d] => d :: l.mark :: power
    | d :: ds => d :: '.' :: ds ++ l.mark :: power

/-- Writes a decimal without zeros at its end. -/
def Digits.write (d : Digits) (l : Layout) : List Char :=
  if d.digits = 0 then ['0']
  else
    let all := Nat.toDigits 10 d.digits
    let kept := (all.reverse.dropWhile (· == '0')).reverse
    l.write kept (all.length + d.exponent)

end CaseFiles.Decimal
