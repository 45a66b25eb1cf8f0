/-!
Values as they come from a settings file or a record: scalars, lists, and tables that keep the order of
their keys. A moment is a date, a time or both, kept as it was written.
-/

namespace TimeLint.Data

inductive Value where
  | null
  | bool (value : Bool)
  | int (value : Int)
  | float (value : Float)
  | string (value : String)
  | moment (text : String)
  | list (items : List Value)
  | table (rows : List (String × Value))
deriving Inhabited

/-- A decimal whose size is beyond any double is cut off here, so that no power of ten grows with it. -/
def sizeLimit : Int := 400

/-- The double nearest to `mantissa * 10 ^ exponent`. -/
def nearestFloat (negative : Bool) (mantissa : Nat) (exponent : Int) : Float :=
  let size := (Nat.toDigits 10 mantissa).length + exponent
  let magnitude : Float :=
    if mantissa == 0 || size < -sizeLimit then 0
    else if sizeLimit < size then 1 / 0
    else Float.ofScientific mantissa (exponent < 0) exponent.natAbs
  if negative then -magnitude else magnitude

/-- The double has no fraction. -/
def isWhole (f : Float) : Bool := f.isFinite && f.floor == f

end TimeLint.Data
