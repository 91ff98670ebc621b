import NoteCell.Decimal.Shortest

/-!
Written forms of doubles. All share the shortest digits; a style fixes where positional notation
ends, whether whole numbers keep a fraction, and how an exponent is written.
-/
namespace NoteCell.Decimal

-- The digits without trailing zeros, and the exponent of the first of them.
def Digits.significant (d : Digits) : List Char × Int :=
  let all := Nat.toDigits 10 d.digits
  ((all.reverse.dropWhile (· = '0')).reverse, d.exponent + all.length - 1)

def zeros (n : Nat) : List Char := List.replicate n '0'

-- `digits` with a point after the place of `10 ^ 0`; `exponent` is that of the first digit.
def positional (digits : List Char) (exponent : Int) : List Char :=
  if exponent < 0 then '0' :: '.' :: zeros (-exponent - 1).toNat ++ digits
  else
    let whole := exponent.toNat + 1
    if digits.length ≤ whole then digits ++ zeros (whole - digits.length)
    else digits.take whole ++ '.' :: digits.drop whole

-- One digit before the point.
def mantissa : List Char → List Char
  | [] => []
  | [d] => [d]
  | d :: ds => d :: '.' :: ds

structure Style where
  -- Exponents below `least` or from `limit` on take scientific notation, if there is a limit.
  least : Int
  limit : Option Int
  keepsFraction : Bool
  exponentText : Int → List Char
  notANumber : String
  infinity : String

def Style.isPositional (s : Style) (exponent : Int) : Bool :=
  match s.limit with
  | some limit => s.least ≤ exponent && exponent < limit
  | none => true

def Style.withFraction (s : Style) (text : List Char) : List Char :=
  if s.keepsFraction && !text.contains '.' then text ++ ['.', '0'] else text

-- The text of a finite double without its sign.
def Style.magnitudeText (s : Style) (d : Dyadic) : List Char :=
  if d.mantissa = 0 then s.withFraction ['0']
  else
    let (digits, exponent) := (shortest d.mantissa d.exponent).significant
    if s.isPositional exponent then s.withFraction (positional digits exponent)
    else mantissa digits ++ s.exponentText exponent

def Style.text (s : Style) (x : Float) : String :=
  if x.isNaN then s.notANumber
  else
    let sign := if isNegative x then "-" else ""
    match Dyadic.ofFloat? x with
    | none => sign ++ s.infinity
    | some d => sign ++ String.ofList (s.magnitudeText d)

def signedExponent (e : Int) : List Char :=
  let digits := Nat.toDigits 10 e.natAbs
  'e' :: (if e < 0 then '-' else '+') :: zeros (2 - digits.length) ++ digits

def plainExponent (e : Int) : List Char :=
  'e' :: (if e < 0 then ['-'] else []) ++ Nat.toDigits 10 e.natAbs

-- Values, source text and data: `1.0`, `1e+16`, `1e-05`.
def valueStyle : Style := ⟨-4, some 16, true, signedExponent, "nan", "inf"⟩

-- Tokens named in messages: all digits, no exponent, `1` for a whole number.
def tokenStyle : Style := ⟨0, none, false, plainExponent, "NaN", "inf"⟩

-- Tree and token dumps: `1.0`, `1e16`, `1e-5`.
def dumpStyle : Style := ⟨-4, some 16, true, plainExponent, "NaN", "inf"⟩

def valueText (x : Float) : String := valueStyle.text x

end NoteCell.Decimal
