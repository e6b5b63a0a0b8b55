import LuaStubs.Json.Scan

/-! Numbers in a JSON text. Scanning finds the parts of a numeral; its value is an integer if it has
neither fraction nor exponent and fits 64 bits, and a real number otherwise. -/

namespace LuaStubs.Json

structure Numeral where
  negative : Bool
  whole : List Char
  fraction : List Char
  exponent : Option (Bool × List Char)

def startsWithDigit : List Char → Bool
  | [] => false
  | c :: _ => c.isDigit

def scanWhole (atEnd : Reason) : List Char → Reading (List Char)
  | [] => stop atEnd []
  | c :: rest =>
    if c = '0' then
      if startsWithDigit rest then stopPast .invalidNumber rest else .ok (['0'], rest)
    else if c.isDigit then .ok (c :: rest.takeWhile Char.isDigit, rest.dropWhile Char.isDigit)
    else stopPast .invalidNumber (c :: rest)

def scanFraction (atEnd : Reason) : List Char → Reading (List Char)
  | '.' :: rest =>
    if startsWithDigit rest then .ok (rest.takeWhile Char.isDigit, rest.dropWhile Char.isDigit)
    else if rest.isEmpty then stop atEnd []
    else stopPast .invalidNumber rest
  | rest => .ok ([], rest)

def scanSign : List Char → Bool × List Char
  | '+' :: rest => (false, rest)
  | '-' :: rest => (true, rest)
  | rest => (false, rest)

def scanExponent (atEnd : Reason) : List Char → Reading (Option (Bool × List Char))
  | c :: rest =>
    if c = 'e' || c = 'E' then
      let (negative, rest) := scanSign rest
      if startsWithDigit rest then
        .ok (some (negative, rest.takeWhile Char.isDigit), rest.dropWhile Char.isDigit)
      else if rest.isEmpty then stop atEnd []
      else stopPast .invalidNumber rest
    else .ok (none, c :: rest)
  | [] => .ok (none, [])

/-- Scans a numeral; the reason given is the one for a text that ends inside it. -/
def scanNumeral (atEnd : Reason) (s : List Char) : Except Failure (Numeral × List Char) := do
  let (negative, s) := match s with
    | '-' :: rest => (true, rest)
    | _ => (false, s)
  let (whole, s) ← scanWhole atEnd s
  let (fraction, s) ← scanFraction atEnd s
  let (exponent, s) ← scanExponent atEnd s
  return (⟨negative, whole, fraction, exponent⟩, s)

/-- Appends digits to a number as long as it keeps to a limit, and returns the digits left over. -/
def gather (limit : Nat) (value : Nat) : List Char → Nat × List Char
  | [] => (value, [])
  | c :: rest =>
    let longer := value * 10 + (c.toNat - '0'.toNat)
    if longer ≤ limit then gather limit longer rest else (value, c :: rest)

def powerOfTen (power : Nat) : Float :=
  Float.ofScientific 1 false power

/-- Divides by a power of ten, in steps that the format can hold. Nothing is left after three. -/
def shrink (x : Float) (power : Nat) : Nat → Float
  | 0 => x
  | steps + 1 =>
    if power ≤ 308 then x / powerOfTen power
    else if x == 0.0 then x
    else shrink (x / powerOfTen 308) (power - 308) steps

/-- Moves the point of a number; too large a result is none. -/
def shift? (x : Float) (power : Int) : Option Float :=
  if power < 0 then some (shrink x power.natAbs 4)
  else if power ≤ 308 then
    let scaled := x * powerOfTen power.natAbs
    if scaled.isInf then none else some scaled
  else if x == 0.0 then some x
  else none

namespace Numeral

/-- The leading digits as far as 64 bits hold them, and the power of ten that goes with them. -/
def significand (n : Numeral) : Nat × Int :=
  let (whole, droppedWhole) := gather 0xffffffffffffffff 0 n.whole
  let (all, droppedFraction) := gather 0xffffffffffffffff whole n.fraction
  (all, (droppedWhole.length : Int) + droppedFraction.length - n.fraction.length)

def signed (n : Numeral) (x : Float) : Float :=
  if n.negative then -x else x

/-- The real number, or how many digits stand behind the place where it goes out of range. -/
def real (n : Numeral) : Except Nat Float :=
  let (digits, power) := n.significand
  let scaled (power : Int) : Except Nat Float :=
    match shift? (Float.ofNat digits) power with
    | some x => .ok (n.signed x)
    | none => .error 0
  match n.exponent with
  | none => scaled power
  | some (negative, exponent) =>
    match gather 0x7fffffff 0 exponent with
    | (e, []) => scaled (if negative then power - e else power + e)
    | (_, _ :: unread) =>
      if digits = 0 || negative then .ok (n.signed 0.0) else .error unread.length

/-- The value of a numeral. A zero with a minus sign is real. -/
def value (n : Numeral) : Except Nat Number :=
  match n.fraction, n.exponent, gather 0xffffffffffffffff 0 n.whole with
  | [], none, (digits, []) =>
    if !n.negative then .ok (.integer digits)
    else if 0 < digits && digits ≤ 0x8000000000000000 then .ok (.integer (-(digits : Int)))
    else .ok (.real (n.signed (Float.ofNat digits)))
  | _, _, _ => n.real.map .real

end Numeral

def readNumber (s : List Char) : Except Failure (Number × List Char) := do
  let (numeral, rest) ← scanNumeral .endInValue s
  match numeral.value with
  | .ok number => return (number, rest)
  | .error unread => .error (.located .numberOutOfRange (Text.bytes rest + unread))

def skipNumber (s : List Char) : Except Failure (List Char) :=
  (scanNumeral .invalidNumber s).map (·.2)

end LuaStubs.Json
