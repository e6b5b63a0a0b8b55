/-! The shortest decimal of a binary number: of all decimals that read back as the number, one with
the fewest digits, and of these the nearest; of two equally near ones, the even one. -/

namespace LuaStubs.Decimal

/-- A number `mantissa · 2 ^ exponent`, with the gap below it halved at the start of a binade. -/
structure Binary where
  mantissa : Nat
  exponent : Int
  narrowBelow : Bool

def Binary.ofBits (bits : UInt64) : Binary :=
  let fraction := (bits &&& 0xfffffffffffff).toNat
  let exponent := ((bits >>> 52) &&& 0x7ff).toNat
  if exponent = 0 then ⟨fraction, -1074, false⟩
  else ⟨0x10000000000000 + fraction, exponent - 1075, fraction = 0 && exponent > 1⟩

structure Scaled where
  digits : Nat
  exponent : Int
  deriving Repr, DecidableEq

/-- A quarter of the number's last place, over a power of ten, as a quotient. -/
def Binary.quarter (b : Binary) (power : Int) : Nat × Nat :=
  (Nat.pow 2 (b.exponent - 2).toNat * Nat.pow 10 (-power).toNat,
    Nat.pow 2 (2 - b.exponent).toNat * Nat.pow 10 power.toNat)

/-- The multiple of a power of ten that reads back as the number: the nearer one if there are two,
and the even one if they are equally near. -/
def Binary.onGrid? (b : Binary) (power : Int) : Option Scaled :=
  let (num, den) := b.quarter power
  let value := 4 * b.mantissa * num
  let low := (4 * b.mantissa - (if b.narrowBelow then 1 else 2)) * num
  let high := (4 * b.mantissa + 2) * num
  let inside (x : Nat) : Bool :=
    if b.mantissa % 2 = 0 then low ≤ x * den && x * den ≤ high
    else low < x * den && x * den < high
  let below := value / den
  let toBelow := value - below * den
  let toAbove := (below + 1) * den - value
  let nearerAbove : Bool := toAbove < toBelow || toAbove = toBelow && below % 2 = 1
  if inside below && !(inside (below + 1) && nearerAbove) then some ⟨below, power⟩
  else if inside (below + 1) then some ⟨below + 1, power⟩
  else none

/-- The power of ten of the leading digit, found by trying powers from the given one downwards. -/
def Binary.magnitude (b : Binary) : Nat → Int → Int
  | 0, power => power
  | tries + 1, power =>
    let (num, den) := b.quarter power
    if den ≤ 4 * b.mantissa * num then power else b.magnitude tries (power - 1)

def Scaled.trim : Nat → Scaled → Scaled
  | 0, s => s
  | steps + 1, s =>
    if s.digits % 10 = 0 then Scaled.trim steps ⟨s.digits / 10, s.exponent + 1⟩ else s

/-- The shortest decimal of a number other than zero. Seventeen digits always suffice. -/
def Binary.shortest (b : Binary) : Scaled :=
  let top := b.magnitude 640 309
  match (List.range 17).findSome? fun count : Nat => b.onGrid? (top - count) with
  | some s => s.trim 20
  | none => ⟨b.mantissa, b.exponent⟩

/-- Which powers of ten of the leading digit are written without an exponent. -/
structure Style where
  least : Int
  most : Int

def Scaled.render (style : Style) (s : Scaled) : String :=
  let digits := Nat.toDigits 10 s.digits
  let lead := s.exponent + (digits.length - 1)
  let zeros (count : Int) : List Char := List.replicate count.toNat '0'
  String.ofList <|
    if style.least ≤ lead && lead ≤ style.most then
      if 0 ≤ s.exponent then digits ++ zeros s.exponent ++ ['.', '0']
      else if 0 ≤ lead then
        digits.take (lead.toNat + 1) ++ '.' :: digits.drop (lead.toNat + 1)
      else ['0', '.'] ++ zeros (-lead - 1) ++ digits
    else
      digits.take 1 ++ (if digits.length = 1 then [] else '.' :: digits.drop 1)
        ++ ['e', if lead < 0 then '-' else '+'] ++ Nat.toDigits 10 lead.natAbs

/-- The text of a finite number; zero keeps its sign. -/
def render (style : Style) (x : Float) : String :=
  let bits := x.toBits
  let sign := if bits >>> 63 = 1 then "-" else ""
  let magnitude := Binary.ofBits bits
  sign ++ if magnitude.mantissa = 0 then "0.0" else magnitude.shortest.render style

end LuaStubs.Decimal
