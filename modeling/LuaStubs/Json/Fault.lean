import LuaStubs.Decimal.Shortest
import LuaStubs.Json.Value
import LuaStubs.Text.Chars
import LuaStubs.Text.Position

/-! What can be wrong with a JSON text, and where. A reader that stops knows how much of the text is
left; the position follows from that once the whole text is at hand. -/

namespace LuaStubs.Json

inductive Found where
  | null
  | bool (value : Bool)
  | integer (value : Int)
  | real (value : Float)
  | string (value : String)
  | sequence
  | map

inductive Reason where
  | endInList
  | endInObject
  | endInValue
  | endInString
  | expectedColon
  | expectedCommaInList
  | expectedCommaInObject
  | expectedLiteral
  | expectedValue
  | invalidEscape
  | invalidNumber
  | numberOutOfRange
  | controlCharacter
  | keyNotString
  | loneSurrogate
  | brokenSurrogatePair
  | trailingComma
  | trailingCharacters
  | nestedTooDeep
  | missingField (key : String)
  | duplicateField (key : String)
  | invalidType (found : Found) (expected : String)
  | invalidValue (found : Found) (expected : String)
  | invalidLength (found : Nat) (expected : String)
  | noVariant (type : String)

/-- Real numbers have a point up to sixteen digits before it and five places after it. -/
def realStyle : Decimal.Style := ⟨-5, 15⟩

def Found.text : Found → String
  | .null => "null"
  | .bool b => "boolean `" ++ (if b then "true" else "false") ++ "`"
  | .integer i => "integer `" ++ toString i ++ "`"
  | .real x => "floating point `" ++ Decimal.render realStyle x ++ "`"
  | .string s => "string " ++ Text.quoted s
  | .sequence => "sequence"
  | .map => "map"

def Number.found : Number → Found
  | .integer i => .integer i
  | .real x => .real x

def Value.found : Value → Found
  | .null => .null
  | .bool b => .bool b
  | .number n => n.found
  | .string s => .string s
  | .array _ => .sequence
  | .object _ => .map

def Reason.message : Reason → String
  | .endInList => "EOF while parsing a list"
  | .endInObject => "EOF while parsing an object"
  | .endInValue => "EOF while parsing a value"
  | .endInString => "EOF while parsing a string"
  | .expectedColon => "expected `:`"
  | .expectedCommaInList => "expected `,` or `]`"
  | .expectedCommaInObject => "expected `,` or `\x7d`"
  | .expectedLiteral => "expected ident"
  | .expectedValue => "expected value"
  | .invalidEscape => "invalid escape"
  | .invalidNumber => "invalid number"
  | .numberOutOfRange => "number out of range"
  | .controlCharacter => "control character (\\u0000-\\u001F) found while parsing a string"
  | .keyNotString => "key must be a string"
  | .loneSurrogate => "lone leading surrogate in hex escape"
  | .brokenSurrogatePair => "unexpected end of hex escape"
  | .trailingComma => "trailing comma"
  | .trailingCharacters => "trailing characters"
  | .nestedTooDeep => "recursion limit exceeded"
  | .missingField key => "missing field `" ++ key ++ "`"
  | .duplicateField key => "duplicate field `" ++ key ++ "`"
  | .invalidType found expected => "invalid type: " ++ found.text ++ ", expected " ++ expected
  | .invalidValue found expected => "invalid value: " ++ found.text ++ ", expected " ++ expected
  | .invalidLength found expected =>
    "invalid length " ++ toString found ++ ", expected " ++ expected
  | .noVariant type => "data did not match any variant of untagged enum " ++ type

/-- Why reading stopped. A located failure knows the bytes that are left; a floating one leaves its
place to the innermost container around it, and keeps what is left of the text for that. -/
inductive Failure where
  | located (reason : Reason) (left : Nat)
  | floating (reason : Reason) (rest : List Char)

abbrev Reading (α : Type) : Type := Except Failure (α × List Char)

def stop {α : Type} (reason : Reason) (rest : List Char) : Except Failure α :=
  .error (.located reason (Text.bytes rest))

/-- Stops one byte further, on the offending byte if there is one. -/
def stopPast {α : Type} (reason : Reason) (rest : List Char) : Except Failure α :=
  .error (.located reason (Text.bytes rest - 1))

structure Fault where
  reason : Reason
  position : Text.Position

def Fault.message (f : Fault) : String :=
  f.reason.message ++ " at line " ++ toString f.position.line ++ " column "
    ++ toString f.position.column

def Failure.fault (source : List Char) : Failure → Fault
  | .located reason left => ⟨reason, .after (Text.bytes source - left) source⟩
  | .floating reason rest => ⟨reason, .after (Text.bytes source - Text.bytes rest) source⟩

end LuaStubs.Json
