/-! The lines of a stub file: comments, annotations, and the Lua code that they annotate; and the
names in that code. -/

namespace LuaStubs

/-- What is said behind a type, on the line or in the comment below it. -/
inductive Remark where
  | none
  | inline (text : String)
  | below

def Remark.text : Remark → String
  | .none => ""
  | .inline text => "@" ++ text
  | .below => "@"

inductive Line where
  | blank
  | comment (text : String)
  | directive (text : String)
  /-- The head of a declaration, with the types it extends. -/
  | declaration (name : String) (bases : List String)
  | field (name type : String) (nullable : Bool)
  | alternation (name type : String)
  | parameter (name : String) (optional : Bool) (type : String) (remark : Remark)
  | vararg (type : String)
  | result (type : String) (remark : Remark)
  | emptyTable (target : String)
  | openTable (target : String)
  | closeTable
  | constant (name : String)
  | function (name : String) (arguments : List String)
  /-- Text that stands as it is and ends its lines itself. -/
  | verbatim (text : String)

namespace Line

def text : Line → String
  | blank => ""
  | comment text => "---" ++ text
  | directive text => "---@" ++ text
  | declaration name bases =>
    "---@class " ++ name ++ (if bases.isEmpty then "" else ":" ++ ",".intercalate bases)
  | field name type nullable =>
    "---@field " ++ name ++ " " ++ type ++ (if nullable then "|nil" else "")
  | alternation name type => "---@alias " ++ name ++ " " ++ type
  | parameter name optional type remark =>
    "---@param " ++ name ++ (if optional then "? " else " ") ++ type ++ remark.text
  | vararg type => "---@vararg " ++ type
  | result type remark => "---@return " ++ type ++ remark.text
  | emptyTable target => target ++ "=\x7b\x7d"
  | openTable target => target ++ "=\x7b"
  | closeTable => "\x7d"
  | constant name => name ++ "=0,"
  | function name arguments => name ++ "=function(" ++ ",".intercalate arguments ++ ")end,"
  | verbatim text => text

/-- The line with the newline that ends it. -/
def render : Line → String
  | verbatim text => text
  | line => line.text ++ "\n"

def renderAll : List Line → String
  | [] => ""
  | line :: rest => line.render ++ renderAll rest

end Line

/-! A name becomes an identifier by three steps: characters that no identifier has become underscores,
a leading digit gets an underscore before it, and a keyword one behind it. -/

namespace Identifier

def keywords : List String :=
  ["and", "break", "do", "else", "elseif", "end", "false", "for", "function", "goto", "if",
    "in", "local", "nil", "not", "or", "repeat", "return", "then", "true", "until", "while"]

/-- Marks a keyword with an underscore, so that it can name a value. -/
def escapeKeyword (name : String) : String :=
  if name ∈ keywords then name ++ "_" else name

def symbol (c : Char) : Char :=
  if c.isAlphanum then c else '_'

def guardDigit : List Char → List Char
  | [] => []
  | c :: rest => if c.isDigit then '_' :: c :: rest else c :: rest

def ofName (name : String) : String :=
  escapeKeyword (String.ofList (guardDigit (name.toList.map symbol)))

end Identifier

end LuaStubs
