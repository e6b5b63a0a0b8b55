import LuaStubs.Settings.Basic
import LuaStubs.Yaml.Document

/-! Settings in a file. The extension of its name says how the file is to be read. In YAML a text is
any scalar as it is written, whatever else it might stand for; an empty value is an empty text or
list, and an empty document is all standard values. -/

namespace LuaStubs

namespace Settings

/-! Settings in YAML. -/

open Yaml

def yamlText? : Node → Option String
  | .scalar _ text => some text
  | _ => none

def yamlTexts? : Node → Option (List String)
  | .scalar true "" => some []
  | .sequence items => items.mapM yamlText?
  | _ => none

/-- The values met so far; each key may come once. -/
def yamlEntry? (met : Option String × Option (List String)) (entry : Node × Node) :
    Option (Option String × Option (List String)) := do
  let key ← yamlText? entry.1
  if key = "doc_base_url" then
    if met.1.isSome then none
    let text ← yamlText? entry.2
    return (some text, met.2)
  else if key = "known_builtins" then
    if met.2.isSome then none
    let texts ← yamlTexts? entry.2
    return (met.1, some texts)
  else return met

def ofNode? : Node → Option Settings
  | .scalar true "" => some standard
  | .mapping entries => do
    let (baseUrl, knownBuiltins) ← entries.foldlM yamlEntry? (none, none)
    return ⟨baseUrl.getD standard.baseUrl, knownBuiltins.getD standard.knownBuiltins⟩
  | _ => none

def ofYaml? (source : String) : Option Settings := do
  let node ← document? source
  ofNode? node

end Settings

/-! Files. -/

inductive SettingsError where
  | unreadable (path reason : String)
  | malformedJson (fault : Json.Fault)
  | malformedYaml

namespace SettingsError

def message : SettingsError → String
  | unreadable path reason => "Could not read config file `" ++ path ++ "`: " ++ reason
  | malformedJson fault => "Could not parse config: " ++ fault.message
  | malformedYaml => "Could not parse config: no settings"

def code : SettingsError → String
  | unreadable .. => "config::io"
  | malformedJson _ => "config::parse"
  | malformedYaml => "config::parse"

end SettingsError

namespace Settings

inductive FileContent where
  | missing
  | bytes (content : ByteArray)

/-- What stands behind the last dot of a name, unless nothing stands before it. -/
def extension? (name : List Char) : Option (List Char) :=
  let behind := name.reverse.takeWhile (· ≠ '.')
  match name.reverse.drop behind.length with
  | '.' :: _ :: _ => some behind.reverse
  | _ => none

def baseName (path : List Char) : List Char :=
  (path.reverse.takeWhile (· ≠ '/')).reverse

def ofText (path text : String) : Except SettingsError Settings :=
  if extension? (baseName path.toList) = some ['j', 's', 'o', 'n'] then
    (ofJson text).mapError .malformedJson
  else match ofYaml? text with
    | some settings => .ok settings
    | none => .error .malformedYaml

def ofFile (path : String) : FileContent → Except SettingsError Settings
  | .missing => .error (.unreadable path "No such file or directory (os error 2)")
  | .bytes content =>
    match String.fromUTF8? content with
    | some text => ofText path text
    | none => .error (.unreadable path "stream did not contain valid UTF-8")

end Settings

end LuaStubs
