import LuaStubs.Json.Record

/-! Settings of a run: where the online manual is, and which builtin types need no declaration. In
JSON, what is absent keeps its standard value, and reading what has been printed gives the settings
again. -/

namespace LuaStubs

structure Settings where
  baseUrl : String
  knownBuiltins : List String
  deriving Repr, DecidableEq

namespace Settings

def standard : Settings :=
  ⟨"https://lua-api.factorio.com/latest/", ["string", "boolean", "table"]⟩

def knows (settings : Settings) (builtin : String) : Bool :=
  settings.knownBuiltins.contains builtin

/-! Settings in JSON. -/

open Json

def record : Record Settings where
  name := "GeneratorConfig"
  types := [String, List String]
  fields :=
    .default "doc_base_url" .text standard.baseUrl <|
    .default "known_builtins" (.list .text) standard.knownBuiltins .nil
  build := fun (baseUrl, knownBuiltins, ()) => ⟨baseUrl, knownBuiltins⟩

def ofJson (source : String) : Except Fault Settings :=
  record.decoder.parse source

def toJson (settings : Settings) : String :=
  String.ofList <|
    '\x7b' :: printString "doc_base_url" ++ ':' :: printString settings.baseUrl
      ++ ',' :: printString "known_builtins" ++ ':' :: printStrings settings.knownBuiltins
      ++ ['\x7d']

end Settings

end LuaStubs
