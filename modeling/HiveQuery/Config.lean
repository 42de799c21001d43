import HiveQuery.Json
import HiveQuery.Vocabulary

/-!
# Configuration of the compiler

The switches of the compiler, read from JSON and written back. A missing switch has its default value.
-/

namespace HiveQuery
set_option autoImplicit false

/-- The switches of the compiler. -/
structure Config where
  dialect : Dialect := .hive
  removeRedundantJoins : Bool := true
  lowerApplyJoins : Bool := true
  /-- Absent: the dialect decides. -/
  isolateCrossJoins : Option Bool := none
  verifyAliasScopes : Bool := true
  prettyPrint : Bool := false
deriving DecidableEq, Repr, Inhabited

def Dialect.names : List (String × Dialect) :=
  [("hive", .hive), ("hive_windowing", .hiveWindowing)]

def Dialect.name : Dialect → String
  | .hive => "hive"
  | .hiveWindowing => "hive_windowing"

namespace Config

def fieldNames : List String :=
  ["dialect", "remove_redundant_joins", "rewrite_apply_joins", "isolate_cross_joins",
    "verify_alias_scopes", "pretty_print"]

/-- A switch that is missing has its default value. -/
def ofJson? (json : Json) : Option Config := do
  match ← json.record? fieldNames with
  | [dialect, redundant, apply, isolate, verify, pretty] =>
    return {
      dialect := ← Json.orDefault (Json.choice? Dialect.names) .hive dialect
      removeRedundantJoins := ← Json.orDefault Json.bool? true redundant
      lowerApplyJoins := ← Json.orDefault Json.bool? true apply
      isolateCrossJoins := ← Json.orDefault (Json.nullable? Json.bool?) none isolate
      verifyAliasScopes := ← Json.orDefault Json.bool? true verify
      prettyPrint := ← Json.orDefault Json.bool? false pretty }
  | _ => none

def ofText? (text : String) : Option Config :=
  (Json.parse? text).bind ofJson?

/-- The configuration of a file that may be missing or malformed: then it is the default one. -/
def ofFile (content : Option String) : Config :=
  (content.bind ofText?).getD {}

def text (c : Config) : String :=
  let flag (b : Bool) : String := if b then "true" else "false"
  let lines :=
    [("dialect", "\"" ++ c.dialect.name ++ "\""),
     ("remove_redundant_joins", flag c.removeRedundantJoins),
     ("rewrite_apply_joins", flag c.lowerApplyJoins),
     ("isolate_cross_joins", (c.isolateCrossJoins.map flag).getD "null"),
     ("verify_alias_scopes", flag c.verifyAliasScopes),
     ("pretty_print", flag c.prettyPrint)]
  "\x7b\n" ++
    ",\n".intercalate (lines.map fun p => "  \"" ++ p.1 ++ "\": " ++ p.2) ++ "\n\x7d"

end Config

end HiveQuery
