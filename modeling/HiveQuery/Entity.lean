import HiveQuery.Json
import HiveQuery.Vocabulary

/-!
# Entities

An entity gives names to the columns of a table and to the ways from one table to another.
-/

namespace HiveQuery
set_option autoImplicit false

/-- A member of an entity and the column that stores it. -/
structure MappedColumn where
  member : String
  column : String
  type : ScalarType
deriving DecidableEq, Repr, Inhabited

/-- A way to the rows of another entity: those with equal key members, where each pair names the member
of this entity first. -/
structure Relationship where
  member : String
  target : String
  keys : List (String × String)
  /-- There is at most one such row. -/
  singleton : Bool := false
deriving DecidableEq, Repr, Inhabited

/-- The table, the members and the relationships of an entity. -/
structure Entity where
  name : String
  table : String
  columns : List MappedColumn
  relationships : List Relationship := []
deriving DecidableEq, Repr, Inhabited

/-- The entities that are known. Of those with the same name the last one counts. -/
abbrev EntityMap := List Entity

def Entity.column? (e : Entity) (member : String) : Option MappedColumn :=
  e.columns.find? fun c => c.member == member

def Entity.relationship? (e : Entity) (member : String) : Option Relationship :=
  e.relationships.find? fun r => r.member == member

namespace EntityMap

def entity? (m : EntityMap) (name : String) : Option Entity :=
  m.reverse.find? fun e => e.name == name

def relationship? (m : EntityMap) (entity member : String) : Option Relationship :=
  (m.entity? entity).bind fun e => e.relationship? member

def isRelationship (m : EntityMap) (entity member : String) : Bool :=
  (m.relationship? entity member).isSome

def isSingleton (m : EntityMap) (entity member : String) : Bool :=
  (m.relationship? entity member).any Relationship.singleton

end EntityMap

/-! ## Entities as JSON -/

def ScalarType.names : List (String × ScalarType) :=
  [("boolean", .boolean), ("int32", .int32), ("int64", .int64), ("double", .double),
    ("decimal", .decimal), ("string", .string), ("timestamp", .timestamp)]

def MappedColumn.ofJson? (json : Json) : Option MappedColumn := do
  match ← json.record? ["member", "column", "scalar_type"] with
  | [some member, some column, some type] =>
    return {
      member := ← member.string?
      column := ← column.string?
      type := ← Json.choice? ScalarType.names type }
  | _ => none

/-- An own column and the related column it equals. -/
def keyPair? : Json → Option (String × String)
  | .array [own, related] => do
    let own ← own.string?
    let related ← related.string?
    return (own, related)
  | _ => none

def Relationship.ofJson? (json : Json) : Option Relationship := do
  match ← json.record? ["member", "target", "keys", "singleton"] with
  | [some member, some target, some keys, singleton] =>
    return {
      member := ← member.string?
      target := ← target.string?
      keys := ← keys.list? keyPair?
      singleton := ← Json.orDefault Json.bool? false singleton }
  | _ => none

def Entity.ofJson? (json : Json) : Option Entity := do
  match ← json.record? ["name", "table", "columns", "relationships"] with
  | [some name, some table, some columns, relationships] =>
    return {
      name := ← name.string?
      table := ← table.string?
      columns := ← columns.list? MappedColumn.ofJson?
      relationships := ←
        Json.orDefault (Json.list? Relationship.ofJson?) [] relationships }
  | _ => none

/-- Reads entities from JSON. -/
def EntityMap.ofText? (text : String) : Option EntityMap :=
  (Json.parse? text).bind (Json.list? Entity.ofJson?)

end HiveQuery
