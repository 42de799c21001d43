import HiveQuery.Tree

/-!
# Members of records

A member of a record is looked up through the markers around the record.
-/

namespace HiveQuery
set_option autoImplicit false

/-- A field of a record that an outer join may have left without a row. A column is null then by itself,
anything else is marked with the test. -/
def underTest (test : Tree) : Tree → Tree
  | .column c => .column c
  | t => .outerJoined test t

/-- The field behind a member: the first one of that name of the record inside. -/
def Tree.member? (name : String) : Tree → Option Tree
  | .entity _ t => t.member? name
  | .record fields => fields.lookup name
  | .outerJoined test t => (t.member? name).map (underTest test)
  | _ => none

/-- The field behind a member, or an access that stays to be resolved. -/
def Tree.memberOrAccess (t : Tree) (name : String) : Tree :=
  (t.member? name).getD (.member t name)

end HiveQuery
