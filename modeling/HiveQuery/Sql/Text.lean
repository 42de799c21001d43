import HiveQuery.Sql.Quote
import HiveQuery.Tree.Walk

/-!
# HiveQL text of a tree

A lowered select as one statement. Row sources are called `t0`, `t1`, … in the order in which they are
declared: the source of a select before what is inside of it, and both sides of a join before what is
inside of them.
-/

namespace HiveQuery
set_option autoImplicit false

/-- Why a tree has no statement. -/
inductive SqlError where
  | skip
  | reverseWithoutOrder
  | limit
  | apply
  | rowNumber
  | member
  | shape
  | notSelect (kind : String)
  | notSource (kind : String)
  | notScalar (kind : String)
  | undeclared (label : Alias)
deriving DecidableEq, Repr

namespace SqlError

/-- Is the tree sound, and only the language lacks a spelling? -/
def isUnsupported : SqlError → Bool
  | .skip | .reverseWithoutOrder | .limit | .apply | .rowNumber | .member | .shape => true
  | .notSelect _ | .notSource _ | .notScalar _ | .undeclared _ => false

def reason : SqlError → String
  | .skip => "SKIP has no HiveQL spelling; lower it first"
  | .reverseWithoutOrder => "reversing a select needs an ORDER BY"
  | .limit => "LIMIT must be a constant integer"
  | .apply => "APPLY joins have no HiveQL spelling"
  | .rowNumber => "ROW_NUMBER() needs a windowing dialect"
  | .member => "member access must be bound before emission"
  | .shape => "host-side shapes have no HiveQL spelling"
  | .notSelect kind => "top level must be a select, found " ++ kind
  | .notSource kind => kind ++ " cannot be used as a row source"
  | .notScalar kind => kind ++ " used as a scalar"
  | .undeclared label => "alias " ++ label.text ++ " is never declared"

def message (e : SqlError) : String :=
  (if e.isUnsupported then "unsupported feature: " else "emit error: ") ++ e.reason

end SqlError

/-! ## Names of sources -/

/-- The aliases that get their names at a node. -/
def Tree.introduces : Tree → List Alias
  | .select s _ => (s.source.bind Tree.label?).toList
  | .join j _ => j.left.label?.toList ++ j.right.label?.toList
  | .table a _ => [a]
  | _ => []

/-- The aliases in the order of their names. -/
def Tree.sourceOrder (t : Tree) : List Alias :=
  firstOccurrences (t.subtrees.flatMap Tree.introduces)

namespace Sql

/-- The dialect, and the sources in the order of their names. -/
structure Context where
  dialect : Dialect
  sources : List Alias

/-- The name of a source. -/
def Context.name (cx : Context) (a : Alias) : Except SqlError String :=
  match cx.sources.findIdx? (· == a) with
  | some i => .ok ("t" ++ toString i)
  | none => .error (.undeclared a)

/-- A constant. -/
def value : Value → String
  | .null => null
  | .boolean b => boolean b
  | .int i => toString i.toInt
  | .double x => Double.literal x
  | .decimal d => d.text ++ "BD"
  | .string s => quoteString s
  | .timestamp t => "TIMESTAMP " ++ quoteString t.fullText

/-- A table name is quoted part by part. -/
def tableName (name : String) : String :=
  ".".intercalate ((name.splitOn ".").map quoteIdent)

def list (items : List String) : String :=
  ", ".intercalate items

def directed (d : Direction) (text : String) : String :=
  match d with
  | .ascending => text
  | .descending => text ++ " DESC"

/-- A column of a select list. A reference needs no name of its own if it has the name already. -/
def declaration (name : String) (t : Tree) (text : String) : String :=
  match t with
  | .column c => if c.name == name then text else text ++ " AS " ++ quoteIdent name
  | _ => text ++ " AS " ++ quoteIdent name

/-- A clause with its list, or nothing if the list is empty. -/
def clause (head : String) (items : List String) : String :=
  if items.isEmpty then "" else head ++ list items

/-- The number of rows to take, which has to be a constant. -/
def limitOf : Option Tree → Except SqlError String
  | none => .ok ""
  | some (.constant v) =>
    match v.toInt64? with
    | some n => .ok (limit n.toInt.toNat)
    | none => .error .limit
  | some _ => .error .limit

end Sql

/-! ## Text -/

mutual

/-- A tree in the place of a scalar. -/
def Tree.scalarSql (cx : Sql.Context) : Tree → Except SqlError String
  | .constant v => .ok (Sql.value v)
  | .undefined _ => .ok (Sql.value (.double Double.undefined))
  | .parameter p => .ok (Sql.parameter p.name)
  | .binary op l r => do
    let l ← l.scalarSql cx
    let r ← r.scalarSql cx
    return "(" ++ l ++ " " ++ op.sqlOperator ++ " " ++ r ++ ")"
  | .unary .not t => do
    let t ← t.scalarSql cx
    return "(NOT " ++ t ++ ")"
  | .unary .negate t => do
    let t ← t.scalarSql cx
    return "(-" ++ t ++ ")"
  | .between t l u => do
    let t ← t.scalarSql cx
    let l ← l.scalarSql cx
    let u ← u.scalarSql cx
    return "(" ++ t ++ " BETWEEN " ++ l ++ " AND " ++ u ++ ")"
  | .isNull t => do
    let t ← t.scalarSql cx
    return "(" ++ t ++ " IS NULL)"
  | .member _ _ => .error .member
  | .record _ => .error .shape
  | .entity _ _ => .error .shape
  | .outerJoined _ t => t.scalarSql cx
  | .table _ _ => .error (.notScalar "Table")
  | .column c => do
    let source ← cx.name c.label
    return source ++ "." ++ Sql.quoteIdent c.name
  | .select s _ => do
    let s ← s.sql cx
    return "(" ++ s ++ ")"
  | .join _ _ => .error (.notScalar "Join")
  | .scalarSubquery q _ => q.scalarSql cx
  | .existsSubquery q => do
    let q ← q.scalarSql cx
    return "EXISTS " ++ q
  | .inSubquery t q => do
    let t ← t.scalarSql cx
    let q ← q.scalarSql cx
    return "(" ++ t ++ " IN " ++ q ++ ")"
  | .aggregate kind t distinct _ => do
    let t ← argumentSql cx t
    return kind.sqlName ++ "(" ++ (if distinct then "DISTINCT " else "") ++ t ++ ")"
  | .rowNumber order =>
    if cx.dialect.allowsRowNumber then do
      let keys ← keysSql cx false order
      return "ROW_NUMBER() OVER (ORDER BY " ++ Sql.list keys ++ ")"
    else
      .error .rowNumber
  | .projection _ _ _ => .error .shape

/-- A tree in the place of a source. -/
def Tree.sourceSql (cx : Sql.Context) : Tree → Except SqlError String
  | .table a name => do
    let source ← cx.name a
    return Sql.tableName name ++ " " ++ source
  | .select s _ => do
    let sql ← s.sql cx
    let source ← cx.name s.label
    return "(" ++ sql ++ ") " ++ source
  | .join ⟨kind, l, r, c⟩ _ =>
    match Sql.joinWords? kind with
    | none => .error .apply
    | some words => do
      let l ← l.sourceSql cx
      let r ← r.sourceSql cx
      let on ← conditionSql cx " ON " c
      return l ++ " " ++ words ++ " " ++ r ++ on
  | t => .error (.notSource t.kind)

/-- A select without the parentheses around it. -/
def Select.sql (cx : Sql.Context) : Select Tree → Except SqlError String
  | ⟨_, columns, source, filter, order, group, distinct, skip, take, reverse, cluster⟩ =>
    if skip.isSome then
      .error .skip
    else do
      let columns ← columnsSql cx columns
      let source ← fromSql cx source
      let filter ← conditionSql cx " WHERE " filter
      let group ← listSql cx group
      let cluster ← listSql cx cluster
      let order ← (if reverse && order.isEmpty then .error .reverseWithoutOrder else keysSql cx reverse order)
      let limit ← Sql.limitOf take
      return "SELECT " ++ (if distinct then "DISTINCT " else "") ++
        (if columns.isEmpty then "1" else Sql.list columns) ++ source ++ filter ++
        Sql.clause " GROUP BY " group ++ Sql.clause " CLUSTER BY " cluster ++
        Sql.clause " ORDER BY " order ++ limit

def fromSql (cx : Sql.Context) : Option Tree → Except SqlError String
  | none => .ok ""
  | some t => do
    let t ← t.sourceSql cx
    return " FROM " ++ t

def conditionSql (cx : Sql.Context) (word : String) : Option Tree → Except SqlError String
  | none => .ok ""
  | some t => do
    let t ← t.scalarSql cx
    return word ++ t

/-- The argument of an aggregate; without one, it counts rows. -/
def argumentSql (cx : Sql.Context) : Option Tree → Except SqlError String
  | none => .ok "*"
  | some t => t.scalarSql cx

def listSql (cx : Sql.Context) : List Tree → Except SqlError (List String)
  | [] => .ok []
  | t :: ts => do
    let t ← t.scalarSql cx
    let ts ← listSql cx ts
    return t :: ts

/-- Sort keys, inverted for a select that reverses its rows. -/
def keysSql (cx : Sql.Context) (invert : Bool) : List (SortKey Tree) → Except SqlError (List String)
  | [] => .ok []
  | ⟨d, t⟩ :: ks => do
    let t ← t.scalarSql cx
    let ks ← keysSql cx invert ks
    return Sql.directed (if invert then d.inverted else d) t :: ks

def columnsSql (cx : Sql.Context) : List (Column Tree) → Except SqlError (List String)
  | [] => .ok []
  | ⟨name, t, _⟩ :: cs => do
    let text ← t.scalarSql cx
    let cs ← columnsSql cx cs
    return Sql.declaration name t text :: cs

end

theorem listSql_eq (cx : Sql.Context) (ts : List Tree) : listSql cx ts = ts.mapM (Tree.scalarSql cx) := by
  induction ts with
  | nil => rfl
  | cons t ts ih => rw [listSql, ih, List.mapM_cons]

theorem keysSql_eq (cx : Sql.Context) (invert : Bool) (ks : List (SortKey Tree)) :
    keysSql cx invert ks = ks.mapM fun k =>
      Sql.directed (if invert then k.direction.inverted else k.direction) <$> k.value.scalarSql cx := by
  induction ks with
  | nil => rfl
  | cons k ks ih => rw [keysSql, ih, List.mapM_cons, bind_map_left]

theorem columnsSql_eq (cx : Sql.Context) (cs : List (Column Tree)) :
    columnsSql cx cs = cs.mapM fun c => Sql.declaration c.name c.value <$> c.value.scalarSql cx := by
  induction cs with
  | nil => rfl
  | cons c cs ih => rw [columnsSql, ih, List.mapM_cons, bind_map_left]

/-- The statement of a tree, or what has no spelling in it. -/
def Tree.toSql (dialect : Dialect) (t : Tree) : Except SqlError String :=
  match t with
  | .select s _ => s.sql ⟨dialect, t.sourceOrder⟩
  | _ => .error (.notSelect t.kind)

end HiveQuery
