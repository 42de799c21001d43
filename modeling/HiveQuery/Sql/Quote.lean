import HiveQuery.Vocabulary

/-!
# Words of HiveQL

How identifiers, strings and parameters are spelled. An identifier that is a plain word and no keyword
stands as it is; any other is put in back-quotes, with each back-quote inside doubled. Inside a string every
backslash is doubled, and then every quote gets a backslash before it.
-/

namespace HiveQuery.Sql
set_option autoImplicit false

/-! ## Identifiers -/

def keywords : List String :=
  ["all", "and", "as", "asc", "between", "by", "case", "cluster", "cross", "current", "date",
   "desc", "distinct", "distribute", "else", "end", "exists", "false", "from", "full", "function",
   "group", "having", "in", "inner", "insert", "interval", "into", "is", "join", "left", "like",
   "limit", "not", "null", "on", "or", "order", "outer", "over", "partition", "range", "right",
   "rows", "select", "sort", "table", "then", "time", "timestamp", "to", "true", "union", "user",
   "values", "when", "where", "with"]

def isWordStart (c : Char) : Bool :=
  c.isAlpha || c == '_'

def isWordChar (c : Char) : Bool :=
  c.isAlphanum || c == '_'

/-- A letter or underscore followed by letters, digits and underscores, all of them ASCII. -/
def isPlainWord : List Char → Bool
  | [] => false
  | c :: cs => isWordStart c && cs.all isWordChar

/-- Is a word reserved, in capitals or not? -/
def isKeyword (cs : List Char) : Bool :=
  keywords.contains (String.ofList (cs.map Char.toLower))

def replaceChar (c : Char) (word text : List Char) : List Char :=
  text.flatMap fun d => if d = c then word else [d]

def backquote : Char := '\x60'

/-- The spelling of a name. -/
def quoteIdent (name : String) : String :=
  let cs := name.toList
  if isPlainWord cs && !isKeyword cs then
    name
  else
    String.ofList (backquote :: replaceChar backquote [backquote, backquote] cs ++ [backquote])

/-! ## Strings and parameters -/

def quote : Char := '\x27'

def backslash : Char := '\x5c'

/-- A string literal. -/
def quoteString (s : String) : String :=
  let doubled := replaceChar backslash [backslash, backslash] s.toList
  String.ofList (quote :: replaceChar quote [backslash, quote] doubled ++ [quote])

/-- A parameter is a variable that is substituted before the statement runs. -/
def parameter (name : String) : String :=
  "$\x7bhiveconf:" ++ name ++ "\x7d"

def boolean (b : Bool) : String :=
  if b then "TRUE" else "FALSE"

def null : String := "NULL"

def limit (n : Nat) : String :=
  " LIMIT " ++ toString n

/-- The words between the sides of a join; applies have none. -/
def joinWords? : JoinKind → Option String
  | .inner => some "JOIN"
  | .cross => some "CROSS JOIN"
  | .leftOuter => some "LEFT OUTER JOIN"
  | .crossApply => none
  | .outerApply => none

end HiveQuery.Sql
