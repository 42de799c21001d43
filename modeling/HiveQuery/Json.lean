/-!
# JSON texts

A strict reader for JSON that keeps what a decoder has to see: fields in order, repeated ones included.
Numbers are checked and then dropped, since nothing that is read here is a number.
-/

namespace HiveQuery
set_option autoImplicit false

/-- A JSON value. A string whose escapes are not the code of any text is `none`; it is well formed as
long as nobody asks for its text. -/
inductive Json where
  | null
  | bool (b : Bool)
  | number
  | string (text : Option String)
  | array (items : List Json)
  | object (fields : List (Option String × Json))

namespace Json

/-! ## Tokens -/

inductive Token where
  | openBrace
  | closeBrace
  | openBracket
  | closeBracket
  | comma
  | colon
  | null
  | bool (b : Bool)
  | number
  | string (text : Option String)

/-- A part of a string: a character, or a code of 16 bits. -/
inductive Piece where
  | char (c : Char)
  | unit (n : Nat)

def hexDigit? (c : Char) : Option Nat :=
  if c.isDigit then some (c.toNat - '0'.toNat)
  else if 'a' ≤ c && c ≤ 'f' then some (c.toNat - 'a'.toNat + 10)
  else if 'A' ≤ c && c ≤ 'F' then some (c.toNat - 'A'.toNat + 10)
  else none

def hexUnit? (a b c d : Char) : Option Nat := do
  let a ← hexDigit? a
  let b ← hexDigit? b
  let c ← hexDigit? c
  let d ← hexDigit? d
  return ((a * 16 + b) * 16 + c) * 16 + d

def escaped? : Char → Option Char
  | '\x22' => some '\x22'
  | '\x5c' => some '\x5c'
  | '/' => some '/'
  | 'b' => some '\x08'
  | 'f' => some '\x0c'
  | 'n' => some '\n'
  | 'r' => some '\r'
  | 't' => some '\t'
  | _ => none

/-- The parts of a string, and what stands behind its closing quote. -/
def lexString : List Char → Option (List Piece × List Char)
  | '\x22' :: rest => some ([], rest)
  | '\x5c' :: 'u' :: a :: b :: c :: d :: rest => do
    let n ← hexUnit? a b c d
    let (pieces, rest) ← lexString rest
    return (.unit n :: pieces, rest)
  | '\x5c' :: c :: rest => do
    let c ← escaped? c
    let (pieces, rest) ← lexString rest
    return (.char c :: pieces, rest)
  | c :: rest => do
    if c.toNat < 0x20 || c == '\x5c' then
      none
    else
      let (pieces, rest) ← lexString rest
      return (.char c :: pieces, rest)
  | [] => none

/-- The text of the pieces; units of a pair must stand next to each other. -/
def joinPieces : List Piece → Option (List Char)
  | [] => some []
  | .char c :: rest => (joinPieces rest).map (c :: ·)
  | .unit high :: .unit low :: rest =>
    if 0xD800 ≤ high && high < 0xDC00 then
      if 0xDC00 ≤ low && low < 0xE000 then
        (joinPieces rest).map
          (Char.ofNat (0x10000 + (high - 0xD800) * 0x400 + (low - 0xDC00)) :: ·)
      else
        none
    else if 0xDC00 ≤ high && high < 0xE000 then
      none
    else
      (joinPieces (.unit low :: rest)).map (Char.ofNat high :: ·)
  | .unit n :: rest =>
    if 0xD800 ≤ n && n < 0xE000 then none else (joinPieces rest).map (Char.ofNat n :: ·)

def dropDigits? (cs : List Char) : Option (List Char) :=
  if (cs.takeWhile Char.isDigit).isEmpty then none else some (cs.dropWhile Char.isDigit)

def dropWhole? : List Char → Option (List Char)
  | '0' :: c :: rest => if c.isDigit then none else some (c :: rest)
  | cs => dropDigits? cs

def dropFraction? : List Char → Option (List Char)
  | '.' :: rest => dropDigits? rest
  | cs => some cs

def dropExponent? : List Char → Option (List Char)
  | c :: rest =>
    if c == 'e' || c == 'E' then
      match rest with
      | '+' :: rest => dropDigits? rest
      | '-' :: rest => dropDigits? rest
      | rest => dropDigits? rest
    else
      some (c :: rest)
  | [] => some []

/-- What stands behind a number. -/
def dropNumber? (cs : List Char) : Option (List Char) := do
  let unsigned :=
    match cs with
    | '-' :: rest => rest
    | cs => cs
  dropExponent? (← dropFraction? (← dropWhole? unsigned))

def isBlank (c : Char) : Bool :=
  c == ' ' || c == '\n' || c == '\t' || c == '\r'

/-- The tokens of a text. Every token takes a character, so the length of the text is fuel enough. -/
def lexWithin : Nat → List Char → Option (List Token)
  | _, [] => some []
  | 0, _ :: _ => none
  | n + 1, c :: cs =>
    if isBlank c then
      lexWithin n cs
    else
      match c, cs with
      | '{', cs => (lexWithin n cs).map (.openBrace :: ·)
      | '}', cs => (lexWithin n cs).map (.closeBrace :: ·)
      | '[', cs => (lexWithin n cs).map (.openBracket :: ·)
      | ']', cs => (lexWithin n cs).map (.closeBracket :: ·)
      | ',', cs => (lexWithin n cs).map (.comma :: ·)
      | ':', cs => (lexWithin n cs).map (.colon :: ·)
      | 'n', 'u' :: 'l' :: 'l' :: cs => (lexWithin n cs).map (.null :: ·)
      | 't', 'r' :: 'u' :: 'e' :: cs => (lexWithin n cs).map (.bool true :: ·)
      | 'f', 'a' :: 'l' :: 's' :: 'e' :: cs => (lexWithin n cs).map (.bool false :: ·)
      | '\x22', cs => do
        let (pieces, rest) ← lexString cs
        let tokens ← lexWithin n rest
        return .string ((joinPieces pieces).map String.ofList) :: tokens
      | c, cs => do
        let rest ← dropNumber? (c :: cs)
        let tokens ← lexWithin n rest
        return .number :: tokens

/-! ## Values -/

mutual

def valueWithin : Nat → List Token → Option (Json × List Token)
  | 0, _ => none
  | n + 1, ts =>
    match ts with
    | .null :: rest => some (.null, rest)
    | .bool b :: rest => some (.bool b, rest)
    | .number :: rest => some (.number, rest)
    | .string s :: rest => some (.string s, rest)
    | .openBracket :: .closeBracket :: rest => some (.array [], rest)
    | .openBracket :: rest => do
      let (items, rest) ← itemsWithin n rest
      return (.array items, rest)
    | .openBrace :: .closeBrace :: rest => some (.object [], rest)
    | .openBrace :: rest => do
      let (fields, rest) ← fieldsWithin n rest
      return (.object fields, rest)
    | _ => none

def itemsWithin : Nat → List Token → Option (List Json × List Token)
  | 0, _ => none
  | n + 1, ts => do
    let (item, rest) ← valueWithin n ts
    match rest with
    | .comma :: rest =>
      let (items, rest) ← itemsWithin n rest
      return (item :: items, rest)
    | .closeBracket :: rest => return ([item], rest)
    | _ => none

def fieldsWithin : Nat → List Token → Option (List (Option String × Json) × List Token)
  | n + 1, .string key :: .colon :: ts => do
    let (item, rest) ← valueWithin n ts
    match rest with
    | .comma :: rest =>
      let (fields, rest) ← fieldsWithin n rest
      return ((key, item) :: fields, rest)
    | .closeBrace :: rest => return ([(key, item)], rest)
    | _ => none
  | _, _ => none

end

/-- The value of a JSON text. Each level of the reader takes a token or opens one item, so twice the
number of tokens bounds its depth. -/
def parse? (text : String) : Option Json := do
  let cs := text.toList
  let tokens ← lexWithin cs.length cs
  let (value, rest) ← valueWithin (2 * tokens.length + 1) tokens
  if rest.isEmpty then some value else none

/-! ## Decoding -/

def bool? : Json → Option Bool
  | .bool b => some b
  | _ => none

def string? : Json → Option String
  | .string s => s
  | _ => none

def list? {α : Type} (item? : Json → Option α) : Json → Option (List α)
  | .array items => items.mapM item?
  | _ => none

/-- The value under a name: `none` if it is repeated, `some none` if it is missing. -/
def field? (fields : List (Option String × Json)) (name : String) : Option (Option Json) :=
  match fields.filter fun f => f.1 == some name with
  | [] => some none
  | [f] => some (some f.2)
  | _ => none

/-- The values of the named fields of a record. An object may hold other fields, and none of its own
more than once; an array holds the fields in order, those at its end may be missing. -/
def record? (names : List String) : Json → Option (List (Option Json))
  | .object fields =>
    if fields.any fun f => f.1.isNone then none else names.mapM (field? fields)
  | .array items =>
    if items.length ≤ names.length then
      some (items.map some ++ List.replicate (names.length - items.length) none)
    else
      none
  | _ => none

/-- A missing field has a default value. -/
def orDefault {α : Type} (read? : Json → Option α) (default : α) : Option Json → Option α
  | none => some default
  | some json => read? json

/-- A value that may be null. -/
def nullable? {α : Type} (read? : Json → Option α) : Json → Option (Option α)
  | .null => some none
  | json => (read? json).map some

/-- A word out of a closed list, written as a string or as an object of one null field. -/
def choice? {α : Type} (choices : List (String × α)) : Json → Option α
  | .string (some word) => choices.lookup word
  | .object [(some word, .null)] => choices.lookup word
  | _ => none

end Json

end HiveQuery
