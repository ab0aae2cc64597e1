/-
Deka/Http/HeaderList.lean

The header list behind `Headers`, `Request` and `Response` (`http_headers.rs`).

A name is kept in lower case and has its values in the order in which they came.  A call works on
the list in place: a call that fails leaves behind whatever it has done up to then.
-/
import Deka.Lib.BTreeMap
import Mathlib.Data.List.DropRight

namespace Deka.Http

open Deka.Lib

structure HeaderList where
  values : BTreeMap String (List String) := []
deriving DecidableEq, Repr

/-- A call that may fail, on a list that it changes in place. -/
abbrev HeaderM := ExceptT String (StateM HeaderList)

/-! ### Names and values -/

/-- The bytes of a name; a character outside ASCII is made of other bytes. -/
def isTokenChar (c : Char) : Bool :=
  c.isAlphanum || c ∈ ['!', '#', '$', '%', '&', '\u0027', '*', '+', '-', '.', '^', '_', '\u0060', '|', '~']

def asciiLower (text : String) : String := String.ofList (text.toList.map Char.toLower)

/-- `name` of the source -/
def headerName (name : String) : Except String String :=
  if name = "" ∨ ¬ name.toList.all isTokenChar then .error "invalid header name"
  else .ok (asciiLower name)

/-- HTTP whitespace, which Unicode has more of. -/
def isHttpSpace (c : Char) : Bool := c ∈ ['\t', '\n', '\r', ' ']

def trimHttp (text : String) : String :=
  String.ofList ((text.toList.dropWhile isHttpSpace).rdropWhile isHttpSpace)

/-- `value` of the source -/
def headerValue (value : String) : Except String String :=
  if value.toList.any fun c => 255 < c.toNat then
    .error "header value must contain only byte-string characters"
  else
    let value := trimHttp value
    if value.toList.any fun c => c ∈ ['\x00', '\n', '\r'] then .error "invalid header value"
    else .ok value

/-! ### The calls -/

namespace HeaderList

def append (key text : String) : HeaderM Unit := do
  let key ← liftM (headerName key)
  let text ← liftM (headerValue text)
  modify fun list => { list with
    values := list.values.insert key ((list.values.get? key).getD [] ++ [text]) }

def set (key text : String) : HeaderM Unit := do
  let key ← liftM (headerName key)
  let text ← liftM (headerValue text)
  modify fun list => { list with values := list.values.insert key [text] }

def delete (key : String) : HeaderM Unit := do
  let key ← liftM (headerName key)
  modify fun list => { list with values := list.values.erase key }

/-- One entry of an initializer. -/
def appendPair : List String → HeaderM Unit
  | [name, value] => append name value
  | _ => throw "header initializer entries must have exactly two strings"

def fromPairs (pairs : List (List String)) : Except String HeaderList :=
  match (pairs.forM appendPair).run.run {} with
  | (.ok (), list) => .ok list
  | (.error e, _) => .error e

def get (list : HeaderList) (key : String) : Except String (Option String) := do
  let key ← headerName key
  return (list.values.get? key).map (String.intercalate ", ")

def has (list : HeaderList) (key : String) : Except String Bool := do
  let key ← headerName key
  return list.values.containsKey key

def getSetCookie (list : HeaderList) : List String := (list.values.get? "set-cookie").getD []

/-- The entries of one name. -/
def entriesOf (name : String) (values : List String) : List (String × String) :=
  if name = "set-cookie" then values.map fun value => (name, value)
  else [(name, String.intercalate ", " values)]

def entries (list : HeaderList) : List (String × String) :=
  list.values.flatMap fun e => entriesOf e.1 e.2

def keys (list : HeaderList) : List String := list.entries.map Prod.fst

/-- The bytes of a value. -/
def latin1 (value : String) : List UInt8 := value.toList.map fun c => c.toNat.toUInt8

def wireEntries (list : HeaderList) : List (String × List UInt8) :=
  list.values.flatMap fun e => e.2.map fun value => (e.1, latin1 value)

/-- The calls that change a list. -/
inductive Call where
  | append (key text : String)
  | set (key text : String)
  | delete (key : String)
deriving DecidableEq, Repr

def Call.run : Call → HeaderM Unit
  | .append key text => HeaderList.append key text
  | .set key text => HeaderList.set key text
  | .delete key => HeaderList.delete key

/-- What a call returns, and the list after it. -/
def Call.apply (call : Call) (list : HeaderList) : Except String Unit × HeaderList :=
  call.run.run.run list

/-- The lists that calls make. -/
inductive Reachable : HeaderList → Prop where
  | empty : Reachable {}
  | fromPairs {pairs : List (List String)} {list : HeaderList} :
      fromPairs pairs = .ok list → Reachable list
  | call {list : HeaderList} (call : Call) : Reachable list → Reachable (call.apply list).2

end HeaderList

end Deka.Http
