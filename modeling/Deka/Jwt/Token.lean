/-
Deka/Jwt/Token.lean

The compact JWT engine of `jwt.rs`: `sign` and `verify`, with the claims and options
of `jwt_contract.rs`.

`serde_json`, the case mapping of the standard library and the HMAC are code outside
the repository: they are the operations of `Serde`, and `Serde.Documented` lists what
the engine relies on.  A JSON text is a `String`; a token, a key and a signature are
their bytes.
-/
import Deka.Jwt.Base64
import Deka.Vm.Json

namespace Deka.Jwt

open Deka.Vm

variable {F : Type}

/-! ### What the engine is built on -/

class Serde (F : Type) extends F64 F where
  /-- `serde_json::to_string` of a string -/
  quote : String → String
  /-- `serde_json::to_string` of a document -/
  jsonToString : Json F → Except String String
  /-- `serde_json::from_str::<Value>` -/
  jsonFromStr : String → Except String (Json F)
  /-- the entries of an object as `from_str` gives them to a map visitor: each name with
  the text of its value, in the order of the text -/
  rawEntries : String → Except String (List (String × String))
  /-- `RawValue::from_string` -/
  rawFromString : String → Except String String
  /-- the texts that `rawEntries` finds as values below the recursion limit -/
  IsProperty : String → Prop
  /-- `str::to_uppercase` -/
  toUppercase : String → String
  /-- HMAC-SHA-256 of a key and a message -/
  hmacSha256 : Bytes → Bytes → Bytes

/-- `serde_json::Number::as_f64` -/
def asF64 [F64 F] : JsonNumber F → F
  | .int n => F64.ofInt n
  | .float x => x

/-- The bytes of a string. -/
def asBytes (text : String) : Bytes := text.toByteArray.data.toList

/-- `String::from_utf8`, with the error the caller maps it to -/
def fromUtf8 (bytes : Bytes) (error : String) : Except String String :=
  match String.fromUTF8? ⟨bytes.toArray⟩ with
  | some text => .ok text
  | none => .error error

/-- `?` after `map_err` -/
def orElse {α : Type} (result : Except String α) (error : String) : Except String α :=
  match result with
  | .ok a => .ok a
  | .error _ => .error error

/-- `if !holds { return Err(error) }` -/
def require (holds : Prop) [Decidable holds] (error : String) : Except String Unit :=
  if holds then .ok () else .error error

/-! ### Bounds -/

/-- `JWT_MAX_INPUT` -/
def maxInput : Nat := 16 * 1024 * 1024

def maxToken : Nat := maxInput + 44

def maxCryptoInput : Nat := 16 * 1024 * 1024

/-! ### Crypto -/

def bounded (data : Bytes) : Except String Unit :=
  require (data.length ≤ maxCryptoInput) "input too large"

/-- `hmac("sha256", key, data)` -/
def hmac [Serde F] (key data : Bytes) : Except String Bytes := do
  bounded (asBytes "sha256")
  bounded key
  bounded data
  return Serde.hmacSha256 F key data

/-- The bits in which two texts of one length differ. -/
def difference (a b : Bytes) : UInt8 :=
  (a.zip b).foldl (fun diff x => diff ||| (x.1 ^^^ x.2)) 0

def secureCompare (a b : Bytes) : Except String Bool := do
  bounded a
  bounded b
  return a.length = b.length ∧ difference a b = 0

/-! ### The contract -/

inductive Kind where
  | number
  | string
deriving DecidableEq, Repr

inductive Claim where
  | iat | exp | nbf | iss | aud | sub
deriving DecidableEq, Repr

namespace Claim

def all : List Claim := [.iat, .exp, .nbf, .iss, .aud, .sub]

def name : Claim → String
  | .iat => "iat"
  | .exp => "exp"
  | .nbf => "nbf"
  | .iss => "iss"
  | .aud => "aud"
  | .sub => "sub"

def kind : Claim → Kind
  | .iat | .exp | .nbf => .number
  | _ => .string

end Claim

inductive OptionField where
  | alg | iss | aud | sub | expIn | exp | leeway
deriving DecidableEq, Repr

namespace OptionField

def all : List OptionField := [.alg, .iss, .aud, .sub, .expIn, .exp, .leeway]

def name : OptionField → String
  | .alg => "alg"
  | .iss => "iss"
  | .aud => "aud"
  | .sub => "sub"
  | .expIn => "exp_in"
  | .exp => "exp"
  | .leeway => "leeway"

def kind : OptionField → Kind
  | .expIn | .exp | .leeway => .number
  | _ => .string

end OptionField

def payloadEncodingError : String := "failed to encode jwt payload"

def optionsEncodingError : String := "invalid jwt options"

/-! ### Objects -/

/-- The properties of an object with the texts of their values, in their order.  The
source keeps an index from a name to its place, which is here that a name has one place. -/
structure Object where
  fields : List (String × String)
  nodup : (fields.map Prod.fst).Nodup

namespace Object

def empty : Object := ⟨[], List.nodup_nil⟩

def contains (o : Object) (name : String) : Bool := o.fields.any (·.1 = name)

/-- Replace the value of a property in its place. -/
def replace (fields : List (String × String)) (name value : String) :
    List (String × String) :=
  fields.map fun e => if e.1 = name then (e.1, value) else e

theorem keys_replace (fields : List (String × String)) (name value : String) :
    (replace fields name value).map Prod.fst = fields.map Prod.fst := by
  rw [replace, List.map_map]
  refine List.map_congr_left fun e _ => ?_
  rw [Function.comp_apply]
  split <;> rfl

theorem contains_iff {o : Object} {name : String} :
    o.contains name ↔ name ∈ o.fields.map Prod.fst := by
  simp only [contains, List.any_eq_true, List.mem_map, decide_eq_true_eq]

/-- Replace a property in its place, or append it. -/
def set (o : Object) (name value : String) : Object :=
  if h : o.contains name then
    { fields := replace o.fields name value
      nodup := by
        rw [keys_replace]
        exact o.nodup }
  else
    { fields := o.fields ++ [(name, value)]
      nodup := by
        rw [List.map_append, List.map_singleton, List.nodup_append]
        refine ⟨o.nodup, List.nodup_singleton _, fun x hx y hy he => ?_⟩
        rw [he, List.mem_singleton.mp hy] at hx
        exact h (contains_iff.mpr hx) }

/-- The text of a property. -/
def raw? (o : Object) (name : String) : Option String :=
  (o.fields.find? (·.1 = name)).map Prod.snd

variable [Serde F]

def get (F : Type) [Serde F] (o : Object) (name : String) : Except String (Option (Json F)) :=
  match o.raw? name with
  | none => .ok none
  | some raw => (Serde.jsonFromStr raw).map some

def put (o : Object) (name : String) (value : Json F) : Except String Object := do
  let text ← Serde.jsonToString value
  let raw ← Serde.rawFromString F text
  return o.set name raw

/-- The object of its entries; a repeated name keeps its first place and its last value. -/
def ofEntries (entries : List (String × String)) : Object :=
  entries.foldl (fun o e => o.set e.1 e.2) empty

def parse (F : Type) [Serde F] (text : String) : Except String Object := do
  require (text.utf8ByteSize ≤ maxInput) "input too large"
  let _ : Json F ← Serde.jsonFromStr text
  return ofEntries (← Serde.rawEntries F text)

/-- One property as the writer puts it. -/
def member (F : Type) [Serde F] (e : String × String) : String :=
  Serde.quote F e.1 ++ ":" ++ e.2

/-- The properties with commas between them. -/
def members (F : Type) [Serde F] : Bool → List (String × String) → String
  | _, [] => ""
  | first, e :: rest => (if first then "" else ",") ++ member F e ++ members F false rest

/-- The text of an object, without blanks. -/
def print (F : Type) [Serde F] (fields : List (String × String)) : String :=
  "\x7b" ++ members F true fields ++ "\x7d"

/-- The writer stops where the text would pass the bound. -/
def stringify (F : Type) [Serde F] (o : Object) : Except String String :=
  let text := print F o.fields
  if text.utf8ByteSize > maxInput then .error "input too large" else .ok text

def number (F : Type) [Serde F] (o : Object) (name : String) : Except String (Option F) := do
  match ← o.get F name with
  | none | some .null => return none
  | some (.number n) =>
      if F64.isFinite (asF64 n) then return some (asF64 n)
      else throw "invalid JWT numeric claim"
  | _ => throw "invalid JWT numeric claim"

def text (F : Type) [Serde F] (o : Object) (name : String) :
    Except String (Option String) := do
  match ← o.get F name with
  | none | some .null => return none
  | some (.string s) => return some s
  | _ => throw "invalid JWT string claim"

/-- A property has the kind its field has by the contract. -/
def check (F : Type) [Serde F] (o : Object) (name : String) : Kind → Except String Unit
  | .number => do let _ ← o.number F name
  | .string => do let _ ← o.text F name

def validateClaims (F : Type) [Serde F] (o : Object) : Except String Unit :=
  Claim.all.forM fun field => o.check F field.name field.kind

end Object

section Engine

variable [Serde F]

def options (F : Type) [Serde F] (text : String) : Except String Object := do
  let object ← orElse (Object.parse F text) optionsEncodingError
  OptionField.all.forM fun field => object.check F field.name field.kind
  return object

/-- The spelling of a number: a whole one in the range of `i64` is an integer. -/
def numeric (value : F) : Except String (Json F) :=
  if ¬ F64.isFinite value then .error "invalid JWT numeric claim"
  else if F64.isWhole value ∧ F64.le (F64.ofInt (-2 ^ 63)) value ∧
      F64.lt value (F64.ofInt (2 ^ 63)) then
    .ok (.number (.int (F64.truncI64 value)))
  else .ok (.number (.float value))

/-- `{"alg":"HS256","typ":"JWT"}` -/
def headerText : String := "\x7b\"alg\":\"HS256\",\"typ\":\"JWT\"\x7d"

/-- `iss`, `aud` and `sub` of the options replace those of the payload. -/
def overrideText (options claims : Object) (name : String) : Except String Object := do
  match ← options.text F name with
  | some value => claims.put name (.string value : Json F)
  | none => return claims

/-- The expiry the options ask for, or the one of the payload. -/
def expiry (options claims : Object) (now : F) : Except String (Option F) := do
  let relative ← match ← options.number F "exp_in" with
    | some n => pure (some (F64.add now n))
    | none => claims.number F "exp"
  return (← options.number F "exp") <|> relative

/-- The claims of a token. -/
def claimsOf (options : Object) (payload : String) (now : F) : Except String Object := do
  let claims ← orElse (Object.parse F payload) payloadEncodingError
  orElse (claims.validateClaims F) payloadEncodingError
  let iat := (← claims.number F "iat").getD now
  let exp ← expiry options claims now
  let claims ← ["iss", "aud", "sub"].foldlM (overrideText (F := F) options) claims
  let claims ← claims.put "iat" (← numeric iat)
  match exp with
  | some exp => claims.put "exp" (← numeric exp)
  | none => return claims

def sign (payload : String) (secret : Bytes) (optionJson : String) (now : F) :
    Except String Bytes := do
  require (F64.isFinite now) "invalid JWT clock"
  require (secret.length ≤ maxInput) "input too large"
  let options ← options F optionJson
  let alg := ((← options.text F "alg").filter (· ≠ "")).getD "HS256"
  require (Serde.toUppercase F alg = "HS256") "unsupported jwt alg"
  let claims ← claimsOf options payload now
  let json ← claims.stringify F
  let input := b64url (asBytes headerText) ++ [ascii '.'] ++ b64url (asBytes json)
  let signature ← hmac (F := F) secret input
  return input ++ [ascii '.'] ++ b64url signature

/-- The three parts of a token. -/
def pieces (token : Bytes) : Except String (Bytes × Bytes × Bytes) :=
  match token.splitOn (ascii '.') with
  | [header, payload, signature] => .ok (header, payload, signature)
  | _ => .error "invalid jwt format"

/-- The index of the last dot. -/
def rfindDot (token : Bytes) : Except String Nat :=
  match token.rdropWhile (· ≠ ascii '.') with
  | [] => .error ""
  | upTo => .ok (upTo.length - 1)

/-- The algorithm and the signature of a token are accepted. -/
def authenticate (token header signature secret : Bytes) : Except String Unit := do
  let header ← fromUtf8 (← decode header) "invalid jwt header"
  let header ← orElse (Object.parse F header) "invalid jwt header"
  let alg ← orElse (header.text F "alg") "invalid jwt header"
  require (alg.getD "" = "HS256") "unsupported jwt alg"
  let split ← orElse (rfindDot token) "invalid jwt format"
  let expected ← hmac (F := F) secret (token.take split)
  let actual ← orElse (decode signature) "invalid jwt signature"
  require (← secureCompare expected actual) "invalid jwt signature"

/-- The claims in the second part of a token. -/
def readClaims (F : Type) [Serde F] (payload : Bytes) : Except String Object := do
  let json ← fromUtf8 (← decode payload) "invalid jwt payload"
  let claims ← orElse (Object.parse F json) "invalid jwt payload"
  orElse (claims.validateClaims F) "invalid jwt payload"
  return claims

/-- The clock satisfies the claims, within the leeway. -/
def checkClock (claims : Object) (leeway now : F) : Except String Unit := do
  let iat ← claims.number F "iat"
  require (¬ iat.any fun n => F64.lt now (F64.sub n leeway)) "jwt issued in future"
  let exp ← claims.number F "exp"
  require (¬ exp.any fun n => F64.lt (F64.add n leeway) now) "jwt expired"
  let nbf ← claims.number F "nbf"
  require (¬ nbf.any fun n => F64.lt now (F64.sub n leeway)) "jwt not active yet"

/-- `iss` and `aud` are the expected ones. -/
def checkExpected (F : Type) [Serde F] (options claims : Object) (name error : String) :
    Except String Unit := do
  match ← options.text F name with
  | some expected => require ((← claims.text F name).getD "" = expected) error
  | none => return ()

/-- A claim that is missing is null. -/
def fill (F : Type) [Serde F] (claims : Object) (field : Claim) : Except String Object :=
  if claims.contains field.name then .ok claims
  else claims.put field.name (.null : Json F)

def verify (token secret : Bytes) (optionJson : String) (now : F) :
    Except String String := do
  require (F64.isFinite now) "invalid JWT clock"
  require (token.length ≤ maxToken ∧ secret.length ≤ maxInput) "input too large"
  let options ← options F optionJson
  let (header, payload, signature) ← pieces token
  require ([header, payload, signature].all validB64url) "invalid jwt format"
  authenticate (F := F) token header signature secret
  let claims ← readClaims F payload
  let leeway := (← options.number F "leeway").getD (F64.ofNat 0)
  checkClock claims leeway now
  checkExpected F options claims "iss" "jwt issuer mismatch"
  checkExpected F options claims "aud" "jwt audience mismatch"
  let claims ← Claim.all.foldlM (fill F) claims
  claims.stringify F

end Engine

/-! ### What is relied on -/

/-- Documented facts of IEEE doubles. -/
structure DoubleLaws (F : Type) [F64 F] : Prop where
  sub_zero : ∀ {a : F} (t : F), F64.isFinite a → F64.lt t (F64.sub a (F64.ofNat 0)) = F64.lt t a
  add_zero : ∀ {a : F} (t : F), F64.isFinite a → F64.lt (F64.add a (F64.ofNat 0)) t = F64.lt a t
  not_lt : ∀ {a b : F}, F64.isFinite a → F64.isFinite b → F64.le a b → F64.lt b a = false
  /-- `as i64` saturates -/
  truncI64_range : ∀ a : F, -2 ^ 63 ≤ F64.truncI64 a ∧ F64.truncI64 a < 2 ^ 63
  finite_ofInt : ∀ {n : Int}, -2 ^ 63 ≤ n → n < 2 ^ 63 → F64.isFinite (F64.ofInt n : F)

/-- Documented facts of `serde_json` and of HMAC-SHA-256. -/
structure SerdeLaws (F : Type) [Serde F] : Prop where
  /-- a string of letters and digits is not escaped -/
  quote_plain : ∀ s : String, s.toList.all Char.isAlphanum →
    Serde.quote F s = "\"" ++ s ++ "\""
  null : Serde.jsonToString (.null : Json F) = .ok "null" ∧
    Serde.jsonFromStr "null" = .ok (.null : Json F)
  string : ∀ s, Serde.jsonToString (.string s : Json F) = .ok (Serde.quote F s) ∧
    Serde.jsonFromStr (Serde.quote F s) = .ok (.string s : Json F)
  /-- an integer is read back exactly -/
  int : ∀ n : Int, -2 ^ 63 ≤ n → n < 2 ^ 63 → ∃ raw,
    Serde.jsonToString (.number (.int n) : Json F) = .ok raw ∧
      Serde.jsonFromStr raw = .ok (.number (.int n) : Json F)
  /-- a double is read back as some double -/
  float : ∀ x : F, F64.isFinite x → ∃ (raw : String) (y : F),
    Serde.jsonToString (.number (.float x)) = .ok raw ∧
      Serde.jsonFromStr raw = .ok (.number (.float y)) ∧ F64.isFinite y
  /-- what was written for a null, a number or a string can be a property -/
  scalar : ∀ (v : Json F) raw, v = .null ∨ (∃ n, v = .number n) ∨ (∃ s, v = .string s) →
    Serde.jsonToString v = .ok raw →
      Serde.rawFromString F raw = .ok raw ∧ Serde.IsProperty F raw
  /-- the values of a text within the recursion limit are within it as properties -/
  parsed : ∀ text (j : Json F) entries, Serde.jsonFromStr text = .ok j →
    Serde.rawEntries F text = .ok entries → ∀ e ∈ entries, Serde.IsProperty F e.2
  /-- an object that is written is read back, each value with its text -/
  printed : ∀ fields, (∀ e ∈ fields, Serde.IsProperty F e.2) →
    (∃ j : Json F, Serde.jsonFromStr (Object.print F fields) = .ok j) ∧
      Serde.rawEntries F (Object.print F fields) = .ok fields
  /-- a signature has 256 bits -/
  signature : ∀ key data, (Serde.hmacSha256 F key data).length = 32

end Deka.Jwt
