import DevopsBroker.Adt.HashMapRun
import DevopsBroker.Lang.Block
import DevopsBroker.Lang.Integer
import DevopsBroker.Lang.String

/-!
# `cgi/httprequest.c` and `cgi/httprequest.linux.asm`: the parameters of a request

`urldecode` writes the query string without its escapes to `paramStr`. `mapQueryString` cuts
`paramStr` into names and values, each with a `NUL` in the place of the `=` or `&` behind it, with
pointers to them on the stack, and puts the pairs into the map.

Mirroring notes vs the source:
- A string is the list of its characters, with the `NUL` where `urldecode` reads it. `paramStr` is
  the bytes of its block, which is allocated at some address. `none` stands for a read behind the
  query string, and for a read or a write outside of the block.
- The functions of the map read the memory as it is when they are called. They are first called
  when `paramStr` is cut. Strings elsewhere are the caller's.
- `eax` is what `c47905f7_putFromStack`, which returns nothing, leaves there.
-/

namespace DevopsBroker.Cgi

open DevopsBroker.Adt DevopsBroker.Lang
open DevopsBroker.Lib (Mem bytesAt)

def MAX_URL_SIZE : Nat := 131072
def SYSTEM_ERROR_CODE : Int := -1

def EQUALS : UInt8 := 0x3D
def AMPERSAND : UInt8 := 0x26
def PLUS : UInt8 := 0x2B
def PERCENT : UInt8 := 0x25
def SPACE : UInt8 := 0x20

/-- `"REQUEST_METHOD"`. -/
def HTTP_REQUEST_METHOD : List UInt8 :=
  [0x52, 0x45, 0x51, 0x55, 0x45, 0x53, 0x54, 0x5F, 0x4D, 0x45, 0x54, 0x48, 0x4F, 0x44]

/-- `"QUERY_STRING"`. -/
def HTTP_QUERY_STRING : List UInt8 :=
  [0x51, 0x55, 0x45, 0x52, 0x59, 0x5F, 0x53, 0x54, 0x52, 0x49, 0x4E, 0x47]

/-- `"CONTENT_LENGTH"`. -/
def HTTP_CONTENT_LENGTH : List UInt8 :=
  [0x43, 0x4F, 0x4E, 0x54, 0x45, 0x4E, 0x54, 0x5F, 0x4C, 0x45, 0x4E, 0x47, 0x54, 0x48]

/-- `"GET"`. -/
def HTTP_REQUEST_METHOD_GET : List UInt8 := [0x47, 0x45, 0x54]

/-- `"POST"`. -/
def HTTP_REQUEST_METHOD_POST : List UInt8 := [0x50, 0x4F, 0x53, 0x54]

/-! ## Decoding -/

/-- `.decimalDigit` and `.hexDigit`, for the second digit. -/
def secondDigit (ch : UInt8) : UInt8 := if ch < 0x3A then ch - 0x30 else ch - 0x41 + 0x0A

/-- `.percentEncoded`: the first digit is taken for a decimal one. -/
def percentEncoded (first second : UInt8) : UInt8 := ((first - 0x30) <<< 4) + secondDigit second

/-- `a2465172_urldecode`: what is written, with the `NUL`. -/
def urldecode : List UInt8 → Option (List UInt8)
  | [] => none
  | ch :: queryString =>
    if ch = 0 then some [0]
    else if ch = PLUS then (urldecode queryString).map (SPACE :: ·)
    else if ch = PERCENT then
      match queryString with
      | first :: second :: queryString =>
        (urldecode queryString).map (percentEncoded first second :: ·)
      | _ => none
    else (urldecode queryString).map (ch :: ·)

/-! ## Cutting -/

/-- `.findName`: where the next `=` is. It does not look for the `NUL`. -/
def findName (paramStr : List UInt8) : Nat → Nat → Option Nat
  | 0, _ => none
  | fuel + 1, i => do
    let ch ← paramStr[i]?
    if ch = EQUALS then some i else findName paramStr fuel (i + 1)

/-- `.findValue`: where the next `&` (`true`) or the `NUL` is. -/
def findValue (paramStr : List UInt8) : Nat → Nat → Option (Nat × Bool)
  | 0, _ => none
  | fuel + 1, i => do
    let ch ← paramStr[i]?
    if ch = AMPERSAND then some (i, true)
    else if ch = 0 then some (i, false)
    else findValue paramStr fuel (i + 1)

/-- What `mapQueryString` has done: the block, what is on the stack, and `edx`. -/
structure Cut where
  paramStr : List UInt8
  stack : List Ptr
  numElements : Nat

/-- A name, and the value behind it; then the next name, if there is a `&`. -/
def cutPairs (address : Ptr) : Nat → Nat → Cut → Option Cut
  | 0, _, _ => none
  | fuel + 1, i, cut => do
    let nameEnd ← findName cut.paramStr (cut.paramStr.length + 1) i
    let paramStr := cut.paramStr.set nameEnd 0
    let (valueEnd, found) ← findValue paramStr (paramStr.length + 1) (nameEnd + 1)
    let stack := (address + (nameEnd + 1)) :: (address + i) :: cut.stack
    let numElements := cut.numElements + 1
    if found then cutPairs address fuel (valueEnd + 1) ⟨paramStr.set valueEnd 0, stack, numElements⟩
    else some ⟨paramStr, stack, numElements⟩

/-! ## The map -/

/-- The string at an address: in `paramStr`, or one of the caller's. -/
def stringAt (strings : Ptr → List UInt8) (address : Ptr) (paramStr : List UInt8) (p : Ptr) :
    List UInt8 :=
  if address ≤ p ∧ p < address + paramStr.length then
    (paramStr.drop (p - address)).takeWhile (· ≠ 0)
  else strings p

/-- `f6215943_hashCode`, of a pointer. -/
def hashCodeAt (text : Ptr → List UInt8) (p : Ptr) : UInt32 :=
  if p = NULL then 0 else Lang.hashCode (text p)

/-- `f6215943_isEqual`, of two pointers. -/
def isEqualAt (text : Ptr → List UInt8) (p q : Ptr) : Bool :=
  if p = q then true
  else if p = NULL then false
  else if q = NULL then false
  else isEqual (text p) (text q)

/-- The memory that the functions of the map see. -/
def withStrings (s : MapState) (text : Ptr → List UInt8) : MapState :=
  { s with map := { s.map with hashCode := hashCodeAt text, equals := isEqualAt text } }

/-- `struct HttpRequest`, with the memory that `parameters` and `paramStr` are in. -/
structure HttpRequest where
  parameters : MapState
  method : Option (List UInt8)
  queryString : Option (List UInt8)
  address : Ptr
  paramStr : List UInt8
  length : UInt32

/-- `a2465172_mapQueryString`, of a `paramStr` that is not `NULL`. -/
def mapQueryString (A : Malloc) (strings : Ptr → List UInt8) (request : HttpRequest) :
    Option HttpRequest := do
  let cut ← cutPairs request.address (request.paramStr.length + 1) 0 ⟨request.paramStr, [], 0⟩
  let parameters := withStrings request.parameters (stringAt strings request.address cut.paramStr)
  let parameters ← putFromStack A parameters (fun i => cut.stack.getD i NULL) (2 * cut.numElements)
  return { request with parameters := parameters, paramStr := cut.paramStr }

/-- What a request finds: the environment, the strings of the caller, the heap, and `eax`. -/
structure Surroundings where
  getenv : List UInt8 → Option (List UInt8)
  strings : Ptr → List UInt8
  malloc : Malloc
  entry : Ptr → MapEntry
  fresh : Mem
  address : Ptr
  address_ne : address ≠ NULL
  eax : Int

/-- `a2465172_initHttpRequest`: the return value, and the request. -/
def initHttpRequest (w : Surroundings) (request : HttpRequest) (numParams : UInt32) :
    Option (Int × HttpRequest) :=
  let method := w.getenv HTTP_REQUEST_METHOD
  let parameters := initState (hashCodeAt w.strings) (isEqualAt w.strings) numParams.toNat w.entry
  let request := { request with method := method, parameters := parameters }
  if method = some HTTP_REQUEST_METHOD_GET then
    match w.getenv HTTP_QUERY_STRING with
    | none => some (0, { request with queryString := none })
    | some queryString =>
      let request :=
        { request with queryString := some queryString, length := UInt32.ofNat queryString.length }
      if queryString.length > MAX_URL_SIZE then some (SYSTEM_ERROR_CODE, request)
      else do
        let block ← stralloc w.fresh queryString.length
        let decoded ← urldecode (queryString ++ [0])
        let block ← block.storeBytes 0 decoded
        let request ← mapQueryString w.malloc w.strings
          { request with address := w.address, paramStr := bytesAt block.byte 0 block.size }
        return (w.eax, request)
  else if method = some HTTP_REQUEST_METHOD_POST then do
    let contentLength ← w.getenv HTTP_CONTENT_LENGTH
    let (retValue, length) := parseInt contentLength request.length
    return (retValue, { request with queryString := none, address := NULL, paramStr := [], length := length })
  else some (0, request)

end DevopsBroker.Cgi
