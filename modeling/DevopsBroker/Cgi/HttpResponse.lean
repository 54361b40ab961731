import DevopsBroker.Lang.Execute
import DevopsBroker.Cgi.HttpRequest

/-!
# `cgi/httpresponse.c`: the headers of a response

A program prints its headers with one call each, and an empty line with `closeResponseHeaders`. The
longer headers are put together in a `StringBuilder` first.

Mirroring notes vs the C source:
- What is printed is the bytes of the calls of `printf` and `puts`.
- Strings that the source does not compare with `NULL` are there.
- `none` stands for an abort, and for an access outside of an object.
- `garbage` is what the buffers hold that are allocated one after the other.
-/

namespace DevopsBroker.Cgi

open DevopsBroker.Lang DevopsBroker.Lang.StringBuilder
open DevopsBroker.Lib (Mem)

/-- `\n`. -/
def NEW_LINE : UInt8 := 0x0A

/-- `"`. -/
def QUOTE : UInt8 := 0x22

/-- `struct HttpCookie`. -/
structure HttpCookie where
  name : List UInt8
  value : List UInt8
  expires : Option (List UInt8)
  domain : Option (List UInt8)
  path : Option (List UInt8)
  sameSite : Option (List UInt8)
  maxAge : UInt32
  isSecure : Bool
  isHttpOnly : Bool
deriving DecidableEq

/-- `struct HttpCacheControl`. -/
structure HttpCacheControl where
  maxAge : UInt32
  sharedMaxAge : UInt32
  mustRevalidate : Bool
  noCache : Bool
  noStore : Bool
  noTransform : Bool
  isPublic : Bool
  isPrivate : Bool
  proxyRevalidate : Bool

/-- `puts`. -/
def putsLine (string : List UInt8) : List UInt8 := string ++ [NEW_LINE]

/-- A text and a value behind it, unless that is `NULL`. -/
def appendOption (garbage : Nat → Mem) (text : List UInt8) (value : Option (List UInt8))
    (strBuilder : StringBuilder) : Option StringBuilder :=
  match value with
  | some value => do
    let strBuilder ← strBuilder.appendString (garbage 0) text
    strBuilder.appendString (garbage 1) value
  | none => some strBuilder

/-- A text and a number behind it. -/
def appendNumber (garbage : Nat → Mem) (text : List UInt8) (value : UInt32)
    (strBuilder : StringBuilder) : Option StringBuilder := do
  let strBuilder ← strBuilder.appendString (garbage 0) text
  strBuilder.appendUint (garbage 1) (garbage 2) value

/-- A text, if there is something to say. -/
def appendFlag (garbage : Mem) (text : List UInt8) (flag : Bool) (strBuilder : StringBuilder) :
    Option StringBuilder :=
  if flag then strBuilder.appendString garbage text else some strBuilder

/-- `Max-Age`, or else `Expires`. -/
def appendLifetime (garbage : Nat → Mem) (cookie : HttpCookie) (strBuilder : StringBuilder) :
    Option StringBuilder :=
  if cookie.maxAge > 0 then appendNumber garbage (literalText "; Max-Age=") cookie.maxAge strBuilder
  else appendOption garbage (literalText "; Expires=") cookie.expires strBuilder

/-- What `addCookie` appends to `"Set-Cookie: "`. -/
def appendCookie (garbage : Nat → Mem) (cookie : HttpCookie) (strBuilder : StringBuilder) :
    Option StringBuilder := do
  let strBuilder ← strBuilder.appendString (garbage 0) cookie.name
  let strBuilder ← strBuilder.appendChar (garbage 1) EQUALS
  let strBuilder ← strBuilder.appendString (garbage 2) cookie.value
  let strBuilder ← appendLifetime (fun i => garbage (3 + i)) cookie strBuilder
  let strBuilder ← appendOption (fun i => garbage (6 + i)) (literalText "; Domain=") cookie.domain strBuilder
  let strBuilder ← appendOption (fun i => garbage (8 + i)) (literalText "; Path=") cookie.path strBuilder
  let strBuilder ←
    appendOption (fun i => garbage (10 + i)) (literalText "; SameSite=") cookie.sameSite strBuilder
  let strBuilder ← appendFlag (garbage 12) (literalText "; Secure") cookie.isSecure strBuilder
  appendFlag (garbage 13) (literalText "; HttpOnly") cookie.isHttpOnly strBuilder

/-- A header that is put together in a `StringBuilder`, and printed. -/
def printBuilt (garbage : Nat → Mem) (bufSize : UInt32) (header : List UInt8)
    (append : StringBuilder → Option StringBuilder) : Option (List UInt8) := do
  let strBuilder ← initStringBuilder_uint32 (garbage 0) bufSize
  let strBuilder ← strBuilder.appendString (garbage 1) header
  let strBuilder ← append strBuilder
  let line ← strBuilder.buffer.text
  return putsLine line

/-- `de3696d3_addCookie`. -/
def addCookie (garbage : Nat → Mem) (cookie : HttpCookie) : Option (List UInt8) :=
  printBuilt garbage 128 (literalText "Set-Cookie: ") (appendCookie (fun i => garbage (2 + i)) cookie)

/-- The response that is sent: the first one that is asked for. -/
def cacheResponse (cacheControl : HttpCacheControl) : Option (List UInt8) :=
  if cacheControl.mustRevalidate then some (literalText "must-revalidate")
  else if cacheControl.noCache then some (literalText "no-cache")
  else if cacheControl.noStore then some (literalText "no-store")
  else if cacheControl.noTransform then some (literalText "no-transform")
  else if cacheControl.isPublic then some (literalText "public")
  else if cacheControl.isPrivate then some (literalText "private")
  else if cacheControl.proxyRevalidate then some (literalText "proxy-revalidate")
  else none

def appendResponse (garbage : Mem) (cacheControl : HttpCacheControl) (strBuilder : StringBuilder) :
    Option StringBuilder :=
  match cacheResponse cacheControl with
  | some response => strBuilder.appendString garbage response
  | none => some strBuilder

/-- What `setCacheControl` appends to `"Cache-Control: "`. -/
def appendCacheControl (garbage : Nat → Mem) (cacheControl : HttpCacheControl)
    (strBuilder : StringBuilder) : Option StringBuilder := do
  let strBuilder ← appendResponse (garbage 0) cacheControl strBuilder
  if cacheControl.maxAge > 0 then
    appendNumber (fun i => garbage (1 + i)) (literalText ", max-age=") cacheControl.maxAge strBuilder
  else if cacheControl.sharedMaxAge > 0 then
    appendNumber (fun i => garbage (1 + i)) (literalText ", s-maxage=") cacheControl.sharedMaxAge strBuilder
  else some strBuilder

/-- `de3696d3_setCacheControl`. -/
def setCacheControl (garbage : Nat → Mem) (cacheControl : HttpCacheControl) : Option (List UInt8) :=
  printBuilt garbage STRINGBUILDER_DEFAULT_SIZE (literalText "Cache-Control: ")
    (appendCacheControl (fun i => garbage (2 + i)) cacheControl)

/-- What `setHttpAuthenticate` appends to `"WWW-Authenticate: "`. -/
def appendAuthenticate (garbage : Nat → Mem) (authType : List UInt8) (realm : Option (List UInt8))
    (strBuilder : StringBuilder) : Option StringBuilder := do
  let strBuilder ← strBuilder.appendString (garbage 0) authType
  match realm with
  | some realm => do
    let strBuilder ← strBuilder.appendString (garbage 1) (literalText " realm=\"")
    let strBuilder ← strBuilder.appendString (garbage 2) realm
    strBuilder.appendChar (garbage 3) QUOTE
  | none => some strBuilder

/-- `de3696d3_setHttpAuthenticate`. -/
def setHttpAuthenticate (garbage : Nat → Mem) (authType : List UInt8) (realm : Option (List UInt8)) :
    Option (List UInt8) :=
  printBuilt garbage 128 (literalText "WWW-Authenticate: ")
    (appendAuthenticate (fun i => garbage (2 + i)) authType realm)

/-- `de3696d3_setContentType`. -/
def setContentType (contentType : List UInt8) : List UInt8 :=
  literalText "Content-type: " ++ contentType ++ [NEW_LINE]

/-- `de3696d3_setRetryAfter`. -/
def setRetryAfter (numSeconds : UInt32) : List UInt8 :=
  literalText "Retry-After: " ++ Lib.numeral numSeconds.toNat ++ [NEW_LINE]

/-- `de3696d3_setStatusCode`. -/
def setStatusCode (statusCode : List UInt8) : List UInt8 :=
  literalText "Status: " ++ statusCode ++ [NEW_LINE]

/-- `de3696d3_closeResponseHeaders`. -/
def closeResponseHeaders : List UInt8 := [NEW_LINE]

/-! ## A program -/

/-- A call that prints a header. -/
inductive HeaderCall where
  | addCookie (cookie : HttpCookie)
  | setCacheControl (cacheControl : HttpCacheControl)
  | setContentType (contentType : List UInt8)
  | setHttpAuthenticate (authType : List UInt8) (realm : Option (List UInt8))
  | setRetryAfter (numSeconds : UInt32)
  | setStatusCode (statusCode : List UInt8)

def HeaderCall.prints (garbage : Nat → Mem) : HeaderCall → Option (List UInt8)
  | addCookie cookie => Cgi.addCookie garbage cookie
  | setCacheControl cacheControl => Cgi.setCacheControl garbage cacheControl
  | setContentType contentType => some (Cgi.setContentType contentType)
  | setHttpAuthenticate authType realm => Cgi.setHttpAuthenticate garbage authType realm
  | setRetryAfter numSeconds => some (Cgi.setRetryAfter numSeconds)
  | setStatusCode statusCode => some (Cgi.setStatusCode statusCode)

/-- What a program prints that makes these calls, and closes the headers. -/
def printHeaders (garbage : Nat → Nat → Mem) : List HeaderCall → Option (List UInt8)
  | [] => some closeResponseHeaders
  | call :: calls => do
    let line ← call.prints (garbage 0)
    let lines ← printHeaders (fun i => garbage (i + 1)) calls
    return line ++ lines

end DevopsBroker.Cgi
