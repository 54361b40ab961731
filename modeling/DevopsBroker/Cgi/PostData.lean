import DevopsBroker.Cgi.HttpRequest
import DevopsBroker.Lang.StringBuilder

/-!
# `cgi/httprequest.c`: the data of a `POST`

`mapPostData` reads the lines of `stdin`, joins them with `&`, and treats the text as `initHttpRequest`
treats a query string.

Mirroring notes vs the C source:
- `stdin` is the bytes up to its end. A line is as `fgets` reads it, with what ends it.
- The lines are read into `queryString`, which has room for as many characters as are asked for;
  `sanitizeInput` cuts a line there.
- `none` stands for an abort, for an access outside of an object, and for no more fuel.
- `garbage` is what the buffers hold that are allocated one after the other.
-/

namespace DevopsBroker.Cgi

open DevopsBroker.Adt DevopsBroker.Lang
open DevopsBroker.Lib (Mem bytesAt)

/-- `\n`. -/
def LINE_FEED : UInt8 := 0x0A

/-- `\r`. -/
def CARRIAGE_RETURN : UInt8 := 0x0D

/-- `fgets`, of so many characters at most: what it reads, and what is left. -/
def fgets : Nat → List UInt8 → List UInt8 × List UInt8
  | 0, stream => ([], stream)
  | _, [] => ([], [])
  | count + 1, ch :: stream =>
    if ch = LINE_FEED then ([ch], stream)
    else
      let (line, stream) := fgets count stream
      (ch :: line, stream)

/-- `sanitizeInput`, of what is stored up to a `NUL`. -/
def sanitizeInput : List UInt8 → List UInt8
  | [] => []
  | ch :: string =>
    if ch = 0 then []
    else if ch = CARRIAGE_RETURN ∨ ch = LINE_FEED then []
    else ch :: sanitizeInput string

/-- `f6215943_copyToBuffer`, from one block to another: a `NUL` behind what is copied. -/
def copyToBuffer (source buffer : Block) (numBytes : Nat) : Option Block := do
  let buffer ← source.copyTo buffer numBytes
  buffer.storeByte numBytes 0

/-- `while (fgets(…) != NULL)`. -/
def readLines (garbage : Nat → Mem) (length : Nat) :
    Nat → List UInt8 → StringBuilder → Option StringBuilder
  | 0, _, _ => none
  | fuel + 1, stdin, strBuilder =>
    -- `request->length+1` is passed as an `int`
    if stdin = [] ∨ 2 ^ 31 ≤ length + 1 then some strBuilder
    else do
      let (line, stdin) := fgets length stdin
      let strBuilder ←
        if 0 < strBuilder.length then strBuilder.appendChar (garbage 0) AMPERSAND else some strBuilder
      let strBuilder ← strBuilder.appendString (garbage 1) (sanitizeInput line)
      readLines (fun i => garbage (i + 2)) length fuel stdin strBuilder

/-- `a2465172_mapPostData`: the return value, and the request. -/
def mapPostData (w : Surroundings) (garbage : Nat → Mem) (stdin : List UInt8) (request : HttpRequest) :
    Option (Int × HttpRequest) :=
  if 0 < request.length then do
    let strBuilder ← StringBuilder.initStringBuilder_uint32 (garbage 0) request.length
    let queryString ← stralloc (garbage 1) request.length.toNat
    let strBuilder ← readLines (fun i => garbage (i + 2)) request.length.toNat (stdin.length + 1) stdin
      strBuilder
    let queryString ← copyToBuffer strBuilder.buffer queryString (strBuilder.length + 1)
    let queryString ← queryString.text
    let block ← stralloc w.fresh strBuilder.length
    let string ← strBuilder.buffer.text
    let decoded ← urldecode (string ++ [0])
    let block ← block.storeBytes 0 decoded
    let request ← mapQueryString w.malloc w.strings
      { request with
        queryString := some queryString
        address := w.address
        paramStr := bytesAt block.byte 0 block.size }
    return (w.eax, request)
  else some (0, request)

end DevopsBroker.Cgi
