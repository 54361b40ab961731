import Mathlib.Data.List.TakeWhile
import DevopsBroker.Cgi.HttpResponse
import DevopsBroker.Lang.StringBuilderWrites
import DevopsBroker.Lib.Lines

/-!
# Headers that are printed are read back

A reader takes the lines in front of the first empty one for headers, each of them a name and a value
with a colon and a space between them. **`printHeaders_reads_iff`**: it finds the headers of the calls,
and what is printed behind them, if and only if each of them fits into its builder, and has no line feed.
A cookie that is read back is the one that was added, but for what `Max-Age` takes precedence over.
-/

namespace DevopsBroker.Cgi

open DevopsBroker.Lang DevopsBroker.Lang.StringBuilder DevopsBroker.Lib

/-! ## What is appended -/

/-- `: `. -/
def COLON_SPACE : List UInt8 := [0x3A, 0x20]

def SEMICOLON : UInt8 := 0x3B

/-- An attribute, unless it is `NULL`. -/
def labelled (text : List UInt8) (value : Option (List UInt8)) : List (List UInt8) :=
  (value.map (text ++ ·)).toList

/-- What a cookie says of itself. -/
def HttpCookie.attributes (cookie : HttpCookie) : List (List UInt8) :=
  (if 0 < cookie.maxAge then [literalText "Max-Age=" ++ numeral cookie.maxAge.toNat]
    else labelled (literalText "Expires=") cookie.expires) ++
  labelled (literalText "Domain=") cookie.domain ++ labelled (literalText "Path=") cookie.path ++
  labelled (literalText "SameSite=") cookie.sameSite ++
  (if cookie.isSecure then [literalText "Secure"] else []) ++
  (if cookie.isHttpOnly then [literalText "HttpOnly"] else [])

/-- Attributes, each of them behind a semicolon and a space. -/
def behindSemicolons (attributes : List (List UInt8)) : List UInt8 :=
  attributes.flatMap (SEMICOLON :: SPACE :: ·)

/-- The text of a cookie. -/
def HttpCookie.text (cookie : HttpCookie) : List UInt8 :=
  cookie.name ++ EQUALS :: cookie.value ++ behindSemicolons cookie.attributes

/-- The text of a cache control. -/
def HttpCacheControl.text (cacheControl : HttpCacheControl) : List UInt8 :=
  (cacheResponse cacheControl).getD [] ++
    (if 0 < cacheControl.maxAge then literalText ", max-age=" ++ numeral cacheControl.maxAge.toNat
    else if 0 < cacheControl.sharedMaxAge then
      literalText ", s-maxage=" ++ numeral cacheControl.sharedMaxAge.toNat
    else [])

/-- A way to authenticate. -/
def authenticateText (authType : List UInt8) (realm : Option (List UInt8)) : List UInt8 :=
  authType ++ (realm.map fun realm => literalText " realm=\"" ++ realm ++ [QUOTE]).getD []

theorem behindSemicolons_append (attributes more : List (List UInt8)) :
    behindSemicolons (attributes ++ more) = behindSemicolons attributes ++ behindSemicolons more :=
  List.flatMap_append

/-! ### Literals -/

/-- What is printed around the strings of a call. -/
def literals : List String :=
  ["Max-Age=", "Expires=", "Domain=", "Path=", "SameSite=", "Secure", "HttpOnly", ", max-age=",
    ", s-maxage=", " realm=\"", "Set-Cookie", "Cache-Control", "Content-type", "WWW-Authenticate",
    "Retry-After", "Status", "must-revalidate", "no-cache", "no-store", "no-transform", "public",
    "private", "proxy-revalidate"]

/-- A short text without the characters that headers and cookies are cut at. -/
structure IsPlain (text : List UInt8) : Prop where
  nul : 0 ∉ text
  semicolon : SEMICOLON ∉ text
  colon : 0x3A ∉ text
  short : text.length ≤ 16

instance (text : List UInt8) : Decidable (IsPlain text) :=
  decidable_of_iff (0 ∉ text ∧ SEMICOLON ∉ text ∧ 0x3A ∉ text ∧ text.length ≤ 16)
    ⟨fun ⟨hnul, hsemicolon, hcolon, hshort⟩ => ⟨hnul, hsemicolon, hcolon, hshort⟩,
      fun h => ⟨h.nul, h.semicolon, h.colon, h.short⟩⟩

theorem literals_plain : ∀ text ∈ literals, IsPlain (literalText text) := by
  decide +kernel

/-- What stands at both ends of a literal. -/
theorem literals_split :
    (literalText "; Max-Age=" = SEMICOLON :: SPACE :: literalText "Max-Age=" ∧
      literalText "; Expires=" = SEMICOLON :: SPACE :: literalText "Expires=" ∧
      literalText "; Domain=" = SEMICOLON :: SPACE :: literalText "Domain=" ∧
      literalText "; Path=" = SEMICOLON :: SPACE :: literalText "Path=" ∧
      literalText "; SameSite=" = SEMICOLON :: SPACE :: literalText "SameSite=" ∧
      literalText "; Secure" = SEMICOLON :: SPACE :: literalText "Secure" ∧
      literalText "; HttpOnly" = SEMICOLON :: SPACE :: literalText "HttpOnly") ∧
    (literalText "Set-Cookie: " = literalText "Set-Cookie" ++ COLON_SPACE ∧
      literalText "Cache-Control: " = literalText "Cache-Control" ++ COLON_SPACE ∧
      literalText "WWW-Authenticate: " = literalText "WWW-Authenticate" ++ COLON_SPACE ∧
      literalText "Content-type: " = literalText "Content-type" ++ COLON_SPACE ∧
      literalText "Retry-After: " = literalText "Retry-After" ++ COLON_SPACE ∧
      literalText "Status: " = literalText "Status" ++ COLON_SPACE) ∧
    (literalText "Max-Age=" = literalText "Max-Age" ++ [EQUALS] ∧
      literalText "Expires=" = literalText "Expires" ++ [EQUALS] ∧
      literalText "Domain=" = literalText "Domain" ++ [EQUALS] ∧
      literalText "Path=" = literalText "Path" ++ [EQUALS] ∧
      literalText "SameSite=" = literalText "SameSite" ++ [EQUALS]) ∧
    (literalText "Set-Cookie").length = 10 := by
  decide +kernel

/-- The names of the attributes are different ones, without a `=`. -/
theorem attributeNames_free :
    [literalText "HttpOnly", literalText "Secure", literalText "SameSite", literalText "Path",
      literalText "Domain", literalText "Expires", literalText "Max-Age"].Nodup ∧
    ∀ name ∈ ["Max-Age", "Expires", "Domain", "Path", "SameSite", "Secure", "HttpOnly"],
      EQUALS ∉ literalText name := by
  decide +kernel

theorem nul_notMem_behind {text : List UInt8} (htext : 0 ∉ text) : 0 ∉ SEMICOLON :: SPACE :: text := by
  simp only [List.mem_cons, not_or]
  exact ⟨by decide, by decide, htext⟩

section

variable (garbage : Nat → Mem)

theorem writes_appendOption {text : List UInt8} {value : Option (List UInt8)} (htext : 0 ∉ text)
    (hvalue : ∀ v ∈ value, 0 ∉ v) :
    Writes (appendOption garbage (SEMICOLON :: SPACE :: text) value)
      (behindSemicolons (labelled text value)) := by
  cases value with
  | none => exact Writes.nothing
  | some value =>
    have hwrites := (Writes.string (garbage 0) (nul_notMem_behind htext)).bind
      (Writes.string (garbage 1) (hvalue value rfl))
    unfold labelled behindSemicolons
    simp only [Option.map_some, Option.toList_some, List.flatMap_cons, List.flatMap_nil, List.append_nil]
    exact hwrites

theorem writes_appendNumber {text : List UInt8} (htext : 0 ∉ text) (value : UInt32) :
    Writes (appendNumber garbage text value) (text ++ numeral value.toNat) :=
  (Writes.string (garbage 0) htext).bind (Writes.uint (garbage 1) (garbage 2) value)

theorem writes_appendFlag {text : List UInt8} (htext : 0 ∉ text) (garbage : Mem) (flag : Bool) :
    Writes (appendFlag garbage (SEMICOLON :: SPACE :: text) flag)
      (behindSemicolons (if flag then [text] else [])) := by
  cases flag with
  | false => exact Writes.nothing
  | true =>
    unfold behindSemicolons
    simp only [if_true, List.flatMap_cons, List.flatMap_nil, List.append_nil]
    exact Writes.string garbage (nul_notMem_behind htext)

/-- The strings of a cookie. -/
def HttpCookie.strings (cookie : HttpCookie) : List (List UInt8) :=
  [cookie.name, cookie.value] ++ cookie.expires.toList ++ cookie.domain.toList ++ cookie.path.toList ++
    cookie.sameSite.toList

theorem writes_appendCookie {cookie : HttpCookie} (h : ∀ string ∈ cookie.strings, 0 ∉ string) :
    Writes (appendCookie garbage cookie) cookie.text := by
  obtain ⟨hmaxAge, hexpires, hdomain, hpath, hsameSite, hsecure, hhttpOnly⟩ := literals_split.1
  simp only [HttpCookie.strings, List.mem_append, Option.mem_toList, List.mem_cons, List.not_mem_nil, or_false,
    or_imp, forall_and, forall_eq] at h
  obtain ⟨⟨⟨⟨⟨hname, hvalue⟩, hexp⟩, hdom⟩, hpat⟩, hsame⟩ := h
  have hlifetime : Writes (appendLifetime (fun i => garbage (3 + i)) cookie)
      (behindSemicolons (if 0 < cookie.maxAge then [literalText "Max-Age=" ++ numeral cookie.maxAge.toNat]
        else labelled (literalText "Expires=") cookie.expires)) := by
    rw [apply_ite behindSemicolons]
    refine Writes.cond (fun _ => ?_) fun _ => ?_
    · have hwrites := writes_appendNumber (fun i => garbage (3 + i))
        (hmaxAge ▸ nul_notMem_behind (literals_plain "Max-Age=" (by simp [literals])).nul) cookie.maxAge
      simp only [hmaxAge] at hwrites ⊢
      simpa [behindSemicolons] using hwrites
    · rw [hexpires]
      exact writes_appendOption _ (literals_plain _ (by simp [literals])).nul hexp
  have hall := (Writes.string (garbage 0) hname).bind <|
    (Writes.char (garbage 1) (by decide : EQUALS ≠ 0)).bind <|
    (Writes.string (garbage 2) hvalue).bind <| hlifetime.bind <|
    (writes_appendOption (fun i => garbage (6 + i))
      (literals_plain "Domain=" (by simp [literals])).nul hdom).bind <|
    (writes_appendOption (fun i => garbage (8 + i))
      (literals_plain "Path=" (by simp [literals])).nul hpat).bind <|
    (writes_appendOption (fun i => garbage (10 + i))
      (literals_plain "SameSite=" (by simp [literals])).nul hsame).bind <|
    (writes_appendFlag (literals_plain "Secure" (by simp [literals])).nul (garbage 12) cookie.isSecure).bind <|
    writes_appendFlag (literals_plain "HttpOnly" (by simp [literals])).nul (garbage 13) cookie.isHttpOnly
  rw [← hdomain, ← hpath, ← hsameSite, ← hsecure, ← hhttpOnly] at hall
  unfold HttpCookie.text HttpCookie.attributes
  simp only [behindSemicolons_append, List.append_assoc, List.cons_append]
  exact hall

/-- There are seven responses. -/
theorem cacheResponse_plain {cacheControl : HttpCacheControl} : ∀ response,
    cacheResponse cacheControl = some response → IsPlain response := by
  intro response hresponse
  unfold cacheResponse at hresponse
  split_ifs at hresponse <;> cases hresponse <;> exact literals_plain _ (by simp [literals])

theorem writes_appendCacheControl (cacheControl : HttpCacheControl) :
    Writes (appendCacheControl garbage cacheControl) cacheControl.text := by
  have hresponse : Writes (appendResponse (garbage 0) cacheControl) ((cacheResponse cacheControl).getD []) := by
    unfold appendResponse
    cases hresponse : cacheResponse cacheControl with
    | none => exact Writes.nothing
    | some response => exact Writes.string (garbage 0) (cacheResponse_plain response hresponse).nul
  refine hresponse.bind (Writes.cond (fun _ => ?_) fun _ => Writes.cond (fun _ => ?_) fun _ => ?_)
  · exact writes_appendNumber _ (literals_plain _ (by simp [literals])).nul _
  · exact writes_appendNumber _ (literals_plain _ (by simp [literals])).nul _
  · exact Writes.nothing

theorem writes_appendAuthenticate {authType : List UInt8} {realm : Option (List UInt8)}
    (hauthType : 0 ∉ authType) (hrealm : ∀ string ∈ realm, 0 ∉ string) :
    Writes (appendAuthenticate garbage authType realm) (authenticateText authType realm) := by
  refine (Writes.string (garbage 0) hauthType).bind ?_
  cases realm with
  | none => exact Writes.nothing
  | some realm =>
    have hwrites := (Writes.string (garbage 1) (literals_plain " realm=\"" (by simp [literals])).nul).bind <|
      (Writes.string (garbage 2) (hrealm realm rfl)).bind
        (Writes.char (garbage 3) (by decide : QUOTE ≠ 0))
    rw [Option.map_some, Option.getD_some, List.append_assoc]
    exact hwrites

end

/-! ## What a call prints -/

namespace HeaderCall

/-- The header of a call. -/
def field : HeaderCall → List UInt8 × List UInt8
  | addCookie cookie => (literalText "Set-Cookie", cookie.text)
  | setCacheControl cacheControl => (literalText "Cache-Control", cacheControl.text)
  | setContentType contentType => (literalText "Content-type", contentType)
  | setHttpAuthenticate authType realm => (literalText "WWW-Authenticate", authenticateText authType realm)
  | setRetryAfter numSeconds => (literalText "Retry-After", numeral numSeconds.toNat)
  | setStatusCode statusCode => (literalText "Status", statusCode)

/-- Its line. -/
def text (call : HeaderCall) : List UInt8 := call.field.1 ++ COLON_SPACE ++ call.field.2

/-- The strings that a call is given. -/
def strings : HeaderCall → List (List UInt8)
  | addCookie cookie => cookie.strings
  | setCacheControl _ => []
  | setContentType contentType => [contentType]
  | setHttpAuthenticate authType realm => authType :: realm.toList
  | setRetryAfter _ => []
  | setStatusCode statusCode => [statusCode]

/-- The line is built in a builder that is large enough, or is printed as it is. -/
def Fits (call : HeaderCall) : Prop :=
  match call with
  | addCookie _ => call.text.length ≤ 255
  | setHttpAuthenticate _ _ => call.text.length ≤ 255
  | _ => True

/-- A header that is built: the head is a name, and what is behind it is its value. -/
theorem printBuilt_exactly (garbage : Nat → Mem) {size : UInt32} {head name source : List UInt8}
    {append : StringBuilder → Option StringBuilder} (h : Writes append source)
    (hhead : head = name ++ COLON_SPACE) (hlt : head.length < size.toNat) (hnul : 0 ∉ head)
    (hsmall : size.toNat + source.length < 2 ^ 30) :
    Exactly ((name ++ COLON_SPACE ++ source).length < room size.toNat)
      (fun line => line = putsLine (name ++ COLON_SPACE ++ source))
      (printBuilt garbage size head append) := by
  have hpos : 0 < head.length := by
    rw [hhead, List.length_append]
    exact Nat.add_pos_right _ (by decide)
  have hline := h.line (garbage 0) (garbage 1) hpos hlt hnul hsmall
  have hprint : printBuilt garbage size head append =
      (((initStringBuilder_uint32 (garbage 0) size).bind fun b =>
        (b.appendString (garbage 1) head).bind fun b =>
          (append b).bind fun b => b.buffer.text)).map putsLine := by
    unfold printBuilt
    simp only [Option.bind_eq_bind, Option.map_eq_bind, Option.bind_assoc]
    rfl
  rw [hprint, hline, hhead, ← List.length_append]
  split
  next hroom => exact ⟨fun _ => ⟨_, rfl, rfl⟩, fun hno => absurd hroom hno⟩
  next hno => exact ⟨fun hroom => absurd hroom hno, fun _ => rfl⟩

/-- There is always room for a cache control. -/
theorem length_cacheControl_lt (cacheControl : HttpCacheControl) : cacheControl.text.length < 64 := by
  have hnumeral : ∀ value : UInt32, (numeral value.toNat).length ≤ 10 := fun value =>
    numeral_length_le (k := 9) (Nat.lt_trans value.toNat_lt (by decide))
  have hresponse : ((cacheResponse cacheControl).getD []).length ≤ 16 := by
    cases hsome : cacheResponse cacheControl with
    | none => exact Nat.zero_le _
    | some response => exact (cacheResponse_plain response hsome).short
  have hmaxAge := (literals_plain ", max-age=" (by simp [literals])).short
  have hshared := (literals_plain ", s-maxage=" (by simp [literals])).short
  have hage := hnumeral cacheControl.maxAge
  have hsharedAge := hnumeral cacheControl.sharedMaxAge
  unfold HttpCacheControl.text
  rw [List.length_append]
  split_ifs <;> simp only [List.length_append, List.length_nil] <;> omega

/-- The head of a line. -/
theorem head_plain {name : List UInt8} (h : IsPlain name) :
    (name ++ COLON_SPACE).length < 64 ∧ 0 ∉ name ++ COLON_SPACE := by
  have hshort := h.short
  have hcolon : COLON_SPACE.length = 2 := rfl
  rw [List.length_append, List.mem_append, not_or]
  exact ⟨by omega, h.nul, by decide⟩

/-- **What a call prints.** -/
theorem prints_exactly (garbage : Nat → Mem) {call : HeaderCall} (h : ∀ string ∈ call.strings, 0 ∉ string)
    (hsmall : call.text.length < 2 ^ 29) :
    Exactly call.Fits (fun line => line = putsLine call.text) (call.prints garbage) := by
  obtain ⟨hcookie, hcache, hauthenticate, htype, hretry, hstatus⟩ := literals_split.2.1
  have hsize : (128 : UInt32).toNat = 128 := rfl
  have hsize' : STRINGBUILDER_DEFAULT_SIZE.toNat = 64 := rfl
  have hroom : room (128 : UInt32).toNat = 256 := rfl
  have hroom' : room STRINGBUILDER_DEFAULT_SIZE.toNat = 128 := rfl
  have hvalue : call.field.2.length < 2 ^ 29 := by
    refine Nat.lt_of_le_of_lt ?_ hsmall
    rw [text, List.length_append]
    exact Nat.le_add_left _ _
  have hhead {text : String} (htext : text ∈ literals) := head_plain (literals_plain text htext)
  cases call with
  | addCookie cookie =>
    obtain ⟨hlt, hnul⟩ := hhead (by simp [literals] : "Set-Cookie" ∈ literals)
    have hprints := printBuilt_exactly garbage (writes_appendCookie (fun i => garbage (2 + i)) h) hcookie
      (by rw [hcookie]; omega : _ < (128 : UInt32).toNat) (by rw [hcookie]; exact hnul)
      (by dsimp only [field] at hvalue; omega)
    exact hprints.cond (by rw [hroom, Nat.lt_succ_iff]; rfl)
  | setCacheControl cacheControl =>
    have hshort := length_cacheControl_lt cacheControl
    obtain ⟨hlt, hnul⟩ := hhead (by simp [literals] : "Cache-Control" ∈ literals)
    have hprints := printBuilt_exactly garbage
      (writes_appendCacheControl (fun i => garbage (2 + i)) cacheControl) hcache
      (by rw [hcache]; exact hlt : _ < STRINGBUILDER_DEFAULT_SIZE.toNat) (by rw [hcache]; exact hnul)
      (by dsimp only [field] at hvalue; omega)
    refine hprints.cond (iff_of_true ?_ trivial)
    rw [hroom', List.length_append]
    omega
  | setHttpAuthenticate authType realm =>
    have hwrites := writes_appendAuthenticate (fun i => garbage (2 + i))
      (h authType List.mem_cons_self) fun string hstring =>
        h string (List.mem_cons_of_mem _ (Option.mem_toList.mpr hstring))
    obtain ⟨hlt, hnul⟩ := hhead (by simp [literals] : "WWW-Authenticate" ∈ literals)
    have hprints := printBuilt_exactly garbage hwrites hauthenticate
      (by rw [hauthenticate]; omega : _ < (128 : UInt32).toNat) (by rw [hauthenticate]; exact hnul)
      (by dsimp only [field] at hvalue; omega)
    exact hprints.cond (by rw [hroom, Nat.lt_succ_iff]; rfl)
  | setContentType contentType => exact Exactly.some (by rw [Cgi.setContentType, htype]; rfl)
  | setRetryAfter numSeconds => exact Exactly.some (by rw [Cgi.setRetryAfter, hretry]; rfl)
  | setStatusCode statusCode => exact Exactly.some (by rw [Cgi.setStatusCode, hstatus]; rfl)

/-- **What a program prints**: the lines of its calls, and an empty one. -/
theorem printHeaders_exactly (calls : List HeaderCall) (h : ∀ call ∈ calls, ∀ string ∈ call.strings, 0 ∉ string)
    (hsmall : ∀ call ∈ calls, call.text.length < 2 ^ 29) :
    ∀ garbage : Nat → Nat → Mem, Exactly (∀ call ∈ calls, call.Fits)
      (fun head => head = joinLines NEW_LINE (calls.map text) [NEW_LINE]) (printHeaders garbage calls) := by
  induction calls with
  | nil =>
    intro garbage
    exact ⟨fun _ => ⟨_, rfl, rfl⟩, fun hno => absurd (List.forall_mem_nil _) hno⟩
  | cons call calls ih =>
    intro garbage
    obtain ⟨hcall, hcalls⟩ := List.forall_mem_cons.mp h
    obtain ⟨hlt, hlts⟩ := List.forall_mem_cons.mp hsmall
    rw [List.forall_mem_cons]
    refine (prints_exactly (garbage 0) hcall hlt).bind fun line hline =>
      (ih hcalls hlts _).bind_pure fun lines hlines => ?_
    rw [hline, hlines, List.map_cons, joinLines_cons, putsLine, List.append_assoc]
    rfl

end HeaderCall

/-! ## Reading -/

/-- A line as a header: what is in front of the first colon, and what is behind it and a space. -/
def readField (line : List UInt8) : List UInt8 × List UInt8 :=
  (line.takeWhile (· ≠ 0x3A), (line.dropWhile (· ≠ 0x3A)).drop 2)

/-- The headers up to an empty line, and what is behind it. -/
def readHeaders (stream : List UInt8) : List (List UInt8 × List UInt8) × List UInt8 :=
  let pieces := stream.splitOn NEW_LINE
  ((pieces.takeWhile (· ≠ [])).map readField, [NEW_LINE].intercalate (pieces.dropWhile (· ≠ [])).tail)

/-- Lines that are not empty, and an empty one, are read. -/
theorem readHeaders_joinLines {lines : List (List UInt8)} (hlines : ∀ line ∈ lines, NEW_LINE ∉ line)
    (hne : ∀ line ∈ lines, line ≠ []) (body : List UInt8) :
    readHeaders (joinLines NEW_LINE lines (NEW_LINE :: body)) = (lines.map readField, body) := by
  have hsplit : (NEW_LINE :: body).splitOn NEW_LINE = [] :: body.splitOn NEW_LINE :=
    List.splitOn_append_cons_self_of_not_mem List.not_mem_nil body
  have htake : ∀ line ∈ lines, decide (line ≠ []) = true := fun line hline => decide_eq_true (hne line hline)
  unfold readHeaders
  rw [splitOn_joinLines NEW_LINE hlines, hsplit]
  simp only [List.takeWhile_append_of_pos htake, List.dropWhile_append_of_pos htake, ne_eq,
    not_true_eq_false, decide_false, List.takeWhile_cons_of_neg, List.dropWhile_cons_of_neg,
    Bool.false_eq_true, not_false_eq_true, List.append_nil, List.tail_cons, List.intercalate_splitOn]

/-- A reader that finds nothing behind an empty line has found all lines. -/
theorem count_of_readHeaders {stream : List UInt8} {fields : List (List UInt8 × List UInt8)}
    (h : readHeaders stream = (fields, [])) : stream.count NEW_LINE ≤ fields.length + 1 := by
  obtain ⟨lines, tail, hstream, hlines, htail⟩ := exists_joinLines NEW_LINE stream
  have hcount : stream.count NEW_LINE = lines.length := by
    rw [hstream, count_joinLines NEW_LINE hlines htail]
  have hpieces : (stream.splitOn NEW_LINE).length = lines.length + 1 := by
    rw [hstream, splitOn_joinLines NEW_LINE hlines, List.splitOn_eq_singleton htail, List.length_append]
    rfl
  obtain ⟨hfields, hrest⟩ := Prod.mk.inj h
  have hsplit := congrArg List.length
    (List.takeWhile_append_dropWhile (p := fun piece => decide (piece ≠ [])) (l := stream.splitOn NEW_LINE))
  have hlength := congrArg List.length hfields
  rw [List.length_map] at hlength
  rw [List.length_append] at hsplit
  have hbehind : ((stream.splitOn NEW_LINE).dropWhile (· ≠ [])).tail.length ≤ 1 := by
    generalize ((stream.splitOn NEW_LINE).dropWhile (· ≠ [])).tail = behind at hrest
    match behind, hrest with
    | [], _ => exact Nat.zero_le 1
    | [_], _ => exact Nat.le_refl 1
    | first :: second :: behind, hrest =>
      rw [List.intercalate_cons_cons] at hrest
      simp at hrest
  rw [List.length_tail] at hbehind
  omega

/-- A header line is read as its name and its value. -/
theorem HeaderCall.readField_text (call : HeaderCall) : readField call.text = call.field := by
  have hname : 0x3A ∉ call.field.1 := by
    cases call <;> exact (literals_plain _ (by simp [literals])).colon
  have hpass : ∀ c ∈ call.field.1, decide (c ≠ 0x3A) = true := fun c hc =>
    decide_eq_true fun heq => hname (heq ▸ hc)
  unfold readField text COLON_SPACE
  rw [List.append_assoc, List.takeWhile_append_of_pos hpass, List.dropWhile_append_of_pos hpass]
  simp

theorem HeaderCall.text_ne_nil (call : HeaderCall) : call.text ≠ [] := by
  unfold text COLON_SPACE
  simp

/-- **The headers are read back, with what is printed behind them**, exactly when they fit, and none of
them has a line feed. -/
theorem printHeaders_reads_iff {calls : List HeaderCall}
    (h : ∀ call ∈ calls, ∀ string ∈ call.strings, 0 ∉ string)
    (hsmall : ∀ call ∈ calls, call.text.length < 2 ^ 29) (garbage : Nat → Nat → Mem) :
    (∃ head, printHeaders garbage calls = some head ∧
        ∀ body, readHeaders (head ++ body) = (calls.map HeaderCall.field, body)) ↔
      ∀ call ∈ calls, call.Fits ∧ NEW_LINE ∉ call.text := by
  have hprints := HeaderCall.printHeaders_exactly calls h hsmall garbage
  constructor
  · rintro ⟨head, hprint, hreads⟩
    obtain ⟨hfits, rfl⟩ := hprints.of_some hprint
    have hread := hreads []
    rw [List.append_nil] at hread
    have hcount := count_of_readHeaders hread
    rw [List.length_map] at hcount
    have hfree : ∀ line ∈ calls.map HeaderCall.text, NEW_LINE ∉ line :=
      @free_of_count_joinLines _ NEW_LINE _ _ [NEW_LINE] (by simpa using hcount)
    exact fun call hcall => ⟨hfits call hcall, hfree _ (List.mem_map_of_mem hcall)⟩
  · intro hall
    obtain ⟨head, hprint, rfl⟩ := hprints.comes fun call hcall => (hall call hcall).1
    refine ⟨_, hprint, fun body => ?_⟩
    rw [joinLines_tail]
    refine (readHeaders_joinLines ?_ ?_ body).trans ?_
    · intro line hline
      obtain ⟨call, hcall, rfl⟩ := List.mem_map.mp hline
      exact (hall call hcall).2
    · intro line hline
      obtain ⟨call, _, rfl⟩ := List.mem_map.mp hline
      exact call.text_ne_nil
    · rw [List.map_map]
      exact congrArg (·, body) (List.map_congr_left fun call _ => call.readField_text)

/-- The head of a page: `Status: 200 OK`, and `Content-type: text/html`. -/
def pageCalls : List HeaderCall :=
  [.setStatusCode (literalText "200 OK"), .setContentType (literalText "text/html")]

theorem printHeaders_reads_iff_page :
    (∃ head, printHeaders (fun _ _ _ => 0) pageCalls = some head ∧
        ∀ body, readHeaders (head ++ body) = (pageCalls.map HeaderCall.field, body)) ↔
      ∀ call ∈ pageCalls, call.Fits ∧ NEW_LINE ∉ call.text :=
  printHeaders_reads_iff (by decide +kernel) (by decide +kernel) fun _ _ _ => 0

/-! ## A cookie -/

/-- What an attribute sets. -/
def withAttribute (cookie : HttpCookie) (name value : List UInt8) : HttpCookie :=
  if name = literalText "Max-Age" then { cookie with maxAge := UInt32.ofNat (decimal value) }
  else if name = literalText "Expires" then { cookie with expires := some value }
  else if name = literalText "Domain" then { cookie with domain := some value }
  else if name = literalText "Path" then { cookie with path := some value }
  else if name = literalText "SameSite" then { cookie with sameSite := some value }
  else if name = literalText "Secure" then { cookie with isSecure := true }
  else if name = literalText "HttpOnly" then { cookie with isHttpOnly := true }
  else cookie

/-- A name and a value, at the first `=`. -/
def readPair (piece : List UInt8) : List UInt8 × List UInt8 :=
  (piece.takeWhile (· ≠ EQUALS), (piece.dropWhile (· ≠ EQUALS)).drop 1)

/-- An attribute behind a space. -/
def readAttribute (cookie : HttpCookie) (piece : List UInt8) : HttpCookie :=
  withAttribute cookie (readPair (piece.drop 1)).1 (readPair (piece.drop 1)).2

/-- A cookie of a name and a value. -/
def bareCookie (pair : List UInt8 × List UInt8) : HttpCookie :=
  ⟨pair.1, pair.2, none, none, none, none, 0, false, false⟩

/-- The value of a `Set-Cookie` header. -/
def readCookie (text : List UInt8) : HttpCookie :=
  let pieces := text.splitOn SEMICOLON
  pieces.tail.foldl readAttribute (bareCookie (readPair (pieces.headD [])))

/-- A cookie as it is shown: without `Expires` next to `Max-Age`. -/
def HttpCookie.shown (cookie : HttpCookie) : HttpCookie :=
  { cookie with expires := if 0 < cookie.maxAge then none else cookie.expires }

theorem readPair_eq {name : List UInt8} (h : EQUALS ∉ name) (value : List UInt8) :
    readPair (name ++ EQUALS :: value) = (name, value) := by
  have hpass : ∀ c ∈ name, decide (c ≠ EQUALS) = true := fun c hc => decide_eq_true fun heq => h (heq ▸ hc)
  unfold readPair
  rw [List.takeWhile_append_of_pos hpass, List.dropWhile_append_of_pos hpass]
  simp

/-- Pieces, each of them behind a separator. -/
theorem splitOn_behind {sep : UInt8} {pieces : List (List UInt8)} (hpieces : ∀ piece ∈ pieces, sep ∉ piece) :
    ∀ {front : List UInt8}, sep ∉ front →
      (front ++ pieces.flatMap (sep :: ·)).splitOn sep = front :: pieces := by
  induction pieces with
  | nil =>
    intro front hfront
    rw [List.flatMap_nil, List.append_nil]
    exact List.splitOn_eq_singleton hfront
  | cons piece pieces ih =>
    intro front hfront
    obtain ⟨hpiece, hpieces⟩ := List.forall_mem_cons.mp hpieces
    rw [List.flatMap_cons, List.cons_append, List.splitOn_append_cons_self_of_not_mem hfront,
      ih hpieces hpiece]

/-- The strings of what is read have no semicolon. -/
def HttpCookie.Free (cookie : HttpCookie) : Prop :=
  EQUALS ∉ cookie.name ∧ ∀ string ∈ cookie.strings, SEMICOLON ∉ string

theorem free_withAttribute {cookie : HttpCookie} (h : cookie.Free) (name : List UInt8) {value : List UInt8}
    (hvalue : SEMICOLON ∉ value) : (withAttribute cookie name value).Free := by
  unfold HttpCookie.Free HttpCookie.strings at h ⊢
  unfold withAttribute
  split_ifs <;> simp_all [or_imp, forall_and]

section

variable (cookie : HttpCookie)

theorem readAttribute_label {label name : List UInt8} (hlabel : label = name ++ [EQUALS]) (hname : EQUALS ∉ name)
    (value : List UInt8) :
    readAttribute cookie (SPACE :: (label ++ value)) = withAttribute cookie name value := by
  unfold readAttribute
  rw [List.drop_one, List.tail_cons, hlabel, List.append_assoc, List.singleton_append, readPair_eq hname]

theorem readAttribute_flag {name : List UInt8} (hname : EQUALS ∉ name) :
    readAttribute cookie (SPACE :: name) = withAttribute cookie name [] := by
  have hpass : ∀ c ∈ name, decide (c ≠ EQUALS) = true := fun c hc =>
    decide_eq_true fun heq => hname (heq ▸ hc)
  have htake : name.takeWhile (· ≠ EQUALS) = name := List.takeWhile_eq_self_iff.mpr hpass
  have hdrop : name.dropWhile (· ≠ EQUALS) = [] := List.dropWhile_eq_nil_iff.mpr hpass
  unfold readAttribute readPair
  rw [List.drop_one, List.tail_cons, htake, hdrop]
  rfl

theorem foldl_labelled {label name : List UInt8} (hlabel : label = name ++ [EQUALS]) (hname : EQUALS ∉ name)
    (value : Option (List UInt8)) :
    ((labelled label value).map (SPACE :: ·)).foldl readAttribute cookie =
      (value.map (withAttribute cookie name)).getD cookie := by
  cases value with
  | none => rfl
  | some value => exact readAttribute_label cookie hlabel hname value

theorem foldl_flag {name : List UInt8} (hname : EQUALS ∉ name) (flag : Bool) :
    ((if flag then [name] else []).map (SPACE :: ·)).foldl readAttribute cookie =
      if flag then withAttribute cookie name [] else cookie := by
  cases flag with
  | false => rfl
  | true => exact readAttribute_flag cookie hname

/-- What each of the seven attributes sets. -/
theorem withAttribute_eq (value : List UInt8) :
    withAttribute cookie (literalText "Max-Age") value =
        { cookie with maxAge := UInt32.ofNat (decimal value) } ∧
      withAttribute cookie (literalText "Expires") value = { cookie with expires := some value } ∧
      withAttribute cookie (literalText "Domain") value = { cookie with domain := some value } ∧
      withAttribute cookie (literalText "Path") value = { cookie with path := some value } ∧
      withAttribute cookie (literalText "SameSite") value = { cookie with sameSite := some value } ∧
      withAttribute cookie (literalText "Secure") value = { cookie with isSecure := true } ∧
      withAttribute cookie (literalText "HttpOnly") value = { cookie with isHttpOnly := true } := by
  have hdistinct := attributeNames_free.1
  simp only [List.nodup_cons, List.mem_cons, List.not_mem_nil, not_or, or_false, not_false_eq_true,
    List.nodup_nil, and_true] at hdistinct
  obtain ⟨h₁, h₂, h₃, h₄, h₅, h₆⟩ := hdistinct
  refine ⟨?_, ?_, ?_, ?_, ?_, ?_, ?_⟩ <;> simp only [withAttribute, h₁, h₂, h₃, h₄, h₅, h₆, if_true, if_false]

end

/-- The attributes, read one after the other. -/
theorem foldl_attributes (cookie : HttpCookie) :
    (cookie.attributes.map (SPACE :: ·)).foldl readAttribute (bareCookie (cookie.name, cookie.value)) =
      cookie.shown := by
  have hfree := attributeNames_free.2
  simp only [List.forall_mem_cons] at hfree
  obtain ⟨hmaxAge, hexpires, hdomain, hpath, hsameSite, hsecure, hhttpOnly, _⟩ := hfree
  obtain ⟨lmaxAge, lexpires, ldomain, lpath, lsameSite⟩ := literals_split.2.2.1
  obtain ⟨name, value, expires, domain, path, sameSite, maxAge, isSecure, isHttpOnly⟩ := cookie
  have hlifetime : ((if 0 < maxAge then [literalText "Max-Age=" ++ numeral maxAge.toNat]
      else labelled (literalText "Expires=") expires).map (SPACE :: ·)).foldl readAttribute
        (bareCookie (name, value)) =
      ⟨name, value, if 0 < maxAge then none else expires, none, none, none, maxAge, false, false⟩ := by
    split
    next hpos =>
      rw [List.map_singleton, List.foldl_cons, List.foldl_nil, readAttribute_label _ lmaxAge hmaxAge,
        (withAttribute_eq _ _).1, decimal_numeral, UInt32.ofNat_toNat]
      rfl
    next hzero =>
      have hzero' : maxAge = 0 := UInt32.toNat_inj.mp (Nat.eq_zero_of_not_pos hzero)
      rw [foldl_labelled _ lexpires hexpires, hzero']
      cases expires with
      | none => rfl
      | some expires => exact (withAttribute_eq _ expires).2.1
  unfold HttpCookie.attributes
  simp only [List.map_append, List.foldl_append, hlifetime, foldl_labelled _ ldomain hdomain,
    foldl_labelled _ lpath hpath, foldl_labelled _ lsameSite hsameSite, foldl_flag _ hsecure,
    foldl_flag _ hhttpOnly]
  cases domain <;> cases path <;> cases sameSite <;> cases isSecure <;> cases isHttpOnly <;>
    simp only [Option.map_none, Option.map_some, Option.getD_none, Option.getD_some, withAttribute_eq,
      if_true, Bool.false_eq_true, if_false, HttpCookie.shown]

/-- What is read has no semicolon, and no `=` in its name. -/
theorem free_readCookie (text : List UInt8) : (readCookie text).Free := by
  have hpieces : ∀ piece ∈ text.splitOn SEMICOLON, SEMICOLON ∉ piece := fun piece hpiece =>
    notMem_of_mem_splitOn SEMICOLON hpiece
  have hpair : ∀ {piece : List UInt8}, SEMICOLON ∉ piece →
      SEMICOLON ∉ (readPair piece).1 ∧ SEMICOLON ∉ (readPair piece).2 := by
    intro piece hpiece
    refine ⟨fun hmem => hpiece ((List.takeWhile_sublist _).mem hmem), fun hmem => hpiece ?_⟩
    exact (List.dropWhile_sublist _).mem ((List.drop_sublist _ _).mem hmem)
  have hbare : (bareCookie (readPair ((text.splitOn SEMICOLON).headD []))).Free := by
    have hhead : SEMICOLON ∉ (text.splitOn SEMICOLON).headD [] := by
      cases hsplit : text.splitOn SEMICOLON with
      | nil => exact List.not_mem_nil
      | cons piece pieces => exact hpieces piece (hsplit ▸ List.mem_cons_self)
    refine ⟨fun hmem => ?_, ?_⟩
    · have hne := List.mem_takeWhile_imp hmem
      exact absurd hne (by simp)
    · simp only [HttpCookie.strings, bareCookie, Option.toList_none, List.append_nil, List.forall_mem_cons]
      exact ⟨(hpair hhead).1, (hpair hhead).2, List.forall_mem_nil _⟩
  have hall : ∀ pieces : List (List UInt8), (∀ piece ∈ pieces, SEMICOLON ∉ piece) →
      ∀ cookie : HttpCookie, cookie.Free → (pieces.foldl readAttribute cookie).Free := by
    intro pieces
    induction pieces with
    | nil => exact fun _ _ hfree => hfree
    | cons piece pieces ih =>
      intro hfree cookie hcookie
      obtain ⟨hpiece, hrest⟩ := List.forall_mem_cons.mp hfree
      have hdrop : SEMICOLON ∉ piece.drop 1 := fun hmem => hpiece ((List.drop_sublist _ _).mem hmem)
      exact ih hrest _ (free_withAttribute hcookie _ (hpair hdrop).2)
  exact hall _ (fun piece hpiece => hpieces piece (List.mem_of_mem_tail hpiece)) _ hbare

theorem notMem_labelled {label : List UInt8} {value : Option (List UInt8)} (hlabel : SEMICOLON ∉ label)
    (hvalue : ∀ v ∈ value, SEMICOLON ∉ v) : ∀ text ∈ labelled label value, SEMICOLON ∉ text := by
  intro text htext
  obtain ⟨v, hv, rfl⟩ := Option.map_eq_some_iff.mp (Option.mem_toList.mp htext)
  exact fun hmem => (List.mem_append.mp hmem).elim hlabel (hvalue v hv)

/-- Nor do the attributes have one. -/
theorem notMem_attributes {cookie : HttpCookie} (h : cookie.shown.Free) :
    ∀ text ∈ cookie.attributes, SEMICOLON ∉ text := by
  have hnumeral : ∀ n, SEMICOLON ∉ numeral n := fun n hmem =>
    absurd (numeral_isDecimal n SEMICOLON hmem) (by decide)
  have hstrings := h.2
  simp only [HttpCookie.strings, HttpCookie.shown, List.mem_append, Option.mem_toList, List.mem_cons,
    List.not_mem_nil, or_false, or_imp, forall_and, forall_eq] at hstrings
  obtain ⟨⟨⟨⟨_, hexpires⟩, hdomain⟩, hpath⟩, hsameSite⟩ := hstrings
  unfold HttpCookie.attributes
  simp only [List.mem_append, or_imp, forall_and]
  have hplain {text : String} (htext : text ∈ literals) : SEMICOLON ∉ literalText text :=
    (literals_plain text htext).semicolon
  refine ⟨⟨⟨⟨⟨?_, notMem_labelled (hplain (by simp [literals])) hdomain⟩,
    notMem_labelled (hplain (by simp [literals])) hpath⟩,
    notMem_labelled (hplain (by simp [literals])) hsameSite⟩, ?_⟩, ?_⟩
  · intro text htext
    split_ifs at htext hexpires with hpos
    · rw [List.mem_singleton.mp htext, List.mem_append, not_or]
      exact ⟨hplain (by simp [literals]), hnumeral _⟩
    · exact notMem_labelled (hplain (by simp [literals])) hexpires text htext
  · intro text htext
    split_ifs at htext
    · rw [List.mem_singleton.mp htext]
      exact hplain (by simp [literals])
    · exact absurd htext List.not_mem_nil
  · intro text htext
    split_ifs at htext
    · rw [List.mem_singleton.mp htext]
      exact hplain (by simp [literals])
    · exact absurd htext List.not_mem_nil

/-- **A cookie is read back** exactly when its name has no `=`, and none of its strings has a semicolon. -/
theorem readCookie_text (cookie : HttpCookie) : readCookie cookie.text = cookie.shown ↔ cookie.shown.Free := by
  constructor
  · intro h
    rw [← h]
    exact free_readCookie _
  · intro h
    have hname : EQUALS ∉ cookie.name := h.1
    have hfront : SEMICOLON ∉ cookie.name ++ EQUALS :: cookie.value := by
      simp only [List.mem_append, List.mem_cons, not_or]
      exact ⟨h.2 _ (by simp [HttpCookie.strings, HttpCookie.shown]), by decide,
        h.2 _ (by simp [HttpCookie.strings, HttpCookie.shown])⟩
    have hpieces : ∀ piece ∈ cookie.attributes.map (SPACE :: ·), SEMICOLON ∉ piece := by
      intro piece hpiece
      obtain ⟨text, htext, rfl⟩ := List.mem_map.mp hpiece
      exact List.not_mem_cons_of_ne_of_not_mem (by decide) (notMem_attributes h text htext)
    have hsplit := splitOn_behind hpieces hfront
    rw [List.flatMap_map] at hsplit
    unfold readCookie HttpCookie.text behindSemicolons
    dsimp only
    rw [hsplit, List.headD_cons, List.tail_cons, readPair_eq hname, foldl_attributes]

/-- **A cookie is added** exactly when it has 243 characters at most, and read back exactly when, beyond
that, its name has no `=`, and none of its strings has a semicolon. -/
theorem addCookie_reads_iff (garbage : Nat → Mem) {cookie : HttpCookie}
    (hnul : ∀ string ∈ cookie.strings, 0 ∉ string) (hsmall : cookie.text.length < 2 ^ 28) :
    (∃ line, addCookie garbage cookie = some line ∧
        readCookie (readField line.dropLast).2 = cookie.shown) ↔
      cookie.text.length ≤ 243 ∧ cookie.shown.Free := by
  have hhead : (literalText "Set-Cookie" ++ COLON_SPACE).length = 12 := by
    rw [List.length_append, literals_split.2.2.2]
    rfl
  have htext : (HeaderCall.addCookie cookie).text = literalText "Set-Cookie" ++ COLON_SPACE ++ cookie.text := rfl
  have hlength : (HeaderCall.addCookie cookie).text.length = 12 + cookie.text.length := by
    rw [htext, List.length_append, hhead]
  have hprints := (HeaderCall.addCookie cookie).prints_exactly garbage hnul (by omega)
  have hfits : (HeaderCall.addCookie cookie).Fits ↔ cookie.text.length ≤ 243 := by
    show (HeaderCall.addCookie cookie).text.length ≤ 255 ↔ _
    omega
  have hread : readField (putsLine (HeaderCall.addCookie cookie).text).dropLast =
      (literalText "Set-Cookie", cookie.text) := by
    rw [putsLine, List.dropLast_concat]
    exact HeaderCall.readField_text _
  rw [← hfits, ← readCookie_text]
  constructor
  · rintro ⟨line, hline, hcookie⟩
    obtain ⟨hfit, rfl⟩ := hprints.of_some hline
    rw [hread] at hcookie
    exact ⟨hfit, hcookie⟩
  · rintro ⟨hfit, hcookie⟩
    obtain ⟨line, hline, rfl⟩ := hprints.comes hfit
    exact ⟨_, hline, by rw [hread]; exact hcookie⟩

/-- `sessionid=38afes7a8; Path=/; HttpOnly`. -/
def sessionCookie : HttpCookie :=
  ⟨literalText "sessionid", literalText "38afes7a8", none, none, some (literalText "/"), none, 0, false, true⟩

theorem addCookie_reads_iff_session :
    (∃ line, addCookie (fun _ _ => 0) sessionCookie = some line ∧
        readCookie (readField line.dropLast).2 = sessionCookie.shown) ↔
      sessionCookie.text.length ≤ 243 ∧ sessionCookie.shown.Free :=
  addCookie_reads_iff (fun _ _ => 0) (by decide +kernel) (by decide +kernel)

end DevopsBroker.Cgi
