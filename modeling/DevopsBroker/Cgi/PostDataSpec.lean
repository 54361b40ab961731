import DevopsBroker.Cgi.PostData
import DevopsBroker.Cgi.HttpRequestSpec
import DevopsBroker.Lang.IntegerParseSpec
import DevopsBroker.Lang.StringBuilderRoom

/-!
# A `POST` is the `GET` of its lines

The text that `mapPostData` puts together is `postText`: the lines of the body up to their ends,
joined with `&`. From there on a `POST` is treated as the `GET` with this query string, where the body
is as long as it is said to be, or shorter.
-/

namespace DevopsBroker.Cgi

open DevopsBroker.Adt DevopsBroker.Lang DevopsBroker.Lang.StringBuilder DevopsBroker.Lib

/-! ## Lines -/

/-- The lines of a text. What is behind the last line feed is one if it is not empty. -/
def lines (body : List UInt8) : List (List UInt8) :=
  let pieces := body.splitOn LINE_FEED
  if pieces.getLast? = some [] then pieces.dropLast else pieces

/-- A line up to its end. -/
def trimmed (line : List UInt8) : List UInt8 := line.takeWhile (· ≠ CARRIAGE_RETURN)

/-- A line behind a text. -/
def joined (text line : List UInt8) : List UInt8 :=
  if text = [] then line else text ++ AMPERSAND :: line

/-- What a body says. -/
def postText (body : List UInt8) : List UInt8 := ((lines body).map trimmed).foldl joined []

/-- Nothing is behind the last line feed. -/
theorem lines_last {line : List UInt8} (hline : LINE_FEED ∉ line) (hne : line ≠ []) : lines line = [line] := by
  unfold lines
  rw [List.splitOn_eq_singleton hline]
  exact if_neg fun h => hne (Option.some.inj h)

theorem lines_cons {line : List UInt8} (hline : LINE_FEED ∉ line) (rest : List UInt8) :
    lines (line ++ LINE_FEED :: rest) = line :: lines rest := by
  unfold lines
  rw [List.splitOn_append_cons_self_of_not_mem hline]
  have hne := List.splitOn_ne_nil LINE_FEED rest
  dsimp only
  rw [List.getLast?_cons_of_ne_nil hne, List.dropLast_cons_of_ne_nil hne]
  split <;> rfl

/-- A text is a line, or starts with one. -/
theorem line_cases (text : List UInt8) :
    LINE_FEED ∉ text ∨ ∃ line rest, LINE_FEED ∉ line ∧ text = line ++ LINE_FEED :: rest := by
  by_cases hmem : LINE_FEED ∈ text
  · obtain ⟨line, rest, htext, hline⟩ := List.eq_append_cons_of_mem hmem
    exact Or.inr ⟨line, rest, hline, htext⟩
  · exact Or.inl hmem

theorem fgets_last {line : List UInt8} (hline : LINE_FEED ∉ line) :
    ∀ {count : Nat}, line.length ≤ count → fgets count line = (line, []) := by
  induction line with
  | nil =>
    intro count _
    cases count <;> rfl
  | cons ch line ih =>
    intro count hle
    obtain ⟨hch, hrest⟩ := List.ne_and_not_mem_of_not_mem_cons hline
    cases count with
    | zero => exact absurd hle (Nat.not_succ_le_zero _)
    | succ count =>
      rw [fgets, if_neg (Ne.symm hch), ih hrest (Nat.le_of_succ_le_succ hle)]

theorem fgets_line {line : List UInt8} (hline : LINE_FEED ∉ line) (rest : List UInt8) :
    ∀ {count : Nat}, line.length < count →
      fgets count (line ++ LINE_FEED :: rest) = (line ++ [LINE_FEED], rest) := by
  induction line with
  | nil =>
    intro count hlt
    cases count with
    | zero => exact absurd hlt (Nat.not_lt_zero _)
    | succ count => rfl
  | cons ch line ih =>
    intro count hlt
    obtain ⟨hch, hrest⟩ := List.ne_and_not_mem_of_not_mem_cons hline
    cases count with
    | zero => exact absurd hlt (Nat.not_lt_zero _)
    | succ count =>
      rw [List.cons_append, fgets, if_neg (Ne.symm hch), ih hrest (Nat.lt_of_succ_lt_succ hlt)]
      rfl

/-- `sanitizeInput` leaves a line without its end. -/
theorem sanitizeInput_line {line : List UInt8} (hnul : 0 ∉ line) (hline : LINE_FEED ∉ line)
    (rest : List UInt8) (hrest : rest = [] ∨ rest = [LINE_FEED]) :
    sanitizeInput (line ++ rest) = trimmed line := by
  induction line with
  | nil =>
    rcases hrest with rfl | rfl
    · rfl
    · rfl
  | cons ch line ih =>
    obtain ⟨hch, hline⟩ := List.ne_and_not_mem_of_not_mem_cons hline
    obtain ⟨hzero, hnul⟩ := List.ne_and_not_mem_of_not_mem_cons hnul
    rw [List.cons_append, sanitizeInput, if_neg (Ne.symm hzero), trimmed]
    by_cases hreturn : ch = CARRIAGE_RETURN
    · rw [if_pos (Or.inl hreturn), List.takeWhile_cons_of_neg (by simp [hreturn])]
    · rw [if_neg (not_or.mpr ⟨hreturn, Ne.symm hch⟩), List.takeWhile_cons_of_pos (by simp [hreturn]),
        ih hnul hline]
      rfl

/-! ## The text in the builder -/

/-- A line behind the text of the builder. -/
theorem appendLine_within (garbage garbage' : Mem) {b : StringBuilder} {text line : List UInt8}
    (h : b.Within text) (hpos : 0 < b.size) (hsmall : b.size < 2 ^ 29) (hnul : 0 ∉ line)
    (hfit : (joined text line).length ≤ b.size) :
    ∃ b', ((if 0 < b.length then b.appendChar garbage AMPERSAND else some b).bind fun b =>
        b.appendString garbage' line) = some b' ∧ b'.Within (joined text line) ∧ b'.size = b.size := by
  have hlength := h.length
  unfold joined at hfit ⊢
  by_cases hnil : text = []
  · subst hnil
    rw [List.length_nil] at hlength
    rw [if_pos rfl] at hfit ⊢
    rw [if_neg (by omega)]
    have hroom : line.length < room b.size := by
      unfold room
      omega
    exact (appendString_exactly garbage' h hnul (by omega)).comes (by omega)
  · have hsome := List.length_pos_iff.mpr hnil
    rw [if_neg hnil] at hfit ⊢
    rw [if_pos (by omega)]
    rw [List.length_append, List.length_cons] at hfit
    have hroom : 2 * b.size ≤ room b.size := by
      unfold room
      omega
    obtain ⟨b₁, hchar, hb₁, hsize₁⟩ :=
      (appendChar_exactly garbage h AMPERSAND (by omega) (by omega)).comes (by omega)
    have hlength₁ := hb₁.length
    rw [List.length_append, List.length_singleton] at hlength₁
    obtain ⟨b₂, hline, hb₂, hsize₂⟩ :=
      (appendString_exactly garbage' hb₁ hnul (by omega)).comes (by rw [hsize₁]; omega)
    rw [List.append_assoc] at hb₂
    exact ⟨b₂, by rw [hchar]; exact hline, hb₂, hsize₂.trans hsize₁⟩

/-- What is left to read fits behind a text: from the second line on there is a line feed for each
`&`. -/
def Fits (size : Nat) (text stdin : List UInt8) : Prop :=
  stdin = [] ∧ text.length ≤ size ∨
    (if text = [] then stdin.length ≤ size else text.length + 1 + stdin.length ≤ size)

theorem length_trimmed_le (line : List UInt8) : (trimmed line).length ≤ line.length :=
  (List.takeWhile_sublist _).length_le

theorem length_joined (text line : List UInt8) :
    (joined text line).length = if text = [] then line.length else text.length + 1 + line.length := by
  unfold joined
  split
  · rfl
  · rw [List.length_append, List.length_cons]
    omega

theorem Fits.length_le {size : Nat} {text : List UInt8} (h : Fits size text []) : text.length ≤ size := by
  rcases h with ⟨_, hle⟩ | hfits
  · exact hle
  · split at hfits
    next hnil =>
      rw [hnil]
      exact Nat.zero_le _
    next => omega

theorem Fits.line {size : Nat} {text stdin line : List UInt8} (h : Fits size text stdin) (hne : stdin ≠ [])
    (hle : line.length ≤ stdin.length) : stdin.length ≤ size ∧ (joined text (trimmed line)).length ≤ size := by
  have htrimmed := length_trimmed_le line
  rw [length_joined]
  rcases h with ⟨hnil, _⟩ | hfits
  · exact absurd hnil hne
  · split at hfits
    next hnil =>
      rw [if_pos hnil]
      omega
    next hsome =>
      rw [if_neg hsome]
      omega

theorem Fits.next {size : Nat} {text line rest : List UInt8}
    (h : Fits size text (line ++ LINE_FEED :: rest)) : Fits size (joined text (trimmed line)) rest := by
  have htrimmed := length_trimmed_le line
  rcases h with ⟨hnil, _⟩ | hfits
  · exact absurd hnil (List.append_ne_nil_of_right_ne_nil _ (List.cons_ne_nil _ _))
  · right
    rw [length_joined]
    rw [List.length_append, List.length_cons] at hfits
    split at hfits
    next hnil =>
      rw [if_pos hnil]
      split <;> omega
    next hsome =>
      have hjoined : joined text (trimmed line) ≠ [] := by
        rw [joined, if_neg hsome]
        exact List.append_ne_nil_of_left_ne_nil hsome _
      rw [if_neg hjoined, if_neg hsome]
      omega

/-- **All lines.** -/
theorem readLines_within (fuel : Nat) :
    ∀ {garbage : Nat → Mem} {stdin text : List UInt8} {b : StringBuilder} {size : Nat},
      stdin.length < fuel → 0 ∉ stdin → b.Within text → b.size = size → 0 < size → size < 2 ^ 29 →
      Fits size text stdin →
      ∃ b', readLines garbage size fuel stdin b = some b' ∧
        b'.Within (((lines stdin).map trimmed).foldl joined text) ∧ b'.size = size ∧
        (((lines stdin).map trimmed).foldl joined text).length ≤ size := by
  induction fuel with
  | zero => exact fun hfuel => absurd hfuel (Nat.not_lt_zero _)
  | succ fuel ih =>
    intro garbage stdin text b size hfuel hnul h hsize hpos hsmall hfits
    by_cases hnil : stdin = []
    · subst hnil
      exact ⟨b, by rw [readLines, if_pos (Or.inl rfl)], h, hsize, hfits.length_le⟩
    have hsome := List.length_pos_iff.mpr hnil
    -- a line is read, and put behind the text
    have hround : ∀ line stdin', 0 ∉ line → line.length ≤ stdin.length →
        fgets size stdin = (stdin', (fgets size stdin).2) → sanitizeInput stdin' = trimmed line →
        ∃ b₁, b₁.Within (joined text (trimmed line)) ∧ b₁.size = size ∧
          readLines garbage size (fuel + 1) stdin b =
            readLines (fun i => garbage (i + 2)) size fuel (fgets size stdin).2 b₁ := by
      intro line stdin' hline hle hread hclean
      have htrimmed : 0 ∉ trimmed line := fun hmem => hline ((List.takeWhile_sublist _).mem hmem)
      obtain ⟨b₁, happend, hb₁, hsize₁⟩ := appendLine_within (garbage 0) (garbage 1) h (by omega)
        (by omega) htrimmed (by rw [hsize]; exact (hfits.line hnil hle).2)
      refine ⟨b₁, hb₁, hsize₁.trans hsize, ?_⟩
      rw [readLines, if_neg (by simp only [hnil, false_or]; omega), hread]
      dsimp only
      rw [hclean]
      by_cases hbehind : 0 < b.length
      · rw [if_pos hbehind] at happend ⊢
        simp only [Option.bind_eq_bind]
        rw [← Option.bind_assoc, happend, Option.bind_some]
      · rw [if_neg hbehind, Option.bind_some] at happend
        rw [if_neg hbehind]
        simp only [Option.bind_eq_bind, Option.bind_some, happend]
    rcases line_cases stdin with hlast | ⟨line, rest, hline, rfl⟩
    · have hread := fgets_last hlast (hfits.line hnil (Nat.le_refl _)).1
      have hclean := sanitizeInput_line hnul hlast [] (Or.inl rfl)
      rw [List.append_nil] at hclean
      obtain ⟨b₁, hb₁, hsize₁, hstep⟩ :=
        hround stdin stdin hnul (Nat.le_refl _) (by rw [hread]) hclean
      rw [hstep, hread, lines_last hlast hnil]
      exact ih (by rw [List.length_nil]; omega) List.not_mem_nil hb₁ hsize₁ hpos hsmall
        (Or.inl ⟨rfl, (hfits.line hnil (Nat.le_refl _)).2⟩)
    · rw [List.mem_append, List.mem_cons, not_or, not_or] at hnul
      have hle : line.length ≤ (line ++ LINE_FEED :: rest).length := by
        rw [List.length_append]
        exact Nat.le_add_right _ _
      have hlength : (line ++ LINE_FEED :: rest).length = line.length + rest.length + 1 := by
        rw [List.length_append, List.length_cons]
        omega
      have hroom := (hfits.line hnil hle).1
      have hread := fgets_line hline rest (by omega : line.length < size)
      obtain ⟨b₁, hb₁, hsize₁, hstep⟩ := hround line (line ++ [LINE_FEED]) hnul.1 hle (by rw [hread])
        (sanitizeInput_line hnul.1 hline _ (Or.inr rfl))
      rw [hstep, hread, lines_cons hline]
      exact ih (by dsimp only; omega) hnul.2.2 hb₁ hsize₁ hpos hsmall hfits.next

theorem lines_subset (body : List UInt8) : ∀ line ∈ lines body, line ⊆ body := by
  induction hlength : body.length using Nat.strong_induction_on generalizing body with
  | _ n ih =>
    subst hlength
    intro line hmem
    rcases line_cases body with hlast | ⟨first, rest, hfirst, rfl⟩
    · by_cases hnil : body = []
      · subst hnil
        exact absurd hmem List.not_mem_nil
      · rw [lines_last hlast hnil, List.mem_singleton] at hmem
        exact hmem ▸ List.Subset.refl _
    · rw [lines_cons hfirst] at hmem
      rcases List.mem_cons.mp hmem with rfl | hmem
      · exact List.subset_append_left _ _
      · have hlt : rest.length < (first ++ LINE_FEED :: rest).length := by
          rw [List.length_append, List.length_cons]
          omega
        exact List.Subset.trans (ih _ hlt rest rfl line hmem)
          (List.subset_append_of_subset_right _ (List.subset_cons_self _ _))

/-- Nothing in the text is from elsewhere, but for the `&`. -/
theorem notMem_postText {c : UInt8} (hamp : c ≠ AMPERSAND) {body : List UInt8} (h : c ∉ body) :
    c ∉ postText body := by
  have hlines : ∀ line ∈ lines body, c ∉ line := fun line hline hmem => h (lines_subset body line hline hmem)
  unfold postText
  have hjoined : ∀ pieces : List (List UInt8), (∀ line ∈ pieces, c ∉ line) → ∀ text, c ∉ text →
      c ∉ (pieces.map trimmed).foldl joined text := by
    intro pieces
    induction pieces with
    | nil => exact fun _ _ htext => htext
    | cons line pieces ih =>
      intro hpieces text htext
      refine ih (fun line hline => hpieces line (List.mem_cons_of_mem _ hline)) _ ?_
      have hline : c ∉ trimmed line := fun hmem =>
        hpieces line List.mem_cons_self ((List.takeWhile_sublist _).mem hmem)
      unfold joined
      split
      · exact hline
      · simp only [List.mem_append, List.mem_cons, not_or]
        exact ⟨htext, hamp, hline⟩
  exact hjoined _ hlines [] List.not_mem_nil

/-! ## From the text to the parameters -/

/-- What is done with a query string, whichever way it has come. -/
def mapText (w : Surroundings) (request : HttpRequest) (text : List UInt8) :
    Option (Int × HttpRequest) := do
  let block ← stralloc w.fresh text.length
  let decoded ← urldecode (text ++ [0])
  let block ← block.storeBytes 0 decoded
  let request ← mapQueryString w.malloc w.strings
    { request with
      queryString := some text
      address := w.address
      paramStr := bytesAt block.byte 0 block.size }
  return (w.eax, request)

theorem stralloc_eq (garbage : Mem) {size : Nat} (h : size < 2 ^ 30) :
    stralloc garbage size = some ⟨(size / 16 + 1) * 16, garbage⟩ := by
  unfold stralloc
  rw [Nat.mod_eq_of_lt (by omega)]
  exact if_neg (by omega)

/-- The copy needs room for two `NUL`s. -/
theorem copyToBuffer_within {b : StringBuilder} {string : List UInt8} (h : b.Within string)
    (hnul : 0 ∉ string) (target : Block) (haligned : target.size % 16 = 0) (hlt : target.size < 2 ^ 32) :
    (copyToBuffer b.buffer target (b.length + 1)).bind Block.text =
      if b.length + 1 < target.size then some string else none := by
  have hroom := h.length_lt
  unfold copyToBuffer Block.copyTo
  by_cases hfits : b.length + 1 < target.size
  · rw [if_pos ⟨hroom, Nat.le_of_lt hfits⟩, if_pos hfits]
    simp only [Option.bind_eq_bind, Option.bind_some]
    rw [Block.storeByte_eq (by exact hfits), Option.bind_some]
    -- the copy is what a builder of this size holds
    refine @Within.text ⟨_, b.length, target.size⟩ string
      ⟨⟨h.length, ?_, Nat.le_refl _, haligned, hlt⟩, ?_, Nat.lt_of_succ_lt hfits, ?_⟩ hnul
    · refine Eq.trans (bytesAt_congr fun i _ hi => ?_) h.bytes
      dsimp only at hi ⊢
      rw [storeByte, if_neg (by omega), copyObject, if_pos (by omega)]
    · dsimp only
      rw [storeByte, if_neg (by omega), copyObject, if_pos (by omega)]
      exact h.null
    · intro hle
      dsimp only at hle
      omega
  · rw [if_neg hfits]
    split
    · simp only [Option.bind_eq_bind, Option.bind_some]
      rw [Block.storeByte, if_neg hfits]
      rfl
    · rfl

/-- **What `mapPostData` does**: with the text of the body what is done with a query string, unless
the second `NUL` does not fit. -/
theorem mapPostData_eq (w : Surroundings) (garbage : Nat → Mem) {body : List UInt8} {request : HttpRequest}
    (hnul : 0 ∉ body) (hle : body.length ≤ request.length.toNat) (hpos : 0 < request.length)
    (hsmall : request.length.toNat < 2 ^ 29) :
    mapPostData w garbage body request =
      if (postText body).length = request.length.toNat ∧ request.length.toNat % 16 = 15 then none
      else mapText w request (postText body) := by
  have hpos' : 0 < request.length.toNat := hpos
  obtain ⟨b₀, hinit, hb₀, _, hsize₀⟩ := initStringBuilder_uint32_holds (garbage 0) request.length hpos
  have hfits : Fits request.length.toNat [] body := Or.inr (by rw [if_pos rfl]; exact hle)
  obtain ⟨b, hread, hb, hsize, hroom⟩ := @readLines_within (body.length + 1)
    (fun i => garbage (i + 2)) _ _ _ _ (Nat.lt_succ_self _) hnul hb₀.within hsize₀ hpos' hsmall hfits
  have hlength := hb.length
  have htext : 0 ∉ postText body := notMem_postText (by decide) hnul
  have hcopy := copyToBuffer_within hb htext ⟨(request.length.toNat / 16 + 1) * 16, garbage 1⟩
    (Nat.mul_mod_left _ _) (by dsimp only; omega)
  unfold mapPostData
  rw [if_pos hpos, hinit, stralloc_eq _ (by omega)]
  simp only [Option.bind_eq_bind, Option.bind_some]
  rw [hread, Option.bind_some, ← Option.bind_assoc, hcopy]
  by_cases hover : (postText body).length = request.length.toNat ∧ request.length.toNat % 16 = 15
  · rw [if_pos hover, if_neg (by dsimp only [postText] at hover ⊢; omega)]
    rfl
  · rw [if_neg hover, if_pos (by dsimp only [postText] at hover ⊢; omega), Option.bind_some, hb.text htext,
      hlength]
    rfl

/-! ## `GET` and `POST` -/

/-- A `GET` request with this query string. -/
structure Gets (getenv : List UInt8 → Option (List UInt8)) (queryString : List UInt8) : Prop where
  method : getenv HTTP_REQUEST_METHOD = some HTTP_REQUEST_METHOD_GET
  query : getenv HTTP_QUERY_STRING = some queryString

/-- A `POST` request that says how long its body is. -/
structure Posts (getenv : List UInt8 → Option (List UInt8)) (length : Nat) : Prop where
  method : getenv HTTP_REQUEST_METHOD = some HTTP_REQUEST_METHOD_POST
  contentLength : getenv HTTP_CONTENT_LENGTH = some (numeral length)

/-- A request that is initialised, and its data. -/
def post (w : Surroundings) (garbage : Nat → Mem) (body : List UInt8) (request : HttpRequest)
    (numParams : UInt32) : Option (Int × HttpRequest) := do
  let (_, request) ← initHttpRequest w request numParams
  mapPostData w garbage body request

/-- How a request has come. -/
def HttpRequest.comeBy (method : Option (List UInt8)) (length : UInt32) (request : HttpRequest) : HttpRequest :=
  { request with method := method, length := length }

theorem initHttpRequest_posts {w : Surroundings} {length : Nat} (h : Posts w.getenv length)
    (hlt : length < 2 ^ 29) (request : HttpRequest) (numParams : UInt32) :
    initHttpRequest w request numParams =
      some (0, ⟨initState (hashCodeAt w.strings) (isEqualAt w.strings) numParams.toNat w.entry,
        some HTTP_REQUEST_METHOD_POST, none, NULL, [], UInt32.ofNat length⟩) := by
  have hdigits := numeral_length_le (n := length) (k := 8) (by omega)
  have hparse := parseInt_of_denotes (Denotes.digits (isNumeral_numeral length)) (by omega) request.length
  rw [decimal_numeral, ← ofNat_eq_stored] at hparse
  unfold initHttpRequest
  simp only [h.method, h.contentLength, Option.bind_eq_bind, Option.bind_some, hparse]
  rfl

theorem initHttpRequest_gets {w : Surroundings} {queryString : List UInt8} (h : Gets w.getenv queryString)
    (hle : queryString.length ≤ MAX_URL_SIZE) (request : HttpRequest) (numParams : UInt32) :
    initHttpRequest w request numParams =
      mapText w ⟨initState (hashCodeAt w.strings) (isEqualAt w.strings) numParams.toNat w.entry,
        some HTTP_REQUEST_METHOD_GET, some queryString, request.address, request.paramStr,
        UInt32.ofNat queryString.length⟩ queryString := by
  unfold initHttpRequest
  simp only [h.method, h.query]
  rw [if_neg (Nat.not_lt.mpr hle)]
  rfl

/-- What is done with a text does not depend on how it has come. -/
theorem mapText_comeBy (w : Surroundings) (text : List UInt8) {request request' : HttpRequest}
    (h : request.parameters = request'.parameters) :
    mapText w request text =
      (mapText w request' text).map fun r => (r.1, r.2.comeBy request.method request.length) := by
  unfold mapText mapQueryString
  simp only [h, Option.bind_eq_bind, Option.map_bind, Function.comp_def, Option.bind_assoc, pure,
    Option.bind_some, Option.map_some]
  rfl

/-- The request of a `POST`, before its data. -/
def posted (w : Surroundings) (length : Nat) (numParams : UInt32) : HttpRequest where
  parameters := initState (hashCodeAt w.strings) (isEqualAt w.strings) numParams.toNat w.entry
  method := some HTTP_REQUEST_METHOD_POST
  queryString := none
  address := NULL
  paramStr := []
  length := UInt32.ofNat length

section

variable {w : Surroundings} {body : List UInt8} {length : Nat}

/-- A `POST` has the text of its body for a query string. -/
theorem post_eq_mapText (hposts : Posts w.getenv length) (hnul : 0 ∉ body) (hle : body.length ≤ length)
    (hpos : 0 < length) (hsmall : length < 2 ^ 29) (garbage : Nat → Mem) (request : HttpRequest)
    (numParams : UInt32) :
    post w garbage body request numParams =
      if (postText body).length = length ∧ length % 16 = 15 then none
      else mapText w (posted w length numParams) (postText body) := by
  have hlength : (posted w length numParams).length.toNat = length :=
    UInt32.toNat_ofNat_of_lt' (Nat.lt_trans hsmall (by decide))
  have hposlength : 0 < (posted w length numParams).length := by
    rw [UInt32.lt_iff_toNat_lt, hlength]
    exact hpos
  have hmap := mapPostData_eq w garbage hnul (by rw [hlength]; exact hle) hposlength
    (by rw [hlength]; exact hsmall)
  rw [hlength] at hmap
  unfold post
  rw [initHttpRequest_posts hposts hsmall]
  exact hmap

/-- The environment of a `GET`. -/
def getEnvironment (queryString name : List UInt8) : Option (List UInt8) :=
  if name = HTTP_REQUEST_METHOD then some HTTP_REQUEST_METHOD_GET else some queryString

/-- The environment of a `POST`. -/
def postEnvironment (length : Nat) (name : List UInt8) : Option (List UInt8) :=
  if name = HTTP_REQUEST_METHOD then some HTTP_REQUEST_METHOD_POST else some (numeral length)

end

/-! ## Forms -/

/-- Posted as one line of its length, the encoded fields are the parameters, whatever else the request
finds. -/
def MapsPost (fields : List Field) : Prop :=
  ∀ (w : Surroundings) (garbage : Nat → Mem) (request : HttpRequest) (numParams : UInt32),
    Posts w.getenv (encodeFields fields).length →
      ∃ retValue request', post w garbage (encodeFields fields) request numParams =
        some (retValue, request') ∧ Maps w.strings request' fields

theorem encodeByte_printed {c : UInt8} :
    ∀ d ∈ encodeByte c, d ≠ 0 ∧ d ≠ LINE_FEED ∧ d ≠ CARRIAGE_RETURN := by
  have h : (encodeByte c).all fun d => d ≠ 0 ∧ d ≠ LINE_FEED ∧ d ≠ CARRIAGE_RETURN := by
    revert c
    apply forall_byte
    decide +kernel
  exact fun d hd => of_decide_eq_true (List.all_eq_true.mp h d hd)

theorem encodeFields_printed (fields : List Field) :
    ∀ d ∈ encodeFields fields, d ≠ 0 ∧ d ≠ LINE_FEED ∧ d ≠ CARRIAGE_RETURN := by
  have htext : ∀ text, ∀ d ∈ encodeText text, d ≠ 0 ∧ d ≠ LINE_FEED ∧ d ≠ CARRIAGE_RETURN := by
    intro text d hd
    obtain ⟨c, _, hbyte⟩ := List.mem_flatMap.mp hd
    exact encodeByte_printed d hbyte
  intro d hd
  rcases of_mem_joinFields hd with rfl | rfl | ⟨field, hfield, hmem⟩
  · decide
  · decide
  · obtain ⟨original, _, rfl⟩ := List.mem_map.mp hfield
    exact hmem.elim (htext _ d) (htext _ d)

/-- A text of one line is posted as it is. -/
theorem postText_line {text : List UInt8} (hfeed : LINE_FEED ∉ text) (hreturn : CARRIAGE_RETURN ∉ text) :
    postText text = text := by
  by_cases hnil : text = []
  · subst hnil
    rfl
  · unfold postText
    rw [lines_last hfeed hnil]
    refine List.takeWhile_eq_self_iff.mpr fun c hc => decide_eq_true fun heq => hreturn (heq ▸ hc)

/-- A field in a request, whichever way it has come. -/
theorem maps_comeBy {strings : Ptr → List UInt8} {request : HttpRequest} {fields : List Field}
    (method : Option (List UInt8)) (length : UInt32) :
    Maps strings (request.comeBy method length) fields ↔ Maps strings request fields :=
  ⟨fun h => ⟨h.value, h.other⟩, fun h => ⟨h.value, h.other⟩⟩

theorem encodeFields_length_pos {fields : List Field} (hne : fields ≠ []) :
    0 < (encodeFields fields).length := by
  obtain ⟨field, fields, rfl⟩ := List.exists_cons_of_ne_nil hne
  unfold encodeFields
  rw [List.map_cons]
  cases fields.map fun field => (encodeText field.1, encodeText field.2) with
  | nil =>
    rw [joinFields_singleton, List.length_append, List.length_cons]
    omega
  | cons next fields =>
    rw [joinFields_cons _ _ _ (List.cons_ne_nil _ _), List.length_append, List.length_append,
      List.length_cons]
    omega

/-- The fields, posted, and in a query. -/
theorem post_fields {w : Surroundings} {fields : List Field} (hne : fields ≠ [])
    (hlen : (encodeFields fields).length ≤ MAX_URL_SIZE)
    (hposts : Posts w.getenv (encodeFields fields).length)
    {getenv : List UInt8 → Option (List UInt8)} (hgets : Gets getenv (encodeFields fields))
    (garbage : Nat → Mem) (request request' : HttpRequest) (numParams : UInt32) :
    post w garbage (encodeFields fields) request numParams =
      if (encodeFields fields).length % 16 = 15 then none
      else (initHttpRequest { w with getenv := getenv } request' numParams).map fun r =>
        (r.1, r.2.comeBy (some HTTP_REQUEST_METHOD_POST) (UInt32.ofNat (encodeFields fields).length)) := by
  have hprinted := encodeFields_printed fields
  have htext : postText (encodeFields fields) = encodeFields fields :=
    postText_line (fun hmem => (hprinted _ hmem).2.1 rfl) fun hmem => (hprinted _ hmem).2.2 rfl
  have hsmall := Nat.lt_of_le_of_lt hlen (by decide : MAX_URL_SIZE < 2 ^ 29)
  rw [post_eq_mapText hposts (fun hmem => (hprinted _ hmem).1 rfl) (Nat.le_refl _)
    (encodeFields_length_pos hne) hsmall, htext]
  refine ite_congr (by simp) (fun _ => rfl) fun _ => ?_
  rw [initHttpRequest_gets hgets hlen]
  exact mapText_comeBy w _ rfl

/-- What a query maps, a form maps that has another length than 15 modulo 16. -/
theorem mapsPost_iff_mapsQuery {fields : List Field} (hne : fields ≠ [])
    (hlen : (encodeFields fields).length ≤ MAX_URL_SIZE) :
    MapsPost fields ↔ MapsQuery fields ∧ (encodeFields fields).length % 16 ≠ 15 := by
  have hgets : Gets (getEnvironment (encodeFields fields)) (encodeFields fields) := ⟨rfl, rfl⟩
  have hposts : Posts (postEnvironment (encodeFields fields).length) (encodeFields fields).length :=
    ⟨rfl, rfl⟩
  constructor
  · intro h
    have hmod : (encodeFields fields).length % 16 ≠ 15 := by
      intro hmod
      let w := { surroundingsOf [] [] with getenv := postEnvironment (encodeFields fields).length }
      obtain ⟨retValue, request', hrun, _⟩ := h w (fun _ _ => 0) newRequest 0 hposts
      rw [post_fields hne hlen hposts hgets _ _ newRequest, if_pos hmod] at hrun
      exact absurd hrun (by simp)
    refine ⟨?_, hmod⟩
    intro w request numParams hmethod hquery
    let w' := { w with getenv := postEnvironment (encodeFields fields).length }
    obtain ⟨retValue, request', hrun, hmaps⟩ := h w' (fun _ _ => 0) newRequest numParams hposts
    rw [post_fields hne hlen hposts ⟨hmethod, hquery⟩ _ _ request, if_neg hmod,
      Option.map_eq_some_iff] at hrun
    obtain ⟨r, hget, hpair⟩ := hrun
    obtain ⟨rfl, rfl⟩ := Prod.mk.inj hpair
    exact ⟨r.1, r.2, hget, (maps_comeBy _ _).mp hmaps⟩
  · rintro ⟨h, hmod⟩ w garbage request numParams hposts
    obtain ⟨retValue, request', hrun, hmaps⟩ :=
      h { w with getenv := getEnvironment (encodeFields fields) } request numParams hgets.1 hgets.2
    rw [post_fields hne hlen hposts hgets garbage request request, if_neg hmod, hrun]
    exact ⟨_, _, rfl, (maps_comeBy _ _).mpr hmaps⟩

/-- **A posted form has its fields as the parameters** if and only if no name has a `=`, no value has a
`&`, every byte is below `0xA0`, and its length is not 15 modulo 16. -/
theorem mapsPost_iff {fields : List Field} (hne : fields ≠ [])
    (hnul : ∀ field ∈ fields, 0 ∉ field.1 ∧ 0 ∉ field.2) (hdistinct : (fields.map Prod.fst).Nodup)
    (hlen : (encodeFields fields).length ≤ MAX_URL_SIZE) :
    MapsPost fields ↔
      (∀ field ∈ fields, EQUALS ∉ field.1 ∧ AMPERSAND ∉ field.2 ∧
        ∀ c, c ∈ field.1 ∨ c ∈ field.2 → c < 0xA0) ∧ (encodeFields fields).length % 16 ≠ 15 := by
  rw [mapsPost_iff_mapsQuery hne hlen]
  refine and_congr_left fun _ => ⟨fun h _ hfield => plain_of_mapsQuery hlen h hfield, fun h => ?_⟩
  exact mapsQuery_of_plain hne hnul hdistinct hlen h

/-- `foo=bar`. -/
theorem mapsPost_iff_foo :
    MapsPost [([0x66, 0x6F, 0x6F], [0x62, 0x61, 0x72])] ↔
      (∀ field ∈ ([([0x66, 0x6F, 0x6F], [0x62, 0x61, 0x72])] : List Field),
        EQUALS ∉ field.1 ∧ AMPERSAND ∉ field.2 ∧ ∀ c, c ∈ field.1 ∨ c ∈ field.2 → c < 0xA0) ∧
        (encodeFields [([0x66, 0x6F, 0x6F], [0x62, 0x61, 0x72])]).length % 16 ≠ 15 := by
  refine mapsPost_iff (by simp) ?_ (by decide) (by decide)
  intro field hfield
  rw [List.mem_singleton.mp hfield]
  decide

end DevopsBroker.Cgi
