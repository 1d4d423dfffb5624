import Aetheris.Net.HeaderLines

/-!
# What the sniffer says of a response

`HttpSniffer::parse_response_headers` of `socket_abstraction.hpp` with everything it returns.  The
name and the value of a header are moved into the list before the type and the length of the content
are computed from them, so these are computed from what a moved string holds.

A head is written line by line; its lines are followed one by one, and what they give is compared
with what is meant.
-/

namespace Aetheris.Net

/-! ## The function -/

/-- `ContentType`. -/
inductive ContentType
  | unknown
  | html
  | css
  | javaScript
  | binary
  | json
  | other
  deriving DecidableEq, Repr

/-- `ResponseMetadata`. -/
structure ResponseMetadata where
  contentType : ContentType := .unknown
  contentLength : ℕ := 0
  hasJavascript : Bool := false
  statusLine : Bytes := []
  headers : List HttpHeader := []
  deriving DecidableEq, Repr

/-- `text.find(needle) != npos`. -/
def contains (text needle : Bytes) : Bool := (find text needle).isSome

/-- `detect_content_type`. -/
def detectContentType (header : Bytes) : ContentType :=
  let lower := header.map toLower
  if contains lower (lit "text/html") then .html
  else if contains lower (lit "text/css") then .css
  else if contains lower (lit "javascript") || contains lower (lit "application/x-javascript") then
    .javaScript
  else if contains lower (lit "application/json") then .json
  else if contains lower (lit "image/") || contains lower (lit "video/") ||
      contains lower (lit "audio/") || contains lower (lit "application/octet-stream") then .binary
  else .other

/-- What is left of a `std::string` that has been moved from: nothing. -/
def movedFrom (_ : Bytes) : Bytes := []

/-- The names of a header that the sniffer looks for. -/
def isContentType (name : Bytes) : Bool := name == lit "Content-Type" || name == lit "content-type"

/-- The names of a header that the sniffer looks for. -/
def isContentLength (name : Bytes) : Bool :=
  name == lit "Content-Length" || name == lit "content-length"

/-- One header line. -/
def ResponseMetadata.addLine (metadata : ResponseMetadata) (line : Bytes) : ResponseMetadata :=
  match headerOfLine line with
  | none => metadata
  | some header =>
    let metadata := { metadata with headers := metadata.headers ++ [header] }
    let key := movedFrom header.name
    let value := movedFrom header.value
    let metadata :=
      if isContentType key then
        { metadata with
          contentType := detectContentType value
          hasJavascript := contains value (lit "javascript") }
      else metadata
    if isContentLength key then
      match fromChars 10 (2 ^ 64) value with
      | some parsed => { metadata with contentLength := parsed }
      | none => metadata
    else metadata

/-- The loop over the header lines. -/
def metadataFrom (section_ : Bytes) (pos : ℕ) (metadata : ResponseMetadata) : ResponseMetadata :=
  if pos < section_.length then
    let length := (find (section_.drop pos) crlf).getD (section_.length - pos)
    metadataFrom section_ (pos + length + 2)
      (metadata.addLine ((section_.drop pos).take length))
  else metadata
termination_by section_.length - pos

/-- `HttpSniffer::parse_response_headers`. -/
def sniffResponseHeaders (raw : Bytes) : ResponseMetadata :=
  match find raw headerEnd with
  | none => {}
  | some end_ =>
    let section_ := raw.take end_
    match find section_ crlf with
    | some lineEnd =>
      metadataFrom section_ (lineEnd + 2) { statusLine := section_.take lineEnd }
    -- without a line end the position is `npos + 2`
    | none => metadataFrom section_ 1 {}

/-! ## The moved strings -/

theorem addLine_eq (metadata : ResponseMetadata) (line : Bytes) :
    metadata.addLine line =
      { metadata with headers := metadata.headers ++ (headerOfLine line).toList } := by
  rw [ResponseMetadata.addLine]
  cases headerOfLine line with
  | none => rw [Option.toList_none, List.append_nil]
  | some header => rfl

/-- **Only the headers are filled in.** -/
theorem metadataFrom_eq (section_ : Bytes) (pos : ℕ) (metadata : ResponseMetadata) :
    metadataFrom section_ pos metadata =
      { metadata with headers := metadata.headers ++ headersFrom section_ pos } := by
  induction pos, metadata using metadataFrom.induct section_ with
  | case1 pos metadata hlt length ih =>
    rw [metadataFrom, if_pos hlt, headersFrom, if_pos hlt]
    dsimp only
    rw [ih, addLine_eq]
    simp only [List.append_assoc]
    rfl
  | case2 pos metadata hge =>
    rw [metadataFrom, if_neg hge, headersFrom, if_neg hge, List.append_nil]

/-- What the client uses of the metadata. -/
theorem sniffResponseHeaders_eq (raw : Bytes) :
    sniffResponseHeaders raw =
      { statusLine := (parseResponseHeaders raw).1, headers := (parseResponseHeaders raw).2 } := by
  rw [sniffResponseHeaders, parseResponseHeaders]
  cases find raw headerEnd with
  | none => rfl
  | some end_ =>
    dsimp only
    cases find (raw.take end_) crlf with
    | none => exact metadataFrom_eq _ _ _
    | some lineEnd => exact metadataFrom_eq _ _ _

/-! ## The head of a response -/

/-- A header: its name has no colon, its value does not begin with a blank, and there is no line end
in them. -/
structure HeaderField extends HttpHeader where
  name_free : ∀ c ∈ name, c ≠ chr ':' ∧ c ≠ 0x0d ∧ c ≠ 0x0a
  value_free : ∀ c ∈ value, c ≠ 0x0d ∧ c ≠ 0x0a
  value_start : ∀ c ∈ value.head?, ¬ (c = chr ' ' ∨ c = chr '\t')

namespace HeaderField

/-- The line of a header. -/
def line (field : HeaderField) : Bytes := field.name ++ lit ": " ++ field.value

theorem free_line (field : HeaderField) : ∀ c ∈ field.line, c ≠ 0x0d := by
  intro c hc
  rw [line, List.mem_append, List.mem_append] at hc
  rcases hc with (hc | hc) | hc
  · exact (field.name_free c hc).2.1
  · revert c
    decide
  · exact (field.value_free c hc).1

theorem line_ne_nil (field : HeaderField) : field.line ≠ [] :=
  List.append_ne_nil_of_left_ne_nil (List.append_ne_nil_of_right_ne_nil _ (List.cons_ne_nil _ _)) _

/-- A value that is empty is read as a blank. -/
theorem headerOfLine_line (field : HeaderField) :
    headerOfLine field.line =
      some ⟨field.name, if field.value = [] then lit " " else field.value⟩ := by
  have hline : field.line = field.name ++ chr ':' :: chr ' ' :: field.value := by
    rw [line, List.append_assoc]
    rfl
  have hcolon : field.line.findIdx? (· == chr ':') = some field.name.length := by
    have hname : ∀ c ∈ field.name, (c == chr ':') = false := fun c hc =>
      beq_false_of_ne (field.name_free c hc).1
    rw [hline, List.findIdx?_append, List.findIdx?_eq_none_iff.mpr hname, List.findIdx?_cons]
    simp
  have hvalue : (chr ' ' :: field.value).dropWhile (fun c => c == chr ' ' || c == chr '\t') =
      field.value := by
    rw [List.dropWhile_cons_of_pos (by decide)]
    cases hfield : field.value with
    | nil => rfl
    | cons c value =>
      have hstart := field.value_start c (by rw [hfield]; rfl)
      exact List.dropWhile_cons_of_neg (by simpa using hstart)
  have hdrop : field.line.drop (field.name.length + 1) = chr ' ' :: field.value := by
    rw [hline, List.drop_append, List.drop_eq_nil_of_le (Nat.le_succ _), Nat.add_sub_cancel_left]
    rfl
  rw [headerOfLine, hcolon, Option.map_some, hdrop]
  dsimp only
  rw [hvalue, hline, List.take_left]
  by_cases hnil : field.value = []
  · rw [if_pos hnil, if_pos hnil, hnil]
    rfl
  · rw [if_neg hnil, if_neg hnil]

end HeaderField

/-- A status line without a line end, and headers. -/
structure ResponseHead where
  statusLine : Bytes
  statusLine_free : ∀ c ∈ statusLine, c ≠ 0x0d ∧ c ≠ 0x0a
  fields : List HeaderField

namespace ResponseHead

/-- The text of the head. -/
def written (head : ResponseHead) : Bytes :=
  head.statusLine ++ crlf ++ head.fields.flatMap (fun field => field.line ++ crlf) ++ crlf

/-- The headers. -/
def headers (head : ResponseHead) : List HttpHeader := head.fields.map HeaderField.toHttpHeader

/-- The value of a header that is a decimal number. -/
def decimal (value : Bytes) : Option ℕ :=
  if value.all isDigit then fromChars 10 (2 ^ 64) value else none

/-- The last value of the content type. -/
def lastType (head : ResponseHead) : Option Bytes :=
  ((head.headers.filter fun header => isContentType header.name).map (·.value)).getLast?

/-- The last decimal number among the content lengths. -/
def lastLength (head : ResponseHead) : Option ℕ :=
  ((head.headers.filter fun header => isContentLength header.name).filterMap fun header =>
    decimal header.value).getLast?

/-- What is to be read. -/
def meant (head : ResponseHead) : ResponseMetadata where
  contentType := head.lastType.elim .unknown detectContentType
  contentLength := head.lastLength.getD 0
  hasJavascript := head.lastType.elim false (contains · (lit "javascript"))
  statusLine := head.statusLine
  headers := head.headers

end ResponseHead

/-! ## The lines -/

/-- What a needle does not begin with is passed over. -/
theorem find_append_of_not_mem {a : Bytes} {c : Byte} (hc : c ∉ a) (needle text : Bytes) :
    find (a ++ text) (c :: needle) = (find text (c :: needle)).map (a.length + ·) := by
  induction a with
  | nil => simp
  | cons d a ih =>
    obtain ⟨hne, hrest⟩ := not_or.mp fun h => hc (List.mem_cons.mpr h)
    rw [List.cons_append, find_cons_of_not_isPrefix, ih hrest, Option.map_map]
    · congr 1
      funext i
      rw [List.length_cons]
      exact (Nat.succ_add _ _).symm
    · exact fun h => hne (List.cons_prefix_cons.mp h).1

theorem not_mem_of_free {text : Bytes} (h : ∀ c ∈ text, c ≠ 0x0d) : (0x0d : Byte) ∉ text :=
  fun hmem => h _ hmem rfl

/-- The empty line is behind the last line. -/
theorem find_headerEnd {first : Bytes} (hfirst : ∀ c ∈ first, c ≠ 0x0d) {lines : List Bytes}
    (hlines : ∀ line ∈ lines, line ≠ [] ∧ ∀ c ∈ line, c ≠ 0x0d) :
    find (first ++ lines.flatMap (crlf ++ ·) ++ headerEnd) headerEnd =
      some (first ++ lines.flatMap (crlf ++ ·)).length := by
  induction lines generalizing first with
  | nil =>
    rw [List.flatMap_nil, List.append_nil]
    have hstart : find headerEnd headerEnd = some 0 := find_of_isPrefix (List.prefix_refl _)
    have hskip := find_append_of_not_mem (not_mem_of_free hfirst) [0x0a, 0x0d, 0x0a] headerEnd
    change find (first ++ headerEnd) headerEnd = (find headerEnd headerEnd).map _ at hskip
    rw [hskip, hstart]
    rfl
  | cons line lines ih =>
    obtain ⟨⟨hne, hline⟩, hrest⟩ := List.forall_mem_cons.mp hlines
    have hnot : ¬ headerEnd <+: crlf ++ (line ++ lines.flatMap (crlf ++ ·) ++ headerEnd) := by
      intro hpre
      cases line with
      | nil => exact hne rfl
      | cons c line =>
        have htail := (List.cons_prefix_cons.mp (List.cons_prefix_cons.mp hpre).2).2
        exact hline c List.mem_cons_self (List.cons_prefix_cons.mp htail).1.symm
    have hnot' : ¬ headerEnd <+: (0x0a : Byte) :: (line ++ lines.flatMap (crlf ++ ·) ++ headerEnd) :=
      fun hpre => absurd (List.cons_prefix_cons.mp hpre).1 (by decide)
    have hskip := find_append_of_not_mem (not_mem_of_free hfirst) [0x0a, 0x0d, 0x0a]
      (crlf ++ (line ++ lines.flatMap (crlf ++ ·) ++ headerEnd))
    change find _ headerEnd = (find _ headerEnd).map _ at hskip
    have htext : first ++ (line :: lines).flatMap (crlf ++ ·) ++ headerEnd =
        first ++ (crlf ++ (line ++ lines.flatMap (crlf ++ ·) ++ headerEnd)) := by
      simp only [List.flatMap_cons, List.append_assoc]
    rw [htext, hskip]
    have hcons : crlf ++ (line ++ lines.flatMap (crlf ++ ·) ++ headerEnd) =
        0x0d :: 0x0a :: (line ++ lines.flatMap (crlf ++ ·) ++ headerEnd) := rfl
    rw [hcons] at hnot ⊢
    rw [find_cons_of_not_isPrefix hnot, find_cons_of_not_isPrefix hnot', ih hline hrest]
    simp only [Option.map_some, List.flatMap_cons, List.length_append]
    congr 1
    have hcrlf : crlf.length = 2 := rfl
    omega

/-- The lines behind a position. -/
theorem headersFrom_lines (before : Bytes) {line : Bytes} {lines : List Bytes}
    (hlines : ∀ l ∈ line :: lines, l ≠ [] ∧ ∀ c ∈ l, c ≠ 0x0d) :
    headersFrom (before ++ (line ++ lines.flatMap (crlf ++ ·))) before.length =
      (line :: lines).flatMap fun l => (headerOfLine l).toList := by
  induction lines generalizing before line with
  | nil =>
    obtain ⟨hne, hline⟩ := hlines line List.mem_cons_self
    have hlt : before.length < (before ++ line).length := by
      rw [List.length_append]
      exact Nat.lt_add_of_pos_right (List.length_pos_iff.mpr hne)
    have hnone : find line crlf = none := find_crlf_of_forall hline
    have hend : ¬ before.length + line.length + 2 < (before ++ line).length := by
      rw [List.length_append]
      omega
    rw [List.flatMap_nil, List.append_nil, headersFrom, if_pos hlt, List.drop_left, hnone,
      Option.getD_none, List.length_append, Nat.add_sub_cancel_left]
    dsimp only
    rw [List.take_length, headersFrom, if_neg hend, List.flatMap_singleton, List.append_nil]
  | cons next lines ih =>
    obtain ⟨⟨hne, hline⟩, hrest⟩ := List.forall_mem_cons.mp hlines
    have htext : before ++ (line ++ (next :: lines).flatMap (crlf ++ ·)) =
        before ++ (line ++ (crlf ++ (next ++ lines.flatMap (crlf ++ ·)))) := by
      rw [List.flatMap_cons, List.append_assoc crlf]
    have hshift : before ++ (line ++ (crlf ++ (next ++ lines.flatMap (crlf ++ ·)))) =
        (before ++ line ++ crlf) ++ (next ++ lines.flatMap (crlf ++ ·)) := by
      simp only [List.append_assoc]
    have hpos : before.length + line.length + 2 = (before ++ line ++ crlf).length := by
      rw [List.length_append, List.length_append]
      rfl
    have hlt : before.length <
        (before ++ (line ++ (crlf ++ (next ++ lines.flatMap (crlf ++ ·))))).length := by
      rw [List.length_append, List.length_append]
      have := List.length_pos_iff.mpr hne
      omega
    have hfind := find_crlf_of_noLineEnd (find_crlf_of_forall hline)
      (next ++ lines.flatMap (crlf ++ ·))
    rw [htext, headersFrom, if_pos hlt, List.drop_left, hfind, Option.getD_some]
    dsimp only
    rw [List.take_left, hpos, hshift, ih _ hrest]
    rfl

namespace ResponseHead

/-- The values that are read. -/
def readHeaders (head : ResponseHead) : List HttpHeader :=
  head.fields.map fun field => ⟨field.name, if field.value = [] then lit " " else field.value⟩

theorem written_eq (head : ResponseHead) :
    head.written = head.statusLine ++ (head.fields.map HeaderField.line).flatMap (crlf ++ ·) ++
      headerEnd := by
  have hswap (fields : List HeaderField) :
      crlf ++ (fields.flatMap fun field => field.line ++ crlf) =
        (fields.map HeaderField.line).flatMap (crlf ++ ·) ++ crlf := by
    induction fields with
    | nil => rfl
    | cons field fields ih =>
      rw [List.flatMap_cons, List.map_cons, List.flatMap_cons, List.append_assoc _ _ crlf, ← ih]
      simp only [List.append_assoc]
  rw [written, List.append_assoc _ crlf, hswap, headerEnd]
  simp only [List.append_assoc]

/-- **What the sniffer reads.** -/
theorem sniffResponseHeaders_written (head : ResponseHead) :
    sniffResponseHeaders head.written =
      { statusLine := if head.fields = [] then [] else head.statusLine
        headers := if head.fields = [] then headersFrom head.statusLine 1 else head.readHeaders } := by
  have hfirst : ∀ c ∈ head.statusLine, c ≠ 0x0d := fun c hc => (head.statusLine_free c hc).1
  have hlines : ∀ line ∈ head.fields.map HeaderField.line, line ≠ [] ∧ ∀ c ∈ line, c ≠ 0x0d := by
    intro line hline
    obtain ⟨field, -, rfl⟩ := List.mem_map.mp hline
    exact ⟨field.line_ne_nil, field.free_line⟩
  have hnone := find_crlf_of_forall hfirst
  rw [sniffResponseHeaders_eq, parseResponseHeaders, written_eq, find_headerEnd hfirst hlines]
  dsimp only
  rw [List.take_left]
  cases hfields : head.fields with
  | nil =>
    rw [List.map_nil, List.flatMap_nil, List.append_nil, hnone]
    rfl
  | cons field fields =>
    rw [hfields] at hlines
    have htext : head.statusLine ++ ((field :: fields).map HeaderField.line).flatMap (crlf ++ ·) =
        head.statusLine ++ (crlf ++ (field.line ++ (fields.map HeaderField.line).flatMap
          (crlf ++ ·))) := by
      rw [List.map_cons, List.flatMap_cons, List.append_assoc crlf]
    have hshift : head.statusLine ++ (crlf ++ (field.line ++ (fields.map HeaderField.line).flatMap
        (crlf ++ ·))) = (head.statusLine ++ crlf) ++ (field.line ++
          (fields.map HeaderField.line).flatMap (crlf ++ ·)) := by
      rw [List.append_assoc]
    have hpos : head.statusLine.length + 2 = (head.statusLine ++ crlf).length := by
      rw [List.length_append]
      rfl
    rw [htext, find_crlf_of_noLineEnd hnone]
    dsimp only
    rw [List.take_left, hpos, hshift, headersFrom_lines _ hlines, ← List.map_cons, List.flatMap_map,
      if_neg (List.cons_ne_nil _ _), if_neg (List.cons_ne_nil _ _), readHeaders, hfields]
    simp only [HeaderField.headerOfLine_line, Option.toList_some]
    rw [← List.map_eq_flatMap]

theorem readHeaders_eq_iff (head : ResponseHead) :
    head.readHeaders = head.headers ↔ ∀ field ∈ head.fields, field.value ≠ [] := by
  rw [readHeaders, headers, List.map_inj_left]
  refine forall₂_congr fun field _ => ?_
  by_cases hnil : field.value = []
  · rw [if_pos hnil]
    refine iff_of_false (fun heq => ?_) fun h => h hnil
    have hvalue : lit " " = field.value := congrArg HttpHeader.value heq
    exact absurd (hvalue.trans hnil) (List.cons_ne_nil _ _)
  · rw [if_neg hnil]
    exact iff_of_true rfl hnil

theorem detectContentType_ne_unknown (header : Bytes) : detectContentType header ≠ .unknown := by
  unfold detectContentType
  dsimp only
  split_ifs <;> exact nofun

/-- **The head of a response** is read as it is meant exactly when it has a header or no status line,
no header is empty, none gives the type of the content, and no length but zero is given. -/
theorem sniffResponseHeaders_written_iff (head : ResponseHead) :
    sniffResponseHeaders head.written = head.meant ↔
      (head.fields = [] → head.statusLine = []) ∧ (∀ field ∈ head.fields, field.value ≠ []) ∧
        (∀ field ∈ head.fields, isContentType field.name = false) ∧ head.lastLength.getD 0 = 0 := by
  have htype : head.lastType = none ↔ ∀ field ∈ head.fields, isContentType field.name = false := by
    rw [lastType, List.getLast?_eq_none_iff, List.map_eq_nil_iff, List.filter_eq_nil_iff, headers,
      List.forall_mem_map]
    exact forall₂_congr fun field _ => Bool.eq_false_iff.symm
  rw [sniffResponseHeaders_written, meant, ResponseMetadata.mk.injEq, ← readHeaders_eq_iff, ← htype]
  constructor
  · rintro ⟨hunknown, hlength, -, hstatus, hheaders⟩
    have hnone : head.lastType = none := by
      cases hlast : head.lastType with
      | none => rfl
      | some value =>
        rw [hlast] at hunknown
        exact absurd hunknown.symm (detectContentType_ne_unknown value)
    refine ⟨fun hnil => ?_, ?_, hnone, hlength.symm⟩
    · rw [if_pos hnil] at hstatus
      exact hstatus.symm
    · by_cases hnil : head.fields = []
      · rw [readHeaders, headers, hnil]
        rfl
      · rwa [if_neg hnil] at hheaders
  · rintro ⟨hstatus, hheaders, hnone, hlength⟩
    refine ⟨by rw [hnone]; rfl, hlength.symm, by rw [hnone]; rfl, ?_, ?_⟩
    · by_cases hnil : head.fields = []
      · rw [if_pos hnil, hstatus hnil]
      · rw [if_neg hnil]
    · by_cases hnil : head.fields = []
      · rw [if_pos hnil, hstatus hnil, headers, hnil, headersFrom]
        rfl
      · rw [if_neg hnil, hheaders]

/-- A response with a length. -/
def withLength : ResponseHead where
  statusLine := lit "HTTP/1.1 200 OK"
  statusLine_free := by decide
  fields := [⟨⟨lit "Content-Length", lit "5"⟩, by decide, by decide, by decide⟩]

/-- **The length of the content** is not found. -/
theorem sniffResponseHeaders_withLength_ne :
    ¬ ∀ head : ResponseHead, sniffResponseHeaders head.written = head.meant := by
  intro hall
  have hlength := congrArg ResponseMetadata.contentLength (hall withLength)
  rw [sniffResponseHeaders_written] at hlength
  revert hlength
  decide

end ResponseHead

end Aetheris.Net
