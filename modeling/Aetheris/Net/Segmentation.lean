import Aetheris.Net.HttpClient

/-!
# The response does not depend on how the bytes arrive

`request_once` reads headers and body in three loops, which stop at different places.  What they
have read at the end is a function of the bytes alone, whatever the pieces in which `recv` gives
them: for each loop what it has read is a part of the stream that can be said without the pieces,
and the response is made from these parts.
-/

namespace Aetheris.Net

/-- The results of `recv` are the bytes, in pieces of 1 to 4096, and then no bytes. -/
def Arrives (stream : Bytes) (received : List (Option Bytes)) : Prop :=
  ∃ (pieces : List Bytes) (rest : List (Option Bytes)),
    received = pieces.map some ++ some [] :: rest ∧ pieces.flatten = stream ∧
      ∀ piece ∈ pieces, 1 ≤ piece.length ∧ piece.length ≤ 4096

theorem find_of_find_append {text rest needle : Bytes} {i : ℕ}
    (h : find (text ++ rest) needle = some i) (hle : i + needle.length ≤ text.length) :
    find text needle = some i := by
  obtain ⟨-, hpre, hfirst⟩ := find_eq_some_iff.mp h
  have hi : i ≤ text.length := (Nat.le_add_right _ _).trans hle
  refine find_eq_some_iff.mpr ⟨hi, ?_, fun j hj hpre' => hfirst j hj ?_⟩
  · rw [List.drop_append_of_le_length hi] at hpre
    refine List.prefix_of_prefix_length_le hpre (List.prefix_append _ _) ?_
    rw [List.length_drop]
    omega
  · rw [List.drop_append_of_le_length ((Nat.le_of_lt hj).trans hi)]
    exact hpre'.trans (List.prefix_append _ _)

/-! ## The loops -/

theorem readHeaders_of_find {out : Bytes} {e : ℕ} (h : find out headerEnd = some e)
    (received : List (Option Bytes)) : readHeaders received out = .ok (out, received) := by
  rw [readHeaders.eq_def, h, if_pos Option.isSome_some]

/-- The loop over the headers stops behind them, wherever the pieces are cut: by induction on the
pieces that are still to come. -/
theorem readHeaders_of_arrives {pieces : List Bytes} {out : Bytes} {e : ℕ}
    (hne : ∀ piece ∈ pieces, piece ≠ []) (hfind : find (out ++ pieces.flatten) headerEnd = some e)
    (hle : e + 4 ≤ 256 * 1024) (tail : List (Option Bytes)) :
    ∃ front back, pieces = front ++ back ∧
      readHeaders (pieces.map some ++ tail) out =
        .ok (out ++ front.flatten, back.map some ++ tail) ∧
      find (out ++ front.flatten) headerEnd = some e := by
  induction pieces generalizing out with
  | nil =>
    rw [List.flatten_nil] at hfind
    refine ⟨[], [], rfl, ?_, hfind⟩
    rw [List.append_nil] at hfind
    rw [readHeaders_of_find hfind, List.flatten_nil, List.append_nil]
  | cons piece pieces ih =>
    cases hout : find out headerEnd with
    | some i =>
      have heq : some i = some e := (find_append hout _).symm.trans hfind
      refine ⟨[], piece :: pieces, rfl, ?_, ?_⟩
      · rw [readHeaders_of_find hout, List.flatten_nil, List.append_nil]
      · rw [List.flatten_nil, List.append_nil, hout, heq]
    | none =>
      have hflatten : out ++ (piece :: pieces).flatten = out ++ piece ++ pieces.flatten := by
        rw [List.flatten_cons, List.append_assoc]
      rw [hflatten] at hfind
      have hsmall : ¬ (256 * 1024 < (out ++ piece).length ∧
          (find (out ++ piece) headerEnd).isNone) := by
        rintro ⟨hlt, hnone⟩
        have hlength : headerEnd.length = 4 := rfl
        rw [find_of_find_append hfind (by omega)] at hnone
        cases hnone
      obtain ⟨front, back, hsplit, hread, hfront⟩ :=
        ih (fun p hp => hne p (List.mem_cons_of_mem _ hp)) hfind
      refine ⟨piece :: front, back, by rw [hsplit, List.cons_append], ?_, ?_⟩
      · rw [List.map_cons, List.cons_append, readHeaders, hout,
          if_neg (fun h => nomatch h)]
        rw [if_neg (hne piece List.mem_cons_self), if_neg hsmall, hread, List.flatten_cons,
          List.append_assoc]
      · rw [List.flatten_cons, ← List.append_assoc]
        exact hfront

theorem readRemaining_of_arrives {pieces : List Bytes} (hne : ∀ piece ∈ pieces, piece ≠ [])
    (rest : List (Option Bytes)) (out : Bytes) :
    readRemaining (pieces.map some ++ some [] :: rest) out = out ++ pieces.flatten := by
  induction pieces generalizing out with
  | nil =>
    rw [List.map_nil, List.nil_append, readRemaining, if_neg (fun h => h rfl), List.flatten_nil,
      List.append_nil]
  | cons piece pieces ih =>
    rw [List.map_cons, List.cons_append, readRemaining, if_pos (hne piece List.mem_cons_self),
      ih fun p hp => hne p (List.mem_cons_of_mem _ hp), List.flatten_cons, List.append_assoc]

/-- As far as it is used, what `read_until` has read is the start of the bytes. -/
theorem take_readUntil_of_arrives {pieces : List Bytes} (hne : ∀ piece ∈ pieces, piece ≠ [])
    (rest : List (Option Bytes)) (wanted : ℕ) (out : Bytes) :
    (readUntil wanted (pieces.map some ++ some [] :: rest) out).take wanted =
      (out ++ pieces.flatten).take wanted := by
  induction pieces generalizing out with
  | nil =>
    rw [List.map_nil, List.nil_append, readUntil, if_neg (fun h => h.2 rfl), List.flatten_nil,
      List.append_nil]
  | cons piece pieces ih =>
    rw [List.map_cons, List.cons_append, readUntil]
    by_cases hlt : out.length < wanted
    · rw [if_pos ⟨hlt, hne piece List.mem_cons_self⟩,
        ih fun p hp => hne p (List.mem_cons_of_mem _ hp), List.flatten_cons, List.append_assoc]
    · rw [if_neg fun h => hlt h.1, List.take_append_of_le_length (Nat.not_lt.mp hlt)]

/-! ## The response to the bytes -/

/-- The body in the bytes behind the headers. -/
def bodyOf (fuel : ℕ) (response : HttpResponseData) (rest : Bytes) : Option Bytes :=
  if lowerEquals (response.header (lit "Transfer-Encoding")) (lit "chunked") then
    decodeChunked fuel rest
  else
    let contentLength := response.header (lit "Content-Length")
    if contentLength ≠ [] then some (rest.take (parseSize contentLength))
    else some rest

/-- The response to the bytes, whose headers end at `e`. -/
def responseTo (fuel : ℕ) (stream : Bytes) (e : ℕ) : Option HttpResponseData :=
  let metadata := parseResponseHeaders (stream.take (e + 4))
  let response : HttpResponseData :=
    { status := statusOf metadata.1, statusLine := metadata.1, headers := metadata.2 }
  (bodyOf fuel response (stream.drop (e + 4))).map fun body => { response with body := body }

theorem readBody_of_arrives {pieces : List Bytes} (hne : ∀ piece ∈ pieces, piece ≠ [])
    (rest : List (Option Bytes)) (fuel : ℕ) (response : HttpResponseData) (remainder : Bytes) :
    readBody fuel response (pieces.map some ++ some [] :: rest) remainder =
      bodyOf fuel response (remainder ++ pieces.flatten) := by
  rw [readBody, bodyOf, readRemaining_of_arrives hne]
  dsimp only
  rw [take_readUntil_of_arrives hne]

/-- **What is read is a function of the bytes.** -/
theorem readResponse_of_arrives {stream : Bytes} {received : List (Option Bytes)}
    (h : Arrives stream received) {e : ℕ} (hfind : find stream headerEnd = some e)
    (hle : e + 4 ≤ 256 * 1024) (fuel : ℕ) :
    readResponse fuel received = responseTo fuel stream e := by
  obtain ⟨pieces, rest, rfl, rfl, hpieces⟩ := h
  have hne : ∀ piece ∈ pieces, piece ≠ [] := fun piece hpiece =>
    List.ne_nil_of_length_pos (hpieces piece hpiece).1
  rw [← List.nil_append pieces.flatten] at hfind
  obtain ⟨front, back, rfl, hread, hfront⟩ :=
    readHeaders_of_arrives hne hfind hle (some [] :: rest)
  rw [List.nil_append] at hread hfront
  have hlen := (find_add_length_le hfront).1
  change e + 4 ≤ _ at hlen
  rw [readResponse, hread]
  dsimp only
  rw [hfront]
  dsimp only
  rw [readBody_of_arrives fun piece hpiece => hne piece (List.mem_append_right _ hpiece),
    responseTo, List.flatten_append, List.take_append_of_le_length hlen,
    List.drop_append_of_le_length hlen]

/-- **Two ways in which the same bytes arrive** lead to the same response and the same cookies. -/
theorem requestOnce_eq_of_arrives (fuel : ℕ) (connection : Connection) (s : RequestState)
    (stream : Bytes) (received : List (Option Bytes)) (e : ℕ)
    (hconnection : Arrives stream connection.received) (hreceived : Arrives stream received)
    (hfind : find stream headerEnd = some e) (hle : e + 4 ≤ 256 * 1024) :
    requestOnce fuel connection s = requestOnce fuel { connection with received := received } s := by
  have hread : readResponse fuel connection.received = readResponse fuel received := by
    rw [readResponse_of_arrives hconnection hfind hle, readResponse_of_arrives hreceived hfind hle]
  have herror : connectError (parseHttpUrl s.url) { connection with received := received } =
      connectError (parseHttpUrl s.url) connection := rfl
  rw [requestOnce, requestOnce, herror, hread]

/-- The empty line behind the headers is cut in two. -/
theorem requestOnce_eq_cut :
    requestOnce 9
      ⟨false, none, true, true, [some (lit "HTTP/1.1 200 OK\r\nA: b\r\n\r\nhi"), some []]⟩
      ⟨lit "http://h/", lit "GET", [], []⟩ =
    requestOnce 9
      ⟨false, none, true, true,
        [some (lit "HTTP/1.1 200 OK\r\nA: b\r\n\r"), some (lit "\nh"), some (lit "i"), some []]⟩
      ⟨lit "http://h/", lit "GET", [], []⟩ :=
  requestOnce_eq_of_arrives 9 _ _ (lit "HTTP/1.1 200 OK\r\nA: b\r\n\r\nhi") _ 21
    ⟨[lit "HTTP/1.1 200 OK\r\nA: b\r\n\r\nhi"], [], rfl, by decide, by decide⟩
    ⟨[lit "HTTP/1.1 200 OK\r\nA: b\r\n\r", lit "\nh", lit "i"], [], rfl, by decide, by decide⟩
    (by decide +kernel) (by decide)

end Aetheris.Net
