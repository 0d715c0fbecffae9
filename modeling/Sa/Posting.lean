import Sa.Sockets
import Sa.Urls

/-!
# Posting

`http_post_sse` from the URL to the reply: what it connects to, what it writes, and what it
closes. The exchange with a server (`Http`) is what is left of it when the connection is
there (`post_closes`).
-/

namespace Sa.Posting
open Sa.CStrings Sa.NumberTexts Sa.Separation Sa.Programs Sa.Stream Sa.Http Sa.Headers Sa.Urls Sa.Sockets

/-- What the network does: what it finds for a host and a port, which of the writes and
    the flush succeed, and the reply. -/
structure Network (Address : Type) where
  getaddrinfo : Bytes → ℤ → Option (List (Attempt Address))
  writesHead : Bool
  writesBody : Bool
  flushes : Bool
  reply : Io

/-- The lines of `req`. -/
def requestLines (path host api_key : Bytes) (length : ℕ) : List Bytes :=
  [lit "POST " ++ path ++ lit " HTTP/1.1", lit "Host: " ++ host, lit "User-Agent: sa/0.1", lit "Content-Type: application/json",
    lit "Accept: text/event-stream", lit "Anthropic-Version: 2023-06-01", lit "X-API-Key: " ++ api_key,
    lit "Content-Length: " ++ natText length, lit "Connection: close"]

variable {Address : Type}

/-- What is returned and left behind the pointers, and the request when it was written. -/
def http_post_sse (m : Allocator ℕ (Socket Address)) (net : Network Address) (url api_key body : CString) (st : stream_state_t) :
    Net Address (Posted × Option Bytes) :=
  match parse_url url 256 1024 with
  | none => return (⟨-1, 0, st, [], net.reply⟩, none)
  | some ⟨host, port, path⟩ => do
    match ← tcp_connect m (net.getaddrinfo host port) with
    | none => return (⟨-1, 0, st, [], net.reply⟩, none)
    | some fd =>
      let req := blockText (requestLines path host api_key.val body.val.length)
      if 4096 ≤ req.length then
        dealloc fd
        return (⟨-1, 0, st, [], net.reply⟩, none)
      else if net.writesHead && net.writesBody && net.flushes then
        match http_read_headers net.reply 8192 with
        | none =>
          dealloc fd
          return (⟨-1, 0, st, [], net.reply⟩, some (req ++ body.val))
        | some ((status, chunked, clen), io) =>
          if status ≠ 200 then
            let (err_head, io) := errorHead (io.data.length + 1) (RAW_HEAD - 1) io
            dealloc fd
            return (⟨-1, status, st, err_head, io⟩, some (req ++ body.val))
          else
            let (r, st, io) := http_stream_body onChunkOrInterrupt chunked clen st io
            dealloc fd
            return (⟨if r = -2 then -2 else if r < 0 then -1 else 0, status, st, [], io⟩, some (req ++ body.val))
      else
        dealloc fd
        return (⟨-1, 0, st, [], net.reply⟩, none)

/-- The request that is written: the URL is taken, an address of its host answers, the head
    has room in `req`, and the writes succeed. -/
def sent (net : Network Address) (url api_key body : CString) : Option Bytes :=
  (parse_url url 256 1024).bind fun a =>
    ((net.getaddrinfo a.host a.port).bind fun res => res.find? Attempt.answers).bind fun _ =>
      let req := blockText (requestLines a.path a.host api_key.val body.val.length)
      if req.length < 4096 ∧ net.writesHead ∧ net.writesBody ∧ net.flushes then some (req ++ body.val) else none

/-- All that was opened is closed, and what is returned is the exchange's. -/
theorem http_post_sse_spec (m : Allocator ℕ (Socket Address)) (net : Network Address) (url api_key body : CString) (st : stream_state_t) :
    Triple 1 (fun _ => http_post_sse m net url api_key body st)
      fun r => fact (r = (Http.http_post_sse ⟨(sent net url api_key body).isSome, net.reply⟩ st, sent net url api_key body)) * 1 := by
  unfold http_post_sse sent
  rcases parse_url url 256 1024 with _ | ⟨host, port, path⟩
  · exact Triple.pure (le_fact_mul rfl le_rfl)
  rw [← mul_one (1 : Assertion ℕ (Socket Address))]
  refine (tcp_connect_spec m _).call (Triple.connection (fun refused => ?_) fun found fd connected => ?_)
  · rw [Option.bind_some, refused]
    exact Triple.pure (le_fact_mul rfl (le_of_eq (mul_one 1).symm))
  have whole : (net.getaddrinfo host port).bind (fun res => res.find? Attempt.answers) = some found := connected
  simp only [Option.bind_some, whole]
  generalize blockText (requestLines path host api_key.val body.val.length) = req
  by_cases room : 4096 ≤ req.length
  · simp only [if_pos room, not_lt.mpr room, false_and, if_false]
    exact Triple.dealloc (Triple.pure (le_fact_mul rfl (le_of_eq (mul_one 1).symm)))
  simp only [if_neg room, not_le.mp room, true_and]
  by_cases written : net.writesHead ∧ net.writesBody ∧ net.flushes
  · have all : (net.writesHead && net.writesBody && net.flushes) = true := by simp [written]
    simp only [all, if_true, if_pos written, Option.isSome_some]
    unfold Http.http_post_sse
    simp only [if_true]
    cases http_read_headers net.reply 8192 with
    | none => exact Triple.dealloc (Triple.pure (le_fact_mul rfl (le_of_eq (mul_one 1).symm)))
    | some result =>
      obtain ⟨⟨status, chunked, clen⟩, io⟩ := result
      simp only
      split_ifs <;> exact Triple.dealloc (Triple.pure (le_fact_mul rfl (le_of_eq (mul_one 1).symm)))
  · have cut : (net.writesHead && net.writesBody && net.flushes) = false := by
      rw [Bool.eq_false_iff]
      intro all
      exact written (by simpa [and_assoc] using all)
    simp only [cut, Bool.false_eq_true, if_false, if_neg written]
    exact Triple.dealloc (Triple.pure (le_fact_mul rfl (le_of_eq (mul_one 1).symm)))

/-- Whatever the network does, what was open before a request is open after it, and nothing else;
    what is returned is what the exchange gives. -/
theorem post_closes (m : Allocator ℕ (Socket Address)) (net : Network Address) (url api_key body : CString) (st : stream_state_t)
    (opened : Heap ℕ (Socket Address)) :
    http_post_sse m net url api_key body st opened =
      some ((Http.http_post_sse ⟨(sent net url api_key body).isSome, net.reply⟩ st, sent net url api_key body), opened) := by
  obtain ⟨k, runs⟩ := triple_iff_reads.mp (http_post_sse_spec m net url api_key body st) opened
  exact runs k le_rfl

end Sa.Posting
