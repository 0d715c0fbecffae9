import Sa.Stream

/-!
# The HTTP exchange

Reading a reply from the transport: `http_read_headers`, `http_stream_body`,
`http_post_sse` and `do_turn`. The transport delivers the bytes of the reply in
pieces of its own choice and fails when they are used up; a signal may arrive
before any look at `g_interrupt`. What is written to the terminal is left out.
-/

namespace Sa.Http
open Sa.CStrings Sa.NumberTexts Sa.Tinyjson Sa.Parser Sa.Stream

/-- What is still to come of a reply: its bytes, the sizes of the next reads, and
    whether a signal arrives before each of the next looks at `g_interrupt`. -/
structure Io where
  data : Bytes
  cuts : List Nat
  sigs : List Bool
  g_interrupt : Bool
  deriving DecidableEq

/-- A look at `g_interrupt`. -/
def Io.poll (io : Io) : Bool × Io :=
  let now := io.g_interrupt || io.sigs.headD false
  (now, { io with sigs := io.sigs.tail, g_interrupt := now })

/-- How many bytes a read of `len` returns. -/
def readSize (len : Nat) (io : Io) : Nat := max 1 (min len (io.cuts.headD len))

/-- `br_sslio_read`: between one and `len` bytes, and `none` for its `-1`. -/
def br_sslio_read (io : Io) (len : Nat) : Option (Bytes × Io) :=
  if io.data = [] then none
  else some (io.data.take (readSize len io), { io with data := io.data.drop (readSize len io), cuts := io.cuts.tail })

def LONG_MAX : Int := 2 ^ 63 - 1
def LONG_MIN : Int := -2 ^ 63

/-- The digits after an optional `0x`. -/
def skipHexMark (s : Bytes) : Bytes :=
  match s with
  | 48 :: x :: h :: t => if (x = 120 ∨ x = 88) ∧ (hexVal h).isSome then h :: t else s
  | s => s

def digitsOf (base : Nat) (ds : Bytes) : Nat := ds.foldl (fun n b => base * n + (hexVal b).getD 0) 0

/-- `strtol(s, NULL, 16)`, which stops at the ends of the range. -/
def strtol16 (s : Bytes) : Int :=
  let (negative, s) := signOf (s.dropWhile isspace)
  let n : Int := digitsOf 16 ((skipHexMark s).takeWhile fun b => (hexVal b).isSome)
  max LONG_MIN (min LONG_MAX (if negative then -n else n))

/-- `strtol(s, NULL, 10)`. -/
def strtol10 (s : Bytes) : Int :=
  let (negative, s) := signOf (s.dropWhile isspace)
  let n : Int := digitsOf 10 (s.takeWhile isdigit)
  max LONG_MIN (min LONG_MAX (if negative then -n else n))

/-- The conversion of a `long` to an `int`. -/
def asInt (n : Int) : Int := (n + 2 ^ 31) % 2 ^ 32 - 2 ^ 31

/-- `%d` of `sscanf`: a number and what follows it. -/
def scanInt (s : Bytes) : Option (Int × Bytes) :=
  let s := s.dropWhile isspace
  let (_, ds) := signOf s
  if ds.takeWhile isdigit = [] then none else some (asInt (strtol10 s), ds.dropWhile isdigit)

/-- `sscanf(hdr, "HTTP/1.%*d %d", status)`. -/
def scanStatus (hdr : Bytes) : Option Int :=
  if lit "HTTP/1." <+: hdr then
    match scanInt (hdr.drop 7) with
    | none => none
    | some (_, s) => (scanInt s).map Prod.fst
  else none

/-- The line up to `\r\n`, and what follows it. -/
def splitLine : Bytes → Option (Bytes × Bytes)
  | 13 :: 10 :: s => some ([], s)
  | c :: s => (splitLine s).map fun (line, s) => (c :: line, s)
  | [] => none

def toLower (b : UInt8) : UInt8 := if 65 ≤ b ∧ b ≤ 90 then b + 32 else b

/-- `strncasecmp(line, word, strlen(word)) == 0`. -/
def startsNoCase (word line : Bytes) : Bool := (line.take word.length).map toLower == word

/-- The scan of the header lines; `strstr` looks for `chunked` in all that follows
    the start of the line. Each pass drops a line, so `fuel` is the length. -/
def scanHeaders : Nat → Bytes → Bool × Int → Bool × Int
  | 0, _, found => found
  | fuel + 1, line, (chunked, clen) =>
    match splitLine line with
    | none => (chunked, clen)
    | some (_, rest) =>
      if startsNoCase (lit "transfer-encoding:") line then
        scanHeaders fuel rest (chunked || decide (lit "chunked" <:+: line), clen)
      else if startsNoCase (lit "content-length:") line then
        scanHeaders fuel rest (chunked, strtol10 (line.drop 15))
      else scanHeaders fuel rest (chunked, clen)

/-- The bytes up to the blank line, as many as `hdr` holds. -/
def readHeaderBlock : Nat → Bytes → Io → Option (Bytes × Io)
  | 0, _, _ => none
  | room + 1, hdr, io =>
    match br_sslio_read io 1 with
    | none => none
    | some (c, io) =>
      let hdr := hdr ++ c
      if [13, 10, 13, 10] <:+ hdr then some (hdr, io) else readHeaderBlock room hdr io

/-- The status, whether the body is chunked, and its length or `-1`. -/
def http_read_headers (io : Io) (hdr_sz : Nat) : Option ((Int × Bool × Int) × Io) :=
  match readHeaderBlock (hdr_sz - 1) [] io with
  | none => none
  | some (hdr, io) =>
    let hdr := (cstr hdr).val
    match scanStatus hdr with
    | none => none
    | some status => some ((status, scanHeaders hdr.length hdr (false, -1)), io)

section
variable {σ : Type} (cb : σ → Bytes → Io → Option σ × Io)

/-- The bytes of a chunk-size line, as many as `szline` holds. -/
def readSizeLine : Nat → Bytes → Io → Option (Bytes × Io)
  | 0, szline, io => some (szline, io)
  | room + 1, szline, io =>
    match br_sslio_read io 1 with
    | none => none
    | some (c, io) =>
      let szline := szline ++ c
      if [13, 10] <:+ szline then some (szline, io) else readSizeLine room szline io

/-- The loop over the data of a chunk; `0` when all of it was taken. Each pass
    reads a byte at least, so the bytes to come bound the passes. -/
def chunkData : Nat → Nat → σ → Io → Int × σ × Io
  | 0, _, userdata, io => (-1, userdata, io)
  | fuel + 1, remaining, userdata, io =>
    if remaining = 0 then (0, userdata, io)
    else
      let (interrupt, io) := io.poll
      if interrupt then (-2, userdata, io)
      else
        match br_sslio_read io (min remaining 4096) with
        | none => (-1, userdata, io)
        | some (buf, io) =>
          match cb userdata buf io with
          | (none, io) => (-1, userdata, io)
          | (some userdata, io) => chunkData fuel (remaining - buf.length) userdata io

/-- The loop over the chunks. -/
def chunks : Nat → σ → Io → Int × σ × Io
  | 0, userdata, io => (-1, userdata, io)
  | fuel + 1, userdata, io =>
    let (interrupt, io) := io.poll
    if interrupt then (-2, userdata, io)
    else
      match readSizeLine 31 [] io with
      | none => (-1, userdata, io)
      | some (szline, io) =>
        let n := strtol16 (cstr szline).val
        if n < 0 then (-1, userdata, io)
        else if n = 0 then (0, userdata, match br_sslio_read io 2 with | none => io | some (_, io) => io)
        else
          match chunkData cb (io.data.length + 2) n.toNat userdata io with
          | (0, userdata, io) =>
            match br_sslio_read io 2 with
            | none => (-1, userdata, io)
            | some (_, io) => chunks fuel userdata io
          | (code, userdata, io) => (code, userdata, io)

/-- The loop over a body that is not chunked. -/
def plainBody : Nat → Int → Int → σ → Io → Int × σ × Io
  | 0, _, _, userdata, io => (-1, userdata, io)
  | fuel + 1, clen, read_total, userdata, io =>
    let (interrupt, io) := io.poll
    if interrupt then (-2, userdata, io)
    else
      match br_sslio_read io 4096 with
      | none => (-1, userdata, io)
      | some (buf, io) =>
        match cb userdata buf io with
        | (none, io) => (-1, userdata, io)
        | (some userdata, io) =>
          let read_total := read_total + buf.length
          if 0 ≤ clen ∧ clen ≤ read_total then (0, userdata, io) else plainBody fuel clen read_total userdata io

def http_stream_body (chunked : Bool) (clen : Int) (userdata : σ) (io : Io) : Int × σ × Io :=
  if chunked then chunks cb (io.data.length + 2) userdata io
  else plainBody cb (io.data.length + 2) clen 0 userdata io

end

/-- `on_chunk` as a callback: it takes nothing when `g_interrupt` is set. -/
def onChunkOrInterrupt (st : stream_state_t) (ptr : Bytes) (io : Io) : Option stream_state_t × Io :=
  let (interrupt, io) := io.poll
  if interrupt then (none, io) else (some (on_chunk st ptr), io)

/-- The first bytes of an error's body, in reads of 512. -/
def errorHead : Nat → Nat → Io → Bytes × Io
  | 0, _, io => ([], io)
  | fuel + 1, room, io =>
    if room = 0 then ([], io)
    else
      match br_sslio_read io 512 with
      | none => ([], io)
      | some (buf, io) =>
        let (rest, io) := errorHead fuel (room - (buf.take room).length) io
        (buf.take room ++ rest, io)

/-- What a server does with a request: whether it is reached and takes the whole
    request, and what it replies. -/
structure Exchange where
  sent : Bool
  reply : Io

/-- The result of `http_post_sse` with what it leaves behind its pointers. -/
structure Posted where
  code : Int
  status : Int
  st : stream_state_t
  err_head : Bytes
  io : Io

def http_post_sse (ex : Exchange) (st : stream_state_t) : Posted :=
  if ex.sent then
    match http_read_headers ex.reply 8192 with
    | none => ⟨-1, 0, st, [], ex.reply⟩
    | some ((status, chunked, clen), io) =>
      if status ≠ 200 then
        let (err_head, io) := errorHead (io.data.length + 1) (RAW_HEAD - 1) io
        ⟨-1, status, st, err_head, io⟩
      else
        let (r, st, io) := http_stream_body onChunkOrInterrupt chunked clen st io
        ⟨if r = -2 then -2 else if r < 0 then -1 else 0, status, st, [], io⟩
  else ⟨-1, 0, st, [], ex.reply⟩

/-- Whether an error's message is about the size of the context. -/
def contextError (raw_head : Bytes) : Bool :=
  match cJSON_Parse raw_head with
  | none => false
  | some j =>
    match getString (cJSON_GetObjectItem (some j) (cs "error")) "message" with
    | none => false
    | some m => strstr m (cs "context") || strstr m (cs "token") || strstr m (cs "length")

/-- The result code, the stream's state, and what is left of the exchange. -/
def do_turn (ex : Exchange) (st : stream_state_t) : Int × stream_state_t × Io :=
  let post := http_post_sse ex st
  let (interrupt, io) := post.io.poll
  if interrupt then (-2, post.st, io)
  else if post.code = -2 then (-2, post.st, io)
  else if post.code < 0 ∧ post.status = 0 then (-1, post.st, io)
  else if post.status ≠ 200 then (if contextError post.err_head then -3 else -1, post.st, io)
  else (0, post.st, io)

theorem read_byte {io : Io} {c : UInt8} {rest : Bytes} (data : io.data = c :: rest) :
    br_sslio_read io 1 = some ([c], { io with data := rest, cuts := io.cuts.tail }) := by
  have size : readSize 1 io = 1 := by
    unfold readSize
    omega
  simp [br_sslio_read, data, size]

/-- A loop that reads byte by byte until it has the end of a text takes all of the text, if the
    buffer holds it and the end comes once. -/
theorem read_until (ends : Bytes) (loop : ℕ → Bytes → Io → Option (Bytes × Io))
    (pass : ∀ room held io, loop (room + 1) held io = match br_sslio_read io 1 with
      | none => none
      | some (c, io) => if ends <:+ held ++ c then some (held ++ c, io) else loop room (held ++ c) io)
    (text : Bytes) : ∀ (room : ℕ) (held rest : Bytes) (io : Io), io.data = text ++ rest → text ≠ [] → text.length ≤ room →
      ends <:+ held ++ text → (∀ p q, held ++ text = p ++ ends ++ q → q = []) →
      ∃ cuts, loop room held io = some (held ++ text, { io with data := rest, cuts := cuts }) := by
  induction text with
  | nil => intro room held rest io _ some; exact absurd rfl some
  | cons c text ih =>
    intro room held rest io data _ enough last once
    obtain ⟨room, rfl⟩ : ∃ r, room = r + 1 := ⟨room - 1, by simp at enough; omega⟩
    simp only [pass, read_byte data]
    by_cases empty : text = []
    · subst empty
      exact ⟨io.cuts.tail, if_pos last⟩
    · have going : ¬ends <:+ held ++ [c] := by
        rintro ⟨p, early⟩
        refine empty (once p text ?_)
        rw [early, List.append_cons]
      rw [if_neg going]
      obtain ⟨cuts, loop'⟩ := ih room (held ++ [c]) rest { io with data := text ++ rest, cuts := io.cuts.tail } rfl empty
        (by simp at enough; omega) (by simpa using last) (by simpa using once)
      exact ⟨cuts, by simpa using loop'⟩

end Sa.Http
