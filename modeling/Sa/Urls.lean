import Sa.Headers

/-!
# The address of a request

`main` puts the URL together, `parse_url` takes it apart. What a URL of the
program is stands beside the code as a grammar of its parts; the code reads the
port with `atoi`, and what that takes beyond the grammar is described here as well.
-/

namespace Sa.Urls
open Sa.CStrings Sa.NumberTexts Sa.Http Sa.Headers

/-- `strchr`: the text from the first `c` on. -/
def strchr (s : Bytes) (c : UInt8) : Option Bytes :=
  match s.dropWhile (· != c) with
  | [] => none
  | rest => some rest

/-- `atoi`, which is `(int)strtol(s, NULL, 10)`. -/
def atoi (s : Bytes) : Int := asInt (strtol10 s)

/-- What `parse_url` leaves in `host`, `*port` and `path`. -/
structure Address where
  host : Bytes
  port : Int
  path : Bytes
  deriving DecidableEq

def parse_url (url : CString) (host_sz path_sz : Nat) : Option Address :=
  if ¬ lit "https://" <+: url.val then none
  else
    let p := url.val.drop 8
    let slash := strchr p 47
    let hostlen := match slash with
      | some rest => p.length - rest.length
      | none => p.length
    if hostlen = 0 ∨ hostlen ≥ host_sz then none
    else
      let host := p.take hostlen
      let path := (slash.getD (lit "/")).take (path_sz - 1)
      match strchr host 58 with
      | none => some ⟨host, 443, path⟩
      | some colon =>
        let port := atoi (colon.drop 1)
        if port ≤ 0 ∨ port > 65535 then none
        else some ⟨host.take (host.length - colon.length), port, path⟩

/-- The parts of a URL; the port is its digits, the path has its slash. -/
structure Parts where
  host : Bytes
  port : Option Bytes
  path : Option Bytes

/-- The colon and the port. -/
def Parts.portText (u : Parts) : Bytes := match u.port with
  | none => []
  | some digits => 58 :: digits

def Parts.text (u : Parts) : Bytes := lit "https://" ++ (u.host ++ u.portText ++ u.path.getD [])

/-- The parts the grammar allows, with room for the authority in `host[256]`. -/
structure Parts.Valid (u : Parts) : Prop where
  host : u.host ≠ [] ∧ 58 ∉ u.host ∧ 47 ∉ u.host
  port : ∀ digits ∈ u.port, digits.all isdigit ∧ 1 ≤ digitsOf 10 digits ∧ digitsOf 10 digits ≤ 65535
  path : ∀ path ∈ u.path, path.head? = some 47
  room : (u.host ++ u.portText).length < 256

/-- Host, port and path of the parts, with what stands for absent ones. -/
def Parts.address (u : Parts) : Address where
  host := u.host
  port := match u.port with
    | none => 443
    | some digits => digitsOf 10 digits
  path := u.path.getD [47]

/-- `parse_url`, with the buffers of `http_post_sse`, takes the URL just when the
    grammar gives it, and as the parts it has there. -/
def ParsedByGrammar (url : CString) : Prop :=
  ∀ a, parse_url url 256 1024 = some a ↔ ∃ u : Parts, u.Valid ∧ u.text = url.val ∧ u.address = a

/-- A text as `atoi` reads it. -/
structure Numeral where
  blanks : Bytes
  sign : Bytes
  digits : Bytes
  rest : Bytes

def Numeral.text (t : Numeral) : Bytes := t.blanks ++ (t.sign ++ (t.digits ++ t.rest))

structure Numeral.Valid (t : Numeral) : Prop where
  blanks : t.blanks.all isspace
  sign : t.sign = [] ∨ t.sign = [43] ∨ t.sign = [45]
  digits : t.digits ≠ [] ∧ t.digits.all isdigit
  rest : ∀ b ∈ t.rest.head?, isdigit b = false

def Numeral.value (t : Numeral) : Int := if t.sign = [45] then -digitsOf 10 t.digits else digitsOf 10 t.digits

/-- The number is in the range of a `long` and what an `int` keeps of it is a port. -/
def Numeral.Port (t : Numeral) : Prop :=
  LONG_MIN ≤ t.value ∧ t.value ≤ LONG_MAX ∧ 1 ≤ t.value % 2 ^ 32 ∧ t.value % 2 ^ 32 ≤ 65535

/-- The URL has a port outside the grammar, or none of a host before it, and `atoi`
    still reads that port as one. -/
structure Lenient (url : Bytes) (host path : Bytes) (t : Numeral) : Prop where
  text : url = lit "https://" ++ (host ++ 58 :: t.text ++ path)
  plain : 58 ∉ host ∧ 47 ∉ host
  authority : 47 ∉ t.text
  slash : path = [] ∨ path.head? = some 47
  room : (host ++ 58 :: t.text).length < 256
  numeral : t.Valid
  port : t.Port
  outside : host = [] ∨ t.blanks ≠ [] ∨ t.sign ≠ [] ∨ t.rest ≠ [] ∨ 65535 < t.value

/-- A text cut where `c` stands first. -/
theorem cut_at {c : UInt8} {a b : Bytes} (apart : c ∉ a) (starts : b = [] ∨ b.head? = some c) :
    (a ++ b).takeWhile (· != c) = a ∧ (a ++ b).dropWhile (· != c) = b := by
  have all : ∀ x ∈ a, (x != c) = true := by
    intro x member
    have other : x ≠ c := fun same => apart (same ▸ member)
    simpa using other
  rw [List.takeWhile_append_of_pos all, List.dropWhile_append_of_pos all]
  rcases starts with rfl | starts
  · simp
  · cases b with
    | nil => simp
    | cons x b =>
      have same : x = c := by simpa using starts
      simp [same]

theorem cut_unique {c : UInt8} {a b a' b' : Bytes} (apart : c ∉ a) (starts : b = [] ∨ b.head? = some c)
    (apart' : c ∉ a') (starts' : b' = [] ∨ b'.head? = some c) (same : a ++ b = a' ++ b') : a = a' ∧ b = b' := by
  have first := cut_at apart starts
  have second := cut_at apart' starts'
  rw [same] at first
  exact ⟨first.1.symm.trans second.1, first.2.symm.trans second.2⟩

/-- Every text is cut at the first `c`. -/
theorem cut_exists (c : UInt8) (s : Bytes) : ∃ a b, s = a ++ b ∧ c ∉ a ∧ (b = [] ∨ b.head? = some c) := by
  refine ⟨s.takeWhile (· != c), s.dropWhile (· != c), (List.takeWhile_append_dropWhile).symm, ?_, ?_⟩
  · intro member
    have other := List.mem_takeWhile_imp member
    simp at other
  · cases rest : s.dropWhile (· != c) with
    | nil => exact Or.inl rfl
    | cons x b =>
      have stop := List.head_dropWhile_not (· != c) (l := s) (by simp [rest])
      have same : x = c := by simpa [rest] using stop
      exact Or.inr (by simp [same])

theorem strchr_append {c : UInt8} {a b : Bytes} (apart : c ∉ a) (starts : b = [] ∨ b.head? = some c) :
    strchr (a ++ b) c = if b = [] then none else some b := by
  unfold strchr
  rw [(cut_at apart starts).2]
  cases b <;> simp

theorem strtol10_numeral {t : Numeral} (valid : t.Valid) : strtol10 t.text = max LONG_MIN (min LONG_MAX t.value) := by
  obtain ⟨blanks, sign, digits, rest⟩ := t
  obtain ⟨spaces, signs, ⟨some, all⟩, apart⟩ := valid
  simp only at spaces signs some all apart
  obtain ⟨d, ds, rfl⟩ := List.exists_cons_of_ne_nil some
  have digit : isdigit d := by
    simp only [List.all_cons, Bool.and_eq_true] at all
    exact all.1
  have taken : (d :: (ds ++ rest)).takeWhile isdigit = d :: ds := (takeWhile_digits all apart).1
  have unsigned : signOf (d :: ds ++ rest) = (false, d :: ds ++ rest) := signOf_digit digit _
  have skipped : (blanks ++ (sign ++ (d :: ds ++ rest))).dropWhile isspace = sign ++ (d :: ds ++ rest) := by
    rw [List.dropWhile_append_of_pos (by simpa using spaces)]
    rcases signs with rfl | rfl | rfl
    · exact List.dropWhile_cons_of_neg (by simp [(isdigit_plain digit).1])
    · exact List.dropWhile_cons_of_neg (by decide)
    · exact List.dropWhile_cons_of_neg (by decide)
  unfold Http.strtol10 Numeral.text Numeral.value
  rw [skipped]
  rcases signs with rfl | rfl | rfl
  · rw [List.nil_append, unsigned]
    simp [taken]
  · simp [signOf, taken]
  · simp [signOf, taken]

/-- Which numerals come out of `atoi` as a port, and as which. -/
theorem atoi_numeral {t : Numeral} (valid : t.Valid) :
    (1 ≤ atoi t.text ∧ atoi t.text ≤ 65535 ↔ t.Port) ∧ (t.Port → atoi t.text = t.value % 2 ^ 32) := by
  have read : atoi t.text = (max LONG_MIN (min LONG_MAX t.value) + 2 ^ 31) % 2 ^ 32 - 2 ^ 31 := by
    rw [atoi, asInt, strtol10_numeral valid]
  unfold Numeral.Port
  rw [read]
  simp only [LONG_MIN, LONG_MAX]
  omega

/-- What is no numeral reads as 0. -/
theorem numeral_exists {s : Bytes} (nonzero : atoi s ≠ 0) : ∃ t : Numeral, t.Valid ∧ t.text = s := by
  have parts : s = s.takeWhile isspace ++ s.dropWhile isspace := (List.takeWhile_append_dropWhile).symm
  have spaces : (s.takeWhile isspace).all isspace := by
    rw [List.all_eq_true]
    exact fun b member => List.mem_takeWhile_imp member
  obtain ⟨sign, u, split, signs, read⟩ : ∃ sign u, s.dropWhile isspace = sign ++ u ∧
      (sign = [] ∨ sign = [43] ∨ sign = [45]) ∧ (signOf (s.dropWhile isspace)).2 = u := by
    unfold signOf
    split
    · next rest same => exact ⟨[45], rest, same, by simp, rfl⟩
    · next rest same => exact ⟨[43], rest, same, by simp, rfl⟩
    · exact ⟨[], _, rfl, by simp, rfl⟩
  refine ⟨⟨s.takeWhile isspace, sign, u.takeWhile isdigit, u.dropWhile isdigit⟩, ⟨spaces, signs, ⟨?_, ?_⟩, ?_⟩, ?_⟩
  · intro none
    apply nonzero
    change u.takeWhile isdigit = [] at none
    simp [atoi, Http.strtol10, read, none, digitsOf, asInt, LONG_MAX, LONG_MIN]
  · rw [List.all_eq_true]
    exact fun b member => List.mem_takeWhile_imp member
  · intro b first
    cases rest : u.dropWhile isdigit with
    | nil => simp [rest] at first
    | cons x rest' =>
      have stop := List.head_dropWhile_not isdigit (l := u) (by simp [rest])
      have same : x = b := by simpa [rest] using first
      simpa [rest, same] using stop
  · simp only [Numeral.text]
    rw [List.takeWhile_append_dropWhile, ← split, ← parts]

/-- The outcome for the authority `a` and what follows it. -/
theorem parse_url_parts {url : CString} {a path : Bytes} (text : url.val = lit "https://" ++ (a ++ path)) (apart : 47 ∉ a)
    (slash : path = [] ∨ path.head? = some 47) (short : path.length < 1024) :
    parse_url url 256 1024 = if a = [] ∨ 256 ≤ a.length then none else
      match strchr a 58 with
      | none => some ⟨a, 443, if path = [] then [47] else path⟩
      | some colon =>
        if atoi (colon.drop 1) ≤ 0 ∨ atoi (colon.drop 1) > 65535 then none
        else some ⟨a.take (a.length - colon.length), atoi (colon.drop 1), if path = [] then [47] else path⟩ := by
  have scheme : lit "https://" <+: url.val := ⟨_, text.symm⟩
  have dropped : url.val.drop 8 = a ++ path := by
    rw [text]
    rfl
  have found := strchr_append apart slash
  have whole : path.take 1023 = path := List.take_of_length_le (by omega)
  unfold parse_url
  rw [if_neg (by simpa using scheme)]
  simp only [dropped, found]
  by_cases empty : path = []
  · subst empty
    have root : lit "/" = [47] := rfl
    simp [← List.length_eq_zero_iff, root]
  · simp [empty, ← List.length_eq_zero_iff, whole]

/-- Without a colon the authority is the host. -/
theorem parse_url_host {url : CString} {a path : Bytes} (text : url.val = lit "https://" ++ (a ++ path)) (apart : 47 ∉ a)
    (slash : path = [] ∨ path.head? = some 47) (short : path.length < 1024) (plain : 58 ∉ a) :
    parse_url url 256 1024 =
      if a = [] ∨ 256 ≤ a.length then none else some ⟨a, 443, if path = [] then [47] else path⟩ := by
  have none := strchr_append (b := []) plain (Or.inl rfl)
  rw [List.append_nil, if_pos rfl] at none
  rw [parse_url_parts text apart slash short, none]

/-- With one, the port is what `atoi` makes of the text after it. -/
theorem parse_url_port {url : CString} {host t path : Bytes} (text : url.val = lit "https://" ++ (host ++ 58 :: t ++ path))
    (apart : 47 ∉ host ∧ 47 ∉ t) (slash : path = [] ∨ path.head? = some 47) (short : path.length < 1024) (plain : 58 ∉ host) :
    parse_url url 256 1024 =
      if 256 ≤ (host ++ 58 :: t).length ∨ ¬(1 ≤ atoi t ∧ atoi t ≤ 65535) then none
      else some ⟨host, atoi t, if path = [] then [47] else path⟩ := by
  have found := strchr_append (b := 58 :: t) plain (Or.inr rfl)
  rw [if_neg (List.cons_ne_nil _ _)] at found
  have back : (host ++ 58 :: t).take ((host ++ 58 :: t).length - (58 :: t).length) = host := by simp
  rw [parse_url_parts text (by simpa using apart) slash short, found]
  simp only [back, List.drop_succ_cons, List.drop_zero, List.append_eq_nil_iff, reduceCtorEq, and_false, false_or]
  by_cases long : 256 ≤ (host ++ 58 :: t).length
  · rw [if_pos long, if_pos (Or.inl long)]
  · rw [if_neg long]
    exact if_congr (by simp only [long, false_or]; omega) rfl rfl

/-! ### The grammar and the code -/

theorem value_unsigned {t : Numeral} (unsigned : t.sign = []) : t.value = digitsOf 10 t.digits := by
  simp [Numeral.value, unsigned]

/-- A port of digits only. -/
theorem atoi_digits {digits : Bytes} (all : digits.all isdigit) (least : 1 ≤ digitsOf 10 digits)
    (most : digitsOf 10 digits ≤ 65535) : atoi digits = digitsOf 10 digits := by
  have some : digits ≠ [] := by
    rintro rfl
    simp [digitsOf] at least
  have valid : (Numeral.mk [] [] digits []).Valid := ⟨by simp, by simp, ⟨some, all⟩, by simp⟩
  have value : (Numeral.mk [] [] digits []).value = digitsOf 10 digits := value_unsigned rfl
  have port : (Numeral.mk [] [] digits []).Port := by
    simp only [Numeral.Port, value, LONG_MIN, LONG_MAX]
    omega
  have read := (atoi_numeral valid).2 port
  rw [value] at read
  simp only [Numeral.text, List.nil_append, List.append_nil] at read
  rw [read]
  omega

/-- What the grammar gives, `parse_url` takes apart. -/
theorem grammar_taken {url : CString} {u : Parts} (short : url.val.length < 1024) (valid : u.Valid) (text : u.text = url.val) :
    parse_url url 256 1024 = some u.address := by
  obtain ⟨host, port, path⟩ := u
  obtain ⟨⟨named, colon, slash⟩, ports, paths, room⟩ := valid
  simp only [Parts.text, Parts.portText] at text room named colon slash ports paths
  have starts : path.getD [] = [] ∨ (path.getD []).head? = some 47 := by
    cases path with
    | none => exact Or.inl rfl
    | some path => exact Or.inr (paths path rfl)
  have bound : (path.getD []).length < 1024 := by
    have length := congrArg List.length text
    simp only [List.length_append] at length
    omega
  have rooted : (if path.getD [] = [] then [47] else path.getD []) = path.getD [47] := by
    cases path with
    | none => rfl
    | some path =>
      have first := paths path rfl
      cases path with
      | nil => simp at first
      | cons x path => rfl
  cases port with
  | none =>
    simp only [List.append_nil] at text room
    rw [parse_url_host text.symm slash starts bound colon, if_neg (by simp [named, room]), rooted]
    rfl
  | some digits =>
    obtain ⟨all, least, most⟩ := ports digits rfl
    have apart : 47 ∉ digits := by
      intro member
      have digit := List.all_eq_true.mp all 47 member
      simp [isdigit] at digit
    have read := atoi_digits all least most
    have inside : (host ++ 58 :: digits).length < 256 := room
    rw [parse_url_port text.symm ⟨slash, apart⟩ starts bound colon, if_neg (by simp only [read]; omega), rooted, read]
    rfl

/-- The parts of a URL with a port are found again. -/
theorem parts_unique {u : Parts} {host t path : Bytes} (valid : u.Valid)
    (same : u.text = lit "https://" ++ (host ++ 58 :: t ++ path)) (plain : 58 ∉ host ∧ 47 ∉ host) (apart : 47 ∉ t)
    (slash : path = [] ∨ path.head? = some 47) : u.host = host ∧ u.port = some t := by
  have starts : u.path.getD [] = [] ∨ (u.path.getD []).head? = some 47 := by
    cases given : u.path with
    | none => exact Or.inl rfl
    | some path => exact Or.inr (valid.path path given)
  have free : 47 ∉ u.host ++ u.portText := by
    cases given : u.port with
    | none => simpa [Parts.portText, given] using valid.host.2.2
    | some digits =>
      have all := (valid.port digits given).1
      have digit : 47 ∉ digits := fun member => by simpa [isdigit] using List.all_eq_true.mp all 47 member
      simpa [Parts.portText, given, digit] using valid.host.2.2
  have rest := List.append_cancel_left same
  have authority := (cut_unique free starts (by simpa using ⟨plain.2, apart⟩) slash rest).1
  have colon : u.portText = [] ∨ u.portText.head? = some 58 := by
    unfold Parts.portText
    cases u.port with
    | none => exact Or.inl rfl
    | some digits => exact Or.inr rfl
  obtain ⟨hosts, ports⟩ := cut_unique valid.host.2.1 colon plain.1 (Or.inr rfl) authority
  refine ⟨hosts, ?_⟩
  unfold Parts.portText at ports
  cases given : u.port with
  | none => simp [given] at ports
  | some digits => simpa [given] using ports

/-- A lenient URL is taken, and the grammar does not give it. -/
theorem lenient_refuted {url : CString} {host path : Bytes} {t : Numeral} (short : url.val.length < 1024)
    (lenient : Lenient url.val host path t) : ¬ParsedByGrammar url := by
  intro exact
  have bound : path.length < 1024 := by
    have length := congrArg List.length lenient.text
    simp only [List.length_append] at length
    omega
  have taken := parse_url_port lenient.text ⟨lenient.plain.2, lenient.authority⟩ lenient.slash bound lenient.plain.1
  have port := (atoi_numeral lenient.numeral).1.mpr lenient.port
  rw [if_neg (by simp only [not_or, not_le, not_not]; exact ⟨lenient.room, port⟩)] at taken
  obtain ⟨u, valid, same, -⟩ := (exact _).mp taken
  obtain ⟨hosts, ports⟩ := parts_unique valid (same.trans lenient.text) lenient.plain lenient.authority lenient.slash
  obtain ⟨all, least, most⟩ := valid.port _ ports
  have digit : ∀ b ∈ t.text, isdigit b = true := List.all_eq_true.mp all
  have noBlank : t.blanks = [] := by
    rw [List.eq_nil_iff_forall_not_mem]
    intro b member
    have space := List.all_eq_true.mp lenient.numeral.blanks b member
    have plain := (isdigit_plain (digit b (by simp [Numeral.text, member]))).1
    simp [space] at plain
  have noSign : t.sign = [] := by
    rcases lenient.numeral.sign with none | plus | minus
    · exact none
    · have plain := digit 43 (by simp [Numeral.text, plus])
      simp [isdigit] at plain
    · have plain := digit 45 (by simp [Numeral.text, minus])
      simp [isdigit] at plain
  have noRest : t.rest = [] := by
    cases given : t.rest with
    | nil => rfl
    | cons b rest =>
      have stop := lenient.numeral.rest b (by simp [given])
      simp [digit b (by simp [Numeral.text, given])] at stop
  have digits : t.text = t.digits := by simp [Numeral.text, noBlank, noSign, noRest]
  have value := value_unsigned noSign
  rw [digits] at most
  rcases lenient.outside with empty | blank | signed | more | large
  · exact valid.host.1 (hosts.trans empty)
  · exact blank noBlank
  · exact signed noSign
  · exact more noRest
  · omega

/-- The path as the grammar has it. -/
def pathPart (path : Bytes) : Option Bytes := if path = [] then none else some path

@[simp] theorem pathPart_text (path : Bytes) : (pathPart path).getD [] = path := by
  by_cases empty : path = [] <;> simp [pathPart, empty]

@[simp] theorem pathPart_rooted (path : Bytes) : (pathPart path).getD [47] = if path = [] then [47] else path := by
  by_cases empty : path = [] <;> simp [pathPart, empty]

theorem pathPart_starts {path : Bytes} (slash : path = [] ∨ path.head? = some 47) : ∀ p ∈ pathPart path, p.head? = some 47 := by
  by_cases empty : path = []
  · simp [pathPart, empty]
  · simpa [pathPart, empty] using slash

/-- What is taken without a port has a host and perhaps a path. -/
theorem taken_host {url : CString} {host path : Bytes} {a : Address} (text : url.val = lit "https://" ++ (host ++ path))
    (apart : 47 ∉ host) (slash : path = [] ∨ path.head? = some 47) (short : path.length < 1024) (plain : 58 ∉ host)
    (taken : parse_url url 256 1024 = some a) : ∃ u : Parts, u.Valid ∧ u.text = url.val ∧ u.address = a := by
  rw [parse_url_host text apart slash short plain] at taken
  split at taken
  · simp at taken
  · next fits =>
    simp only [not_or, not_le] at fits
    refine ⟨⟨host, none, pathPart path⟩, ⟨⟨fits.1, plain, apart⟩, by simp, pathPart_starts slash, ?_⟩, ?_, ?_⟩
    · simpa [Parts.portText] using fits.2
    · simpa [Parts.text, Parts.portText] using text.symm
    · simpa [Parts.address] using taken

/-- What is taken with a port is lenient or has its digits. -/
theorem taken_port {url : CString} {host t path : Bytes} {a : Address}
    (text : url.val = lit "https://" ++ (host ++ 58 :: t ++ path)) (apart : 47 ∉ host ∧ 47 ∉ t)
    (slash : path = [] ∨ path.head? = some 47) (short : path.length < 1024) (plain : 58 ∉ host)
    (strict : ¬∃ host path t, Lenient url.val host path t) (taken : parse_url url 256 1024 = some a) :
    ∃ u : Parts, u.Valid ∧ u.text = url.val ∧ u.address = a := by
  rw [parse_url_port text apart slash short plain] at taken
  split at taken
  · simp at taken
  · next fits =>
    simp only [not_or, not_le, not_not] at fits
    obtain ⟨n, valid, rfl⟩ : ∃ n : Numeral, n.Valid ∧ n.text = t := numeral_exists (by omega)
    have read := (atoi_numeral valid).1.mp fits.2
    have inside : ¬(host = [] ∨ n.blanks ≠ [] ∨ n.sign ≠ [] ∨ n.rest ≠ [] ∨ 65535 < n.value) := fun outside =>
      strict ⟨host, path, n, text, ⟨plain, apart.1⟩, apart.2, slash, fits.1, valid, read, outside⟩
    simp only [not_or, not_not, not_lt] at inside
    obtain ⟨named, noBlank, noSign, noRest, most⟩ := inside
    have digits : n.text = n.digits := by simp [Numeral.text, noBlank, noSign, noRest]
    have value := value_unsigned noSign
    have exact := (atoi_numeral valid).2 read
    unfold Numeral.Port at read
    have least : 1 ≤ digitsOf 10 n.digits := by omega
    rw [digits] at text taken fits exact
    refine ⟨⟨host, some n.digits, pathPart path⟩, ⟨⟨named, plain, apart.1⟩, ?_, pathPart_starts slash, fits.1⟩, ?_, ?_⟩
    · rintro _ ⟨rfl⟩
      exact ⟨valid.digits.2, least, by omega⟩
    · simpa [Parts.text, Parts.portText] using text.symm
    · have same : atoi n.digits = digitsOf 10 n.digits := by omega
      simpa [Parts.address, same] using taken

/-- `parse_url` takes a URL just as the grammar does, unless it is lenient. -/
theorem parsed_by_grammar_iff (url : CString) (short : url.val.length < 1024) :
    ParsedByGrammar url ↔ ¬∃ host path t, Lenient url.val host path t := by
  constructor
  · rintro exact ⟨host, path, t, lenient⟩
    exact lenient_refuted short lenient exact
  intro strict a
  constructor
  · intro taken
    have scheme : lit "https://" <+: url.val := by
      by_contra other
      simp [parse_url, other] at taken
    obtain ⟨rest, text⟩ := scheme
    obtain ⟨authority, path, rfl, apart, slash⟩ := cut_exists 47 rest
    have bound : path.length < 1024 := by
      have length := congrArg List.length text
      simp only [List.length_append] at length
      omega
    obtain ⟨host, colon, rfl, plain, port⟩ := cut_exists 58 authority
    rcases port with rfl | port
    · rw [List.append_nil] at text apart
      exact taken_host text.symm apart slash bound plain taken
    · obtain ⟨t, rfl⟩ : ∃ t, colon = 58 :: t := by
        cases colon with
        | nil => simp at port
        | cons x t => exact ⟨t, by simpa using port⟩
      exact taken_port text.symm (by simpa using apart) slash bound plain strict taken
  · rintro ⟨u, valid, text, rfl⟩
    exact grammar_taken short valid text

theorem parsed_by_grammar_plain :
    (cs "https://api.kimi.com:8443/coding").val.length < 1024 ∧
      (ParsedByGrammar (cs "https://api.kimi.com:8443/coding") ↔
        ¬∃ host path t, Lenient (cs "https://api.kimi.com:8443/coding").val host path t) :=
  ⟨by decide +kernel, parsed_by_grammar_iff _ (by decide +kernel)⟩

/-- `https://:443/` is taken with an empty host. -/
theorem empty_host_taken : ¬∀ url : CString, url.val.length < 1024 → ParsedByGrammar url := by
  intro exact
  have taken : parse_url (cs "https://:443/") 256 1024 = some ⟨[], 443, [47]⟩ := by decide +kernel
  obtain ⟨u, valid, -, address⟩ := (exact _ (by decide +kernel) _).mp taken
  exact valid.host.1 (congrArg Address.host address)

end Sa.Urls
