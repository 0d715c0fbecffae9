import Sa.Programs

/-!
# Connections

`tcp_connect` on the table of open descriptors: it tries the addresses of a host one after
the other. What is left open is the connection to the first address that answers, with the
flags it was opened with, or nothing (`tcp_connect_spec`).
-/

namespace Sa.Sockets
open Sa.Separation Sa.Programs

/-- An open descriptor: its flags, what it is connected to, and its timeouts. -/
structure Socket (Address : Type) where
  flags : ℕ
  peer : Option Address
  rcvtimeo : Option ℕ
  sndtimeo : Option ℕ

/-- How `connect` answers; while it goes on, what `select` returns and `SO_ERROR` is then. -/
inductive Connect where
  | done
  | failed
  | inProgress (select so_error : ℤ)

/-- How the kernel answers for an address: the flags of a new descriptor, if there is one. -/
structure Attempt (Address : Type) where
  address : Address
  socket : Option ℕ
  connect : Connect

abbrev Net (Address α : Type) := Mem ℕ (Socket Address) α

def O_NONBLOCK : ℕ := 0o4000

variable {Address α : Type}

def modify (fd : ℕ) (write : Socket Address → Socket Address) : Net Address Unit := do
  let s ← load fd
  store fd (write s)

def setFlags (fd flags : ℕ) : Net Address Unit := modify fd fun s => { s with flags := flags }

/-- The kernel's part of a connection that is made. -/
def reach (fd : ℕ) (address : Address) : Net Address Unit := modify fd fun s => { s with peer := some address }

section
variable (m : Allocator ℕ (Socket Address))

/-- The loop over the addresses. -/
def connectLoop : List (Attempt Address) → Net Address (Option ℕ)
  | [] => return none
  | rp :: res =>
    match rp.socket with
    | none => connectLoop res
    | some opened => do
      let fd ← alloc m ⟨opened, none, none, none⟩
      let s ← load fd
      setFlags fd (s.flags ||| O_NONBLOCK)
      match rp.connect with
      | .done =>
        reach fd rp.address
        setFlags fd s.flags
        return some fd
      | .failed =>
        dealloc fd
        connectLoop res
      | .inProgress select so_error =>
        if select ≤ 0 then
          dealloc fd
          connectLoop res
        else if so_error ≠ 0 then
          dealloc fd
          connectLoop res
        else
          reach fd rp.address
          setFlags fd s.flags
          return some fd

/-- `res` is what `getaddrinfo` finds. -/
def tcp_connect (res : Option (List (Attempt Address))) : Net Address (Option ℕ) :=
  match res with
  | none => return none
  | some res => do
    match ← connectLoop m res with
    | none => return none
    | some fd =>
      modify fd fun s => { s with rcvtimeo := some 30 }
      modify fd fun s => { s with sndtimeo := some 30 }
      return some fd

end

/-- Whether the address answers. -/
def Attempt.answers (rp : Attempt Address) : Bool :=
  rp.socket.isSome &&
  match rp.connect with
  | .done => true
  | .failed => false
  | .inProgress select so_error => decide (0 < select) && so_error == 0

/-- The connection to an address, or nothing. -/
def connection (timeout : Option ℕ) (rp : Option (Attempt Address)) (r : Option ℕ) : Assertion ℕ (Socket Address) :=
  match rp, r with
  | none, none => 1
  | some rp, some fd => pts fd ⟨rp.socket.getD 0, some rp.address, timeout, timeout⟩
  | _, _ => ⊥

section
variable {fd : ℕ} {s : Socket Address} {R : Assertion ℕ (Socket Address)} {S : α → Assertion ℕ (Socket Address)}
  {timeout : Option ℕ} {rp : Option (Attempt Address)}

theorem Triple.modify {write : Socket Address → Socket Address} {d : ℕ → Unit → Net Address α}
    (rest : Triple (pts fd (write s) * R) (fun n => d n ()) S) :
    Triple (pts fd s * R) (fun n => Sockets.modify fd write >>= d n) S := by
  simp only [Sockets.modify, bind_assoc]
  exact Triple.load (Triple.store rest)

/-- What goes on after connecting. -/
theorem Triple.connection {d : ℕ → Option ℕ → Net Address α} (refused : rp = none → Triple R (fun n => d n none) S)
    (connected : ∀ found fd, rp = some found →
      Triple (pts fd ⟨found.socket.getD 0, some found.address, timeout, timeout⟩ * R) (fun n => d n (some fd)) S)
    (r : Option ℕ) : Triple (Sockets.connection timeout rp r * R) (fun n => d n r) S := by
  rcases rp with _ | found
  · rcases r with _ | fd
    · have whole := refused rfl
      rwa [← one_mul R] at whole
    · exact Triple.bot
  · rcases r with _ | fd
    · exact Triple.bot
    · exact connected found fd rfl

variable (m : Allocator ℕ (Socket Address))

theorem connectLoop_spec (res : List (Attempt Address)) :
    Triple 1 (fun _ => connectLoop m res) (connection none (res.find? Attempt.answers)) := by
  induction res with
  | nil => exact Triple.pure le_rfl
  | cons rp res ih =>
    obtain ⟨address, socket, connect⟩ := rp
    cases socket with
    | none => exact ih
    | some opened =>
      -- An address that does not answer leaves its descriptor closed.
      have closed (silent : Attempt.answers ⟨address, some opened, connect⟩ = false) {fd : ℕ} {s : Socket Address} :
          Triple (pts fd s * 1) (fun _ => dealloc fd >>= fun _ => connectLoop m res)
            (Sockets.connection none (List.find? Attempt.answers (⟨address, some opened, connect⟩ :: res))) := by
        rw [List.find?_cons_of_neg (by rw [silent]; exact Bool.false_ne_true)]
        exact Triple.dealloc ih
      have kept (answers : Attempt.answers ⟨address, some opened, connect⟩ = true) {fd : ℕ} :
          Triple (pts fd ⟨opened ||| O_NONBLOCK, none, none, none⟩ * 1)
            (fun _ => reach fd address >>= fun _ => setFlags fd opened >>= fun _ => Pure.pure (some fd))
            (Sockets.connection none (List.find? Attempt.answers (⟨address, some opened, connect⟩ :: res))) := by
        rw [List.find?_cons_of_pos answers]
        exact Triple.modify (Triple.modify (Triple.pure (le_of_eq (mul_one _))))
      refine Triple.alloc m fun fd => Triple.load (Triple.modify ?_)
      cases connect with
      | done => exact kept rfl
      | failed => exact closed rfl
      | inProgress select so_error =>
        simp only
        split_ifs with late wrong
        · exact closed (by simp [Attempt.answers, not_lt.mpr late])
        · exact closed (by simp [Attempt.answers, wrong])
        · exact kept (by simp_all [Attempt.answers])

/-- What is left open is a blocking connection to the first address that answers, or nothing. -/
theorem tcp_connect_spec (res : Option (List (Attempt Address))) :
    Triple 1 (fun _ => tcp_connect m res) (connection (some 30) (res.bind fun res => res.find? Attempt.answers)) := by
  cases res with
  | none => exact Triple.pure le_rfl
  | some res =>
    rw [← mul_one (1 : Assertion ℕ (Socket Address))]
    refine (connectLoop_spec m res).call (Triple.connection (fun refused => ?_) fun found fd connected => ?_)
    · rw [Option.bind_some, refused]
      exact Triple.pure le_rfl
    · rw [Option.bind_some, connected]
      exact Triple.modify (Triple.modify (Triple.pure (le_of_eq (mul_one _))))

/-- Where an address answers, the connection to the first such address is all that is opened and
    not closed again; else the table of descriptors ends as it was. -/
theorem connect_first (res : Option (List (Attempt Address))) (opened : Heap ℕ (Socket Address)) :
    (res.bind (fun res => res.find? Attempt.answers) = none → tcp_connect m res opened = some (none, opened)) ∧
    ∀ rp, res.bind (fun res => res.find? Attempt.answers) = some rp → ∃ fd ∉ opened, tcp_connect m res opened =
      some (some fd, opened.insert fd ⟨rp.socket.getD 0, some rp.address, some 30, some 30⟩) := by
  obtain ⟨k, r, after, runs, holds⟩ := tcp_connect_spec m res {opened} opened (by rw [one_mul]; rfl)
  have run : tcp_connect m res opened = some (r, after) := runs k le_rfl
  constructor
  · intro silent
    rw [silent] at holds
    cases r with
    | none =>
      rw [Sockets.connection, one_mul] at holds
      rw [run, Set.mem_singleton_iff.mp holds]
    | some fd =>
      obtain ⟨_, _, -, -, none, -⟩ := holds
      exact none.elim
  · intro rp found
    rw [found] at holds
    cases r with
    | none =>
      obtain ⟨_, _, -, -, none, -⟩ := holds
      exact none.elim
    | some fd =>
      obtain ⟨one, others, apart, rfl, rfl, same⟩ := holds
      rw [Set.mem_singleton_iff] at same
      subst same
      have inserted : Finmap.insert fd (⟨rp.socket.getD 0, some rp.address, some 30, some 30⟩ : Socket Address) (∅ ∪ others) = _ :=
        Finmap.insert_union
      rw [Finmap.empty_union] at inserted
      refine ⟨fd, apart fd (by simp), ?_⟩
      rw [run, inserted]
      rfl

end

end Sa.Sockets
