import Mathlib.Order.Filter.AtTopBot.Basic
import Sa.Http

/-!
# Callbacks of a body

The loops of `http_stream_body` with two callbacks of which one does what the other does: they
read alike and end alike (`stream_body_through`).
-/

namespace Sa.Callbacks
open Sa.CStrings Sa.Http

section
variable {σ τ : Type} {f : σ → τ} {cb : σ → Bytes → Io → Option σ × Io} {cb' : ℕ → τ → Bytes → Io → Option τ × Io}
  (each : ∀ s buf io, ∀ᶠ n in Filter.atTop, cb' n (f s) buf io = ((cb s buf io).1.map f, (cb s buf io).2))

/-- What a loop over a body returns, with its state seen through `f`. -/
def through (f : σ → τ) (result : Int × σ × Io) : Int × τ × Io := (result.1, f result.2.1, result.2.2)

include each

theorem chunkData_through (fuel : ℕ) : ∀ (remaining : ℕ) (s : σ) (io : Io), ∀ᶠ n in Filter.atTop,
    chunkData (cb' n) fuel remaining (f s) io = through f (chunkData cb fuel remaining s io) := by
  induction fuel with
  | zero => intro remaining s io; exact .of_forall fun _ => rfl
  | succ fuel ih =>
    intro remaining s io
    simp only [chunkData]
    by_cases all : remaining = 0
    · simp only [if_pos all]
      exact .of_forall fun _ => rfl
    simp only [if_neg all]
    by_cases interrupt : io.poll.1 = true
    · simp only [if_pos interrupt]
      exact .of_forall fun _ => rfl
    simp only [if_neg interrupt]
    cases br_sslio_read io.poll.2 (min remaining 4096) with
    | none => exact .of_forall fun _ => rfl
    | some r =>
      obtain ⟨buf, io'⟩ := r
      have called := each s buf io'
      simp only
      revert called
      obtain ⟨r, io''⟩ := cb s buf io'
      intro called
      cases r with
      | none =>
        filter_upwards [called] with n call
        rw [call]
        rfl
      | some s' =>
        filter_upwards [called, ih (remaining - buf.length) s' io''] with n call later
        rw [call]
        exact later

theorem chunks_through (fuel : ℕ) : ∀ (s : σ) (io : Io), ∀ᶠ n in Filter.atTop,
    chunks (cb' n) fuel (f s) io = through f (chunks cb fuel s io) := by
  induction fuel with
  | zero => intro s io; exact .of_forall fun _ => rfl
  | succ fuel ih =>
    intro s io
    simp only [chunks]
    by_cases interrupt : io.poll.1 = true
    · simp only [if_pos interrupt]
      exact .of_forall fun _ => rfl
    simp only [if_neg interrupt]
    cases readSizeLine 31 [] io.poll.2 with
    | none => exact .of_forall fun _ => rfl
    | some r =>
      obtain ⟨szline, io⟩ := r
      simp only
      by_cases negative : strtol16 (cstr szline).val < 0
      · simp only [if_pos negative]
        exact .of_forall fun _ => rfl
      simp only [if_neg negative]
      by_cases last : strtol16 (cstr szline).val = 0
      · simp only [if_pos last]
        exact .of_forall fun _ => rfl
      simp only [if_neg last]
      have data := chunkData_through each (io.data.length + 2) (strtol16 (cstr szline).val).toNat s io
      revert data
      obtain ⟨code, s', io'⟩ := chunkData cb (io.data.length + 2) (strtol16 (cstr szline).val).toNat s io
      intro data
      by_cases taken : code = 0
      · subst taken
        cases end' : br_sslio_read io' 2 with
        | none =>
          filter_upwards [data] with n took
          rw [took]
          simp only [through, end']
        | some r =>
          filter_upwards [data, ih s' r.2] with n took later
          rw [took]
          simp only [through, end']
          exact later
      · filter_upwards [data] with n took
        rw [took]
        simp only [through]

theorem plainBody_through (fuel : ℕ) : ∀ (clen read_total : Int) (s : σ) (io : Io), ∀ᶠ n in Filter.atTop,
    plainBody (cb' n) fuel clen read_total (f s) io = through f (plainBody cb fuel clen read_total s io) := by
  induction fuel with
  | zero => intro clen read_total s io; exact .of_forall fun _ => rfl
  | succ fuel ih =>
    intro clen read_total s io
    simp only [plainBody]
    by_cases interrupt : io.poll.1 = true
    · simp only [if_pos interrupt]
      exact .of_forall fun _ => rfl
    simp only [if_neg interrupt]
    cases br_sslio_read io.poll.2 4096 with
    | none => exact .of_forall fun _ => rfl
    | some r =>
      obtain ⟨buf, io'⟩ := r
      have called := each s buf io'
      simp only
      revert called
      obtain ⟨r, io''⟩ := cb s buf io'
      intro called
      cases r with
      | none =>
        filter_upwards [called] with n call
        rw [call]
        rfl
      | some s' =>
        by_cases whole : 0 ≤ clen ∧ clen ≤ read_total + buf.length
        · filter_upwards [called] with n call
          rw [call]
          simp only [Option.map_some, if_pos whole]
          rfl
        · filter_upwards [called, ih clen (read_total + buf.length) s' io''] with n call later
          rw [call]
          simp only [Option.map_some, if_neg whole]
          exact later

/-- A callback that does what another one does, seen through `f`, is called alike. -/
theorem stream_body_through (chunked : Bool) (clen : Int) (s : σ) (io : Io) : ∀ᶠ n in Filter.atTop,
    http_stream_body (cb' n) chunked clen (f s) io = through f (http_stream_body cb chunked clen s io) := by
  unfold http_stream_body
  split_ifs
  · exact chunks_through each _ s io
  · exact plainBody_through each _ clen 0 s io

end

/-- The same without a bound that grows. -/
theorem stream_body_alike {σ τ : Type} {f : σ → τ} {cb : σ → Bytes → Io → Option σ × Io} {cb' : τ → Bytes → Io → Option τ × Io}
    (each : ∀ s buf io, cb' (f s) buf io = ((cb s buf io).1.map f, (cb s buf io).2)) (chunked : Bool) (clen : Int) (s : σ) (io : Io) :
    http_stream_body cb' chunked clen (f s) io = through f (http_stream_body cb chunked clen s io) := by
  have eventually := @stream_body_through σ τ f cb (fun _ => cb') (fun s buf io => .of_forall fun _ => each s buf io) chunked clen s io
  exact eventually.exists.choose_spec

end Sa.Callbacks
