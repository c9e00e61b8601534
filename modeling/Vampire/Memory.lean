/-
The memory of buffered metadata bodies (`MetadataMemoryReservation` of
`cache.rs`; `read_metadata_body` and `limited_initial_capacity` of `proxy.rs`).

A semaphore of 1024 permits stands for 1024 MiB. A reservation grows with the
body that is read under it, by what is missing. Other requests take permits and
give them back meanwhile, so a read is a function of the permits that each of
its reservations finds, beside the chunks.
-/
import Vampire.Lib.Runs
import Vampire.Lib.Tally
import Vampire.Codec
import Vampire.Reserve

namespace Vampire.Memory

open Lib

/-! ## The source's functions -/

/-- `MIB` -/
def mib : Nat := 1024 * 1024

def exhausted : Halt := .io ⟨.wouldBlock, "metadata memory capacity exhausted"⟩

def overLimit : Halt := .io ⟨.invalidData, "metadata body exceeds 128 MiB limit"⟩

/-- The permits that many bytes take. -/
def required (bytes : Nat) : Nat := max (divCeil bytes mib) 1

/-- `MetadataMemoryReservation::reserve`: what the semaphore has left, and the
reservation's permit. The reservation has none before its first success. -/
def reserve (available : Nat) (permit : Option Nat) (bytes : Nat) : Halting (Nat × Option Nat) :=
  let held := permit.getD 0
  if required bytes ≤ held then .ok (available, permit)
  else do
    let additional ← checkedSub (required bytes) held
    -- `u32::try_from`, `try_acquire_many_owned`
    if 2 ^ 32 ≤ additional ∨ available < additional then throw exhausted
    else
      let permit := match permit with
        | some current => current + additional
        | none => additional
      return (available - additional, some permit)

/-- `limited_initial_capacity`, with the limit of metadata. -/
def limitedInitialCapacity (contentLength : Option Nat) : Halting Nat :=
  if contentLength.any fun length => maxMetadataBodyLen < length then .error overLimit
  else .ok (min (contentLength.getD 0) (64 * 1024))

/-- `read_metadata_body` up to its loop, under a new reservation. -/
def openBody (available : Nat) (contentLength : Option Nat) : Halting (Nat × Option Nat) := do
  let initialCapacity ← limitedInitialCapacity contentLength
  reserve available none (contentLength.getD initialCapacity)

/-- The body of its loop. -/
def takeChunk (available : Nat) (permit : Option Nat) (body chunk : Bytes) : Halting (Nat × Option Nat × Bytes) := do
  let room ← checkedSub maxMetadataBodyLen body.length
  if room < chunk.length then throw overLimit
  else
    let (available, permit) ← reserve available permit (body.length + chunk.length)
    return (available, permit, body ++ chunk)

/-- The loop over chunks, each with the permits that the semaphore has when it comes. -/
def readChunks : Option Nat → Bytes → List (Nat × Bytes) → Halting (Option Nat × Bytes)
  | permit, body, [] => .ok (permit, body)
  | permit, body, (available, chunk) :: rest => do
    let (_, permit, body) ← takeChunk available permit body chunk
    readChunks permit body rest

/-- `read_metadata_body` of a response that comes in these chunks: the reservation's permit and the body. -/
def readMetadataBody (contentLength : Option Nat) (available : Nat) (chunks : List (Nat × Bytes)) :
    Halting (Option Nat × Bytes) := do
  let (_, permit) ← openBody available contentLength
  readChunks permit [] chunks

/-! ## Reservations -/

theorem required_pos (bytes : Nat) : 1 ≤ required bytes := Nat.le_max_right _ _

theorem le_required (bytes : Nat) : bytes ≤ required bytes * mib := by
  have := divCeil_spec bytes (d := mib) (by decide)
  have : divCeil bytes mib * mib ≤ required bytes * mib := Nat.mul_le_mul_right _ (Nat.le_max_left _ _)
  rw [Nat.mul_comm] at this
  omega

theorem required_mono {a b : Nat} (h : a ≤ b) : required a ≤ required b :=
  max_le_max_right 1 (Nat.div_le_div_right (by omega))

theorem required_max (a b : Nat) : required (max a b) = max (required a) (required b) :=
  Monotone.map_max fun _ _ => required_mono

theorem required_le {bytes : Nat} (h : bytes ≤ maxMetadataBodyLen) : required bytes ≤ 128 :=
  Nat.le_trans (required_mono h) (by norm_num [required, divCeil, mib, maxMetadataBodyLen])

/-- Up to a MiB takes one permit, also no byte at all. -/
theorem required_of_le_mib {bytes : Nat} (h : bytes ≤ mib) : required bytes = 1 := by
  have hle : required bytes ≤ required mib := required_mono h
  have hmib : required mib = 1 := by norm_num [required, divCeil, mib]
  have := required_pos bytes
  omega

-- unfolded, it is compared one by one up to 2^20
attribute [irreducible] required

/-- A reservation keeps what it holds, or is made up to what is asked. -/
theorem reserve_of_le {available bytes : Nat} {permit : Option Nat} (h : required bytes ≤ permit.getD 0) :
    reserve available permit bytes = .ok (available, permit) := if_pos h

theorem reserve_of_lt {available bytes : Nat} {permit : Option Nat} (h : permit.getD 0 < required bytes) :
    reserve available permit bytes =
      if 2 ^ 32 ≤ required bytes - permit.getD 0 ∨ available < required bytes - permit.getD 0 then .error exhausted
      else .ok (available - (required bytes - permit.getD 0), some (required bytes)) := by
  have hnot : ¬ required bytes ≤ permit.getD 0 := Nat.not_le.2 h
  simp only [reserve, if_neg hnot, checkedSub_of_le (Nat.le_of_lt h), bind, Except.bind]
  split
  · rfl
  · cases permit with
    | none => rfl
    | some current =>
      have : current + (required bytes - current) = required bytes := by
        simp only [Option.getD_some] at h
        omega
      simp only [Option.getD_some, this]
      rfl

/-- What a success does: nothing is lost, the reservation has not shrunk and covers what was asked. -/
structure Reserved (available : Nat) (permit : Option Nat) (bytes available' : Nat) (permit' : Option Nat) : Prop where
  total : available' + permit'.getD 0 = available + permit.getD 0
  grows : permit.getD 0 ≤ permit'.getD 0
  covers : required bytes ≤ permit'.getD 0

theorem reserve_ok {available available' bytes : Nat} {permit permit' : Option Nat}
    (h : reserve available permit bytes = .ok (available', permit')) :
    Reserved available permit bytes available' permit' := by
  by_cases hle : required bytes ≤ permit.getD 0
  · rw [reserve_of_le hle] at h
    cases h
    exact ⟨rfl, Nat.le_refl _, hle⟩
  · rw [reserve_of_lt (Nat.not_le.1 hle)] at h
    by_cases hfree : 2 ^ 32 ≤ required bytes - permit.getD 0 ∨ available < required bytes - permit.getD 0
    · rw [if_pos hfree] at h
      cases h
    · rw [if_neg hfree] at h
      obtain ⟨hleft, hpermit⟩ := Prod.mk.inj (Except.ok.inj h)
      rw [← hleft, ← hpermit]
      refine ⟨?_, ?_, ?_⟩ <;> rw [Option.getD_some] <;> omega

/-! ## A body is read -/

def bytesOf (chunks : List (Nat × Bytes)) : Bytes := chunks.flatMap Prod.snd

/-- The reservation for every chunk finds its permits; `len` bytes are there before. -/
def Found (declared : Nat) : Nat → List (Nat × Bytes) → Prop
  | _, [] => True
  | len, (available, chunk) :: rest =>
    required (max declared (len + chunk.length)) ≤ required (max declared len) + available ∧
      Found declared (len + chunk.length) rest

theorem takeChunk_of_le {available : Nat} {permit : Option Nat} {body chunk : Bytes}
    (hb : body.length ≤ maxMetadataBodyLen) :
    takeChunk available permit body chunk =
      if maxMetadataBodyLen < body.length + chunk.length then .error overLimit
      else (reserve available permit (body.length + chunk.length)).map fun r => (r.1, r.2, body ++ chunk) := by
  unfold takeChunk
  generalize maxMetadataBodyLen = limit at hb ⊢
  rw [checkedSub_of_le hb]
  change (if limit - body.length < chunk.length then Except.error overLimit else
    (reserve available permit (body.length + chunk.length)).bind fun r => .ok (r.1, r.2, body ++ chunk)) = _
  by_cases hover : limit < body.length + chunk.length
  · rw [if_pos hover, if_pos (by omega)]
  · rw [if_neg hover, if_neg (by omega)]
    cases reserve available permit (body.length + chunk.length) <;> rfl

/-- A reservation is made up to what `bytes` take, when there is as much. -/
theorem reserve_some {available held bytes new : Nat} (hnew : max held (required bytes) = new) (hcap : required bytes < 2 ^ 32) :
    reserve available (some held) bytes =
      if new ≤ held + available then .ok (available + held - new, some new) else .error exhausted := by
  by_cases hle : required bytes ≤ held
  · have hsame : new = held := by omega
    rw [reserve_of_le (by rwa [Option.getD_some]), hsame, if_pos (Nat.le_add_right _ _), Nat.add_sub_cancel]
  · have hmore : required bytes = new := by omega
    rw [reserve_of_lt (by rw [Option.getD_some]; omega), Option.getD_some, hmore]
    by_cases hfree : new ≤ held + available
    · have hleft : available - (new - held) = available + held - new := by omega
      rw [if_neg (by omega), if_pos hfree, hleft]
    · rw [if_pos (by omega), if_neg hfree]

/-- A chunk, when the reservation is that for the declared length and for what has come. -/
theorem takeChunk_eq {declared available : Nat} {body chunk : Bytes} (hb : body.length ≤ maxMetadataBodyLen) :
    takeChunk available (some (required (max declared body.length))) body chunk =
      if maxMetadataBodyLen < body.length + chunk.length then .error overLimit
      else if required (max declared (body.length + chunk.length)) ≤ required (max declared body.length) + available then
        .ok (available + required (max declared body.length) - required (max declared (body.length + chunk.length)),
          some (required (max declared (body.length + chunk.length))), body ++ chunk)
      else .error exhausted := by
  have hmax : max (required (max declared body.length)) (required (body.length + chunk.length)) =
      required (max declared (body.length + chunk.length)) := by
    rw [← required_max]
    congr 1
    omega
  rw [takeChunk_of_le hb]
  by_cases hover : maxMetadataBodyLen < body.length + chunk.length
  · rw [if_pos hover, if_pos hover]
  · have hcap := required_le (Nat.le_of_not_lt hover)
    rw [if_neg hover, if_neg hover, reserve_some hmax (by omega)]
    split <;> rfl

theorem bytesOf_cons (available : Nat) (chunk : Bytes) (rest : List (Nat × Bytes)) :
    bytesOf ((available, chunk) :: rest) = chunk ++ bytesOf rest := rfl

theorem readChunks_ok_iff {declared : Nat} {body : Bytes}
    (hb : body.length ≤ maxMetadataBodyLen) {chunks : List (Nat × Bytes)} {r : Option Nat × Bytes} :
    readChunks (some (required (max declared body.length))) body chunks = .ok r ↔
      body.length + (bytesOf chunks).length ≤ maxMetadataBodyLen ∧ Found declared body.length chunks ∧
        r = (some (required (max declared (body.length + (bytesOf chunks).length))), body ++ bytesOf chunks) := by
  induction chunks generalizing body with
  | nil =>
    simp only [readChunks, bytesOf, Found, List.flatMap_nil, List.length_nil, Nat.add_zero, List.append_nil, hb, true_and]
    exact ⟨fun h => (Except.ok.inj h).symm, fun h => congrArg _ h.symm⟩
  | cons c rest ih =>
    obtain ⟨available, chunk⟩ := c
    rw [readChunks, takeChunk_eq hb, bytesOf_cons, Found, List.length_append]
    by_cases hover : maxMetadataBodyLen < body.length + chunk.length
    · rw [if_pos hover]
      constructor
      · intro h
        cases h
      · intro h
        omega
    rw [if_neg hover]
    by_cases hfound : required (max declared (body.length + chunk.length)) ≤
        required (max declared body.length) + available
    · have hstep := @ih (body ++ chunk) (by rw [List.length_append]; omega)
      rw [List.length_append] at hstep
      rw [if_pos hfound]
      simp only [hfound, true_and, Nat.add_assoc, List.append_assoc] at hstep ⊢
      exact hstep
    · rw [if_neg hfound]
      constructor
      · intro h
        cases h
      · intro h
        exact absurd h.2.1.1 hfound

theorem openBody_eq (available : Nat) (contentLength : Option Nat) :
    openBody available contentLength =
      if maxMetadataBodyLen < contentLength.getD 0 then .error overLimit
      else if required (contentLength.getD 0) ≤ available then
        .ok (available - required (contentLength.getD 0), some (required (contentLength.getD 0)))
      else .error exhausted := by
  have hany : (contentLength.any fun length => decide (maxMetadataBodyLen < length)) = true ↔
      maxMetadataBodyLen < contentLength.getD 0 := by
    cases contentLength <;> simp
  have hdefault : contentLength.getD (min (contentLength.getD 0) (64 * 1024)) = contentLength.getD 0 := by
    cases contentLength <;> rfl
  unfold openBody limitedInitialCapacity
  by_cases hover : maxMetadataBodyLen < contentLength.getD 0
  · rw [if_pos (hany.2 hover), if_pos hover]
    rfl
  · have hcap := required_le (Nat.le_of_not_lt hover)
    have hpos := required_pos (contentLength.getD 0)
    rw [if_neg (mt hany.1 hover), if_neg hover]
    rw [Halting.ok_bind, hdefault, reserve_of_lt (by rw [Option.getD_none]; omega), Option.getD_none, Nat.sub_zero]
    by_cases hfree : required (contentLength.getD 0) ≤ available
    · rw [if_neg (by omega), if_pos hfree]
    · rw [if_pos (by omega), if_neg hfree]

/-- A read fails for one of two reasons, and in no subtraction. -/
theorem readChunks_error {declared : Nat} {body : Bytes}
    (hb : body.length ≤ maxMetadataBodyLen) {chunks : List (Nat × Bytes)} {halt : Halt}
    (h : readChunks (some (required (max declared body.length))) body chunks = .error halt) :
    halt = overLimit ∨ halt = exhausted := by
  induction chunks generalizing body with
  | nil => cases h
  | cons c rest ih =>
    obtain ⟨available, chunk⟩ := c
    rw [readChunks, takeChunk_eq hb] at h
    split at h
    · exact .inl (Except.error.inj h).symm
    · next hover =>
      split at h
      · refine @ih (body ++ chunk) (by rw [List.length_append]; omega) ?_
        rw [List.length_append]
        exact h
      · exact .inr (Except.error.inj h).symm

/-- **A metadata body.** It is read exactly if the declared length and what
comes stay within the limit and every reservation finds its permits. It is
then the chunks in their order, under as many permits as the longer of the two
lengths takes. Any other read ends with the error of the limit or of the
budget. -/
theorem metadata_body_read (contentLength : Option Nat) (available : Nat) (chunks : List (Nat × Bytes)) :
    (∀ r, readMetadataBody contentLength available chunks = .ok r ↔
      contentLength.getD 0 ≤ maxMetadataBodyLen ∧ (bytesOf chunks).length ≤ maxMetadataBodyLen ∧
        required (contentLength.getD 0) ≤ available ∧ Found (contentLength.getD 0) 0 chunks ∧
        r = (some (required (max (contentLength.getD 0) (bytesOf chunks).length)), bytesOf chunks)) ∧
      ∀ halt, readMetadataBody contentLength available chunks = .error halt → halt = overLimit ∨ halt = exhausted := by
  rw [readMetadataBody, openBody_eq]
  by_cases hover : maxMetadataBodyLen < contentLength.getD 0
  · rw [if_pos hover]
    refine ⟨fun r => ⟨fun h => (by cases h), fun h => ?_⟩, fun halt h => .inl (Except.error.inj h).symm⟩
    omega
  rw [if_neg hover]
  by_cases hfree : required (contentLength.getD 0) ≤ available
  · have hd := Nat.le_of_not_lt hover
    have hread := fun r => @readChunks_ok_iff (contentLength.getD 0) [] (Nat.zero_le _) chunks r
    have herror := fun halt => @readChunks_error (contentLength.getD 0) [] (Nat.zero_le _) chunks halt
    simp only [List.length_nil, Nat.max_zero, Nat.zero_add, List.nil_append] at hread herror
    rw [if_pos hfree]
    refine ⟨fun r => ?_, herror⟩
    simp only [hd, hfree, true_and]
    exact hread r
  · rw [if_neg hfree]
    refine ⟨fun r => ⟨fun h => (by cases h), fun h => ?_⟩, fun halt h => .inr (Except.error.inj h).symm⟩
    exact absurd h.2.2.1 hfree

/-- Three bytes in two chunks, of no declared length and under the last permit. -/
theorem metadata_body_read_last : readMetadataBody none 1 [(0, [1, 2]), (0, [3])] = .ok (some 1, [1, 2, 3]) := by
  have hone : ∀ bytes, bytes ≤ 3 → required bytes = 1 := fun bytes h =>
    required_of_le_mib (Nat.le_trans h (by decide +kernel))
  have hlimit : 3 ≤ maxMetadataBodyLen := by decide +kernel
  refine ((metadata_body_read none 1 [(0, [1, 2]), (0, [3])]).1 _).2 ⟨Nat.zero_le _, hlimit, ?_, ?_, ?_⟩
  · rw [hone _ (by decide)]
  · simp [Found, hone]
  · simp [bytesOf, hone]

/-! ## Reservations side by side -/

/-- `METADATA_MEMORY_BUDGET_MIB` -/
def metadataMemoryBudgetMib : Nat := 1024

/-- The semaphore, and the permit of every reservation there has been. -/
structure Pool where
  available : Nat
  permits : List (Option Nat)
  deriving DecidableEq

inductive Action
  /-- `metadata_memory_reservation` -/
  | new
  | reserve (i bytes : Nat)
  /-- The reservation is dropped, or the body that `into_permit` gave its permit to. -/
  | drop (i : Nat)

/-- The state after a `reserve`. -/
def Pool.after (s : Pool) (i : Nat) : Halting (Nat × Option Nat) → Pool
  | .ok r => ⟨r.1, s.permits.set i r.2⟩
  | .error _ => s

def step : Action → Pool → Option Pool
  | .new, s => some { s with permits := s.permits ++ [none] }
  | .reserve i bytes, s => (s.permits[i]?).map fun permit => s.after i (reserve s.available permit bytes)
  | .drop i, s => (s.permits[i]?).map fun permit => ⟨s.available + permit.getD 0, s.permits.set i none⟩

/-- `CacheStore::new` -/
def Init (s : Pool) : Prop := s.available = metadataMemoryBudgetMib ∧ s.permits = []

def held (permit : Option Nat) : Nat := permit.getD 0

def Pool.total (s : Pool) : Nat := tally held s.permits + s.available

theorem after_total {s : Pool} {i bytes : Nat} {permit : Option Nat} (hi : s.permits[i]? = some permit) :
    (s.after i (reserve s.available permit bytes)).total = s.total := by
  cases hr : reserve s.available permit bytes with
  | error halt => rfl
  | ok r =>
    obtain ⟨available, permit'⟩ := r
    have htotal := (reserve_ok hr).total
    have hset := tally_set (w := held) hi permit'
    simp only [Pool.after, Pool.total]
    simp only [held] at hset ⊢
    omega

theorem step_total {a : Action} {s s' : Pool} (h : step a s = some s') : s'.total = s.total := by
  cases a with
  | new =>
    cases h
    simp [Pool.total, held]
  | reserve i bytes =>
    obtain ⟨permit, hi, rfl⟩ := Option.map_eq_some_iff.1 h
    exact after_total hi
  | drop i =>
    obtain ⟨permit, hi, rfl⟩ := Option.map_eq_some_iff.1 h
    have hset := tally_set (w := held) hi none
    simp only [Pool.total]
    simp only [held, Option.getD_none] at hset ⊢
    omega

/-- A reservation has not shrunk, and the others are as they were. -/
theorem after_grows {s : Pool} {i j bytes : Nat} {permit permit' : Option Nat} (hi : s.permits[i]? = some permit)
    (hj : s.permits[j]? = some permit') :
    ∃ p, (s.after i (reserve s.available permit bytes)).permits[j]? = some p ∧ held permit' ≤ held p := by
  cases hr : reserve s.available permit bytes with
  | error halt => exact ⟨permit', hj, Nat.le_refl _⟩
  | ok r =>
    obtain ⟨available, permit''⟩ := r
    have hgrows := (reserve_ok hr).grows
    simp only [Pool.after]
    by_cases hij : i = j
    · subst hij
      obtain ⟨hlt, -⟩ := List.getElem?_eq_some_iff.1 hi
      rw [hi] at hj
      cases hj
      exact ⟨permit'', List.getElem?_set_self hlt, hgrows⟩
    · exact ⟨permit', by rw [List.getElem?_set_ne hij, hj], Nat.le_refl _⟩

/-- In a run, what a reservation misses is in the semaphore or it is refused. -/
theorem reserve_error_iff {available bytes : Nat} {permit : Option Nat} (h : available < 2 ^ 32) :
    (∃ halt, reserve available permit bytes = .error halt) ↔ held permit + available < required bytes := by
  rw [held]
  by_cases hle : required bytes ≤ permit.getD 0
  · rw [reserve_of_le hle]
    refine ⟨fun he => ?_, fun hlt => absurd hle (by omega)⟩
    obtain ⟨halt, he⟩ := he
    cases he
  · rw [reserve_of_lt (Nat.not_le.1 hle)]
    by_cases hfree : 2 ^ 32 ≤ required bytes - permit.getD 0 ∨ available < required bytes - permit.getD 0
    · rw [if_pos hfree]
      exact ⟨fun _ => by omega, fun _ => ⟨_, rfl⟩⟩
    · rw [if_neg hfree]
      refine ⟨fun he => ?_, fun hlt => absurd hlt (by omega)⟩
      obtain ⟨halt, he⟩ := he
      cases he

theorem total_budget {s : Pool} (h : Run step Any Init s) : s.total = metadataMemoryBudgetMib := by
  refine h.invariant (fun s => s.total = metadataMemoryBudgetMib) ?_ fun _ _ _ hi _ hs => (step_total hs).trans hi
  intro s hs
  simp [Pool.total, hs.1, hs.2]

/-- **Memory permits.** In every run of any number of reservations the held and
the available permits are the budget together, and no reservation shrinks
before it is dropped. A `reserve` is refused exactly if the permits it misses
are not available, and then leaves everything as it was; any other makes the
reservation cover the bytes asked for. -/
theorem permits_conserved {s : Pool} (h : Run step Any Init s) :
    s.total = metadataMemoryBudgetMib ∧
      (∀ a s' j permit, step a s = some s' → s.permits[j]? = some permit → a ≠ .drop j →
        ∃ p, s'.permits[j]? = some p ∧ held permit ≤ held p) ∧
      ∀ i bytes permit, s.permits[i]? = some permit →
        ((∃ halt, reserve s.available permit bytes = .error halt) ↔ held permit + s.available < required bytes) ∧
        (∀ halt, reserve s.available permit bytes = .error halt → step (.reserve i bytes) s = some s) ∧
        ∀ r, reserve s.available permit bytes = .ok r → ∃ s', step (.reserve i bytes) s = some s' ∧
          s'.available = r.1 ∧ s'.permits[i]? = some r.2 ∧ required bytes ≤ held r.2 ∧ bytes ≤ held r.2 * mib := by
  refine ⟨total_budget h, fun a s' j permit hstep hj hdrop => ?_, fun i bytes permit hi => ⟨?_, ?_, ?_⟩⟩
  · cases a with
    | new =>
      cases hstep
      obtain ⟨hlt, -⟩ := List.getElem?_eq_some_iff.1 hj
      exact ⟨permit, by rw [List.getElem?_append_left hlt, hj], Nat.le_refl _⟩
    | reserve i bytes =>
      obtain ⟨permit', hi, rfl⟩ := Option.map_eq_some_iff.1 hstep
      exact after_grows hi hj
    | drop i =>
      obtain ⟨permit', hi, rfl⟩ := Option.map_eq_some_iff.1 hstep
      have hij : i ≠ j := fun he => hdrop (he ▸ rfl)
      exact ⟨permit, by rw [List.getElem?_set_ne hij, hj], Nat.le_refl _⟩
  · have hbudget := total_budget h
    exact reserve_error_iff (by simp only [Pool.total, metadataMemoryBudgetMib] at hbudget; omega)
  · intro halt hr
    rw [step, hi, Option.map_some, hr]
    rfl
  · intro r hr
    obtain ⟨hlt, -⟩ := List.getElem?_eq_some_iff.1 hi
    have hcovers : required bytes ≤ held r.2 := (reserve_ok hr).covers
    refine ⟨⟨r.1, s.permits.set i r.2⟩, ?_, rfl, List.getElem?_set_self hlt, hcovers, ?_⟩
    · rw [step, hi, Option.map_some, hr]
      rfl
    · exact Nat.le_trans (le_required bytes) (Nat.mul_le_mul_right _ hcovers)

/-- One reservation, of a MiB and a byte, and another that holds nothing yet. -/
theorem permits_conserved_two : Pool.total ⟨1022, [some 2, none]⟩ = metadataMemoryBudgetMib :=
  have hempty : Run step Any Init ⟨1024, []⟩ := .start ⟨rfl, rfl⟩
  have hone : step .new ⟨1024, []⟩ = some ⟨1024, [none]⟩ := rfl
  have htwo : step .new ⟨1024, [none]⟩ = some ⟨1024, [none, none]⟩ := rfl
  have hreserve : step (.reserve 0 (mib + 1)) ⟨1024, [none, none]⟩ = some ⟨1022, [some 2, none]⟩ := by decide +kernel
  (permits_conserved (.next (.next (.next hempty trivial hone) trivial htwo) trivial hreserve)).1

end Vampire.Memory
