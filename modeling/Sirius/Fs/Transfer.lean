import Sirius.Fs.CacheMirror

/-! How far `vfs_read` and `vfs_write` come, and what they return, whatever the driver answers. What
is in the bytes is left out. -/
namespace Sirius.Fs.Transfer
open Support PageCache Nat

/-- What the rounds of the calls meet, by their number: what the driver's operation, if there is one,
answers to a length, and how much counts of the page that is found or made. -/
structure Medium where
  driver : Option (Nat → Nat → Int)
  page : Nat → Option Nat
  blockSize : Nat
  small : blockSize < 2 ^ 32

/-- A call returns a number; `moved` is how many bytes were transferred. -/
structure Outcome where
  ret : Int
  moved : Nat

variable (io : Medium) (offset size done round : Nat)

def stopWith (error : Int) : Outcome := ⟨if 0 < done then cInt done else error, done⟩

def cachedRound : Outcome ⊕ Nat :=
  let inBlock := uint64 (offset + done) % io.blockSize
  match io.page round with
  | none => .inl (stopWith done (-5))
  | some valid =>
    if valid ≤ inBlock then .inl ⟨cInt done, done⟩
    else .inr (done + min (valid - inBlock) (size - done))

/-- The whole blocks of what is left. -/
def Medium.blocks (left : Nat) : Nat := left / io.blockSize * io.blockSize

def transferRound : Outcome ⊕ Nat :=
  if size ≤ done then .inl ⟨cInt done, done⟩
  else if uint64 (offset + done) % io.blockSize = 0 ∧ io.blockSize ≤ size - done then
    match io.driver with
    | none => cachedRound io offset size done round
    | some answer =>
      let direct := answer round (io.blocks (size - done))
      if direct < 0 then .inl (stopWith done direct) else .inr ((done + direct.toNat) % 2 ^ 32)
  else cachedRound io offset size done round

def transfer (rounds : Nat) : Option (Outcome × Nat) :=
  loop (fun done round => (transferRound io offset size done round, round + 1)) rounds done round

/-- For a node without blocks the driver is asked once, for everything. -/
def uncached : Outcome :=
  match io.driver with
  | none => ⟨-2, 0⟩
  | some answer => ⟨answer round size, (answer round size).toNat⟩

/-- How both calls begin. -/
def begin (blockwise : Nat → Option (Outcome × Nat)) (rounds : Nat) : Option (Outcome × Nat) :=
  if size = 0 then some (⟨0, 0⟩, round)
  else if io.blockSize = 0 then some (uncached io size round, round)
  else blockwise rounds

def vfsRead (nodeSize : Nat) : Nat → Option (Outcome × Nat) :=
  begin io size round fun rounds =>
    if nodeSize ≤ offset then some (⟨0, 0⟩, round)
    else
      let size := if nodeSize < uint64 (offset + size) then (nodeSize - offset) % 2 ^ 32 else size
      transfer io offset size 0 round rounds

/-- All of a page can be written. -/
def Medium.writable : Medium := { io with page := fun round => (io.page round).map fun _ => io.blockSize }

def vfsWrite (directory : Bool) (rounds : Nat) : Option (Outcome × Nat) :=
  if directory then some (⟨-21, 0⟩, round)
  else begin io size round (transfer io.writable offset size 0 round) rounds

/-- An error is returned only where nothing was transferred. -/
def Outcome.Proper (outcome : Outcome) : Prop :=
  outcome.moved ≤ size ∧ (outcome.ret = outcome.moved ∨ outcome.ret < 0 ∧ outcome.moved = 0)

def Ends (call : Nat → Option (Outcome × Nat)) : Prop :=
  ∃ rounds result, call rounds = some result ∧ result.1.Proper size

/-- No length is answered with 0 for ever. -/
def Moves (driver : Option (Nat → Nat → Int)) (limit : Nat) : Prop :=
  ∀ asked, 0 < asked → asked < limit → ∀ round, ∃ gap, ∀ answer ∈ driver, answer (round + gap) asked ≠ 0

variable {io offset size done round} (small : size < 2 ^ 31)

section
include small

theorem proper_count (within : done ≤ size) : Outcome.Proper size ⟨cInt done, done⟩ :=
  ⟨within, .inl (cInt_of_lt (by omega))⟩

theorem proper_stop (within : done ≤ size) (negative : error < 0) : (stopWith done error).Proper size := by
  unfold stopWith
  split
  · exact proper_count small within
  · exact ⟨within, .inr ⟨negative, by simp only; omega⟩⟩

variable (fits : ∀ answer ∈ io.driver, ∀ round asked : Nat, answer round asked ≤ asked)

/-- A round that leaves as much to do as before got 0 from the driver. -/
def Onward (io : Medium) (size done round : Nat) : Outcome ⊕ Nat → Prop
  | .inl outcome => outcome.Proper size
  | .inr next => done ≤ next ∧ next ≤ size ∧ (next = done → 0 < io.blocks (size - done) ∧
      ∃ answer ∈ io.driver, answer round (io.blocks (size - done)) = 0)

theorem cachedRound_onward (more : done < size) :
    Onward io size done round (cachedRound io offset size done round) := by
  simp only [cachedRound]
  split
  · exact proper_stop small more.le (by decide)
  · split
    · exact proper_count small more.le
    · exact ⟨by omega, by omega, by omega⟩

include fits

theorem transferRound_onward (blocks : 0 < io.blockSize) (within : done ≤ size) :
    Onward io size done round (transferRound io offset size done round) := by
  unfold transferRound
  split
  case isTrue => exact proper_count small within
  case isFalse more =>
  have cached := @cachedRound_onward io offset size done round small (not_le.mp more)
  split
  case isFalse => exact cached
  case isTrue whole =>
  split
  case h_1 => exact cached
  case h_2 answer driver =>
  have bound := fits answer driver round (io.blocks (size - done))
  have less : io.blocks (size - done) ≤ size - done := div_mul_le_self ..
  simp only
  split
  case isTrue negative => exact proper_stop small within negative
  case isFalse =>
    rw [mod_eq_of_lt (by omega)]
    refine ⟨by omega, by omega, fun same => ⟨mul_pos (div_pos whole.2 blocks) blocks, answer, driver, ?_⟩⟩
    omega

/-- Rounds that move nothing are outlasted until the driver's next answer that is not 0. -/
theorem transfer_ends (blocks : 0 < io.blockSize) (moves : Moves io.driver (size + 1)) (within : done ≤ size) :
    Ends size (transfer io offset size done round) := by
  induction remaining : size - done using Nat.strong_induction_on generalizing done round with
  | _ remaining onward =>
  have later : ∃ gap, 0 < io.blocks (size - done) →
      ∀ answer ∈ io.driver, answer (round + gap) (io.blocks (size - done)) ≠ 0 := by
    by_cases whole : 0 < io.blocks (size - done)
    · have less : io.blocks (size - done) ≤ size - done := div_mul_le_self ..
      obtain ⟨gap, other⟩ := moves _ whole (by omega) round
      exact ⟨gap, fun _ => other⟩
    · exact ⟨0, (absurd · whole)⟩
  obtain ⟨gap, other⟩ := later
  induction gap using Nat.strong_induction_on generalizing round with
  | _ gap wait =>
  have step := @transferRound_onward io offset size done round small fits blocks within
  cases same : transferRound io offset size done round with
  | inl outcome => exact ⟨1, (outcome, round + 1), by rw [transfer, loop, same], by rwa [same] at step⟩
  | inr next =>
    rw [same] at step
    obtain ⟨further, inside, stuck⟩ := step
    have rest : Ends size (transfer io offset size next (round + 1)) := by
      by_cases still : next = done
      · obtain ⟨whole, answer, driver, zero⟩ := stuck still
        rw [still]
        cases gap with
        | zero => exact absurd zero (other whole answer driver)
        | succ gap => exact wait gap (by omega) (by rwa [add_right_comm, add_assoc])
      · exact onward (size - next) (by omega) inside rfl
    obtain ⟨rounds, result, run, proper⟩ := rest
    exact ⟨rounds + 1, result, by rw [transfer, loop, same]; exact run, proper⟩

omit small

theorem begin_ends (blockwise : 0 < io.blockSize → Ends size call) : Ends size (begin io size round call) := by
  have other : (uncached io size round).Proper size := by
    unfold uncached
    split
    · exact ⟨zero_le _, .inr ⟨by decide, rfl⟩⟩
    case h_2 answer driver =>
      have bound := fits answer driver round size
      simp only [Outcome.Proper]
      omega
  by_cases empty : size = 0
  · exact ⟨0, _, if_pos empty, zero_le _, .inl rfl⟩
  by_cases blocks : io.blockSize = 0
  · exact ⟨0, _, (if_neg empty).trans (if_pos blocks), other⟩
  · obtain ⟨rounds, result, run, proper⟩ := blockwise (pos_of_ne_zero blocks)
    exact ⟨rounds, result, by rw [begin, if_neg empty, if_neg blocks, run], proper⟩

end

theorem transfer_stuck (zero : ∀ gap, ∃ answer ∈ io.driver, answer (round + gap) io.blockSize = 0)
    (blocks : 0 < io.blockSize) (rounds : Nat) : transfer io 0 io.blockSize 0 round rounds = none := by
  induction rounds generalizing round with
  | zero => rfl
  | succ rounds ih =>
    obtain ⟨answer, driver, same⟩ := zero 0
    have still : transferRound io 0 io.blockSize 0 round = .inr 0 := by
      simp [transferRound, uint64, blocks.ne', Option.mem_def.mp driver, Medium.blocks, Nat.div_self blocks,
        show answer round _ = 0 from same]
    rw [transfer, loop, still]
    exact ih fun gap => by rw [add_right_comm]; exact zero (gap + 1)

/-- Every call of fewer than `limit` bytes ends. -/
theorem transfers_end_iff (driver : Option (Nat → Nat → Int)) (range : limit ≤ 2 ^ 32)
    (fits : ∀ answer ∈ driver, ∀ round asked : Nat, answer round asked ≤ asked) :
    (∀ io : Medium, io.driver = driver → ∀ offset nodeSize round directory, ∀ size < limit,
      Ends size (vfsRead io offset size round nodeSize) ∧ Ends size (vfsWrite io offset size round directory)) ↔
    limit ≤ 2 ^ 31 ∧ Moves driver limit := by
  constructor
  · intro ends
    constructor
    · by_contra large
      obtain ⟨rounds, result, run, proper⟩ :=
        (ends ⟨driver, fun _ => some 0, 2 ^ 32 - 1, by decide⟩ rfl 1 0 0 false (2 ^ 31) (by omega)).2
      rcases rounds with _ | _ | rounds
      all_goals simp [vfsWrite, begin, transfer, loop, transferRound, cachedRound, Medium.writable, uint64] at run
      simp [← run, Outcome.Proper, cInt] at proper
    · intro asked positive small round
      by_contra never
      push Not at never
      obtain ⟨rounds, result, run, -⟩ :=
        (ends ⟨driver, fun _ => none, asked, by omega⟩ rfl 0 0 round false asked small).2
      have stuck := @transfer_stuck (Medium.writable ⟨driver, fun _ => none, asked, by omega⟩) round never positive
      simp only [vfsWrite, begin, positive.ne', if_false, Bool.false_eq_true] at run
      cases (stuck rounds).symm.trans run
  · rintro ⟨small, moves⟩ io rfl offset nodeSize round directory size less
    have ends {moved : Nat} (medium : Medium) (same : medium.driver = io.driver) (blocks : 0 < medium.blockSize)
        (fewer : moved ≤ size) : Ends size (transfer medium offset moved 0 round) := by
      have enough : Moves medium.driver (moved + 1) :=
        fun asked positive most => same ▸ moves asked positive (by omega)
      obtain ⟨rounds, result, run, within, proper⟩ :=
        @transfer_ends medium offset moved 0 round (by omega) (same ▸ fits) blocks enough (zero_le _)
      exact ⟨rounds, result, run, within.trans fewer, proper⟩
    constructor
    · refine begin_ends fits fun blocks => ?_
      by_cases behind : nodeSize ≤ offset
      · exact ⟨0, _, if_pos behind, zero_le _, .inl rfl⟩
      have clipped : (if nodeSize < uint64 (offset + size) then (nodeSize - offset) % 2 ^ 32 else size) ≤ size := by
        unfold uint64
        split <;> omega
      simpa only [if_neg behind] using ends io rfl blocks clipped
    · unfold vfsWrite
      cases directory
      · exact begin_ends fits fun blocks => ends io.writable rfl blocks le_rfl
      · exact ⟨0, _, rfl, zero_le _, .inr ⟨Int.negSucc_lt_zero _, rfl⟩⟩

theorem transfers_end_full_driver :
    let io : Medium := ⟨some fun _ (asked : Nat) => asked, fun _ => some 4, 4, by decide⟩
    Ends 5 (vfsRead io 3 5 0 8) ∧ Ends 5 (vfsWrite io 3 5 0 false) :=
  (transfers_end_iff _ (by decide) (by simp)).mpr
    ⟨le_rfl, fun _ positive _ _ => ⟨0, by simp [positive.ne']⟩⟩ _ rfl 3 8 0 false 5 (by decide)

/-- A driver that has nothing more to give, or no more room, holds both calls for ever. -/
theorem zero_answers_hold_transfer : let io : Medium := ⟨some fun _ _ => 0, fun _ => none, 4, by decide⟩
    ∀ rounds, vfsRead io 0 4 0 4 rounds = none ∧ vfsWrite io 0 4 0 false rounds = none := by
  have stuck (io : Medium) (zero : io.driver = some fun _ _ => 0) (blocks) (rounds) :=
    @transfer_stuck io 0 (by simp [zero]) blocks rounds
  exact fun rounds => ⟨stuck _ rfl (by decide) rounds, stuck (Medium.writable _) rfl (by decide) rounds⟩

end Sirius.Fs.Transfer
