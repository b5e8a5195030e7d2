import Sirius.Fs.CacheWrite

/-! What the page cache gives its users over whole runs. A flush that succeeds leaves everything on
the disk, if the driver stores what it says it has stored; over an ideal driver the cache cannot
be seen, if no write starts past the end of the file. -/
namespace Sirius.Fs.PageCache
open Support ByteFile

variable {ideal : ByteFile} {env : Env} {s : State} {offset : Nat} {data : List UInt8}

/-- The calls on one open node. Each finds its own driver and memory; a loop that has not ended
after so many rounds is not waited for. -/
inductive Call
  | write (env : Env) (rounds offset : Nat) (data : List UInt8)
  | read (env : Env) (rounds offset size : Nat)
  | flush (env : Env)

/-- The cache, and what `vfs_write` has last accepted for each byte. -/
structure Run where
  cache : State
  written : Nat → Option UInt8

def opened (cache : State) : Run := ⟨cache, fun _ => none⟩

def record (written : Nat → Option UInt8) (offset : Nat) (data : List UInt8) (j : Nat) : Option UInt8 :=
  if offset ≤ j ∧ j < offset + data.length then some (data.getD (j - offset) 0) else written j

variable (call : Call)

def Call.apply (r : Run) : Run :=
  match call with
  | .write env rounds offset data =>
    match vfsWrite env rounds r.cache offset data with
    | some (ret, s) => ⟨s, record r.written offset (data.take ret.toNat)⟩
    | none => r
  | .read env rounds offset size =>
    match vfsRead env rounds r.cache offset size with
    | some (_, s) => ⟨s, r.written⟩
    | none => r
  | .flush env => ⟨(vfsFlush env r.cache).2, r.written⟩

/-- No write starts past the end of the file, or is too long for the result; the driver stores all
that it is given, or in a flush says that it has not, or refuses a write that replaces no dirty
page. -/
def Call.Fair (r : Run) : Prop :=
  match call with
  | .write env _ offset data =>
    offset ≤ r.cache.size ∧ offset + data.length < 2 ^ 63 ∧ data.length < 2 ^ 31 ∧
      FairWrite env r.cache offset data.length
  | .read env _ _ size => size < 2 ^ 32 ∧ env.StoresAll
  | .flush env => FairFlush env

/-- All that has been written is on the disk, and all of the pages that are marked clean. -/
def Durable (r : Run) : Prop :=
  (∀ j b, r.written j = some b → j < r.cache.disk.size ∧ r.cache.disk.byte j = b) ∧
    ∀ p ∈ r.cache.pages, p.dirty = false → ∀ i < p.size, p.blockId * r.cache.blockSize + i < r.cache.disk.size ∧
        r.cache.disk.byte (p.blockId * r.cache.blockSize + i) = p.buffer i

/-- The cache and the disk are one file, with all that has been written. -/
def Holds (r : Run) : Prop :=
  ∃ ideal, Mirrors ideal r.cache ∧ ∀ j b, r.written j = some b → j < ideal.size ∧ ideal.byte j = b

theorem record_write (known : ∀ j b, written j = some b → j < ideal.size ∧ ideal.byte j = b)
    (found : record written offset data j = some b) :
    j < (ideal.write offset data).size ∧ (ideal.write offset data).byte j = b := by
  unfold record at found
  split at found
  case isTrue inside =>
    obtain ⟨i, rfl⟩ := Nat.exists_eq_add_of_le inside.1
    have bound : i < data.length := by omega
    rw [Nat.add_sub_cancel_left, Option.some.injEq] at found
    rw [byte_write_inside bound, size_write_of_ne (List.length_pos_iff.mp (by omega))]
    exact ⟨by omega, found⟩
  case isFalse outside =>
    obtain ⟨bound, value⟩ := known j b found
    rw [byte_write_outside (by omega)]
    exact ⟨Nat.lt_of_lt_of_le bound (size_le_write _ _ _), value⟩

theorem Stopped.take_ret (stopped : Stopped ideal env offset data done ret s) (int : data.length < 2 ^ 31) :
    data.take ret.toNat = data.take done := by
  have fits := stopped.fits
  rcases stopped.value with value | ⟨none, negative⟩
  · rw [value, cInt_of_lt (by omega), Int.toNat_natCast]
  · rw [none, Int.toNat_of_nonpos negative.le]

theorem Call.apply_holds (r : Run) (fair : call.Fair r) (holds : Holds r) : Holds (call.apply r) := by
  obtain ⟨ideal, mirrors, known⟩ := holds
  cases call with
  | write env rounds offset data =>
    obtain ⟨start, small, int, fair⟩ := fair
    unfold Call.apply
    dsimp only
    split
    case h_1 ret s result =>
      obtain ⟨done, stopped⟩ := vfsWrite_mirrors mirrors (mirrors.size ▸ start) small int fair result
      refine ⟨_, stopped.mirrors, fun j b found => ?_⟩
      rw [stopped.take_ret int] at found
      exact record_write known found
    case h_2 => exact ⟨ideal, mirrors, known⟩
  | read env rounds offset size =>
    unfold Call.apply
    dsimp only
    split
    case h_1 answer s result => exact ⟨ideal, (vfsRead_mirrors mirrors fair.1 fair.2 result).1, known⟩
    case h_2 => exact ⟨ideal, mirrors, known⟩
  | flush env => exact ⟨ideal, (vfsFlush_mirrors mirrors fair).1, known⟩

/-- With no dirty page everything is on the disk. -/
theorem Holds.durable (holds : Holds r) (clean : ∀ p ∈ r.cache.pages, p.dirty = false) : Durable r := by
  obtain ⟨ideal, mirrors, known⟩ := holds
  have stored : ∀ j < ideal.size, Stored ideal r.cache.disk j := fun j bound =>
    mirrors.stored j bound fun p mem _ => clean p mem
  refine ⟨fun j b found => ?_, fun p mem _ i bound => ?_⟩
  · obtain ⟨bound, value⟩ := known j b found
    obtain ⟨long, same⟩ := stored j bound
    exact ⟨long, same.trans value⟩
  · have fill := mirrors.fill p mem
    obtain ⟨long, same⟩ := stored (p.blockId * r.cache.blockSize + i) (by omega)
    exact ⟨long, same.trans (mirrors.content p mem i bound).symm⟩

theorem flush_makes_writes_durable (file : ByteFile) (cache : State) (start : Mirrors file cache) (calls : List Call)
    (meet : AllMeet Call.apply Call.Fair calls (opened cache)) (env : Env) (fair : FairFlush env)
    (success : (vfsFlush env (runAll Call.apply calls (opened cache)).cache).1 = 0) :
    Durable (runAll Call.apply (calls ++ [.flush env]) (opened cache)) := by
  have before : Holds (runAll Call.apply calls (opened cache)) :=
    meet.preserves ⟨file, start, nofun⟩ Call.apply_holds
  have last : runAll Call.apply (calls ++ [.flush env]) (opened cache) =
      Call.apply (.flush env) (runAll Call.apply calls (opened cache)) := List.foldl_append
  rw [last]
  refine ((Call.flush env).apply_holds _ fair before).durable ?_
  obtain ⟨ideal, mirrors, -⟩ := before
  exact (vfsFlush_mirrors mirrors fair).2 success

def fresh (blockSize : Nat) (file : ByteFile) : State := ⟨file.size, blockSize, [], file, 0⟩

theorem fresh_mirrors (word : blockSize < 2 ^ 32) (small : file.size < 2 ^ 63) : Mirrors file (fresh blockSize file) :=
  ⟨word, small, rfl, Nat.le_refl _, List.nodup_nil, fun _ => rfl, nofun, nofun, fun _ bound _ => ⟨bound, rfl⟩⟩

/-- An answer of the driver to every write, with memory for every page. -/
def answering (driver : Nat → Nat → Outcome) (junk : UInt8) : Env := ⟨driver, none, fun _ => true, fun _ _ => junk⟩

def idealDriver (_ length : Nat) : Outcome := ⟨length, cInt length⟩

theorem idealDriver_complete (small : length < 2 ^ 31) (n : Nat) : (idealDriver n length).Complete length :=
  ⟨cInt_of_lt small, Nat.le_refl _⟩

def twoBytes : List Call := [.write (answering idealDriver 0) 3 0 [1, 2]]

theorem flush_makes_writes_durable_two_bytes :
    Durable (runAll Call.apply (twoBytes ++ [.flush (answering idealDriver 0)]) (opened (fresh 4 .empty))) :=
  flush_makes_writes_durable .empty (fresh 4 .empty) (fresh_mirrors (by decide) (by decide)) twoBytes
    ⟨⟨Nat.le_refl _, by decide, by decide, fun n count fits => .inl (idealDriver_complete (by simp at fits; omega) n)⟩, trivial⟩
    (answering idealDriver 0) (fun _ _ => .inr (Nat.le_refl _)) (by decide +kernel)

/-- The driver stores one of the two bytes in the flush, and says so. -/
def shortFlush : Run :=
  runAll Call.apply (twoBytes ++ [.flush (answering (fun _ _ => ⟨1, 1⟩) 0)]) (opened (fresh 4 .empty))

theorem short_write_marks_clean :
    (vfsFlush (answering (fun _ _ => ⟨1, 1⟩) 0) (runAll Call.apply twoBytes (opened (fresh 4 .empty))).cache).1 = 0 ∧
      shortFlush.written 1 = some 2 ∧ shortFlush.cache.disk.size = 1 ∧
      shortFlush.cache.pages.map (fun p => (p.dirty, p.size)) = [(false, 2)] ∧ ¬Durable shortFlush := by
  have size : shortFlush.cache.disk.size = 1 := by decide +kernel
  have written : shortFlush.written 1 = some 2 := by decide +kernel
  refine ⟨by decide +kernel, written, size, by decide +kernel, fun durable => ?_⟩
  have stored := (durable.1 1 2 written).1
  omega

/-- What the reads of a run give; nothing, if a call has not come back. -/
def reads : List Call → State → Option (List ReadResult)
  | [], _ => some []
  | .write env rounds offset data :: rest, s => (vfsWrite env rounds s offset data).bind fun result => reads rest result.2
  | .read env rounds offset size :: rest, s =>
    (vfsRead env rounds s offset size).bind fun result => (reads rest result.2).map (result.1 :: ·)
  | .flush env :: rest, s => reads rest (vfsFlush env s).2

def Call.direct (file : ByteFile) : ByteFile :=
  match call with
  | .write _ _ offset data => file.write offset data
  | _ => file

/-- What the reads give with the calls straight on a byte array. -/
def directReads : List Call → ByteFile → List ReadResult
  | [], _ => []
  | .read _ _ offset size :: rest, file =>
    ⟨cInt (file.read offset size).length, file.read offset size⟩ :: directReads rest file
  | call :: rest, file => directReads rest (call.direct file)

/-- The driver is the ideal one, and there is memory for every page. -/
def Ideal (env : Env) : Prop :=
  (∀ n length, env.driver n length = idealDriver n length) ∧ ∀ block, env.grant block = true

/-- The loop has rounds enough; no write starts past the end of the file, and all counts are of the
result's type. -/
def Call.Plain (file : ByteFile) : Prop :=
  match call with
  | .write env rounds offset data =>
    Ideal env ∧ data.length < rounds ∧ offset ≤ file.size ∧ offset + data.length < 2 ^ 63 ∧ data.length < 2 ^ 31
  | .read env rounds offset size =>
    Ideal env ∧ size < rounds ∧ size < 2 ^ 32 ∧ min size (file.size - offset) < 2 ^ 31
  | .flush env => Ideal env

theorem Ideal.storesAll (ideal : Ideal env) : env.StoresAll := fun n length => (ideal.1 n length).symm ▸ Nat.le_refl _

theorem Ideal.fairWrite (ideal : Ideal env) (int : length < 2 ^ 31) : FairWrite env s offset length := by
  intro n count fits
  rw [ideal.1]
  exact .inl (idealDriver_complete (by omega) n)

/-- Over the ideal driver all of a write is done. -/
theorem Stopped.all (stopped : Stopped file env offset data done ret s) (ideal : Ideal env) (int : data.length < 2 ^ 31) :
    Mirrors (file.write offset data) s := by
  have done : done = data.length := by
    rcases stopped.why with all | ⟨block, refused⟩ | ⟨n, count, fits, negative⟩
    · exact all
    · exact absurd (ideal.2 block) (refused ▸ Bool.false_ne_true)
    · rw [ideal.1, (idealDriver_complete (by omega) n).1] at negative
      omega
  have mirrors := stopped.mirrors
  rwa [done, List.take_length] at mirrors

theorem page_cache_is_transparent (file : ByteFile) (cache : State) (start : Mirrors file cache) (calls : List Call)
    (meet : AllMeet Call.direct Call.Plain calls file) : reads calls cache = some (directReads calls file) := by
  induction calls generalizing file cache with
  | nil => rfl
  | cons call rest ih =>
    obtain ⟨plain, meet⟩ := meet
    cases call with
    | write env rounds offset data =>
      obtain ⟨ideal, enough, behind, small, int⟩ := plain
      obtain ⟨ret, s, result⟩ := vfsWrite_ends start behind small int (ideal.fairWrite int) enough
      obtain ⟨done, stopped⟩ := vfsWrite_mirrors start behind small int (ideal.fairWrite int) result
      rw [reads, result]
      exact ih _ _ (stopped.all ideal int) meet
    | read env rounds offset size =>
      obtain ⟨ideal, enough, word, int⟩ := plain
      obtain ⟨r, s, result⟩ := vfsRead_ends start word ideal.storesAll enough
      obtain ⟨kept, right⟩ := vfsRead_mirrors start word ideal.storesAll result
      have same : r = ⟨cInt (file.read offset size).length, file.read offset size⟩ := by
        rw [read_length]
        refine right.resolve_right fun other => ?_
        rcases other with long | ⟨block, refused⟩
        · omega
        · exact absurd (ideal.2 block) (refused ▸ Bool.false_ne_true)
      rw [reads, result, directReads, ← same]
      exact congrArg (Option.map (r :: ·)) (ih _ _ kept meet)
    | flush env => exact ih _ _ (vfsFlush_mirrors start fun n length => .inr (plain.storesAll n length)).1 meet

theorem answering_ideal (junk : UInt8) : Ideal (answering idealDriver junk) := ⟨fun _ _ => rfl, fun _ => rfl⟩

theorem page_cache_is_transparent_append :
    reads [.write (answering idealDriver 9) 7 0 [1, 2, 3, 4, 5, 6], .flush (answering idealDriver 9),
        .write (answering idealDriver 9) 2 6 [7], .read (answering idealDriver 9) 9 0 8] (fresh 4 .empty) =
      some [⟨7, [1, 2, 3, 4, 5, 6, 7]⟩] := by
  refine page_cache_is_transparent .empty (fresh 4 .empty) (fresh_mirrors (by decide) (by decide)) _
    ⟨⟨answering_ideal 9, ?_⟩, answering_ideal 9, ⟨answering_ideal 9, ?_⟩, ⟨answering_ideal 9, ?_⟩, trivial⟩
  all_goals decide +kernel

/-- The bytes before a write past the end are whatever is in the memory of the page. -/
theorem gap_is_not_zero :
    reads [.write (answering idealDriver 9) 2 2 [7], .read (answering idealDriver 9) 4 0 3] (fresh 4 .empty) =
        some [⟨3, [9, 9, 7]⟩] ∧
      directReads [.write (answering idealDriver 9) 2 2 [7], .read (answering idealDriver 9) 4 0 3] .empty =
        [⟨3, [0, 0, 7]⟩] := by
  decide +kernel

end Sirius.Fs.PageCache
