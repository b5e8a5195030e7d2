import Sirius.Support.ByteFile
import Sirius.User.ShellParse

/-! `runcmd` over files of the RamFS, and what a pipeline delivers. The two sides of a `|` communicate through
one file, whose name is the same at every level: the left side writes it from its start, the right side then
reads all of it. The RamFS ignores `O_TRUNC` and a write never shortens a file. A command reads its whole
standard input and then writes its output; files and processes are available, and `fork` and `malloc` succeed. -/
namespace Sirius.User.Shell
open Support List ByteFile

/-- An open file: a path, and the offset that all processes with the descriptor share. -/
structure Description where
  path : List Char
  offset : Nat

/-- What a descriptor leads to: the input or output of the shell itself, or an open file. -/
inductive Stream where
  | console
  | opened (index : Nat)

/-- The files, the open ones in the order of their opening, what the shell's own input still has, what has
arrived at its output, and the commands that have run with the input each has read. -/
structure World where
  files : List Char → Option ByteFile
  opened : List Description
  input : List UInt8
  output : List UInt8
  ran : List (List (List Char) × List UInt8)

/-- Descriptors 0 and 1 of a process. -/
structure Fds where
  stdin : Stream
  stdout : Stream

namespace World

variable (world : World) (path : List Char)

def setFile (file : ByteFile) : World :=
  { world with files := Function.update world.files path (some file) }

/-- `open` after a `close`, which leaves the number that is closed as the lowest free one. -/
def openFile (mode : Nat) : Option (Stream × World) :=
  let opened := world.opened ++ [⟨path, 0⟩]
  match world.files path with
  | some _ => some (.opened world.opened.length, { world with opened })
  | none =>
    if mode &&& oCreat ≠ 0 then some (.opened world.opened.length, { world.setFile path .empty with opened })
    else none

def available : Stream → List UInt8
  | .console => world.input
  | .opened index =>
    match world.opened[index]? with
    | none => []
    | some description =>
      match world.files description.path with
      | none => []
      | some file => file.read description.offset (file.size - description.offset)

def seek (index : Nat) (count : Nat) : World :=
  { world with opened := world.opened.modify index fun d => { d with offset := d.offset + count } }

def readAll (stream : Stream) : World :=
  match stream with
  | .console => { world with input := [] }
  | .opened index => world.seek index (world.available stream).length

def write (world : World) (stream : Stream) (bytes : List UInt8) : World :=
  match stream with
  | .console => { world with output := world.output ++ bytes }
  | .opened index =>
    match world.opened[index]? with
    | none => world
    | some description =>
      match world.files description.path with
      | none => world
      | some file =>
        (world.setFile description.path (file.write description.offset bytes)).seek index bytes.length

end World

def pipeTmpFile : List Char := "/sh_pipe.tmp".toList

def Fds.redirect (fds : Fds) (fd : Nat) (stream : Stream) : Fds :=
  if fd = 0 then { fds with stdin := stream } else { fds with stdout := stream }

variable (command : List (List Char) → List UInt8 → List UInt8)

/-- The process runs the program of its words. -/
def execve (argv : List (List Char)) (fds : Fds) (world : World) : World :=
  let input := world.available fds.stdin
  let world := (world.readAll fds.stdin).write fds.stdout (command argv input)
  { world with ran := world.ran ++ [(argv, input)] }

/-- A process that runs a tree, to the end of it and of the processes it waits for. A command behind `&` goes on
while the shell does, and has no result here. -/
def runcmd : Cmd → Fds → World → Option World
  | .exec argv, fds, world => some (if argv = [] then world else execve command argv fds world)
  | .redir cmd redirection, fds, world =>
    match world.openFile redirection.file redirection.mode with
    | none => some world
    | some (stream, world) => runcmd cmd (fds.redirect redirection.fd stream) world
  | .list left right, fds, world => do
    let world ← runcmd left fds world
    runcmd right fds world
  | .pipe left right, fds, world => do
    let world ←
      match world.openFile pipeTmpFile (oWronly ||| oCreat ||| oTrunc) with
      | none => some world
      | some (stream, world) => runcmd left (fds.redirect 1 stream) world
    match world.openFile pipeTmpFile oRdonly with
    | none => some world
    | some (stream, world) => runcmd right (fds.redirect 0 stream) world
  | .back _, _, _ => none

section Pipeline

/-- The tokens of the commands with a bar between them. -/
def pipeTokens : List (List (List Char)) → List Token
  | [] => []
  | [stage] => stage.map .word
  | stage :: stages => stage.map .word ++ .symbol '|' :: pipeTokens stages

def pipeTree : List (List (List Char)) → Cmd
  | [] => .exec []
  | [stage] => .exec stage
  | stage :: stages => .pipe (.exec stage) (pipeTree stages)

/-- What every stage reads if each gets what the one before it has written. -/
def idealRuns : List (List (List Char)) → List UInt8 → List (List (List Char) × List UInt8)
  | [], _ => []
  | stage :: stages, input => (stage, input) :: idealRuns stages (command stage input)

/-- The composition of the commands. -/
def composition (stages : List (List (List Char))) (input : List UInt8) : List UInt8 :=
  stages.foldl (fun bytes stage => command stage bytes) input

/-- No stage before the last writes less than the file holds: what it held before, and then the output of
the stage before it. -/
def Grows : Nat → List (List (List Char)) → List UInt8 → Prop
  | size, stage :: next :: stages, input =>
    size ≤ (command stage input).length ∧
      Grows (command stage input).length (next :: stages) (command stage input)
  | _, _, _ => True

end Pipeline

section Tree

/-- A text without redirections that ends at a bar or at its end has only words before it. -/
theorem Args.of_words (derived : Args (words.map .word ++ behind) args redirs rest)
    (ends : behind = [] ∨ ∃ others, behind = .symbol '|' :: others) :
    ∃ later, words = args ++ later ∧ redirs = [] ∧ rest = later.map .word ++ behind := by
  induction words generalizing args with
  | nil =>
    obtain rfl | ⟨others, rfl⟩ := ends
    · cases derived
      exact ⟨[], rfl, rfl, rfl⟩
    · cases derived with
      | done => exact ⟨[], rfl, rfl, rfl⟩
      | redir read _ => cases read
  | cons word words ih =>
    rw [map_cons, cons_append] at derived
    generalize found : words.map Token.word ++ behind = toks at derived
    cases derived with
    | done =>
      subst found
      exact ⟨word :: words, rfl, rfl, rfl⟩
    | word derived =>
      subst found
      obtain ⟨later, rfl, rfl, rfl⟩ := ih derived
      exact ⟨later, rfl, rfl, rfl⟩
    | redir read _ => cases read

theorem Derives.of_words (derived : Derives .exec (words.map .word ++ behind) cmd rest) (named : words ≠ [])
    (ends : behind = [] ∨ ∃ others, behind = .symbol '|' :: others) :
    ∃ args later, words = args ++ later ∧ cmd = .exec args ∧ rest = later.map .word ++ behind := by
  generalize found : words.map Token.word ++ behind = toks at derived
  cases derived with
  | simple args few =>
    subst found
    obtain ⟨later, same, rfl, rfl⟩ := args.of_words ends
    exact ⟨_, later, same, rfl, rfl⟩
  | block =>
    cases words with
    | nil => exact absurd rfl named
    | cons word words => cases found

/-- The parser stops in the middle of a pipeline, or has its tree. -/
theorem Derives.of_pipeTokens (derived : Derives .pipe (pipeTokens stages) cmd rest) (some : stages ≠ [])
    (named : ∀ stage ∈ stages, stage ≠ []) :
    (rest = [] ∧ cmd = pipeTree stages) ∨ (∃ word others, rest = .word word :: others) ∨
      ∃ others, rest = .symbol '|' :: others := by
  induction stages generalizing cmd with
  | nil => exact absurd rfl some
  | cons stage stages ih =>
    have first : stage ≠ [] := named _ (mem_cons_self ..)
    obtain ⟨behind, toks, ends⟩ : ∃ behind, pipeTokens (stage :: stages) = stage.map .word ++ behind ∧
        (behind = [] ∧ stages = [] ∨ behind = .symbol '|' :: pipeTokens stages ∧ stages ≠ []) := by
      cases stages with
      | nil => exact ⟨[], by simp [pipeTokens], .inl ⟨rfl, rfl⟩⟩
      | cons next stages => exact ⟨_, rfl, .inr ⟨rfl, nofun⟩⟩
    have barOrEnd : behind = [] ∨ ∃ others, behind = .symbol '|' :: others := by
      obtain ⟨rfl, -⟩ | ⟨rfl, -⟩ := ends
      · exact .inl rfl
      · exact .inr ⟨_, rfl⟩
    rw [toks] at derived
    cases derived with
    | stage derived =>
      obtain ⟨args, later, same, rfl, rfl⟩ := derived.of_words first barOrEnd
      cases later with
      | cons word later => exact .inr (.inl ⟨word, _, rfl⟩)
      | nil =>
        rw [append_nil] at same
        obtain ⟨rfl, rfl⟩ | ⟨rfl, -⟩ := ends
        · exact .inl ⟨rfl, by rw [same, pipeTree]⟩
        · exact .inr (.inr ⟨_, rfl⟩)
    | pipe left right =>
      obtain ⟨args, later, same, rfl, bar⟩ := left.of_words first barOrEnd
      cases later with
      | cons word later => cases bar
      | nil =>
        obtain ⟨rfl, rfl⟩ | ⟨rfl, more⟩ := ends
        · cases bar
        cases bar
        obtain ⟨rfl, rfl⟩ | unfinished := ih right more fun stage mem => named stage (mem_cons_of_mem _ mem)
        · rw [append_nil] at same
          refine .inl ⟨rfl, ?_⟩
          cases stages with
          | nil => exact absurd rfl more
          | cons next stages => rw [same]; rfl
        · exact .inr unfinished

/-- The tree that the parser makes of a pipeline. -/
theorem parsecmd_pipeline (lexed : Lexes text (pipeTokens stages)) (some : stages ≠ [])
    (named : ∀ stage ∈ stages, stage ≠ []) (parsed : parsecmd ⟨text, room⟩ = .ok cmd) : cmd = pipeTree stages := by
  have whole : Lexes (Input.mk text room).text (pipeTokens stages) := lexed
  obtain ⟨derived, -⟩ := (parsecmd_eq_ok_iff whole).mp parsed
  -- behind the pipeline there is neither an ampersand nor a semicolon
  cases derived with
  | @last _ _ times _ pipe =>
    cases times with
    | zero =>
      obtain ⟨-, rfl⟩ | ⟨_, _, other⟩ | ⟨_, other⟩ := pipe.of_pipeTokens some named
      · rfl
      · cases other
      · cases other
    | succ times => obtain ⟨other, -⟩ | ⟨_, _, other⟩ | ⟨_, other⟩ := pipe.of_pipeTokens some named <;> cases other
  | @list _ _ times _ _ _ pipe _ =>
    cases times <;> obtain ⟨other, -⟩ | ⟨_, _, other⟩ | ⟨_, other⟩ := pipe.of_pipeTokens some named <;> cases other

end Tree

section Run
variable {command : List (List Char) → List UInt8 → List UInt8} {world : World} {stream : Stream}

def World.Open (world : World) : Stream → Prop
  | .console => True
  | .opened index => index < world.opened.length

/-- The bytes of the file between the stages; before the first pipeline there is none. -/
def World.tmp (world : World) : ByteFile := (world.files pipeTmpFile).getD .empty

/-- Opening a file that there is, or that is created, changes nothing that could be read before. -/
theorem openFile_some (world : World) (path : List Char) (mode : Nat)
    (there : (world.files path).isSome ∨ mode &&& oCreat ≠ 0) :
    ∃ world', world.openFile path mode = some (.opened world.opened.length, world') ∧
      world'.opened = world.opened ++ [⟨path, 0⟩] ∧ world'.ran = world.ran ∧ world'.output = world.output ∧
      world'.files path = some ((world.files path).getD .empty) ∧
      ∀ stream, world.Open stream → world'.available stream = world.available stream := by
  unfold World.openFile
  cases found : world.files path with
  | some file =>
    refine ⟨_, rfl, rfl, rfl, rfl, found, fun stream isOpen => ?_⟩
    cases stream with
    | console => rfl
    | opened index => simp only [World.available, getElem?_append_left isOpen]
  | none =>
    rw [found] at there
    have creates := there.resolve_left nofun
    simp only [if_pos creates]
    refine ⟨_, rfl, rfl, rfl, rfl, by simp [World.setFile], fun stream isOpen => ?_⟩
    cases stream with
    | console => rfl
    | opened index =>
      simp only [World.available, getElem?_append_left isOpen]
      split
      · rfl
      · rename_i description _
        by_cases same : description.path = path
        · simp [World.setFile, same, found, ByteFile.empty, ByteFile.read, slice]
        · simp [World.setFile, same]

/-- Reading moves the offset of the stream that is read, and no other. -/
theorem readAll_opened (other : ∀ index', stream = .opened index' → index' ≠ index) :
    (world.readAll stream).opened[index]? = world.opened[index]? := by
  cases stream with
  | console => rfl
  | opened index' =>
    exact getElem?_modify_ne _ _ (other index' rfl)

theorem readAll_frame (world : World) (stream : Stream) : (world.readAll stream).files = world.files ∧
    (world.readAll stream).ran = world.ran ∧ (world.readAll stream).output = world.output := by
  cases stream <;> exact ⟨rfl, rfl, rfl⟩

/-- A stage with its output to the file opened last writes that file from its start. -/
theorem execve_opened {after : World} (is : execve command argv ⟨stream, .opened before.length⟩ world = after)
    (last : world.opened = before ++ [⟨path, 0⟩])
    (there : world.files path = some file) (earlier : ∀ index, stream = .opened index → index ≠ before.length) :
    after.ran = world.ran ++ [(argv, world.available stream)] ∧ after.output = world.output ∧
      after.files path = some (file.write 0 (command argv (world.available stream))) := by
  obtain ⟨files, ran, output⟩ := readAll_frame world stream
  have description : (world.readAll stream).opened[before.length]? = some ⟨path, 0⟩ := by
    rw [readAll_opened earlier, last]
    simp
  have found : (world.readAll stream).files path = some file := by rw [files, there]
  simp [← is, execve, World.write, description, found, World.seek, World.setFile, ran, output]

/-- A file that is written from its start holds the bytes and no others exactly if it was not longer. -/
theorem read_write_iff (file : ByteFile) (bytes : List UInt8) :
    (file.write 0 bytes).read 0 (file.write 0 bytes).size = bytes ↔ file.size ≤ bytes.length := by
  have size : (file.write 0 bytes).size = max file.size bytes.length := by
    rw [size_write_of_le (Nat.zero_le _), Nat.zero_add]
  constructor
  · intro same
    have length := congrArg length same
    rw [read_length, Nat.sub_zero, Nat.min_self, size] at length
    omega
  · intro short
    rw [ByteFile.read, Nat.min_eq_left (by omega), size, Nat.max_eq_right short]
    exact slice_overlay file.byte 0 bytes

/-- A pipeline that is run from the shell's process or from a right side of a bar: the first stage gets what its
input has, and every stage gets the output of the one before it exactly if the file only grows. -/
theorem runcmd_pipeTree (command : List (List Char) → List UInt8 → List UInt8)
    (stages : List (List (List Char))) (named : ∀ stage ∈ first :: stages, stage ≠ [])
    (isOpen : world.Open stream) :
    ∃ world' more, runcmd command (pipeTree (first :: stages)) ⟨stream, .console⟩ world = some world' ∧
      world'.ran = world.ran ++ (first, world.available stream) :: more ∧
      ((world'.ran = world.ran ++ idealRuns command (first :: stages) (world.available stream) ∧
        world'.output = world.output ++ composition command (first :: stages) (world.available stream)) ↔
        Grows command world.tmp.size (first :: stages) (world.available stream)) := by
  induction stages generalizing first world stream with
  | nil =>
    -- the output of the last stage is the shell's
    have ran : (execve command first ⟨stream, .console⟩ world).ran = world.ran ++ [(first, world.available stream)] := by
      cases stream <;> rfl
    refine ⟨execve command first ⟨stream, .console⟩ world, [], ?_, ran, ?_⟩
    · rw [pipeTree, runcmd, if_neg (named _ (mem_cons_self ..))]
    · simp only [Grows, iff_true]
      exact ⟨ran, by cases stream <;> rfl⟩
  | cons next stages ih =>
    have creates : (oWronly ||| oCreat ||| oTrunc) &&& oCreat ≠ 0 := by decide
    obtain ⟨writing, opening, last, ran₀, output₀, file₀, same₀⟩ := openFile_some world pipeTmpFile _ (.inr creates)
    have earlier : ∀ index, stream = .opened index → index ≠ world.opened.length := by
      rintro index rfl
      exact Nat.ne_of_lt isOpen
    obtain ⟨left, written⟩ : ∃ left, execve command first ⟨stream, .opened world.opened.length⟩ writing = left := ⟨_, rfl⟩
    obtain ⟨ran₁, output₁, file₁⟩ := execve_opened written last file₀ earlier
    rw [same₀ stream isOpen, ran₀] at ran₁
    rw [same₀ stream isOpen] at file₁
    rw [output₀] at output₁
    obtain ⟨reading, reopening, last', ran₂, output₂, file₂, -⟩ :=
      openFile_some left pipeTmpFile oRdonly (.inl (by rw [file₁]; rfl))
    rw [file₁, Option.getD_some] at file₂
    -- what the next stage finds in the file
    generalize output : command first (world.available stream) = bytes at *
    have found : reading.available (.opened left.opened.length) =
        (world.tmp.write 0 bytes).read 0 (world.tmp.write 0 bytes).size := by
      simp only [World.available, last', getElem?_concat_length, file₂, World.tmp, Nat.sub_zero]
    have tmp : reading.tmp = world.tmp.write 0 bytes := by rw [World.tmp, file₂]; rfl
    have nextOpen : reading.Open (.opened left.opened.length) := by
      simp only [World.Open, last', length_append, length_singleton]
      omega
    obtain ⟨world', more, run, ran, composed⟩ :=
      ih (fun stage mem => named stage (mem_cons_of_mem _ mem)) nextOpen
    refine ⟨world', (next, reading.available (.opened left.opened.length)) :: more, ?_, ?_, ?_⟩
    · have leftRun : runcmd command (.exec first) ⟨stream, .opened world.opened.length⟩ writing = some left := by
        rw [runcmd, if_neg (named _ (mem_cons_self ..)), written]
      simp only [pipeTree, runcmd.eq_4, opening, Fds.redirect, if_neg Nat.one_ne_zero, leftRun, if_pos,
        Option.bind_eq_bind, Option.bind_some, reopening]
      exact run
    · rw [ran, ran₂, ran₁]
      simp
    rw [tmp, found] at composed
    rw [found] at ran
    rw [ran₂, ran₁] at composed ran
    rw [output₂, output₁] at composed
    simp only [idealRuns, composition, foldl_cons, Grows, output] at composed ⊢
    rw [← read_write_iff world.tmp bytes]
    refine (and_iff_right_of_imp ?_).symm.trans (and_congr_right ?_)
    · rintro ⟨runs, -⟩
      rw [ran, append_assoc, singleton_append, append_cancel_left_eq, cons.injEq, cons.injEq] at runs
      exact (Prod.mk.inj runs.2.1).2
    -- with the file as long as the bytes, the rest of the pipeline starts where it should
    · intro same
      have size : (world.tmp.write 0 bytes).size = bytes.length := by
        have length := congrArg length same
        rwa [read_length, Nat.sub_zero, Nat.min_self] at length
      rw [same, size] at composed
      rw [← composed, append_assoc, singleton_append]

/-- The tree of a pipeline runs to its end. Each of its stages reads what the one before it has written, and the
composition is delivered, exactly if no stage before the last writes less than the file between the stages
holds at that moment. -/
theorem pipeline_composes_iff (command : List (List Char) → List UInt8 → List UInt8) (world : World)
    (stages : List (List (List Char))) (two : 2 ≤ stages.length) (named : ∀ stage ∈ stages, stage ≠ [])
    (lexed : Lexes text (pipeTokens stages)) (parsed : parsecmd ⟨text, room⟩ = .ok cmd) :
    ∃ world', runcmd command cmd ⟨.console, .console⟩ world = some world' ∧
      ((world'.ran = world.ran ++ idealRuns command stages world.input ∧
        world'.output = world.output ++ composition command stages world.input) ↔
        Grows command world.tmp.size stages world.input) := by
  cases stages with
  | nil => exact absurd two (by decide)
  | cons first stages =>
    rw [parsecmd_pipeline lexed (cons_ne_nil _ _) named parsed]
    have isOpen : world.Open .console := trivial
    obtain ⟨world', -, run, -, composed⟩ := runcmd_pipeTree command stages named isOpen
    exact ⟨world', run, composed⟩

def sampleCommand (argv : List (List Char)) (input : List UInt8) : List UInt8 :=
  if argv = ["ls".toList] then [1, 2, 3] else if argv = ["head".toList] then input.take 1 else input

def freshWorld : World := ⟨fun _ => none, [], [], [], []⟩

theorem pipeline_composes_two_stages : ∃ world',
    runcmd sampleCommand (pipeTree [["ls".toList], ["head".toList]]) ⟨.console, .console⟩ freshWorld = some world' ∧
      world'.output = [1] := by
  have lexed : Lexes "ls|head".toList (pipeTokens [["ls".toList], ["head".toList]]) := by
    refine .next (by decide : _ = (_, "|head".toList)) nofun ?_
    refine .next (by decide : _ = (_, "head".toList)) nofun ?_
    exact .next (by decide : _ = (_, [])) nofun (.done (by decide))
  have parsed : parsecmd ⟨"ls|head".toList, 3⟩ = .ok (pipeTree [["ls".toList], ["head".toList]]) := by decide +kernel
  obtain ⟨world', run, composed⟩ := pipeline_composes_iff sampleCommand freshWorld [["ls".toList], ["head".toList]]
    (by decide) (by decide) lexed parsed
  exact ⟨world', run, (composed.mpr ⟨by decide, trivial⟩).2⟩

/-- With a shorter output in the middle, the last stage reads what the first has left behind it. -/
theorem pipeline_mixes_stages :
    parsecmd ⟨"ls | head | cat\n".toList, 5⟩ = .ok (pipeTree [["ls".toList], ["head".toList], ["cat".toList]]) ∧
    (runcmd sampleCommand (pipeTree [["ls".toList], ["head".toList], ["cat".toList]]) ⟨.console, .console⟩
      freshWorld).map World.output = some [1, 2, 3] ∧
    composition sampleCommand [["ls".toList], ["head".toList], ["cat".toList]] [] = [1] := by
  refine ⟨by decide +kernel, by decide +kernel, by decide +kernel⟩

end Run

end Sirius.User.Shell
