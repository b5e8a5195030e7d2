import Sirius.User.ShellGrammar

/-! What the shell's parser reads is a line of the grammar, it stops on every text, and what follows for an
iteration of the main loop: a line that is not in the grammar ends the shell, because the parser panics in
the shell's own process. -/
namespace Sirius.User.Shell
open Option
open List hiding length

section Sound
variable {input input' : Input} {cmd : Cmd}

/-- What a parser has read is a phrase, and the nodes of its tree are the blocks it has used. -/
def Sound (phrase : Phrase) (parser : Input → Except Stop (Cmd × Input)) : Prop :=
  ∀ input cmd input' toks room, parser input = .ok (cmd, input') → At input toks room →
    ∃ rest room', Derives phrase toks cmd rest ∧ At input' rest room' ∧ room = room' + cmd.nodes

theorem leads_singleton (found : leads [c] toks = true) (other : c ≠ '>') : ∃ behind, toks = .symbol c :: behind := by
  unfold leads at found
  split at found
  · rename_i c' behind
    obtain rfl : c' = c := by simpa using found
    exact ⟨behind, rfl⟩
  · exact absurd (by simpa using found) other.symm
  · cases found

/-- What the parsers do with an operator: they look for it, and read it if it is there. -/
theorem peek_symbol (c : Char) (start : At input toks room) (other : c ≠ '>' := by decide)
    (known : [c] ⊆ symbols := by decide) : ∃ past, At past toks room ∧
      (peek input [c] = (false, past) ∨ peek input [c] = (true, past) ∧
        ∃ behind after, toks = .symbol c :: behind ∧ gettoken past = (.symbol c, after) ∧ At after behind room) := by
  obtain ⟨past, peeked, there⟩ := peek_at [c] start known
  refine ⟨past, there, ?_⟩
  cases found : leads [c] toks with
  | false => exact .inl (found ▸ peeked)
  | true =>
    obtain ⟨behind, rfl⟩ := leads_singleton found other
    obtain ⟨after, token, reached⟩ := gettoken_next there
    exact .inr ⟨found ▸ peeked, behind, after, rfl, token, reached⟩

/-- A token that `parseredirs` has peeked at is one of the three operators. -/
theorem exists_redirection (found : leads ['<', '>'] (op :: toks) = true) (file : List Char) :
    ∃ redir, redirection file op = some redir := by
  unfold leads at found
  split at found
  · rename_i c _ same
    obtain ⟨rfl, -⟩ := cons.inj same
    obtain rfl | rfl : c = '<' ∨ c = '>' := by simpa using found
    all_goals exact ⟨_, rfl⟩
  · rename_i same
    obtain ⟨rfl, -⟩ := cons.inj same
    exact ⟨_, rfl⟩
  · cases found

theorem parseredirs_sound (result : parseredirs fuel cmd input = .ok (cmd', input')) (start : At input toks room) :
    ∃ redirs rest room', Redirs toks redirs rest ∧ At input' rest room' ∧ cmd' = cmd.redirected redirs ∧
      room = room' + redirs.length := by
  induction fuel generalizing cmd input toks room with
  | zero => cases result
  | succ fuel ih =>
    obtain ⟨_, peeked, there⟩ := peek_at ['<', '>'] start
    simp only [parseredirs, peeked] at result
    cases found : leads ['<', '>'] toks with
    | false =>
      rw [found] at result
      cases result
      exact ⟨[], toks, room, .done, there, rfl, rfl⟩
    | true =>
      rw [found] at result
      cases toks with
      | nil => cases found
      | cons op toks =>
        obtain ⟨_, operator, there⟩ := gettoken_next there
        simp only [operator] at result
        cases toks with
        | nil =>
          obtain ⟨_, eof, -⟩ := gettoken_eof there
          simp only [eof] at result
          cases result
        | cons token toks =>
          obtain ⟨_, next, past⟩ := gettoken_next there
          simp only [next] at result
          cases token with
          | word file =>
            obtain ⟨redir, read⟩ := exists_redirection found file
            simp only [read] at result
            obtain ⟨_, node, result⟩ := bind_ok result
            obtain ⟨_, rfl, ready⟩ := malloc_ok past node
            obtain ⟨redirs, rest, room', derived, reached, rfl, rfl⟩ := ih result ready
            exact ⟨redir :: redirs, rest, room', .more read derived, reached, rfl, rfl⟩
          | _ => cases result

theorem parseargs_sound (argv : List (List Char)) (before : List Redirection)
    (result : parseargs fuel argv.length ((Cmd.exec argv).redirected before) input = .ok (cmd, input'))
    (start : At input toks room) (fewArgs : argv.length < maxArgs) :
    ∃ words redirs rest room', Args toks words redirs rest ∧ (argv ++ words).length < maxArgs ∧
      At input' rest room' ∧ cmd = (Cmd.exec (argv ++ words)).redirected (before ++ redirs) ∧
      room = room' + redirs.length := by
  induction fuel generalizing argv before input toks room with
  | zero => cases result
  | succ fuel ih =>
    obtain ⟨_, peeked, there⟩ := peek_at ['|', ';', '&', ')'] start
    simp only [parseargs, peeked] at result
    cases found : leads ['|', ';', '&', ')'] toks with
    | true =>
      rw [found] at result
      cases result
      exact ⟨[], [], toks, room, .done, by simpa using fewArgs, there, by simp, rfl⟩
    | false =>
      rw [found] at result
      cases toks with
      | nil =>
        obtain ⟨_, eof, there⟩ := gettoken_eof there
        simp only [eof] at result
        cases result
        exact ⟨[], [], [], room, .done, by simpa using fewArgs, there, by simp, rfl⟩
      | cons token toks =>
        cases there.lexes with
        | next _ some _ =>
        obtain ⟨_, next, past⟩ := gettoken_next there
        simp only [next] at result
        cases token with
        | eof => exact absurd rfl some
        | word text =>
          dsimp only at result
          split at result
          · cases result
          rename_i fewer
          obtain ⟨⟨ret, _⟩, behind, result⟩ := bind_ok result
          obtain ⟨first, _, _, derived, reached, rfl, rfl⟩ := parseredirs_sound behind past
          rw [addArg_redirected, ← redirected_append,
            show argv.length + 1 = (argv ++ [text]).length by simp] at result
          obtain ⟨words, redirs, rest, room', args, few, finish, rfl, rfl⟩ :=
            ih _ _ result reached (by simpa using fewer)
          refine ⟨text :: words, first ++ redirs, rest, room', .word (derived.args args), ?_, finish, ?_, ?_⟩
          · simpa using few
          · simp
          · simp only [length_append]
            omega
        | _ => cases result

theorem parsebacks_sound (result : parsebacks fuel cmd input = .ok (cmd', input')) (start : At input toks room) :
    ∃ times rest room', toks = replicate times (.symbol '&') ++ rest ∧ At input' rest room' ∧
      cmd' = cmd.backgrounded times ∧ room = room' + times := by
  induction fuel generalizing cmd input toks room with
  | zero => cases result
  | succ fuel ih =>
    obtain ⟨_, there, peeked | ⟨peeked, _, _, rfl, token, past⟩⟩ := peek_symbol '&' start
    · simp only [parsebacks, peeked] at result
      cases result
      exact ⟨0, toks, room, rfl, there, rfl, rfl⟩
    · simp only [parsebacks, peeked, token] at result
      obtain ⟨_, node, result⟩ := bind_ok result
      obtain ⟨_, rfl, ready⟩ := malloc_ok past node
      obtain ⟨times, rest, room', rfl, reached, rfl, rfl⟩ := ih result ready
      exact ⟨times + 1, rest, room', rfl, reached, rfl, rfl⟩

theorem parseline_sound (pipe : Sound .pipe (parsepipe fuel)) (line : Sound .line (parseline fuel)) :
    Sound .line (parseline (fuel + 1)) := by
  intro input cmd input' toks room result start
  obtain ⟨⟨left, _⟩, first, result⟩ := bind_ok result
  obtain ⟨_, _, command, there, rfl⟩ := pipe _ _ _ _ _ first start
  obtain ⟨⟨_, _⟩, second, result⟩ := bind_ok result
  obtain ⟨times, rest, room', rfl, behind, rfl, rfl⟩ := parsebacks_sound second there
  obtain ⟨_, there, peeked | ⟨peeked, _, _, rfl, token, past⟩⟩ := peek_symbol ';' behind
  · simp only [peeked] at result
    cases result
    exact ⟨rest, room', .last command, there, by rw [nodes_backgrounded]; omega⟩
  · simp only [peeked, token] at result
    obtain ⟨⟨right, _⟩, others, result⟩ := bind_ok result
    obtain ⟨rest, _, list, ended, rfl⟩ := line _ _ _ _ _ others past
    obtain ⟨_, node, result⟩ := bind_ok result
    obtain ⟨room', rfl, ready⟩ := malloc_ok ended node
    cases result
    exact ⟨rest, room', .list command list, ready, by simp only [Cmd.nodes, nodes_backgrounded]; omega⟩

theorem parsepipe_sound (exec : Sound .exec (parseexec fuel)) (pipe : Sound .pipe (parsepipe fuel)) :
    Sound .pipe (parsepipe (fuel + 1)) := by
  intro input cmd input' toks room result start
  obtain ⟨⟨left, _⟩, first, result⟩ := bind_ok result
  obtain ⟨rest, room', command, there, rfl⟩ := exec _ _ _ _ _ first start
  obtain ⟨_, there, peeked | ⟨peeked, _, _, rfl, token, past⟩⟩ := peek_symbol '|' there
  · simp only [peeked] at result
    cases result
    exact ⟨rest, room', .stage command, there, rfl⟩
  · simp only [peeked, token] at result
    obtain ⟨⟨right, _⟩, others, result⟩ := bind_ok result
    obtain ⟨rest, _, stages, ended, rfl⟩ := pipe _ _ _ _ _ others past
    obtain ⟨_, node, result⟩ := bind_ok result
    obtain ⟨room', rfl, ready⟩ := malloc_ok ended node
    cases result
    exact ⟨rest, room', .pipe command stages, ready, by simp only [Cmd.nodes]; omega⟩

theorem parseexec_sound (block : Sound .exec (parseblock fuel)) : Sound .exec (parseexec (fuel + 1)) := by
  intro input cmd input' toks room result start
  obtain ⟨_, there, peeked | ⟨peeked, -⟩⟩ := peek_symbol '(' start
  case inr =>
    simp only [parseexec, peeked] at result
    exact block _ _ _ _ _ result there
  case inl =>
    simp only [parseexec, peeked] at result
    obtain ⟨_, node, result⟩ := bind_ok result
    obtain ⟨_, rfl, ready⟩ := malloc_ok there node
    obtain ⟨⟨_, _⟩, first, result⟩ := bind_ok result
    obtain ⟨before, _, _, redirs, behind, rfl, rfl⟩ := parseredirs_sound first ready
    obtain ⟨words, later, rest, room', args, few, ended, rfl, rfl⟩ :=
      parseargs_sound [] before result behind (by decide)
    refine ⟨rest, room', .simple (redirs.args args) few, ended, ?_⟩
    rw [nodes_redirected, length_append, Cmd.nodes]
    omega

theorem parseblock_sound (line : Sound .line (parseline fuel)) : Sound .exec (parseblock (fuel + 1)) := by
  intro input cmd input' toks room result start
  obtain ⟨_, -, peeked | ⟨peeked, _, _, rfl, opening, past⟩⟩ := peek_symbol '(' start
  · simp only [parseblock, peeked] at result
    cases result
  · simp only [parseblock, peeked, opening] at result
    obtain ⟨⟨inner, _⟩, first, result⟩ := bind_ok result
    obtain ⟨rest, _, command, ended, rfl⟩ := line _ _ _ _ _ first past
    obtain ⟨_, -, peeked | ⟨peeked, _, _, rfl, closing, behind⟩⟩ := peek_symbol ')' ended
    · simp only [peeked] at result
      cases result
    · simp only [peeked, closing] at result
      obtain ⟨redirs, rest, room', after, reached, rfl, rfl⟩ := parseredirs_sound result behind
      refine ⟨rest, room', .block command after, reached, ?_⟩
      rw [nodes_redirected]
      omega

/-- What any of the parsers reads is a phrase. -/
theorem parsers_sound (fuel : Nat) : Sound .line (parseline fuel) ∧ Sound .pipe (parsepipe fuel) ∧
    Sound .exec (parseexec fuel) ∧ Sound .exec (parseblock fuel) := by
  induction fuel with
  | zero => exact ⟨nofun, nofun, nofun, nofun⟩
  | succ fuel ih =>
    obtain ⟨line, pipe, exec, block⟩ := ih
    exact ⟨parseline_sound pipe line, parsepipe_sound exec pipe, parseexec_sound block, parseblock_sound line⟩

end Sound

theorem depth_line_le {input : Input} (lexed : Lexes input.text toks) :
    Phrase.line.depth toks ≤ 4 * input.text.length + 4 := by
  have few := lexed.length_le
  simp only [Phrase.depth]
  omega

/-- The parser takes the lines of the grammar, with a block for each node of the tree. -/
theorem parsecmd_eq_ok_iff (lexed : Lexes input.text toks) :
    parsecmd input = .ok cmd ↔ Derives .line toks cmd [] ∧ cmd.nodes ≤ input.room := by
  have start : At input toks input.room := ⟨lexed, rfl⟩
  constructor
  · intro result
    obtain ⟨⟨tree, input'⟩, read, result⟩ := bind_ok result
    obtain ⟨rest, room', derived, there, rooms⟩ := (parsers_sound _).1 _ _ _ _ _ read start
    cases there.lexes with
    | done blank =>
      dsimp only [peek] at result
      rw [blank] at result
      cases result
      exact ⟨derived, by omega⟩
    | next scanned some _ =>
      obtain ⟨c, s, found, -⟩ := scan_cases scanned some
      dsimp only [peek] at result
      rw [found] at result
      cases result
  · rintro ⟨derived, enough⟩
    obtain ⟨input', read, there⟩ := derived.complete (.inl rfl)
      (start.of_room (by omega : input.room = input.room - cmd.nodes + cmd.nodes)) (depth_line_le lexed)
    simp only [parsecmd, read, ok_bind, peek]
    cases there.lexes with
    | done blank => rw [blank]; rfl

/-- A line has one tree at most, and the parser answers with it exactly if there is a block for each node:
the memory that is left never changes what a line means. -/
theorem parsecmd_only_tree (text : List Char) : ∃ toks, Lexes text toks ∧
    (∀ one two, Derives .line toks one [] → Derives .line toks two [] → one = two) ∧
      ∀ room cmd, parsecmd ⟨text, room⟩ = .ok cmd ↔ Derives .line toks cmd [] ∧ cmd.nodes ≤ room := by
  obtain ⟨toks, lexed⟩ := exists_lexes text
  have parses room cmd : parsecmd ⟨text, room⟩ = .ok cmd ↔ Derives .line toks cmd [] ∧ cmd.nodes ≤ room :=
    parsecmd_eq_ok_iff lexed
  refine ⟨toks, lexed, fun one two first second => ?_, parses⟩
  -- with room for both trees the parser answers with each of them
  have read := (parses (max one.nodes two.nodes) one).mpr ⟨first, le_max_left _ _⟩
  rw [(parses _ two).mpr ⟨second, le_max_right _ _⟩] at read
  exact (Except.ok.inj read).symm

section Iteration
variable {edit edit' : Edit}

/-- The line as `getcmd` leaves it in the buffer, if it fits. -/
def stored (line : List Char) : Option (List Char) := fgets sizeofBuf ⟨[], 0⟩ (line ++ ['\n'])

theorem type_mem (typed : edit.type length c = some edit') (mem : x ∈ edit'.stored) : x ∈ edit.stored ∨ x = c := by
  unfold Edit.type at typed
  split at typed
  · split at typed
    · cases typed
      exact .inl (dropLast_subset _ mem)
    split at typed
    · split at typed
      · cases typed
        simpa using mem
      · cases typed
    · cases typed
      exact .inl mem
  · split at typed <;> cases typed <;> exact .inl mem

theorem fgets_mem (read : fgets length edit stdin = some buf) (mem : x ∈ buf) : x ∈ edit.stored ∨ x ∈ stdin := by
  induction stdin generalizing edit with
  | nil =>
    simp only [fgets, ite_none_right_eq_some, some.injEq] at read
    exact .inl (read.2 ▸ mem)
  | cons c stdin ih =>
    simp only [fgets] at read
    split at read
    · simp only [ite_none_right_eq_some, some.injEq] at read
      rw [← read.2, mem_append, mem_singleton] at mem
      exact mem.imp_right fun same => by simp [same]
    obtain ⟨edit', typed, read⟩ := bind_eq_some_iff.mp read
    obtain kept | mem := ih read
    · obtain old | rfl := type_mem typed kept
      · exact .inl old
      · exact .inr (mem_cons_self ..)
    · exact .inr (mem_cons_of_mem _ mem)

theorem fgets_newline (read : fgets length edit stdin = some buf) (newline : '\n' ∈ stdin) : '\n' ∈ buf := by
  induction stdin generalizing edit with
  | nil => cases newline
  | cons c stdin ih =>
    simp only [fgets] at read
    split at read
    · rename_i found
      simp only [ite_none_right_eq_some, some.injEq] at read
      rw [← read.2, found]
      simp
    · rename_i other
      obtain ⟨edit', -, read⟩ := bind_eq_some_iff.mp read
      exact ih read ((mem_cons.mp newline).resolve_left (Ne.symm other))

/-- A stored line without NUL is the text that the parser gets, and it is not empty. -/
theorem cString_stored (noNul : '\x00' ∉ line) (read : stored line = some text) : cString text = text ∧ text ≠ [] := by
  constructor
  · refine takeWhile_eq_self_iff.mpr fun c mem => ?_
    obtain kept | mem := fgets_mem read mem
    · cases kept
    have : c ≠ '\x00' := by
      rintro rfl
      obtain mem | mem := mem_append.mp mem
      · exact noNul mem
      · exact absurd mem (by decide)
    simpa using this
  · exact ne_nil_of_mem (fgets_newline read (by simp))

theorem iteration_stored (noNul : '\x00' ∉ line) (read : stored line = some text) (system : System) :
    iteration system (line ++ ['\n']) =
      match parsecmd ⟨text, system.room⟩ with
      | .error .unfinished => .unfinished
      | .error (.panic _) => .ended
      | .ok cmd => execute system.forks cmd := by
  obtain ⟨whole, nonempty⟩ := cString_stored noNul read
  unfold iteration
  rw [show fgets sizeofBuf ⟨[], 0⟩ (line ++ ['\n']) = some text from read]
  dsimp only
  rw [whole]
  cases text with
  | nil => exact absurd rfl nonempty
  | cons c text => rfl

/-- Where a tree sends the shell back to its prompt. -/
theorem execute_eq_prompt_iff : execute forks cmd = .prompt ↔ (∀ args, cmd ≠ .exec ("exit".toList :: args)) ∧
    (forks = true ∨ ∃ name args, cmd = .exec (name :: args) ∧ name ∈ ["cd".toList, "clear".toList, "tree".toList]) := by
  have waits : forkAndWait forks = .prompt ↔ forks = true := by cases forks <;> decide
  cases cmd with
  | exec argv =>
    cases argv with
    | nil => simpa [execute, executeBuiltin] using waits
    | cons name args =>
      simp only [execute, executeBuiltin]
      by_cases builtin : name = "cd".toList ∨ name = "clear".toList ∨ name = "tree".toList
      · have other : name ≠ "exit".toList := by
          rintro rfl
          exact absurd builtin (by decide)
        rw [if_pos builtin]
        simp only [String.reduceToList] at builtin other ⊢
        simp [builtin, other]
      · rw [if_neg builtin]
        by_cases exits : name = "exit".toList
        · rw [if_pos exits]
          simpa using fun other => absurd exits (by simpa using other)
        · rw [if_neg exits]
          simp only [String.reduceToList] at builtin exits ⊢
          simp [waits, builtin, exits]
  | _ => simpa [execute] using waits

/-- An iteration comes back to the prompt exactly if the line fits the buffer, the grammar has it, there is
memory for its tree, it is not `exit`, alone or in parentheses, and `fork` succeeds or is not needed. -/
theorem iteration_returns_iff (system : System) (line : List Char) (noNul : '\x00' ∉ line) :
    iteration system (line ++ ['\n']) = .prompt ↔
      ∃ text toks cmd, stored line = some text ∧ Lexes text toks ∧ Derives .line toks cmd [] ∧
        cmd.nodes ≤ system.room ∧ (∀ args, cmd ≠ .exec ("exit".toList :: args)) ∧
        (system.forks = true ∨
          ∃ name args, cmd = .exec (name :: args) ∧ name ∈ ["cd".toList, "clear".toList, "tree".toList]) := by
  constructor
  · intro returns
    cases read : stored line with
    | none =>
      unfold iteration at returns
      rw [show fgets sizeofBuf ⟨[], 0⟩ (line ++ ['\n']) = none from read] at returns
      cases returns
    | some text =>
      rw [iteration_stored noNul read] at returns
      obtain ⟨toks, lexed⟩ := exists_lexes text
      split at returns
      · cases returns
      · cases returns
      · rename_i cmd parsed
        obtain ⟨derived, room⟩ := (parsecmd_eq_ok_iff lexed).mp parsed
        exact ⟨text, toks, cmd, rfl, lexed, derived, room, execute_eq_prompt_iff.mp returns⟩
  · rintro ⟨text, toks, cmd, read, lexed, derived, room, survives⟩
    rw [iteration_stored noNul read, (parsecmd_eq_ok_iff lexed).mpr ⟨derived, room⟩]
    exact execute_eq_prompt_iff.mpr survives

theorem iteration_returns_on_redirect : '\x00' ∉ "ls > a".toList ∧
    ∃ text toks cmd, stored "ls > a".toList = some text ∧ Lexes text toks ∧ Derives .line toks cmd [] ∧
      cmd.nodes ≤ 2 := by
  have returned : iteration ⟨2, true⟩ ("ls > a".toList ++ ['\n']) = .prompt := by decide +kernel
  obtain ⟨text, toks, cmd, read, lexed, derived, room, -⟩ :=
    (iteration_returns_iff ⟨2, true⟩ "ls > a".toList (by decide)).mp returned
  exact ⟨by decide, text, toks, cmd, read, lexed, derived, room⟩

/-- A redirection without its file, a parenthesis that is not closed, a tenth word and `exit` in parentheses. -/
theorem lines_that_end_the_shell : ["ls >", "(ls", "echo 1 2 3 4 5 6 7 8 9", "(exit)"].all fun line =>
      '\x00' ∉ line.toList ∧ iteration ⟨100, true⟩ (line.toList ++ ['\n']) = .ended := by
  decide +kernel

end Iteration

end Sirius.User.Shell
