import Mathlib.Data.List.Basic

/-! `sh.c`: the line that `fgets` stores, its tokens, the recursive descent parser and one iteration of the
main loop. The text of a C string is the list of its characters, so the terminator is the end of the list.
The parser runs in the shell itself: `panic` ends that process. -/
namespace Sirius.User.Shell

def maxArgs : Nat := 10

/-- The size of `buf` in `main`, and the length that `getcmd` gives to `fgets`. -/
def sizeofBuf : Nat := 512

/-- `fgets` between two characters: what is stored from `str` to `s`, and `of`. -/
structure Edit where
  stored : List Char
  of : Nat

/-- A character other than the newline. There is no result where it is stored behind a buffer of `length`. -/
def Edit.type (length : Nat) (edit : Edit) (c : Char) : Option Edit :=
  if edit.of < length then
    if c = '\x08' ∧ edit.of > 0 ∧ edit.stored ≠ [] then some ⟨edit.stored.dropLast, edit.of - 1⟩
    else if c ≠ '\x08' then
      if edit.stored.length < length then some ⟨edit.stored ++ [c], edit.of + 1⟩ else none
    else some edit
  else if c = '\x08' ∧ edit.of > 0 then some { edit with of := edit.of - 1 }
  else some { edit with of := edit.of + 1 }

/-- The loop of `fgets`; an exhausted input answers `EOF`. -/
def fgets (length : Nat) : Edit → List Char → Option (List Char)
  | edit, [] => if edit.stored.length < length then some edit.stored else none
  | edit, c :: stdin =>
    if c = '\n' then if edit.stored.length + 1 < length then some (edit.stored ++ [c]) else none
    else do
      let edit ← edit.type length c
      fgets length edit stdin

/-- What `strlen` sees of a buffer. -/
def cString (buf : List Char) : List Char := buf.takeWhile (· ≠ '\x00')

def whitespace : List Char := [' ', '\t', '\r', '\n', '\x0b']
def symbols : List Char := ['<', '|', '>', '&', ';', '(', ')']

/-- What `gettoken` returns, a word with its text from `q` to `eq`. The two characters `>>` are `append`. -/
inductive Token where
  | eof
  | symbol (c : Char)
  | append
  | word (text : List Char)
deriving DecidableEq

def skipBlanks (s : List Char) : List Char := s.dropWhile (· ∈ whitespace)

def inWord (c : Char) : Bool := c ∉ whitespace ∧ c ∉ symbols

/-- The token at the start of a text without blanks before it, and what is behind it. -/
def scan : List Char → Token × List Char
  | [] => (.eof, [])
  | '>' :: '>' :: s => (.append, s)
  | c :: s =>
    if c ∈ symbols then (.symbol c, s)
    else (.word ((c :: s).takeWhile inWord), (c :: s).dropWhile inWord)

/-- What `ps` points to, and how many more blocks `malloc` has for the nodes. -/
structure Input where
  text : List Char
  room : Nat
deriving DecidableEq

def gettoken (input : Input) : Token × Input :=
  let (token, rest) := scan (skipBlanks input.text)
  (token, { input with text := skipBlanks rest })

def peek (input : Input) (toks : List Char) : Bool × Input :=
  let text := skipBlanks input.text
  (match text with
    | [] => false
    | c :: _ => c ∈ toks, { input with text })

/-- One redirection, with the arguments of `redircmd`. -/
structure Redirection where
  file : List Char
  mode : Nat
  fd : Nat
deriving DecidableEq

inductive Cmd where
  | exec (argv : List (List Char))
  | redir (cmd : Cmd) (redirection : Redirection)
  | pipe (left right : Cmd)
  | list (left right : Cmd)
  | back (cmd : Cmd)
deriving DecidableEq

/-- `panic`, or a bound on the recursion of the model that was too small. -/
inductive Stop where
  | panic (message : String)
  | unfinished
deriving DecidableEq

def Input.malloc (input : Input) (message : String) : Except Stop Input :=
  match input.room with
  | 0 => .error (.panic message)
  | room + 1 => .ok { input with room }

def oRdonly : Nat := 0x0000
def oWronly : Nat := 0x0001
def oCreat : Nat := 0x0040
def oTrunc : Nat := 0x0200

/-- The switch of `parseredirs`. -/
def redirection (file : List Char) : Token → Option Redirection
  | .symbol '<' => some ⟨file, oRdonly, 0⟩
  | .symbol '>' => some ⟨file, oWronly ||| oCreat ||| oTrunc, 1⟩
  | .append => some ⟨file, oWronly ||| oCreat, 1⟩
  | _ => none

/-- `cmd->argv[argc] = q`, where the node may be under the redirections read so far. -/
def Cmd.addArg (word : List Char) : Cmd → Cmd
  | .exec argv => .exec (argv ++ [word])
  | .redir cmd redirection => .redir (cmd.addArg word) redirection
  | cmd => cmd

def parseredirs : Nat → Cmd → Input → Except Stop (Cmd × Input)
  | 0, _, _ => .error .unfinished
  | fuel + 1, cmd, input =>
    match peek input ['<', '>'] with
    | (false, input) => .ok (cmd, input)
    | (true, input) =>
      let (tok, input) := gettoken input
      match gettoken input with
      | (.word file, input) =>
        match redirection file tok with
        | some redirection => do
          let input ← input.malloc "malloc redircmd"
          parseredirs fuel (.redir cmd redirection) input
        | none => parseredirs fuel cmd input
      | _ => .error (.panic "sh: falta o ficheiro para redirecionamento")

def parseargs : Nat → Nat → Cmd → Input → Except Stop (Cmd × Input)
  | 0, _, _, _ => .error .unfinished
  | fuel + 1, argc, ret, input =>
    match peek input ['|', ';', '&', ')'] with
    | (true, input) => .ok (ret, input)
    | (false, input) =>
      match gettoken input with
      | (.eof, input) => .ok (ret, input)
      | (.word q, input) =>
        if argc + 1 ≥ maxArgs then .error (.panic "sh: demasiados argumentos")
        else do
          let (ret, input) ← parseredirs fuel (ret.addArg q) input
          parseargs fuel (argc + 1) ret input
      | _ => .error (.panic "syntax")

def parsebacks : Nat → Cmd → Input → Except Stop (Cmd × Input)
  | 0, _, _ => .error .unfinished
  | fuel + 1, cmd, input =>
    match peek input ['&'] with
    | (false, input) => .ok (cmd, input)
    | (true, input) => do
      let (_, input) := gettoken input
      let input ← input.malloc "malloc backcmd"
      parsebacks fuel (.back cmd) input

mutual
def parseline : Nat → Input → Except Stop (Cmd × Input)
  | 0, _ => .error .unfinished
  | fuel + 1, input => do
    let (cmd, input) ← parsepipe fuel input
    let (cmd, input) ← parsebacks fuel cmd input
    match peek input [';'] with
    | (false, input) => return (cmd, input)
    | (true, input) =>
      let (_, input) := gettoken input
      let (right, input) ← parseline fuel input
      let input ← input.malloc "malloc listcmd"
      return (.list cmd right, input)

def parsepipe : Nat → Input → Except Stop (Cmd × Input)
  | 0, _ => .error .unfinished
  | fuel + 1, input => do
    let (cmd, input) ← parseexec fuel input
    match peek input ['|'] with
    | (false, input) => return (cmd, input)
    | (true, input) =>
      let (_, input) := gettoken input
      let (right, input) ← parsepipe fuel input
      let input ← input.malloc "malloc pipecmd"
      return (.pipe cmd right, input)

def parseexec : Nat → Input → Except Stop (Cmd × Input)
  | 0, _ => .error .unfinished
  | fuel + 1, input =>
    match peek input ['('] with
    | (true, input) => parseblock fuel input
    | (false, input) => do
      let input ← input.malloc "malloc execcmd"
      let (ret, input) ← parseredirs fuel (.exec []) input
      parseargs fuel 0 ret input

def parseblock : Nat → Input → Except Stop (Cmd × Input)
  | 0, _ => .error .unfinished
  | fuel + 1, input =>
    match peek input ['('] with
    | (false, _) => .error (.panic "parseblock")
    | (true, input) => do
      let (_, input) := gettoken input
      let (cmd, input) ← parseline fuel input
      match peek input [')'] with
      | (false, _) => .error (.panic "sh: falta fechar o parentese ')'")
      | (true, input) =>
        let (_, input) := gettoken input
        parseredirs fuel cmd input
end

/-- `nulterminate` cuts the words out of the buffer; here they are lists of their own already. -/
def parsecmd (input : Input) : Except Stop Cmd := do
  let (cmd, input) ← parseline (4 * input.text.length + 4) input
  match peek input [] with
  | (_, ⟨[], _⟩) => return cmd
  | _ => .error (.panic "syntax")

/-- What a command that the shell runs itself does to it. -/
inductive Builtin where
  | processed
  | exits
  | other
deriving DecidableEq

/-- `cd` answers 1 or -1, and the caller takes either for processed. -/
def executeBuiltin : List (List Char) → Builtin
  | [] => .other
  | name :: _ =>
    if name = "cd".toList ∨ name = "clear".toList ∨ name = "tree".toList then .processed
    else if name = "exit".toList then .exits
    else .other

/-- How an iteration ends: at the next prompt, with the end of the shell's process, with a store behind the
buffer of the line. -/
inductive Outcome where
  | prompt
  | ended
  | overrun
  | unfinished
deriving DecidableEq

/-- `fork1` and `wait`. The child runs `runcmd`, which never returns. -/
def forkAndWait (forks : Bool) : Outcome := if forks then .prompt else .ended

def execute (forks : Bool) : Cmd → Outcome
  | .exec argv =>
    match executeBuiltin argv with
    | .processed => .prompt
    | .exits => .ended
    | .other => forkAndWait forks
  | _ => forkAndWait forks

/-- The state of the system that matters to an iteration: the blocks `malloc` can still give before it
fails, and whether `fork` succeeds. -/
structure System where
  room : Nat
  forks : Bool

def iteration (system : System) (stdin : List Char) : Outcome :=
  match fgets sizeofBuf ⟨[], 0⟩ stdin with
  | none => .overrun
  | some buf =>
    match cString buf with
    -- getcmd answers -1
    | [] => .ended
    | text =>
      match parsecmd ⟨text, system.room⟩ with
      | .error .unfinished => .unfinished
      | .error (.panic _) => .ended
      | .ok cmd => execute system.forks cmd

end Sirius.User.Shell
