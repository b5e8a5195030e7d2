import Mathlib.Data.List.Induction
import Mathlib.Data.List.TakeWhile
import Sirius.User.Shell

/-! The grammar of the lines that the shell's parser takes, over the tokens of the line, and that the parser
answers with the tree of a derivation if there is one. -/
namespace Sirius.User.Shell
open List Nat

/-- The tokens of a text, without the end. -/
inductive Lexes : List Char → List Token → Prop where
  | done : skipBlanks text = [] → Lexes text []
  | next : scan (skipBlanks text) = (token, rest) → token ≠ .eof → Lexes rest toks → Lexes text (token :: toks)

/-- Whether the first token begins with one of the characters. -/
def leads (chars : List Char) : List Token → Bool
  | .symbol c :: _ => c ∈ chars
  | .append :: _ => '>' ∈ chars
  | _ => false

def Cmd.redirected (cmd : Cmd) (redirs : List Redirection) : Cmd := redirs.foldl .redir cmd

def Cmd.backgrounded (cmd : Cmd) : Nat → Cmd
  | 0 => cmd
  | times + 1 => (Cmd.back cmd).backgrounded times

/-- The nodes of a tree, each of which the parser has allocated. -/
def Cmd.nodes : Cmd → Nat
  | .exec _ => 1
  | .redir cmd _ => cmd.nodes + 1
  | .pipe left right => left.nodes + right.nodes + 1
  | .list left right => left.nodes + right.nodes + 1
  | .back cmd => cmd.nodes + 1

/-- Redirections at the start of the tokens; the second list of tokens is what remains. -/
inductive Redirs : List Token → List Redirection → List Token → Prop where
  | done : Redirs toks [] toks
  | more : redirection file op = some redir → Redirs toks redirs rest →
      Redirs (op :: .word file :: toks) (redir :: redirs) rest

/-- Words and redirections in any order. -/
inductive Args : List Token → List (List Char) → List Redirection → List Token → Prop where
  | done : Args toks [] [] toks
  | word : Args toks words redirs rest → Args (.word text :: toks) (text :: words) redirs rest
  | redir : redirection file op = some redir → Args toks words redirs rest →
      Args (op :: .word file :: toks) words (redir :: redirs) rest

inductive Phrase where
  | line
  | pipe
  | exec

/-- A phrase at the start of the tokens, its tree, and what remains: a line is pipelines, each with any number
of `&` behind it, between `;`; a pipeline is commands between `|`; a command is fewer than `MAXARGS` words
with redirections, or a line in parentheses with redirections behind it. -/
inductive Derives : Phrase → List Token → Cmd → List Token → Prop where
  | simple : Args toks words redirs rest → words.length < maxArgs →
      Derives .exec toks ((Cmd.exec words).redirected redirs) rest
  | block : Derives .line toks cmd (.symbol ')' :: behind) → Redirs behind redirs rest →
      Derives .exec (.symbol '(' :: toks) (cmd.redirected redirs) rest
  | stage : Derives .exec toks cmd rest → Derives .pipe toks cmd rest
  | pipe : Derives .exec toks left (.symbol '|' :: behind) → Derives .pipe behind right rest →
      Derives .pipe toks (.pipe left right) rest
  | last : Derives .pipe toks cmd (replicate times (.symbol '&') ++ rest) →
      Derives .line toks (cmd.backgrounded times) rest
  | list : Derives .pipe toks left (replicate times (.symbol '&') ++ .symbol ';' :: behind) →
      Derives .line behind right rest → Derives .line toks (.list (left.backgrounded times) right) rest

section
variable (cmd : Cmd) (redir : Redirection) (redirs later : List Redirection)

@[simp] theorem redirected_nil : cmd.redirected [] = cmd := rfl

theorem redirected_cons : cmd.redirected (redir :: redirs) = (Cmd.redir cmd redir).redirected redirs := rfl

theorem redirected_append : cmd.redirected (redirs ++ later) = (cmd.redirected redirs).redirected later := by
  exact foldl_append

@[simp] theorem nodes_redirected : (cmd.redirected redirs).nodes = cmd.nodes + redirs.length := by
  induction redirs generalizing cmd with
  | nil => rfl
  | cons redir redirs ih =>
    rw [redirected_cons, ih, length_cons, Cmd.nodes]
    omega

@[simp] theorem nodes_backgrounded (times : Nat) : (cmd.backgrounded times).nodes = cmd.nodes + times := by
  induction times generalizing cmd with
  | zero => rfl
  | succ times ih =>
    rw [Cmd.backgrounded, ih (.back cmd), Cmd.nodes]
    omega

end

@[simp] theorem addArg_redirected (argv : List (List Char)) (redirs : List Redirection) (word : List Char) :
    ((Cmd.exec argv).redirected redirs).addArg word = (Cmd.exec (argv ++ [word])).redirected redirs := by
  induction redirs using reverseRecOn with
  | nil => rfl
  | append_singleton redirs redir ih =>
    simp only [redirected_append, redirected_cons, redirected_nil, Cmd.addArg, ih]

section Lexing

theorem not_blank_of_skipBlanks (found : skipBlanks text = c :: s) : c ∉ whitespace := by
  have first := head?_dropWhile_not (fun c => decide (c ∈ whitespace)) text
  rw [show text.dropWhile (fun c => decide (c ∈ whitespace)) = c :: s from found] at first
  simpa using first

theorem skipBlanks_skipBlanks (text : List Char) : skipBlanks (skipBlanks text) = skipBlanks text := by
  cases found : skipBlanks text with
  | nil => rfl
  | cons c s => exact dropWhile_cons_of_neg (by simpa using not_blank_of_skipBlanks found)

theorem Lexes.skipBlanks (lexed : Lexes text toks) : Lexes (skipBlanks text) toks := by
  cases lexed with
  | done blank => exact .done (by rwa [skipBlanks_skipBlanks])
  | next scanned some rest => exact .next (by rwa [skipBlanks_skipBlanks]) some rest

theorem scan_eof (scanned : scan text = (.eof, rest)) : text = [] := by
  unfold scan at scanned
  split at scanned
  · rfl
  · cases scanned
  · split at scanned <;> cases scanned

/-- What the first character says of the token. -/
theorem scan_cases (scanned : scan (skipBlanks text) = (token, rest)) (some : token ≠ .eof) :
    ∃ c s, skipBlanks text = c :: s ∧ (token = .symbol c ∧ rest.length ≤ s.length ∨
      c = '>' ∧ token = .append ∧ rest.length ≤ s.length ∨
      c ∉ symbols ∧ token = .word ((c :: s).takeWhile inWord) ∧ rest = (c :: s).dropWhile inWord) := by
  unfold scan at scanned
  split at scanned
  · cases scanned
    exact absurd rfl some
  · rename_i s found
    cases scanned
    exact ⟨'>', '>' :: rest, found, .inr (.inl ⟨rfl, rfl, le_succ _⟩)⟩
  rename_i c s _ found
  split at scanned
  · cases scanned
    exact ⟨c, rest, found, .inl ⟨rfl, le_refl _⟩⟩
  · rename_i plain
    cases scanned
    exact ⟨c, s, found, .inr (.inr ⟨plain, rfl, rfl⟩)⟩

/-- A token takes at least its first character. -/
theorem scan_length (scanned : scan (skipBlanks text) = (token, rest)) (some : token ≠ .eof) :
    rest.length < text.length := by
  have blanks : (skipBlanks text).length ≤ text.length := length_dropWhile_le _ _
  obtain ⟨c, s, found, ⟨-, shorter⟩ | ⟨-, -, shorter⟩ | ⟨plain, -, rfl⟩⟩ := scan_cases scanned some
  all_goals rw [found, length_cons] at blanks
  · omega
  · omega
  have first : inWord c = true := by simp [inWord, plain, not_blank_of_skipBlanks found]
  have shorter := length_dropWhile_le inWord s
  rw [dropWhile_cons_of_pos first]
  omega

theorem Lexes.length_le (lexed : Lexes text toks) : toks.length ≤ text.length := by
  induction lexed with
  | done => exact zero_le _
  | next scanned some _ ih =>
    have := scan_length scanned some
    rw [length_cons]
    omega

theorem exists_lexes (text : List Char) : ∃ toks, Lexes text toks := by
  induction size : text.length using Nat.strongRecOn generalizing text with
  | ind size' ih =>
    rcases scanned : scan (skipBlanks text) with ⟨token, rest⟩
    by_cases some : token = .eof
    · exact ⟨[], .done (scan_eof (some ▸ scanned))⟩
    · obtain ⟨toks, lexed⟩ := ih rest.length (size ▸ scan_length scanned some) rest rfl
      exact ⟨token :: toks, .next scanned some lexed⟩

end Lexing

/-- Where the parser is: the tokens before it and the blocks left. -/
structure At (input : Input) (toks : List Token) (room : Nat) : Prop where
  lexes : Lexes input.text toks
  room : input.room = room

theorem At.of_room (start : At input toks blocks) (same : blocks = blocks') : At input toks blocks' := same ▸ start

theorem gettoken_next (start : At input (token :: toks) room) :
    ∃ input', gettoken input = (token, input') ∧ At input' toks room := by
  cases start.lexes with
  | next scanned some rest =>
    refine ⟨{ input with text := skipBlanks _ }, ?_, rest.skipBlanks, start.room⟩
    rw [gettoken, scanned]

theorem gettoken_eof (start : At input [] room) :
    ∃ input', gettoken input = (.eof, input') ∧ At input' [] room := by
  cases start.lexes with
  | done blank =>
    refine ⟨{ input with text := [] }, ?_, .done rfl, start.room⟩
    rw [gettoken, blank]
    rfl

theorem peek_at (chars : List Char) (start : At input toks room) (known : chars ⊆ symbols := by decide) :
    ∃ input', peek input chars = (leads chars toks, input') ∧ At input' toks room := by
  refine ⟨{ input with text := skipBlanks input.text }, ?_, start.lexes.skipBlanks, start.room⟩
  unfold peek
  cases start.lexes with
  | done blank => rw [blank]; rfl
  | next scanned some rest =>
    obtain ⟨c, s, found, ⟨rfl, -⟩ | ⟨rfl, rfl, -⟩ | ⟨plain, rfl, -⟩⟩ := scan_cases scanned some
    · rw [found]
      rfl
    · rw [found]
      rfl
    · rw [found]
      simpa [leads] using fun mem => plain (known mem)

theorem malloc_at (start : At input toks (room + 1)) (message : String) :
    ∃ input', input.malloc message = .ok input' ∧ At input' toks room := by
  refine ⟨{ input with room }, ?_, start.lexes, rfl⟩
  rw [Input.malloc, start.room]

theorem malloc_ok (start : At input toks room) (result : input.malloc message = .ok input') :
    ∃ room', room = room' + 1 ∧ At input' toks room' := by
  unfold Input.malloc at result
  split at result
  · cases result
  · rename_i left more
    cases result
    exact ⟨left, start.room.symm.trans more, start.lexes, rfl⟩

/-- A parser has answered with a tree and stands before the rest. -/
def Gives (run : Except Stop (Cmd × Input)) (cmd : Cmd) (rest : List Token) (room : Nat) : Prop :=
  ∃ input, run = .ok (cmd, input) ∧ At input rest room

/-- The characters that may follow a phrase. -/
def Phrase.follow : Phrase → List Char
  | .line => [')']
  | .pipe => ['&', ';', ')']
  | .exec => ['|', ';', '&', ')']

def Phrase.Ends (phrase : Phrase) (rest : List Token) : Prop := rest = [] ∨ leads phrase.follow rest = true

theorem leads_mono (subset : chars ⊆ chars') (found : leads chars toks = true) : leads chars' toks = true := by
  unfold leads at *
  split at found
  · simpa using subset (by simpa using found)
  · simpa using subset (by simpa using found)
  · cases found

theorem leads_disjoint (disjoint : chars.all (· ∉ chars') = true) (found : leads chars toks = true) :
    leads chars' toks = false := by
  have disjoint : ∀ c ∈ chars, c ∉ chars' := by simpa using disjoint
  unfold leads at *
  split at found
  · simpa using disjoint _ (by simpa using found)
  · simpa using disjoint _ (by simpa using found)
  · cases found

/-- A phrase that has ended is not followed by a character that would continue it. -/
theorem Phrase.Ends.not_leads {phrase : Phrase} (ends : phrase.Ends rest) (disjoint : phrase.follow.all (· ∉ chars) = true) :
    leads chars rest = false := by
  obtain rfl | found := ends
  · rfl
  · exact leads_disjoint disjoint found

theorem Phrase.Ends.mono {phrase phrase' : Phrase} (ends : phrase.Ends rest) (subset : phrase.follow ⊆ phrase'.follow) :
    phrase'.Ends rest := by
  obtain rfl | found := ends
  · exact .inl rfl
  · exact .inr (leads_mono subset found)

theorem redirection_leads (read : redirection file op = some redir) (toks : List Token) :
    leads ['<', '>'] (op :: toks) = true := by
  unfold redirection at read
  split at read <;> first | rfl | cases read

theorem Redirs.args (derived : Redirs toks redirs behind) (more : Args behind words later rest) :
    Args toks words (redirs ++ later) rest := by
  induction derived with
  | done => exact more
  | more read _ ih => exact .redir read (ih more)

theorem Args.rest_length (derived : Args toks words redirs rest) : rest.length ≤ toks.length := by
  induction derived with
  | done => exact le_refl _
  | word _ ih | redir _ _ ih => simp; omega

theorem Redirs.rest_length (derived : Redirs toks redirs rest) : rest.length ≤ toks.length := (derived.args .done).rest_length

/-- A simple command never begins with a parenthesis. -/
theorem Args.not_leads (derived : Args toks words redirs rest) (ends : leads ['('] rest = false) :
    leads ['('] toks = false := by
  cases derived with
  | done => exact ends
  | word _ => rfl
  | redir read _ => exact leads_disjoint (by decide) (redirection_leads read _)

theorem Derives.rest_length (derived : Derives phrase toks cmd rest) : rest.length ≤ toks.length := by
  induction derived with
  | simple args _ => exact args.rest_length
  | block _ redirs ih =>
    have := redirs.rest_length
    simp only [length_cons] at ih ⊢
    omega
  | stage _ ih => exact ih
  | pipe _ _ first second =>
    simp only [length_cons] at first
    omega
  | last _ ih =>
    simp only [length_append, length_replicate] at ih
    omega
  | list _ _ first second =>
    simp only [length_append, length_replicate, length_cons] at first
    omega

theorem ok_bind (value : α) (next : α → Except Stop β) : (Except.ok value >>= next) = next value := rfl

theorem bind_ok {run : Except Stop α} {next : α → Except Stop β} (result : (run >>= next) = .ok value) :
    ∃ first, run = .ok first ∧ next first = .ok value := by
  cases run with
  | error stop => cases result
  | ok first => exact ⟨first, rfl, result⟩

section Complete
variable {input : Input} {cmd : Cmd}

theorem parseredirs_stop (ends : leads ['<', '>'] rest = false) (start : At input rest room) :
    ∃ input', At input' rest room ∧ ∀ fuel cmd, parseredirs (fuel + 1) cmd input = .ok (cmd, input') := by
  obtain ⟨input', peeked, there⟩ := peek_at ['<', '>'] start
  exact ⟨input', there, fun fuel cmd => by simp only [parseredirs, peeked, ends]⟩

theorem parseredirs_step (read : redirection file op = some redir)
    (start : At input (op :: .word file :: toks) (room + 1)) :
    ∃ input', At input' toks room ∧
      ∀ fuel cmd, parseredirs (fuel + 1) cmd input = parseredirs fuel (.redir cmd redir) input' := by
  obtain ⟨_, peeked, start⟩ := peek_at ['<', '>'] start
  obtain ⟨_, operator, start⟩ := gettoken_next start
  obtain ⟨_, text, start⟩ := gettoken_next start
  obtain ⟨input', node, there⟩ := malloc_at start "malloc redircmd"
  refine ⟨input', there, fun fuel cmd => ?_⟩
  simp only [parseredirs, peeked, redirection_leads read, operator, text, read, node, ok_bind]

theorem parseredirs_complete (cmd : Cmd) (derived : Redirs toks redirs rest) (ends : leads ['<', '>'] rest = false)
    (start : At input toks (room + redirs.length)) (enough : toks.length < fuel) :
    Gives (parseredirs fuel cmd input) (cmd.redirected redirs) rest room := by
  obtain _ | fuel := fuel
  · omega
  induction derived generalizing input cmd fuel with
  | done =>
    obtain ⟨input', there, run⟩ := parseredirs_stop ends start
    exact ⟨input', run fuel cmd, there⟩
  | more read _ ih =>
    simp only [length_cons] at enough
    obtain _ | fuel := fuel
    · omega
    obtain ⟨input', start, step⟩ := parseredirs_step read start
    rw [step, redirected_cons]
    exact ih _ ends start fuel (by omega)

/-- The redirections before the first word and the loop over the words, as `parseexec` goes through them. -/
theorem parseargs_complete (argv : List (List Char)) (before : List Redirection) (derived : Args toks words redirs rest)
    (ends : Phrase.exec.Ends rest) (start : At input toks (room + redirs.length))
    (fewArgs : argv.length + words.length < maxArgs) (enough : toks.length < fuel) (enough' : toks.length < fuel') :
    Gives (do
        let (ret, input) ← parseredirs fuel ((Cmd.exec argv).redirected before) input
        parseargs fuel' argv.length ret input)
      ((Cmd.exec (argv ++ words)).redirected (before ++ redirs)) rest room := by
  obtain _ | fuel := fuel
  · omega
  obtain _ | fuel' := fuel'
  · omega
  induction derived generalizing input argv before fuel fuel' with
  | done =>
    obtain ⟨_, start, none⟩ := parseredirs_stop (ends.not_leads (by decide)) start
    obtain ⟨input', peeked, there⟩ := peek_at ['|', ';', '&', ')'] start
    simp only [none, ok_bind, append_nil, parseargs, peeked]
    obtain rfl | found := ends
    · obtain ⟨input', eof, there⟩ := gettoken_eof there
      exact ⟨input', by simp only [leads, eof], there⟩
    · rw [show ['|', ';', '&', ')'] = Phrase.exec.follow from rfl, found]
      exact ⟨input', rfl, there⟩
  | @word _ _ _ _ text _ ih =>
    obtain ⟨_, start, none⟩ := parseredirs_stop (by rfl) start
    obtain ⟨_, peeked, start⟩ := peek_at ['|', ';', '&', ')'] start
    obtain ⟨_, word, start⟩ := gettoken_next start
    simp only [length_cons] at fewArgs enough enough'
    obtain _ | fuel' := fuel'
    · omega
    have more := ih (argv ++ [text]) before ends start
      (by simp; omega) fuel' (by omega) fuel' (by omega)
    simp only [none, ok_bind, parseargs.eq_2 _ _ _ (fuel' + 1), peeked, leads, word, addArg_redirected,
      if_neg (show ¬ argv.length + 1 ≥ maxArgs by omega)]
    simpa using more
  | @redir _ _ redir _ _ _ _ read _ ih =>
    simp only [length_cons] at enough enough'
    obtain _ | fuel := fuel
    · omega
    obtain ⟨_, start, step⟩ := parseredirs_step read start
    have more := ih argv (before ++ [redir]) ends start fewArgs fuel (by omega) fuel' (by omega)
    simp only [step]
    simpa [redirected_append, redirected_cons] using more

theorem parsebacks_complete (cmd : Cmd) (ends : leads ['&'] rest = false)
    (start : At input (replicate times (.symbol '&') ++ rest) (room + times)) (enough : times < fuel) :
    Gives (parsebacks fuel cmd input) (cmd.backgrounded times) rest room := by
  induction times generalizing input cmd fuel with
  | zero =>
    obtain _ | fuel := fuel
    · omega
    obtain ⟨input', peeked, there⟩ := peek_at ['&'] start
    exact ⟨input', by simp [parsebacks, peeked, replicate, ends, Cmd.backgrounded], there⟩
  | succ times ih =>
    obtain _ | fuel := fuel
    · omega
    rw [replicate_succ, cons_append] at start
    obtain ⟨_, peeked, start⟩ := peek_at ['&'] start
    obtain ⟨_, token, start⟩ := gettoken_next start
    obtain ⟨_, node, start⟩ := malloc_at start "malloc backcmd"
    have more := ih (.back cmd) start (by omega : times < fuel)
    simpa only [parsebacks, peeked, leads, token, node, ok_bind, mem_singleton, decide_true,
      Cmd.backgrounded] using more

theorem ends_backs (ends : Phrase.pipe.Ends rest) :
    Phrase.pipe.Ends (replicate times (.symbol '&') ++ rest) := by
  cases times with
  | zero => exact ends
  | succ times => exact .inr rfl

@[reducible] def Phrase.parser : Phrase → Nat → Input → Except Stop (Cmd × Input)
  | .line => parseline
  | .pipe => parsepipe
  | .exec => parseexec

/-- The calls that are open at once: four for every parenthesis that the text can hold. -/
def Phrase.depth (toks : List Token) : Phrase → Nat
  | .line => 4 * toks.length + 4
  | .pipe => 4 * toks.length + 3
  | .exec => 4 * toks.length + 2

/-- The parser of a phrase answers with the tree of a derivation. -/
theorem Derives.complete (derived : Derives phrase toks cmd rest) (ends : phrase.Ends rest)
    (start : At input toks (room + cmd.nodes)) (enough : phrase.depth toks ≤ fuel) :
    Gives (phrase.parser fuel input) cmd rest room := by
  induction derived generalizing input room fuel
  all_goals
    simp only [Phrase.depth] at *
    obtain _ | fuel := fuel
    · omega
  case simple words redirs _ args fewArgs =>
    obtain ⟨_, peeked, start⟩ := peek_at ['('] start
    have rooms : room + ((Cmd.exec words).redirected redirs).nodes = room + redirs.length + 1 := by
      rw [nodes_redirected, Cmd.nodes]
      omega
    obtain ⟨_, node, start⟩ := malloc_at (start.of_room rooms) "malloc execcmd"
    have read := parseargs_complete [] [] args ends start (by simpa using fewArgs) (by omega : _ < fuel)
      (by omega : _ < fuel)
    simp only [parseexec, peeked, args.not_leads (ends.not_leads (by decide)), node, ok_bind]
    exact read
  case block _ cmd _ redirs _ line after ih =>
    rw [length_cons] at enough
    have shorter := line.rest_length
    simp only [length_cons] at shorter
    obtain ⟨_, peeked, start⟩ := peek_at ['('] start
    obtain ⟨_, again, start⟩ := peek_at ['('] start
    obtain ⟨_, opening, start⟩ := gettoken_next start
    have rooms : room + (cmd.redirected redirs).nodes = room + redirs.length + cmd.nodes := by
      rw [nodes_redirected]
      omega
    obtain _ | fuel := fuel
    · omega
    obtain ⟨_, inner, start⟩ := ih (.inr (by rfl)) (start.of_room rooms) (by omega : _ ≤ fuel)
    obtain ⟨_, closed, start⟩ := peek_at [')'] start
    obtain ⟨_, closing, start⟩ := gettoken_next start
    have behind := parseredirs_complete cmd after (ends.not_leads (by decide)) start (by omega : _ < fuel)
    simp only [parseexec, peeked, leads, parseblock, again, opening, inner, ok_bind, closed, closing,
      mem_singleton, decide_true]
    exact behind
  case stage _ ih =>
    obtain ⟨_, command, start⟩ := ih (ends.mono (by decide)) start (by omega : _ ≤ fuel)
    obtain ⟨input', peeked, there⟩ := peek_at ['|'] start
    have continues : leads ['|'] _ = false := ends.not_leads (by decide)
    refine ⟨input', ?_, there⟩
    simp only [parsepipe, command, ok_bind, peeked, continues]
    rfl
  case pipe _ left _ right _ command _ first second =>
    have shorter := command.rest_length
    simp only [length_cons] at shorter
    have rooms : room + (Cmd.pipe left right).nodes = room + 1 + right.nodes + left.nodes := by
      rw [Cmd.nodes]
      omega
    obtain ⟨_, command, start⟩ := first (.inr (by rfl)) (start.of_room rooms) (by omega : _ ≤ fuel)
    obtain ⟨_, peeked, start⟩ := peek_at ['|'] start
    obtain ⟨_, bar, start⟩ := gettoken_next start
    obtain ⟨_, others, start⟩ := second ends start (by omega : _ ≤ fuel)
    obtain ⟨input', node, there⟩ := malloc_at start "malloc pipecmd"
    refine ⟨input', ?_, there⟩
    simp only [parsepipe, command, ok_bind, peeked, leads, mem_singleton, decide_true, bar,
      others, node]
    rfl
  case last _ cmd times _ pipe ih =>
    have shorter := pipe.rest_length
    simp only [length_append, length_replicate] at shorter
    have rooms : room + (cmd.backgrounded times).nodes = room + times + cmd.nodes := by
      rw [nodes_backgrounded]
      omega
    obtain ⟨_, command, start⟩ := ih (ends_backs (ends.mono (by decide))) (start.of_room rooms) (by omega : _ ≤ fuel)
    obtain ⟨_, backs, start⟩ := parsebacks_complete cmd (ends.not_leads (by decide)) start (by omega : times < fuel)
    obtain ⟨input', peeked, there⟩ := peek_at [';'] start
    have continues : leads [';'] _ = false := ends.not_leads (by decide)
    refine ⟨input', ?_, there⟩
    simp only [parseline, command, ok_bind, backs, peeked, continues]
    rfl
  case list _ left times _ right _ pipe _ first second =>
    have shorter := pipe.rest_length
    simp only [length_append, length_replicate, length_cons] at shorter
    have rooms : room + (Cmd.list (left.backgrounded times) right).nodes =
        room + 1 + right.nodes + times + left.nodes := by
      rw [Cmd.nodes, nodes_backgrounded]
      omega
    obtain ⟨_, command, start⟩ := first (ends_backs (.inr (by rfl))) (start.of_room rooms) (by omega : _ ≤ fuel)
    obtain ⟨_, backs, start⟩ := parsebacks_complete left (by rfl) start (by omega : times < fuel)
    obtain ⟨_, peeked, start⟩ := peek_at [';'] start
    obtain ⟨_, semicolon, start⟩ := gettoken_next start
    obtain ⟨_, others, start⟩ := second ends start (by omega : _ ≤ fuel)
    obtain ⟨input', node, there⟩ := malloc_at start "malloc listcmd"
    refine ⟨input', ?_, there⟩
    simp only [parseline, command, ok_bind, backs, peeked, leads, mem_singleton, decide_true,
      semicolon, others, node]
    rfl

end Complete

end Sirius.User.Shell
