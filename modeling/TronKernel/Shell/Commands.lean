import TronKernel.Lib.Programs
import TronKernel.Sem.Table

/-!
# The shell's commands

`readBuffer` runs one command line and `pipedBuffer` two with a pipe between them. All they do to
the rest of the system are calls of the kernel's, so a run is the list of its calls with their
answers, and the kernel may answer in any way. What is printed is left out, apart from the error
messages.
-/

namespace TronKernel.Shell

open Sem (toInt)

/-- The characters of a text. -/
def bytes (cs : List Char) : List UInt8 := cs.map fun c => c.toNat.toUInt8

/-! ## The words of a line -/

def MAX_WORDS : ℕ := 100

def MAX_WORD_LENGTH : ℕ := 50

def SPACE : UInt8 := 32

def PIPE : UInt8 := 124

/-- The loop of `parseString`, with room for so many words. -/
def parseWords : ℕ → List UInt8 → List (List UInt8)
  | 0, _ => []
  | room + 1, str =>
    let start := str.dropWhile (· = SPACE)
    if start = [] then []
    else
      (start.takeWhile (· ≠ SPACE)).take MAX_WORD_LENGTH ::
        parseWords room (start.dropWhile (· ≠ SPACE))

/-- `parseString`. -/
def parseString (str : List UInt8) : List (List UInt8) := parseWords MAX_WORDS str

/-- The digits of `atoi`. -/
def atoiLoop (result : ℤ) : List UInt8 → ℤ
  | [] => result
  | c :: str =>
    if 48 ≤ c ∧ c ≤ 57 then atoiLoop (toInt (result * 10 + (c.toNat - 48))) str else result

/-- `atoi`. -/
def atoi (str : List UInt8) : ℤ :=
  match str with
  | 45 :: str => toInt (-atoiLoop 0 str)
  | 43 :: str => atoiLoop 0 str
  | str => atoiLoop 0 str

/-! ## Calls -/

/-- The commands, in the order in which the shell tests for them. -/
inductive Command where
  | printmem | help | clear | tron | date | time | datetime | incFont | decFont | inforeg
  | divZero | invalidOp | exit | ps | testProcesses | testMm | testSync | testPrio | loop
  | kill | block | unblock | nice | cat | filter | wc | sh | phylo | memInfo
deriving DecidableEq, Repr

/-- What the user types for it. -/
def Command.word : Command → List UInt8
  | .printmem => bytes ['p', 'r', 'i', 'n', 't', 'm', 'e', 'm']
  | .help => bytes ['h', 'e', 'l', 'p']
  | .clear => bytes ['c', 'l', 'e', 'a', 'r']
  | .tron => bytes ['t', 'r', 'o', 'n']
  | .date => bytes ['d', 'a', 't', 'e']
  | .time => bytes ['t', 'i', 'm', 'e']
  | .datetime => bytes ['d', 'a', 't', 'e', 't', 'i', 'm', 'e']
  | .incFont => bytes ['i', 'n', 'c', '-', 'f', 'o', 'n', 't']
  | .decFont => bytes ['d', 'e', 'c', '-', 'f', 'o', 'n', 't']
  | .inforeg => bytes ['i', 'n', 'f', 'o', 'r', 'e', 'g']
  | .divZero => bytes ['d', 'i', 'v', '-', 'z', 'e', 'r', 'o']
  | .invalidOp => bytes ['i', 'n', 'v', 'a', 'l', 'i', 'd', '-', 'o', 'p']
  | .exit => bytes ['e', 'x', 'i', 't']
  | .ps => bytes ['p', 's']
  | .testProcesses =>
    bytes ['t', 'e', 's', 't', '-', 'p', 'r', 'o', 'c', 'e', 's', 's', 'e', 's']
  | .testMm => bytes ['t', 'e', 's', 't', '-', 'm', 'm']
  | .testSync => bytes ['t', 'e', 's', 't', '-', 's', 'y', 'n', 'c']
  | .testPrio => bytes ['t', 'e', 's', 't', '-', 'p', 'r', 'i', 'o']
  | .loop => bytes ['l', 'o', 'o', 'p']
  | .kill => bytes ['k', 'i', 'l', 'l']
  | .block => bytes ['b', 'l', 'o', 'c', 'k']
  | .unblock => bytes ['u', 'n', 'b', 'l', 'o', 'c', 'k']
  | .nice => bytes ['n', 'i', 'c', 'e']
  | .cat => bytes ['c', 'a', 't']
  | .filter => bytes ['f', 'i', 'l', 't', 'e', 'r']
  | .wc => bytes ['w', 'c']
  | .sh => bytes ['s', 'h']
  | .phylo => bytes ['p', 'h', 'y', 'l', 'o']
  | .memInfo => bytes ['m', 'e', 'm', '-', 'i', 'n', 'f', 'o']

def commands : List Command :=
  [.printmem, .help, .clear, .tron, .date, .time, .datetime, .incFont, .decFont, .inforeg, .divZero,
    .invalidOp, .exit, .ps, .testProcesses, .testMm, .testSync, .testPrio, .loop, .kill, .block,
    .unblock, .nice, .cat, .filter, .wc, .sh, .phylo, .memInfo]

/-- The first command whose word this is. -/
def Command.find (buf : List UInt8) : Option Command := commands.find? fun c => c.word = buf

/-- What the shell asks of the kernel, and what it shows by itself. -/
inductive Call where
  | malloc (size : ℕ)
  | free (ptr : ℤ)
  | pipeOpen (name : List UInt8)
  | pipeClose (id : ℤ)
  | exec (name : List UInt8) (argv : List (List UInt8)) (readFd writeFd priority isForeground : ℤ)
  | waitPid
  | yield
  | kill (pid : ℤ)
  | block (pid : ℤ)
  | unblock (pid : ℤ)
  | changePriority (pid priority : ℤ)
  | clear
  | changeFontSize (diff : ℤ)
  | mainTron
  | exception (command : Command)
  | print (command : Command)
  | printErrorMessage (program errorMessage : List UInt8)
deriving DecidableEq, Repr

/-- The function that makes a call: `pipedBuffer`, or the `readBuffer` of one of the commands. -/
inductive Site where
  | pipedBuffer
  | left
  | right
  | line
deriving DecidableEq, Repr

/-- A call that has returned. -/
structure Event where
  site : Site
  call : Call
  answer : ℤ
deriving DecidableEq, Repr

/-- The rest of the system: what it answers after the calls so far, if it answers at all, and what
the shell finds where it reads words that are not there. -/
structure World where
  answer : List Event → Call → Option ℤ
  /-- Whether what `argv[-1]` points to is `"&"`. -/
  stray : List Event → Bool
  /-- What `atoi` makes of a pointer behind the last word. -/
  unread : List Event → ℤ

/-- The shell, with the calls it has made. It stops if a call does not return. -/
abbrev Prog := EStateM Unit (List Event)

variable (w : World)

def call (site : Site) (c : Call) : Prog ℤ := do
  match w.answer (← get) c with
  | some answer =>
    modify fun calls => calls ++ [⟨site, c, answer⟩]
    return answer
  | none => throw ()

/-- `pipe_open` of the library, an `int`. -/
def pipeOpen (site : Site) (name : List UInt8) : Prog ℤ := do
  return toInt (← call w site (.pipeOpen name))

/-- `pipe_close` of the library. -/
def pipeClose (site : Site) (index : ℤ) : Prog Unit := do
  let _ ← call w site (.pipeClose (toInt (index - 3)))

/-! ## `readBuffer` -/

def COMMAND_NOT_FOUND : ℤ := -1

def AMPERSAND : List UInt8 := bytes ['&']

def COMMAND_NOT_FOUND_MESSAGE : List UInt8 :=
  bytes ['C', 'o', 'm', 'm', 'a', 'n', 'd', ' ', 'n', 'o', 't', ' ', 'f', 'o', 'u', 'n', 'd']

def INCREASE_FONT_FAIL : List UInt8 :=
  bytes ['M', 'a', 'x', 'i', 'm', 'u', 'm', ' ', 'f', 'o', 'n', 't', ' ', 's', 'i', 'z', 'e', ' ',
    'r', 'e', 'a', 'c', 'h', 'e', 'd']

def DECREASE_FONT_FAIL : List UInt8 :=
  bytes ['M', 'i', 'n', 'i', 'm', 'u', 'm', ' ', 'f', 'o', 'n', 't', ' ', 's', 'i', 'z', 'e', ' ',
    'r', 'e', 'a', 'c', 'h', 'e', 'd']

/-- `ask_wait_pid`. -/
def askWaitPid (site : Site) (isForeground : ℤ) : Prog Unit := do
  if isForeground = 1 then
    let _ ← call w site .waitPid

def increaseFontSize (site : Site) : Prog ℤ := return toInt (← call w site (.changeFontSize 1))

def decreaseFontSize (site : Site) : Prog ℤ := return toInt (← call w site (.changeFontSize (-1)))

/-- `for (; decreaseFontSize(); count++)`, for so many rounds. -/
def shrinkFont (site : Site) : ℕ → Prog ℕ
  | 0 => throw ()
  | rounds + 1 => do
    if (← decreaseFontSize w site) ≠ 0 then return (← shrinkFont site rounds) + 1
    else return 0

/-- `for (int i = 0; i < count; i++) increaseFontSize()`. -/
def growFont (site : Site) : ℕ → Prog Unit
  | 0 => return ()
  | count + 1 => do
    let _ ← increaseFontSize w site
    growFont site count

/-- A command that makes a process, waits for it in the foreground and returns what `exec` did. -/
def launch (site : Site) (name : List UInt8) (argv : List (List UInt8))
    (fdRead fdWrite priority isForeground : ℤ) : Prog ℤ := do
  let ret ← call w site (.exec name argv fdRead fdWrite priority isForeground)
  askWaitPid w site isForeground
  return toInt ret

/-- `atoi(argv[i])`. -/
def argument (argv : List (List UInt8)) (i : ℕ) : Prog ℤ := do
  match argv[i]? with
  | some word => return atoi word
  | none => return w.unread (← get)

/-- The branch of `readBuffer` for a command. -/
def runCommand (site : Site) (argv : List (List UInt8)) (fdRead fdWrite isForeground : ℤ) :
    Command → Prog ℤ
  | .printmem => do
    let ret ← call w site (.exec (Command.printmem).word argv fdRead fdWrite 5 isForeground)
    let _ ← call w site .waitPid
    return toInt ret
  | .help => do
    let _ ← call w site (.print .help)
    return 1
  | .clear => do
    let _ ← call w site .clear
    return 1
  | .tron => do
    let _ ← call w site .clear
    let count ← shrinkFont w site (2 ^ 31)
    let _ ← call w site .mainTron
    growFont w site count
    let _ ← call w site .clear
    return 1
  | .date => do
    let _ ← call w site (.print .date)
    return 1
  | .time => do
    let _ ← call w site (.print .time)
    return 1
  | .datetime => do
    let _ ← call w site (.print .datetime)
    return 1
  | .incFont => do
    if (← increaseFontSize w site) = 0 then
      let _ ← call w site (.printErrorMessage (Command.incFont).word INCREASE_FONT_FAIL)
    else
      let _ ← call w site .clear
    return 1
  | .decFont => do
    if (← decreaseFontSize w site) = 0 then
      let _ ← call w site (.printErrorMessage (Command.decFont).word DECREASE_FONT_FAIL)
    else
      let _ ← call w site .clear
    return 1
  | .inforeg => launch w site (Command.inforeg).word argv fdRead fdWrite 5 isForeground
  | .divZero => do
    let _ ← call w site (.exception .divZero)
    return 0
  | .invalidOp => do
    let _ ← call w site (.exception .invalidOp)
    return 0
  | .exit => do
    let _ ← call w site .clear
    return 0
  | .ps => launch w site (Command.ps).word argv fdRead fdWrite 1 isForeground
  | .testProcesses =>
    launch w site (bytes ['t', 'e', 's', 't', '_', 'p', 'r', 'o', 'c', 'e', 's', 's', 'e', 's'])
      [bytes ['2']] fdRead fdWrite 1 isForeground
  | .testMm =>
    launch w site (bytes ['t', 'e', 's', 't', '_', 'm', 'm']) argv fdRead fdWrite 1 isForeground
  | .testSync =>
    launch w site (bytes ['t', 'e', 's', 't', '_', 's', 'y', 'n', 'c']) argv fdRead fdWrite 1
      isForeground
  | .testPrio =>
    launch w site (bytes ['t', 'e', 's', 't', '_', 'p', 'r', 'i', 'o']) argv fdRead fdWrite 1
      isForeground
  | .loop => launch w site (Command.loop).word argv fdRead fdWrite 1 isForeground
  | .kill => do
    let pid ← argument w argv 0
    let _ ← call w site (.kill pid)
    return 1
  | .block => do
    let pid ← argument w argv 0
    let _ ← call w site (.block pid)
    return 1
  | .unblock => do
    let pid ← argument w argv 0
    let _ ← call w site (.unblock pid)
    return 1
  | .nice => do
    let pid ← argument w argv 0
    let priority ← argument w argv 1
    let _ ← call w site (.changePriority pid priority)
    return 1
  | .cat => launch w site (Command.cat).word argv fdRead fdWrite 1 isForeground
  | .filter => launch w site (Command.filter).word argv fdRead fdWrite 1 isForeground
  | .wc => launch w site (Command.wc).word argv fdRead fdWrite 1 isForeground
  | .sh =>
    launch w site (bytes ['s', 'h', 'e', 'l', 'l']) argv fdRead fdWrite 1 isForeground
  | .phylo => launch w site (Command.phylo).word argv fdRead fdWrite 1 isForeground
  | .memInfo =>
    launch w site (bytes ['m', 'e', 'm', '_', 'i', 'n', 'f', 'o']) argv fdRead fdWrite 1
      isForeground

/-- `readBuffer` behind the arguments. -/
def runBuffer (site : Site) (buf : List UInt8) (argv : List (List UInt8))
    (fdRead fdWrite isForeground : ℤ) : Prog ℤ := do
  if buf = [] then return 1
  else
    match Command.find buf with
    | some command => runCommand w site argv fdRead fdWrite isForeground command
    | none =>
      let _ ← call w site (.printErrorMessage buf COMMAND_NOT_FOUND_MESSAGE)
      return COMMAND_NOT_FOUND

/-- Whether `argv[numArgs - 1]` is `"&"`. Without arguments it is what lies before `argv`. -/
def inBackground (argv : List (List UInt8)) : Prog Bool := do
  match argv.getLast? with
  | some word => return word = AMPERSAND
  | none => return w.stray (← get)

/-- `readBuffer`. -/
def readBuffer (site : Site) (input : List UInt8) (fdRead fdWrite isForeground : ℤ) :
    Prog ℤ := do
  let words := parseString input
  let buf := words.headD []
  let argv := words.tail
  if ← inBackground w argv then
    let fd ← pipeOpen w site AMPERSAND
    runBuffer w site buf argv.dropLast fd fdWrite 0
  else runBuffer w site buf argv fdRead fdWrite isForeground

/-! ## `pipedBuffer` -/

def PIPES : List UInt8 := bytes ['p', 'i', 'p', 'e', 's']

/-- `pipedBuffer` once it has its copies of the two commands. -/
def runPiped (left right : List UInt8) (leftPtr rightPtr : ℤ) : Prog ℤ := do
  let fd ← pipeOpen w .pipedBuffer PIPES
  let leftPid ← readBuffer w .left left 0 fd 0
  if leftPid = -1 then
    let _ ← call w .pipedBuffer (.free leftPtr)
    let _ ← call w .pipedBuffer (.free rightPtr)
    return 2
  else
    let _ ← call w .pipedBuffer .yield
    let rightPid ← readBuffer w .right right fd 1 1
    if rightPid = -1 then
      let _ ← call w .pipedBuffer (.free leftPtr)
      let _ ← call w .pipedBuffer (.free rightPtr)
      let _ ← call w .pipedBuffer (.kill leftPid)
      return 3
    else
      let _ ← call w .pipedBuffer (.free leftPtr)
      let _ ← call w .pipedBuffer (.free rightPtr)
      pipeClose w .pipedBuffer fd
      return 1

/-- The two commands of a line with a bar. -/
def leftOf (buf : List UInt8) : List UInt8 := buf.takeWhile (· ≠ PIPE)

def rightOf (buf : List UInt8) : List UInt8 := (buf.dropWhile (· ≠ PIPE)).tail

/-- `pipedBuffer`. -/
def pipedBuffer (buf : List UInt8) : Prog ℤ := do
  if PIPE ∉ buf then return -1
  else
    let delimiterPos := (leftOf buf).length
    let left ← call w .pipedBuffer (.malloc (delimiterPos + 1))
    if left = 0 then return -1
    else
      let right ← call w .pipedBuffer (.malloc (buf.length - delimiterPos))
      if right = 0 then
        let _ ← call w .pipedBuffer (.free left)
        return -1
      else runPiped w (leftOf buf) (rightOf buf) left right

end TronKernel.Shell
