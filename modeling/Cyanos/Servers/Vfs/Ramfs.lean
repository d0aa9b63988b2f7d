import Cyanos.Servers.Vfs.State

/-!
# What requests find

`RAMFS` and `RAMFS_DIRS`, the contents of the generated files under `/proc`, and how a path is read
from the memory of the caller (`servers/vfs/src/lib.rs`).

Memory, the clock, the framebuffer, the initrd and what the scheduler and the buddy allocator report
are what a request finds (`Env`).
-/

namespace Cyanos.Vfs

open Lib

/-- A byte string of the source. -/
def bstr (s : String) : List UInt8 := s.toList.map fun c => UInt8.ofNat c.toNat

/-! ### Static files -/

/-- `RamEntry`. -/
structure RamEntry where
  path : List UInt8
  data : List UInt8

/-- `RAMFS`. -/
def ramfs : List RamEntry := [
  ⟨bstr "/dev/null", bstr ""⟩,
  ⟨bstr "/dev/zero", bstr ""⟩,
  ⟨bstr "/dev/urandom", bstr ""⟩,
  ⟨bstr "/dev/random", bstr ""⟩,
  ⟨bstr "/dev/stdin", bstr ""⟩,
  ⟨bstr "/dev/stdout", bstr ""⟩,
  ⟨bstr "/dev/stderr", bstr ""⟩,
  ⟨bstr "/dev/tty", bstr ""⟩,
  ⟨bstr "/etc/motd", bstr "Welcome to Cyanos!\nType 'help' for available commands.\n"⟩,
  ⟨bstr "/etc/passwd", bstr "root:x:0:0:root:/root:/bin/sh\ndaemon:x:1:1:daemon:/:/bin/false\n"⟩,
  ⟨bstr "/etc/group", bstr "root:x:0:root\ndaemon:x:1:\n"⟩,
  ⟨bstr "/etc/hostname", bstr "cyanos\n"⟩,
  ⟨bstr "/etc/hosts", bstr "127.0.0.1\tlocalhost\n::1\t\tlocalhost\n127.0.0.1\tcyanos\n"⟩,
  ⟨bstr "/etc/resolv.conf", bstr "nameserver 8.8.8.8\nnameserver 8.8.4.4\n"⟩,
  ⟨bstr "/etc/services", bstr "http\t80/tcp\nhttps\t443/tcp\nssh\t22/tcp\nftp\t21/tcp\n"⟩,
  ⟨bstr "/etc/protocols", bstr "ip\t0\tIP\ntcp\t6\tTCP\nudp\t17\tUDP\nicmp\t1\tICMP\n"⟩,
  ⟨bstr "/etc/nsswitch.conf", bstr "hosts: files dns\npasswd: files\ngroup: files\n"⟩,
  ⟨bstr "/etc/os-release",
    bstr "NAME=\"Cyanos\"\nVERSION=\"1.0\"\nID=cyanos\nPRETTY_NAME=\"Cyanos 1.0\"\n"⟩,
  ⟨bstr "/proc/version", bstr "Linux version 6.0.0-cyanos (Cyanos Project) (gcc 13.0)\n"⟩,
  ⟨bstr "/proc/cpuinfo",
    bstr "processor\t: 0\nmodel name\t: Cyanos Virtual CPU\ncpu MHz\t\t: 1000.000\n" ++
    bstr "cache size\t: 4096 KB\nflags\t\t: fpu vme de pse tsc msr pae mce\n"⟩,
  ⟨bstr "/proc/filesystems", bstr "nodev\ttmpfs\nnodev\tramfs\nnodev\tprocfs\n\text2\n"⟩,
  ⟨bstr "/proc/mounts", bstr "proc /proc procfs rw 0 0\ntmpfs /tmp tmpfs rw 0 0\n"⟩,
  ⟨bstr "/proc/net/dev",
    bstr "Inter-|   Receive                                       |  Transmit\n" ++
    bstr "face |bytes packets errs drop fifo frame compressed multicast" ++
    bstr "|bytes packets errs drop fifo colls carrier compressed\n" ++
    bstr "lo:      0       0    0    0    0     0          0         0       0" ++
    bstr "       0    0    0    0     0       0          0\n"⟩,
  ⟨bstr "/proc/net/if_inet6", bstr ""⟩,
  ⟨bstr "/proc/net/fib_trie", bstr "Main:\n  +-- 0.0.0.0/0\n"⟩,
  ⟨bstr "/proc/sys/kernel/hostname", bstr "cyanos\n"⟩,
  ⟨bstr "/proc/sys/kernel/ostype", bstr "Linux\n"⟩,
  ⟨bstr "/proc/sys/kernel/osrelease", bstr "6.0.0-cyanos\n"⟩,
  ⟨bstr "/proc/sys/vm/overcommit_memory", bstr "0\n"⟩]

/-- `RAMFS_DIRS`. -/
def ramfsDirs : List (List UInt8) := [
  bstr "/",
  bstr "/etc",
  bstr "/dev",
  bstr "/proc",
  bstr "/bin",
  bstr "/tmp",
  bstr "/home",
  bstr "/root",
  bstr "/proc/net",
  bstr "/proc/sys",
  bstr "/proc/sys/kernel",
  bstr "/proc/sys/vm"]

/-- `is_tmp_path`. -/
def isTmpPath (path : List UInt8) : Bool := path == bstr "/tmp" || (bstr "/tmp/").isPrefixOf path

/-! ### The environment of a request -/

/-- `FB_BASE`, `FB_WIDTH`, `FB_HEIGHT` and `FB_PITCH`. -/
structure Framebuffer where
  base : ℕ
  width : ℕ
  height : ℕ
  pitch : ℕ

/-- The byte strings of the source that files can show. -/
inductive Static where
  /-- The data of an entry of `RAMFS`. -/
  | file (j : ℕ)
  /-- An entry of `RAMFS_DIRS`. -/
  | dir (j : ℕ)
  /-- `"/tmp"` in `handle_open`. -/
  | tmp

/-- What a request finds. -/
structure Env where
  /-- Memory at the addresses of the caller and of the kernel. -/
  mem : ℕ → UInt8
  /-- `sched::ticks()` each time the request calls it. -/
  ticks : ℕ → ℕ
  fb : Framebuffer
  /-- `mm::phys_to_virt`. -/
  hhdm : Hhdm
  /-- Where the static byte strings are. -/
  statics : Static → ℕ
  /-- Where the initrd is seen. -/
  initrdVirt : ℕ
  /-- The bytes of the initrd; empty if none was set. -/
  initrd : List UInt8
  /-- `sched::current_pid()`. -/
  currentPid : ℕ
  /-- `sched::current_ppid()`. -/
  currentPpid : ℕ
  /-- `sched::current_pgid()`. -/
  currentPgid : ℕ
  /-- `mm::buddy::total_pages()`. -/
  totalPages : ℕ
  /-- `mm::buddy::free_pages()`. -/
  freePages : ℕ

/-- Where the framebuffer byte `pos` is seen. -/
def Env.fbVirt (env : Env) (pos : ℕ) : ℕ :=
  if 0xFFFF000000000000 ≤ env.fb.base then wadd env.fb.base pos
  else env.hhdm.physToVirt (wadd env.fb.base pos)

/-- The bytes up to the first zero, which has to be among the first `n`. -/
def cstr (mem : ℕ → UInt8) : ℕ → ℕ → Option (List UInt8)
  | 0, _ => none
  | n + 1, a => if mem a = 0 then some [] else (cstr mem n (a + 1)).map (mem a :: ·)

/-- `read_cstr_raw`. -/
def readCstrRaw (mem : ℕ → UInt8) (ptr : ℕ) : Option (List UInt8) :=
  if ptr = 0 then none else cstr mem 256 ptr

/-! ### Generated files -/

/-- `TMP_BUF_SIZE`. -/
def tmpBufSize : ℕ := 512

/-- The decimal digits of a number. -/
def decimal (n : ℕ) : List UInt8 := (Nat.toDigits 10 n).map fun c => UInt8.ofNat c.toNat

/-- `write_lit`; the buffer is the bytes up to the position. -/
def writeLit (buf s : List UInt8) : List UInt8 := buf ++ s.take (tmpBufSize - buf.length)

/-- `write_u32`. -/
def writeU32 (buf : List UInt8) (n : ℕ) : List UInt8 := writeLit buf (decimal (n % 2 ^ 32))

/-- `gen_proc_system_content`. -/
def genProcSystemContent (env : Env) (path : List UInt8) : Option (List UInt8) :=
  let ticks := env.ticks 0
  let uptimeSec := ticks / 100
  let uptimeFrac := ticks % 100 / 10
  if path = bstr "/proc/uptime" then
    let p := writeU32 [] uptimeSec
    let p := writeLit p (bstr ".")
    let p := writeU32 p uptimeFrac
    let p := writeLit p (bstr " ")
    let p := writeU32 p uptimeSec
    some (writeLit p (bstr ".0\n"))
  else if path = bstr "/proc/loadavg" then
    let p := writeLit [] (bstr "0.00 0.00 0.00 1/1 ")
    let p := writeU32 p env.currentPid
    some (writeLit p (bstr "\n"))
  else if path = bstr "/proc/meminfo" then
    let total := env.totalPages * 4
    let free := env.freePages * 4
    let p := writeLit [] (bstr "MemTotal:       ")
    let p := writeU32 p total
    let p := writeLit p (bstr " kB\nMemFree:        ")
    let p := writeU32 p free
    let p := writeLit p (bstr " kB\nMemAvailable:   ")
    let p := writeU32 p free
    let p := writeLit p (bstr " kB\nBuffers:        0 kB\nCached:         ")
    let p := writeU32 p (total - free)
    some (writeLit p (bstr " kB\nSwapTotal:      0 kB\nSwapFree:       0 kB\n"))
  else if path = bstr "/proc/stat" then
    let p := writeLit [] (bstr "cpu  0 0 0 ")
    let p := writeU32 p (uptimeSec * 100)
    let p := writeLit p (bstr " 0 0 0 0 0 0\ncpu0 0 0 0 ")
    let p := writeU32 p (uptimeSec * 100)
    let p := writeLit p (bstr " 0 0 0 0 0 0\nbtime ")
    some (writeLit p (bstr "0\nprocesses 1\nprocs_running 1\n"))
  else if path = bstr "/proc/self" then
    some (writeU32 [] env.currentPid)
  else none

/-- `gen_proc_self_content`. -/
def genProcSelfContent (env : Env) (pid : ℕ) (path : List UInt8) : Option (List UInt8) :=
  let uptimeSec := env.ticks 0 / 100
  if path = bstr "/proc/self/status" ∨ bstr "/status" <:+ path then
    let p := writeLit [] (bstr "Name:\tcyanos\nState:\tR (running)\nPid:\t")
    let p := writeU32 p pid
    let p := writeLit p (bstr "\nPPid:\t")
    let p := writeU32 p env.currentPpid
    let p := writeLit p (bstr "\nPGid:\t")
    let p := writeU32 p env.currentPgid
    let p := writeLit p (bstr "\nUid:\t0\t0\t0\t0\nGid:\t0\t0\t0\t0\n")
    some (writeLit p (bstr "VmRSS:\t4096 kB\nVmSize:\t8192 kB\nThreads:\t1\n"))
  else if path = bstr "/proc/self/stat" ∨ bstr "/stat" <:+ path then
    let p := writeU32 [] pid
    let p := writeLit p (bstr " (cyanos) R ")
    let p := writeU32 p env.currentPpid
    let p := writeLit p (bstr " ")
    let p := writeU32 p env.currentPgid
    let p := writeLit p (bstr " 0 0 0 0 0 0 0 0 0 0 0 0 0 0 20 0 1 0 ")
    let p := writeU32 p uptimeSec
    some (writeLit p (bstr " 8388608 2048 18446744073709551615 0 0 0 0 0 0 0 0 0 0 0 0 0\n"))
  else if path = bstr "/proc/self/cmdline" ∨ bstr "/cmdline" <:+ path then
    some (bstr "cyanos" ++ [0])
  else if path = bstr "/proc/self/maps" ∨ bstr "/maps" <:+ path then
    some []
  else if path = bstr "/proc/self/fd" then
    some []
  else none

end Cyanos.Vfs
