import Cyanos.Kernel.Caller.Handlers

/-!
# The dispatch table

`dispatch_inner` of `kernel/src/syscall.rs`: the numbers of each architecture, and the handler
each leads to with its arguments.  `Caller.dispatch` is the whole gate; the timers fired on the
way out touch no memory of the caller.
-/

namespace Cyanos.Caller

open Lib Effect

/-- The architectures with a table of their own. -/
inductive Arch
  | aarch64
  | x86
deriving DecidableEq, Repr

/-- The arguments of a system call, and the address of the saved frame. -/
structure Args where
  /-- First argument. -/
  a0 : Fin (2 ^ 64)
  /-- Second argument. -/
  a1 : Fin (2 ^ 64)
  /-- Third argument. -/
  a2 : Fin (2 ^ 64)
  /-- Fourth argument. -/
  a3 : Fin (2 ^ 64)
  /-- Fifth argument. -/
  a4 : Fin (2 ^ 64)
  /-- Sixth argument. -/
  a5 : Fin (2 ^ 64)
  /-- `frame_ptr`, from the trap stub. -/
  frame : Fin (2 ^ 64)

/-- What an arm of the table does. -/
inductive Call
  /-- Return a constant. -/
  | ret (r : ℤ)
  /-- Work on kernel state alone: the memory calls, `fork`, `kill`, `close`, `lseek`, `fcntl`,
  `dup`, process groups, `socket`, `listen` and the like.  `rt_sigreturn` is one of them: the
  frame it restores is found by the stack pointer, which is not an argument. -/
  | plain
  | exit | ipcSend | ipcRecv | ipcCall | spawn | wait4 | waitid | execve | clone | clockGettime
  | rtSigaction | rtSigprocmask | rtSigsuspend | rtSigtimedwait | pause | futex | archPrctl
  | write | read | writev | readv | openPath | openat | fstat | newfstatat | ioctl | pipe2
  | getdents64 | readlink | readlinkat | epollWait | ppoll | chdir | getcwd | getresxid | mkdirat
  | unlinkat | renameat | truncate | faccessat | statfs | unlink | mkdir | rename | access | bind
  | accept | connect | sendto | recvfrom | sendmsg | recvmsg | getsockname | getpeername
  | socketpair | setsockopt | getsockopt | timerCreate | timerSettime | timerGettime | nanosleep
  | clockNanosleep | timerfdSettime | timerfdGettime | gettimeofday | sysinfo | sendfile
  | copyFileRange | splice | memfdCreate | setitimer | getitimer | sigpending | alarm | getrandom
  | prctl | clockGetres | pread64 | pwrite64 | times | time | select | epollCtl | schedGetparam
  | schedGetaffinity | getrusage | capget | statx | sigaltstack | getrlimit | stat | uname
  | prlimit64

/-- The arms of `dispatch_inner` on AArch64, in the order of the source. -/
def aarch64Table : List (ℕ × Call) :=
  [(511, .ipcSend), (512, .ipcRecv), (513, .ipcCall), (222, .plain), (215, .plain),
   (226, .plain), (214, .plain), (216, .plain), (232, .ret 0), (124, .plain), (93, .exit),
   (510, .spawn), (260, .wait4), (95, .waitid), (172, .plain), (173, .plain), (221, .execve),
   (220, .clone), (113, .clockGettime), (134, .rtSigaction), (135, .rtSigprocmask),
   (139, .plain), (129, .plain), (133, .rtSigsuspend), (137, .rtSigtimedwait), (96, .plain),
   (98, .futex), (64, .write), (63, .read), (66, .writev), (65, .readv), (56, .openat),
   (57, .plain), (80, .fstat), (79, .newfstatat), (62, .plain), (29, .ioctl), (25, .plain),
   (59, .pipe2), (32, .ret 0), (61, .getdents64), (23, .plain), (24, .plain), (78, .readlinkat),
   (73, .ppoll), (49, .chdir), (50, .ret (-20)), (17, .getcwd), (154, .plain), (155, .plain),
   (157, .plain), (156, .plain), (146, .ret 0), (144, .ret 0), (147, .ret 0), (149, .ret 0),
   (159, .ret 0), (148, .getresxid), (150, .getresxid), (158, .ret 0), (166, .plain),
   (34, .mkdirat), (35, .unlinkat), (38, .renameat), (276, .renameat), (37, .ret (-30)),
   (36, .ret (-30)), (53, .ret 0), (52, .ret 0), (54, .ret 0), (55, .ret 0), (45, .truncate),
   (46, .plain), (48, .faccessat), (43, .statfs), (44, .statfs), (82, .ret 0), (83, .ret 0),
   (47, .ret 0), (88, .ret 0), (33, .ret (-30)), (198, .plain), (200, .bind), (201, .plain),
   (202, .accept), (242, .accept), (203, .connect), (206, .sendto), (207, .recvfrom),
   (211, .sendmsg), (212, .recvmsg), (210, .plain), (204, .getsockname), (205, .getpeername),
   (199, .socketpair), (208, .setsockopt), (209, .getsockopt), (107, .timerCreate),
   (110, .timerSettime), (108, .timerGettime), (111, .plain), (101, .nanosleep),
   (115, .clockNanosleep), (85, .plain), (86, .timerfdSettime), (87, .timerfdGettime),
   (169, .gettimeofday), (179, .sysinfo), (71, .sendfile), (285, .copyFileRange),
   (279, .memfdCreate), (76, .splice), (103, .setitimer), (102, .getitimer), (136, .sigpending),
   (278, .getrandom), (167, .prctl), (233, .ret 0), (227, .ret 0), (228, .ret 0), (229, .ret 0),
   (230, .ret 0), (231, .ret 0), (114, .clockGetres), (67, .pread64), (68, .pwrite64),
   (153, .times), (270, .select), (72, .select), (20, .plain), (21, .epollCtl),
   (22, .epollWait), (441, .epollWait), (19, .plain), (74, .ret (-38)), (119, .ret 0),
   (118, .ret 0), (120, .ret 0), (121, .schedGetparam), (122, .ret 0), (123, .schedGetaffinity),
   (125, .ret 0), (126, .ret 0), (165, .getrusage), (90, .capget), (91, .ret 0), (283, .ret 0),
   (293, .ret (-38)), (291, .statx), (437, .openat), (436, .plain), (434, .ret (-38)),
   (174, .ret 0), (175, .ret 0), (176, .ret 0), (177, .ret 0), (178, .plain), (131, .plain),
   (132, .sigaltstack), (163, .getrlimit), (164, .ret 0), (160, .uname), (261, .prlimit64),
   (94, .exit), (223, .ret 0), (84, .ret 0), (213, .ret 0), (360, .ret (-38)), (27, .ret (-38)),
   (28, .ret (-38))]

/-- The arms of `dispatch_inner` on x86-64, in the order of the source. -/
def x86Table : List (ℕ × Call) :=
  [(511, .ipcSend), (512, .ipcRecv), (513, .ipcCall), (9, .plain), (11, .plain), (10, .plain),
   (12, .plain), (25, .plain), (27, .ret 0), (24, .plain), (60, .exit), (510, .spawn),
   (61, .wait4), (247, .waitid), (39, .plain), (110, .plain), (59, .execve), (56, .clone),
   (57, .plain), (228, .clockGettime), (13, .rtSigaction), (14, .rtSigprocmask), (15, .plain),
   (62, .plain), (130, .rtSigsuspend), (128, .rtSigtimedwait), (34, .pause), (218, .plain),
   (202, .futex), (158, .archPrctl), (1, .write), (0, .read), (20, .writev), (19, .readv),
   (2, .openPath), (257, .openat), (3, .plain), (5, .fstat), (262, .newfstatat), (8, .plain),
   (16, .ioctl), (72, .plain), (293, .pipe2), (73, .ret 0), (22, .pipe2), (78, .getdents64),
   (89, .readlink), (232, .epollWait), (217, .getdents64), (32, .plain), (292, .plain),
   (33, .plain), (267, .readlinkat), (271, .ppoll), (80, .chdir), (81, .ret (-20)),
   (79, .getcwd), (109, .plain), (121, .plain), (112, .plain), (124, .plain), (111, .plain),
   (105, .ret 0), (106, .ret 0), (117, .ret 0), (119, .ret 0), (116, .ret 0), (118, .getresxid),
   (120, .getresxid), (115, .ret 0), (95, .plain), (258, .mkdirat), (263, .unlinkat),
   (264, .renameat), (316, .renameat), (265, .ret (-30)), (266, .ret (-30)), (268, .ret 0),
   (91, .ret 0), (260, .ret 0), (93, .ret 0), (76, .truncate), (77, .plain), (269, .faccessat),
   (137, .statfs), (138, .statfs), (74, .ret 0), (75, .ret 0), (285, .ret 0), (280, .ret 0),
   (259, .ret (-30)), (87, .unlink), (83, .mkdir), (82, .rename), (86, .ret (-30)),
   (88, .ret (-30)), (90, .ret (-30)), (92, .ret (-30)), (94, .ret (-30)), (133, .ret (-30)),
   (21, .access), (41, .plain), (49, .bind), (50, .plain), (43, .accept), (288, .accept),
   (42, .connect), (44, .sendto), (45, .recvfrom), (46, .sendmsg), (47, .recvmsg), (48, .plain),
   (51, .getsockname), (52, .getpeername), (53, .socketpair), (54, .setsockopt),
   (55, .getsockopt), (222, .timerCreate), (223, .timerSettime), (224, .timerGettime),
   (225, .plain), (35, .nanosleep), (230, .clockNanosleep), (283, .plain),
   (286, .timerfdSettime), (287, .timerfdGettime), (96, .gettimeofday), (99, .sysinfo),
   (40, .sendfile), (326, .copyFileRange), (319, .memfdCreate), (275, .splice),
   (38, .setitimer), (36, .getitimer), (127, .sigpending), (37, .alarm), (318, .getrandom),
   (157, .prctl), (28, .ret 0), (26, .ret 0), (149, .ret 0), (150, .ret 0), (151, .ret 0),
   (152, .ret 0), (229, .clockGetres), (17, .pread64), (18, .pwrite64), (100, .times),
   (201, .time), (23, .select), (270, .select), (291, .plain), (233, .epollCtl),
   (281, .epollWait), (441, .epollWait), (290, .plain), (289, .ret (-38)), (144, .ret 0),
   (142, .ret 0), (145, .ret 0), (143, .schedGetparam), (203, .ret 0), (204, .schedGetaffinity),
   (146, .ret 0), (147, .ret 0), (98, .getrusage), (125, .capget), (126, .ret 0), (324, .ret 0),
   (334, .ret (-38)), (332, .statx), (437, .openat), (436, .plain), (434, .ret (-38)),
   (102, .ret 0), (107, .ret 0), (104, .ret 0), (108, .ret 0), (186, .plain), (234, .plain),
   (131, .sigaltstack), (97, .getrlimit), (160, .ret 0), (4, .stat), (6, .stat), (63, .uname),
   (302, .prlimit64), (231, .exit), (221, .ret 0), (277, .ret 0), (187, .ret 0),
   (294, .ret (-38)), (254, .ret (-38)), (255, .ret (-38))]

/-- The table of an architecture. -/
def Arch.table : Arch → List (ℕ × Call)
  | aarch64 => aarch64Table
  | x86 => x86Table

/-- The length of the machine's name, with its NUL. -/
def Arch.machineLen : Arch → ℕ
  | aarch64 => 8
  | x86 => 7

/-- The handler of an arm, with the arguments it is given. -/
def Call.run (arch : Arch) (a : Args) : Call → Sys ℤ
  | ret r => pure r
  | plain => value
  | exit => halt
  | ipcSend => sysSend a.a1
  | ipcRecv => sysRecv a.a1
  | ipcCall => sysCall a.a1
  | spawn => sysSpawn a.a0 a.a1
  | wait4 => sysWait a.a1
  | waitid => sysWaitid a.a2
  | execve => sysExecve a.a0 a.a1 a.a2
  | clone => sysCloneOrFork a.a0 a.a4 a.frame
  | clockGettime => sysClockGettime a.a1
  | rtSigaction => sysRtSigaction a.a0 a.a1 a.a2
  | rtSigprocmask => sysRtSigprocmask a.a0 a.a1 a.a2
  | rtSigsuspend => sysRtSigsuspend a.a0
  | rtSigtimedwait => sysRtSigtimedwait a.a0 a.a1 a.a2
  | pause => sysRtSigsuspend 0
  | futex => sysFutex a.a0 a.a1 a.a2
  | archPrctl => sysArchPrctl a.a0 a.a1
  | write => sysWrite a.a0 a.a1 a.a2
  | read => sysRead a.a0 a.a1 a.a2
  | writev => sysWritev a.a0 a.a1 a.a2
  | readv => sysReadv a.a0 a.a1 a.a2
  | openPath => sysOpen a.a0
  | openat => sysOpen a.a1
  | fstat => sysFstat a.a0 (.caller a.a1)
  | newfstatat => sysNewfstatat a.a1 (.caller a.a2)
  | ioctl => sysIoctl a.a0 a.a1 a.a2
  | pipe2 => sysPipe2 a.a0
  | getdents64 => sysGetdents64 a.a0 a.a1 a.a2
  | readlink => sysReadlinkat a.a0 a.a1 a.a2
  | readlinkat => sysReadlinkat a.a1 a.a2 a.a3
  | epollWait => sysEpollWait a.a0 a.a1 a.a2
  | ppoll => sysPpoll a.a0 a.a1 a.a2
  | chdir => sysChdir a.a0
  | getcwd => sysGetcwd a.a0 a.a1
  | getresxid => sysGetresxid a.a0 a.a1 a.a2
  | mkdirat => sysMkdirat a.a1
  | unlinkat => sysUnlinkat a.a1
  | renameat => sysRenameat a.a1 a.a2
  | truncate => sysTruncate a.a0
  | faccessat => sysFaccessat a.a1
  | statfs => sysStatfs a.a1
  | unlink => sysUnlinkat a.a0
  | mkdir => sysMkdirat a.a0
  | rename => sysRenameat a.a0 a.a1
  | access => sysFaccessat a.a0
  | bind => sysBind a.a0 a.a1 a.a2
  | accept => sysAccept a.a0 a.a1
  | connect => sysConnect a.a0 a.a1 a.a2
  | sendto => sysSendto a.a0 a.a1 a.a2
  | recvfrom => sysRecvfrom a.a0 a.a1 a.a2
  | sendmsg => sysSendmsg a.a0 a.a1
  | recvmsg => sysRecvmsg a.a0 a.a1
  | getsockname => sysGetsockname a.a1 a.a2
  | getpeername => sysGetpeername a.a1 a.a2
  | socketpair => sysSocketpair a.a0 a.a3
  | setsockopt => sysSetsockopt a.a3 a.a4
  | getsockopt => sysGetsockopt a.a1 a.a2 a.a3 a.a4
  | timerCreate => sysTimerCreate a.a1 a.a2
  | timerSettime => sysTimerSettime a.a2
  | timerGettime => sysTimerGettime a.a1
  | nanosleep => sysNanosleep a.a0
  | clockNanosleep => sysNanosleep a.a2
  | timerfdSettime => sysTimerfdSettime a.a2
  | timerfdGettime => sysTimerfdGettime a.a0 a.a1
  | gettimeofday => sysGettimeofday a.a0 a.a1
  | sysinfo => sysSysinfo a.a0
  | sendfile => sysSendfile a.a2 a.a3
  | copyFileRange => sysSendfile a.a4 a.a5
  | splice => sysSendfile 0 a.a4
  | memfdCreate => sysMemfdCreate a.a0
  | setitimer => sysSetitimer a.a0 a.a1 a.a2
  | getitimer => sysGetitimer a.a0 a.a1
  | sigpending => sysSigpending a.a0
  | alarm => sysAlarm
  | getrandom => sysGetrandom a.a0 a.a1
  | prctl => sysPrctl a.a0 a.a1
  | clockGetres => sysClockGetres a.a1
  | pread64 => sysPread64 a.a0 a.a1 a.a2
  | pwrite64 => sysPwrite64 a.a0 a.a1 a.a2
  | times => sysTimes a.a0
  | time => sysTime a.a0
  | select => sysSelect a.a0 a.a1 a.a2
  | epollCtl => sysEpollCtl a.a0 a.a1 a.a3
  | schedGetparam => sysSchedGetparam a.a1
  | schedGetaffinity => sysSchedGetaffinity a.a1 a.a2
  | getrusage => sysGetrusage a.a1
  | capget => sysCapget a.a1
  | statx => sysStatx a.a1 a.a4
  | sigaltstack => sysSigaltstack a.a1
  | getrlimit => sysGetrlimit a.a1
  | stat => sysStatAtPath a.a0 a.a1
  | uname => sysUname arch.machineLen a.a0
  | prlimit64 => sysPrlimit64 a.a3

/-- The arm a number leads to; unknown numbers are refused. -/
def Arch.call (arch : Arch) (number : ℕ) : Call := (arch.table.lookup number).getD (.ret (-38))

/-- `syscall_dispatch`. -/
def dispatch (arch : Arch) (number : ℕ) (a : Args) : Sys ℤ := (arch.call number).run arch a

end Cyanos.Caller
