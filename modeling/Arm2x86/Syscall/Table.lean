/-!
# System call numbers

`syscall_table` of `modules/arm2x86_syscall.c` (lines 109–417), and the numbers that the two
kernels give to the calls both of them have.
-/

namespace Arm2x86.Syscall

/-- `SyscallMap`. -/
structure SyscallMap where
  arm64Nr : Int
  x86Nr : Int
  name : String
deriving DecidableEq, Repr

/-- The rows of `syscall_table` before the one without a name. -/
def syscallTable : List SyscallMap := [
  ⟨0, 0, "io_setup"⟩, ⟨1, 1, "io_destroy"⟩, ⟨2, 2, "io_submit"⟩, ⟨3, 3, "io_cancel"⟩,
  ⟨4, 4, "io_getevents"⟩, ⟨5, 5, "setxattr"⟩, ⟨6, 6, "lsetxattr"⟩, ⟨7, 7, "fsetxattr"⟩,
  ⟨8, 8, "getxattr"⟩, ⟨9, 9, "lgetxattr"⟩, ⟨10, 10, "fgetxattr"⟩, ⟨11, 11, "listxattr"⟩,
  ⟨12, 12, "llistxattr"⟩, ⟨13, 13, "flistxattr"⟩, ⟨14, 14, "removexattr"⟩,
  ⟨15, 15, "lremovexattr"⟩, ⟨16, 16, "fremovexattr"⟩, ⟨17, 17, "getcwd"⟩,
  ⟨18, 18, "lookup_dcookie"⟩, ⟨19, 19, "eventfd2"⟩, ⟨20, 20, "epoll_create1"⟩,
  ⟨21, 21, "epoll_ctl"⟩, ⟨22, 22, "epoll_pwait"⟩, ⟨23, 23, "dup"⟩, ⟨24, 24, "dup3"⟩,
  ⟨25, 25, "fcntl"⟩, ⟨26, 26, "inotify_init1"⟩, ⟨27, 27, "inotify_add_watch"⟩,
  ⟨28, 28, "inotify_rm_watch"⟩, ⟨29, 29, "ioctl"⟩, ⟨30, 30, "ioprio_set"⟩,
  ⟨31, 31, "ioprio_get"⟩, ⟨32, 32, "flock"⟩, ⟨33, 33, "mknodat"⟩, ⟨34, 34, "mkdirat"⟩,
  ⟨35, 35, "unlinkat"⟩, ⟨36, 36, "symlinkat"⟩, ⟨37, 37, "linkat"⟩, ⟨38, 38, "renameat"⟩,
  ⟨39, 39, "umount2"⟩, ⟨40, 40, "mount"⟩, ⟨41, 41, "pivot_root"⟩, ⟨42, 42, "nfsservctl"⟩,
  ⟨43, 43, "statfs"⟩, ⟨44, 44, "fstatfs"⟩, ⟨45, 45, "truncate"⟩, ⟨46, 46, "ftruncate"⟩,
  ⟨47, 47, "fallocate"⟩, ⟨48, 48, "faccessat"⟩, ⟨49, 49, "chdir"⟩, ⟨50, 50, "fchdir"⟩,
  ⟨51, 51, "chroot"⟩, ⟨52, 52, "fchmod"⟩, ⟨53, 53, "fchmodat"⟩, ⟨54, 54, "fchownat"⟩,
  ⟨55, 55, "fchown"⟩, ⟨56, 56, "openat"⟩, ⟨57, 57, "close"⟩, ⟨58, 58, "vhangup"⟩,
  ⟨59, 59, "pipe2"⟩, ⟨60, 60, "quotactl"⟩, ⟨61, 61, "getdents64"⟩, ⟨62, 62, "lseek"⟩,
  ⟨63, 63, "read"⟩, ⟨64, 64, "write"⟩, ⟨65, 65, "readv"⟩, ⟨66, 66, "writev"⟩,
  ⟨67, 67, "pread64"⟩, ⟨68, 68, "pwrite64"⟩, ⟨69, 69, "preadv"⟩, ⟨70, 70, "pwritev"⟩,
  ⟨71, 71, "sendfile"⟩, ⟨72, 72, "pselect6"⟩, ⟨73, 73, "ppoll"⟩, ⟨74, 74, "signalfd4"⟩,
  ⟨75, 75, "vmsplice"⟩, ⟨76, 76, "splice"⟩, ⟨77, 77, "tee"⟩, ⟨78, 78, "readlinkat"⟩,
  ⟨79, 79, "newfstatat"⟩, ⟨80, 80, "fstat"⟩, ⟨81, 81, "sync"⟩, ⟨82, 82, "fsync"⟩,
  ⟨83, 83, "fdatasync"⟩, ⟨84, 84, "sync_file_range"⟩, ⟨85, 85, "timerfd_create"⟩,
  ⟨86, 86, "timerfd_settime"⟩, ⟨87, 87, "timerfd_gettime"⟩, ⟨88, 88, "utimensat"⟩,
  ⟨89, 89, "acct"⟩, ⟨90, 90, "capget"⟩, ⟨91, 91, "capset"⟩, ⟨92, 92, "personality"⟩,
  ⟨93, 93, "exit"⟩, ⟨94, 94, "exit_group"⟩, ⟨95, 95, "waitid"⟩, ⟨96, 96, "set_tid_address"⟩,
  ⟨97, 97, "unshare"⟩, ⟨98, 98, "futex"⟩, ⟨99, 99, "set_robust_list"⟩,
  ⟨100, 100, "get_robust_list"⟩, ⟨101, 101, "nanosleep"⟩, ⟨102, 102, "getitimer"⟩,
  ⟨103, 103, "setitimer"⟩, ⟨104, 104, "kexec_load"⟩, ⟨105, 105, "init_module"⟩,
  ⟨106, 106, "delete_module"⟩, ⟨107, 107, "clock_gettime"⟩, ⟨108, 108, "clock_getres"⟩,
  ⟨109, 109, "clock_nanosleep"⟩, ⟨110, 110, "syslog"⟩, ⟨111, 111, "ptrace"⟩,
  ⟨112, 112, "sched_setparam"⟩, ⟨113, 113, "sched_setscheduler"⟩,
  ⟨114, 114, "sched_getscheduler"⟩, ⟨115, 115, "sched_getparam"⟩,
  ⟨116, 116, "sched_setaffinity"⟩, ⟨117, 117, "sched_getaffinity"⟩, ⟨118, 118, "sched_yield"⟩,
  ⟨119, 119, "sched_get_priority_max"⟩, ⟨120, 120, "sched_get_priority_min"⟩,
  ⟨121, 121, "sched_rr_get_interval"⟩, ⟨122, 122, "restart_syscall"⟩, ⟨123, 123, "kill"⟩,
  ⟨124, 124, "tkill"⟩, ⟨125, 125, "tgkill"⟩, ⟨126, 126, "sigaltstack"⟩,
  ⟨127, 127, "rt_sigsuspend"⟩, ⟨128, 128, "rt_sigaction"⟩, ⟨129, 129, "rt_sigprocmask"⟩,
  ⟨130, 130, "rt_sigpending"⟩, ⟨131, 131, "rt_sigtimedwait"⟩, ⟨132, 132, "rt_sigqueueinfo"⟩,
  ⟨133, 133, "rt_sigreturn"⟩, ⟨134, 134, "setpriority"⟩, ⟨135, 135, "getpriority"⟩,
  ⟨136, 136, "reboot"⟩, ⟨137, 137, "setregid"⟩, ⟨138, 138, "setgid"⟩, ⟨139, 139, "setreuid"⟩,
  ⟨140, 140, "setuid"⟩, ⟨141, 141, "setresuid"⟩, ⟨142, 142, "getresuid"⟩,
  ⟨143, 143, "setresgid"⟩, ⟨144, 144, "getresgid"⟩, ⟨145, 145, "setfsuid"⟩,
  ⟨146, 146, "setfsgid"⟩, ⟨147, 147, "times"⟩, ⟨148, 148, "setpgid"⟩, ⟨149, 149, "getpgid"⟩,
  ⟨150, 150, "getsid"⟩, ⟨151, 151, "setsid"⟩, ⟨152, 152, "getgroups"⟩, ⟨153, 153, "setgroups"⟩,
  ⟨154, 154, "uname"⟩, ⟨155, 155, "sethostname"⟩, ⟨156, 156, "setdomainname"⟩,
  ⟨157, 157, "getrlimit"⟩, ⟨158, 158, "setrlimit"⟩, ⟨159, 159, "getrusage"⟩, ⟨160, 160, "umask"⟩,
  ⟨161, 161, "prctl"⟩, ⟨162, 162, "getcpu"⟩, ⟨163, 163, "gettimeofday"⟩,
  ⟨164, 164, "settimeofday"⟩, ⟨165, 165, "adjtimex"⟩, ⟨166, 166, "getpid"⟩,
  ⟨167, 167, "getppid"⟩, ⟨168, 168, "getuid"⟩, ⟨169, 169, "geteuid"⟩, ⟨170, 170, "getgid"⟩,
  ⟨171, 171, "getegid"⟩, ⟨172, 172, "gettid"⟩, ⟨173, 173, "sysinfo"⟩, ⟨174, 174, "mq_open"⟩,
  ⟨175, 175, "mq_unlink"⟩, ⟨176, 176, "mq_timedsend"⟩, ⟨177, 177, "mq_timedreceive"⟩,
  ⟨178, 178, "mq_notify"⟩, ⟨179, 179, "mq_getsetattr"⟩, ⟨180, 180, "msgget"⟩,
  ⟨181, 181, "msgctl"⟩, ⟨182, 182, "msgrcv"⟩, ⟨183, 183, "msgsnd"⟩, ⟨184, 184, "semget"⟩,
  ⟨185, 185, "semctl"⟩, ⟨186, 186, "semtimedop"⟩, ⟨187, 187, "semop"⟩, ⟨188, 188, "shmget"⟩,
  ⟨189, 189, "shmctl"⟩, ⟨190, 190, "shmat"⟩, ⟨191, 191, "shmdt"⟩, ⟨192, 192, "socket"⟩,
  ⟨193, 193, "socketpair"⟩, ⟨194, 194, "bind"⟩, ⟨195, 195, "listen"⟩, ⟨196, 196, "accept"⟩,
  ⟨197, 197, "connect"⟩, ⟨198, 198, "getsockname"⟩, ⟨199, 199, "getpeername"⟩,
  ⟨200, 200, "sendto"⟩, ⟨201, 201, "recvfrom"⟩, ⟨202, 202, "setsockopt"⟩,
  ⟨203, 203, "getsockopt"⟩, ⟨204, 204, "shutdown"⟩, ⟨205, 205, "sendmsg"⟩, ⟨206, 206, "recvmsg"⟩,
  ⟨207, 207, "readahead"⟩, ⟨208, 208, "brk"⟩, ⟨209, 209, "munmap"⟩, ⟨210, 210, "mremap"⟩,
  ⟨211, 211, "add_key"⟩, ⟨212, 212, "request_key"⟩, ⟨213, 213, "keyctl"⟩, ⟨214, 214, "clone"⟩,
  ⟨215, 215, "execve"⟩, ⟨216, 216, "mmap"⟩, ⟨217, 217, "fadvise64"⟩, ⟨218, 218, "swapon"⟩,
  ⟨219, 219, "swapoff"⟩, ⟨220, 220, "mprotect"⟩, ⟨221, 221, "msync"⟩, ⟨222, 222, "mlock"⟩,
  ⟨223, 223, "munlock"⟩, ⟨224, 224, "mlockall"⟩, ⟨225, 225, "munlockall"⟩, ⟨226, 226, "mincore"⟩,
  ⟨227, 227, "madvise"⟩, ⟨228, 228, "remap_file_pages"⟩, ⟨229, 229, "mbind"⟩,
  ⟨230, 230, "get_mempolicy"⟩, ⟨231, 231, "set_mempolicy"⟩, ⟨232, 232, "migrate_pages"⟩,
  ⟨233, 233, "move_pages"⟩, ⟨234, 234, "rt_tgsigqueueinfo"⟩, ⟨235, 235, "perf_event_open"⟩,
  ⟨236, 236, "accept4"⟩, ⟨237, 237, "recvmmsg"⟩, ⟨238, 238, "wait4"⟩, ⟨239, 239, "prlimit64"⟩,
  ⟨240, 240, "fanotify_init"⟩, ⟨241, 241, "fanotify_mark"⟩, ⟨242, 242, "name_to_handle_at"⟩,
  ⟨243, 243, "open_by_handle_at"⟩, ⟨244, 244, "clock_adjtime"⟩, ⟨245, 245, "syncfs"⟩,
  ⟨246, 246, "setns"⟩, ⟨247, 247, "sendmmsg"⟩, ⟨248, 248, "process_vm_readv"⟩,
  ⟨249, 249, "process_vm_writev"⟩, ⟨250, 250, "kcmp"⟩, ⟨251, 251, "finit_module"⟩,
  ⟨252, 252, "sched_setattr"⟩, ⟨253, 253, "sched_getattr"⟩, ⟨254, 254, "renameat2"⟩,
  ⟨255, 255, "seccomp"⟩, ⟨256, 256, "getrandom"⟩, ⟨257, 257, "memfd_create"⟩, ⟨258, 258, "bpf"⟩,
  ⟨259, 259, "execveat"⟩, ⟨260, 260, "userfaultfd"⟩, ⟨261, 261, "membarrier"⟩,
  ⟨262, 262, "mlock2"⟩, ⟨263, 263, "copy_file_range"⟩, ⟨264, 264, "preadv2"⟩,
  ⟨265, 265, "pwritev2"⟩, ⟨266, 266, "pkey_mprotect"⟩, ⟨267, 267, "pkey_alloc"⟩,
  ⟨268, 268, "pkey_free"⟩, ⟨269, 269, "statx"⟩, ⟨270, 270, "io_pgetevents"⟩, ⟨271, 271, "rseq"⟩,
  ⟨272, 272, "kexec_file_load"⟩, ⟨273, 273, "pidfd_send_signal"⟩, ⟨274, 274, "io_uring_setup"⟩,
  ⟨275, 275, "io_uring_enter"⟩, ⟨276, 276, "io_uring_register"⟩, ⟨277, 277, "open_tree"⟩,
  ⟨278, 278, "move_mount"⟩, ⟨279, 279, "fsopen"⟩, ⟨280, 280, "fsconfig"⟩, ⟨281, 281, "fsmount"⟩,
  ⟨282, 282, "fspick"⟩, ⟨283, 283, "pidfd_open"⟩, ⟨284, 284, "clone3"⟩,
  ⟨285, 285, "close_range"⟩, ⟨286, 286, "openat2"⟩, ⟨287, 287, "pidfd_getfd"⟩,
  ⟨288, 288, "faccessat2"⟩, ⟨289, 289, "process_madvise"⟩, ⟨290, 290, "epoll_pwait2"⟩,
  ⟨291, 291, "mount_setattr"⟩, ⟨292, 292, "quotactl_fd"⟩, ⟨293, 293, "landlock_create_ruleset"⟩,
  ⟨294, 294, "landlock_add_rule"⟩, ⟨295, 295, "landlock_restrict_self"⟩,
  ⟨296, 296, "memfd_secret"⟩, ⟨297, 297, "process_mrelease"⟩, ⟨298, 298, "futex_waitv"⟩,
  ⟨299, 299, "set_mempolicy_home_node"⟩, ⟨300, 300, "cachestat"⟩, ⟨301, 301, "fchmodat2"⟩,
  ⟨302, 302, "map_shadow_stack"⟩, ⟨303, 303, "futex_wake"⟩, ⟨304, 304, "futex_wait"⟩,
  ⟨305, 305, "futex_requeue"⟩]

/-- A call that both kernels have, with its number in the table of each. -/
structure Call where
  name : String
  arm64 : Nat
  x86 : Nat
deriving DecidableEq, Repr

/-- The calls of the same name in the two kernels' tables. -/
def uapi : List Call := [
  ⟨"io_setup", 0, 206⟩, ⟨"io_destroy", 1, 207⟩, ⟨"io_submit", 2, 209⟩, ⟨"io_cancel", 3, 210⟩,
  ⟨"io_getevents", 4, 208⟩, ⟨"setxattr", 5, 188⟩, ⟨"lsetxattr", 6, 189⟩, ⟨"fsetxattr", 7, 190⟩,
  ⟨"getxattr", 8, 191⟩, ⟨"lgetxattr", 9, 192⟩, ⟨"fgetxattr", 10, 193⟩, ⟨"listxattr", 11, 194⟩,
  ⟨"llistxattr", 12, 195⟩, ⟨"flistxattr", 13, 196⟩, ⟨"removexattr", 14, 197⟩,
  ⟨"lremovexattr", 15, 198⟩, ⟨"fremovexattr", 16, 199⟩, ⟨"getcwd", 17, 79⟩,
  ⟨"lookup_dcookie", 18, 212⟩, ⟨"eventfd2", 19, 290⟩, ⟨"epoll_create1", 20, 291⟩,
  ⟨"epoll_ctl", 21, 233⟩, ⟨"epoll_pwait", 22, 281⟩, ⟨"dup", 23, 32⟩, ⟨"dup3", 24, 292⟩,
  ⟨"inotify_init1", 26, 294⟩, ⟨"inotify_add_watch", 27, 254⟩, ⟨"inotify_rm_watch", 28, 255⟩,
  ⟨"ioctl", 29, 16⟩, ⟨"ioprio_set", 30, 251⟩, ⟨"ioprio_get", 31, 252⟩, ⟨"flock", 32, 73⟩,
  ⟨"mknodat", 33, 259⟩, ⟨"mkdirat", 34, 258⟩, ⟨"unlinkat", 35, 263⟩, ⟨"symlinkat", 36, 266⟩,
  ⟨"linkat", 37, 265⟩, ⟨"renameat", 38, 264⟩, ⟨"umount2", 39, 166⟩, ⟨"mount", 40, 165⟩,
  ⟨"pivot_root", 41, 155⟩, ⟨"nfsservctl", 42, 180⟩, ⟨"fallocate", 47, 285⟩,
  ⟨"faccessat", 48, 269⟩, ⟨"chdir", 49, 80⟩, ⟨"fchdir", 50, 81⟩, ⟨"chroot", 51, 161⟩,
  ⟨"fchmod", 52, 91⟩, ⟨"fchmodat", 53, 268⟩, ⟨"fchownat", 54, 260⟩, ⟨"fchown", 55, 93⟩,
  ⟨"openat", 56, 257⟩, ⟨"close", 57, 3⟩, ⟨"vhangup", 58, 153⟩, ⟨"pipe2", 59, 293⟩,
  ⟨"quotactl", 60, 179⟩, ⟨"getdents64", 61, 217⟩, ⟨"read", 63, 0⟩, ⟨"write", 64, 1⟩,
  ⟨"readv", 65, 19⟩, ⟨"writev", 66, 20⟩, ⟨"pread64", 67, 17⟩, ⟨"pwrite64", 68, 18⟩,
  ⟨"preadv", 69, 295⟩, ⟨"pwritev", 70, 296⟩, ⟨"pselect6", 72, 270⟩, ⟨"ppoll", 73, 271⟩,
  ⟨"signalfd4", 74, 289⟩, ⟨"vmsplice", 75, 278⟩, ⟨"splice", 76, 275⟩, ⟨"tee", 77, 276⟩,
  ⟨"readlinkat", 78, 267⟩, ⟨"sync", 81, 162⟩, ⟨"fsync", 82, 74⟩, ⟨"fdatasync", 83, 75⟩,
  ⟨"sync_file_range", 84, 277⟩, ⟨"timerfd_create", 85, 283⟩, ⟨"timerfd_settime", 86, 286⟩,
  ⟨"timerfd_gettime", 87, 287⟩, ⟨"utimensat", 88, 280⟩, ⟨"acct", 89, 163⟩, ⟨"capget", 90, 125⟩,
  ⟨"capset", 91, 126⟩, ⟨"personality", 92, 135⟩, ⟨"exit", 93, 60⟩, ⟨"exit_group", 94, 231⟩,
  ⟨"waitid", 95, 247⟩, ⟨"set_tid_address", 96, 218⟩, ⟨"unshare", 97, 272⟩, ⟨"futex", 98, 202⟩,
  ⟨"set_robust_list", 99, 273⟩, ⟨"get_robust_list", 100, 274⟩, ⟨"nanosleep", 101, 35⟩,
  ⟨"getitimer", 102, 36⟩, ⟨"setitimer", 103, 38⟩, ⟨"kexec_load", 104, 246⟩,
  ⟨"init_module", 105, 175⟩, ⟨"delete_module", 106, 176⟩, ⟨"timer_create", 107, 222⟩,
  ⟨"timer_gettime", 108, 224⟩, ⟨"timer_getoverrun", 109, 225⟩, ⟨"timer_settime", 110, 223⟩,
  ⟨"timer_delete", 111, 226⟩, ⟨"clock_settime", 112, 227⟩, ⟨"clock_gettime", 113, 228⟩,
  ⟨"clock_getres", 114, 229⟩, ⟨"clock_nanosleep", 115, 230⟩, ⟨"syslog", 116, 103⟩,
  ⟨"ptrace", 117, 101⟩, ⟨"sched_setparam", 118, 142⟩, ⟨"sched_setscheduler", 119, 144⟩,
  ⟨"sched_getscheduler", 120, 145⟩, ⟨"sched_getparam", 121, 143⟩,
  ⟨"sched_setaffinity", 122, 203⟩, ⟨"sched_getaffinity", 123, 204⟩, ⟨"sched_yield", 124, 24⟩,
  ⟨"sched_get_priority_max", 125, 146⟩, ⟨"sched_get_priority_min", 126, 147⟩,
  ⟨"sched_rr_get_interval", 127, 148⟩, ⟨"restart_syscall", 128, 219⟩, ⟨"kill", 129, 62⟩,
  ⟨"tkill", 130, 200⟩, ⟨"tgkill", 131, 234⟩, ⟨"sigaltstack", 132, 131⟩,
  ⟨"rt_sigsuspend", 133, 130⟩, ⟨"rt_sigaction", 134, 13⟩, ⟨"rt_sigprocmask", 135, 14⟩,
  ⟨"rt_sigpending", 136, 127⟩, ⟨"rt_sigtimedwait", 137, 128⟩, ⟨"rt_sigqueueinfo", 138, 129⟩,
  ⟨"rt_sigreturn", 139, 15⟩, ⟨"setpriority", 140, 141⟩, ⟨"getpriority", 141, 140⟩,
  ⟨"reboot", 142, 169⟩, ⟨"setregid", 143, 114⟩, ⟨"setgid", 144, 106⟩, ⟨"setreuid", 145, 113⟩,
  ⟨"setuid", 146, 105⟩, ⟨"setresuid", 147, 117⟩, ⟨"getresuid", 148, 118⟩,
  ⟨"setresgid", 149, 119⟩, ⟨"getresgid", 150, 120⟩, ⟨"setfsuid", 151, 122⟩,
  ⟨"setfsgid", 152, 123⟩, ⟨"times", 153, 100⟩, ⟨"setpgid", 154, 109⟩, ⟨"getpgid", 155, 121⟩,
  ⟨"getsid", 156, 124⟩, ⟨"setsid", 157, 112⟩, ⟨"getgroups", 158, 115⟩, ⟨"setgroups", 159, 116⟩,
  ⟨"uname", 160, 63⟩, ⟨"sethostname", 161, 170⟩, ⟨"setdomainname", 162, 171⟩,
  ⟨"getrlimit", 163, 97⟩, ⟨"setrlimit", 164, 160⟩, ⟨"getrusage", 165, 98⟩, ⟨"umask", 166, 95⟩,
  ⟨"prctl", 167, 157⟩, ⟨"getcpu", 168, 309⟩, ⟨"gettimeofday", 169, 96⟩,
  ⟨"settimeofday", 170, 164⟩, ⟨"adjtimex", 171, 159⟩, ⟨"getpid", 172, 39⟩, ⟨"getppid", 173, 110⟩,
  ⟨"getuid", 174, 102⟩, ⟨"geteuid", 175, 107⟩, ⟨"getgid", 176, 104⟩, ⟨"getegid", 177, 108⟩,
  ⟨"gettid", 178, 186⟩, ⟨"sysinfo", 179, 99⟩, ⟨"mq_open", 180, 240⟩, ⟨"mq_unlink", 181, 241⟩,
  ⟨"mq_timedsend", 182, 242⟩, ⟨"mq_timedreceive", 183, 243⟩, ⟨"mq_notify", 184, 244⟩,
  ⟨"mq_getsetattr", 185, 245⟩, ⟨"msgget", 186, 68⟩, ⟨"msgctl", 187, 71⟩, ⟨"msgrcv", 188, 70⟩,
  ⟨"msgsnd", 189, 69⟩, ⟨"semget", 190, 64⟩, ⟨"semctl", 191, 66⟩, ⟨"semtimedop", 192, 220⟩,
  ⟨"semop", 193, 65⟩, ⟨"shmget", 194, 29⟩, ⟨"shmctl", 195, 31⟩, ⟨"shmat", 196, 30⟩,
  ⟨"shmdt", 197, 67⟩, ⟨"socket", 198, 41⟩, ⟨"socketpair", 199, 53⟩, ⟨"bind", 200, 49⟩,
  ⟨"listen", 201, 50⟩, ⟨"accept", 202, 43⟩, ⟨"connect", 203, 42⟩, ⟨"getsockname", 204, 51⟩,
  ⟨"getpeername", 205, 52⟩, ⟨"sendto", 206, 44⟩, ⟨"recvfrom", 207, 45⟩, ⟨"setsockopt", 208, 54⟩,
  ⟨"getsockopt", 209, 55⟩, ⟨"shutdown", 210, 48⟩, ⟨"sendmsg", 211, 46⟩, ⟨"recvmsg", 212, 47⟩,
  ⟨"readahead", 213, 187⟩, ⟨"brk", 214, 12⟩, ⟨"munmap", 215, 11⟩, ⟨"mremap", 216, 25⟩,
  ⟨"add_key", 217, 248⟩, ⟨"request_key", 218, 249⟩, ⟨"keyctl", 219, 250⟩, ⟨"clone", 220, 56⟩,
  ⟨"execve", 221, 59⟩, ⟨"swapon", 224, 167⟩, ⟨"swapoff", 225, 168⟩, ⟨"mprotect", 226, 10⟩,
  ⟨"msync", 227, 26⟩, ⟨"mlock", 228, 149⟩, ⟨"munlock", 229, 150⟩, ⟨"mlockall", 230, 151⟩,
  ⟨"munlockall", 231, 152⟩, ⟨"mincore", 232, 27⟩, ⟨"madvise", 233, 28⟩,
  ⟨"remap_file_pages", 234, 216⟩, ⟨"mbind", 235, 237⟩, ⟨"get_mempolicy", 236, 239⟩,
  ⟨"set_mempolicy", 237, 238⟩, ⟨"migrate_pages", 238, 256⟩, ⟨"move_pages", 239, 279⟩,
  ⟨"rt_tgsigqueueinfo", 240, 297⟩, ⟨"perf_event_open", 241, 298⟩, ⟨"accept4", 242, 288⟩,
  ⟨"recvmmsg", 243, 299⟩, ⟨"wait4", 260, 61⟩, ⟨"prlimit64", 261, 302⟩,
  ⟨"fanotify_init", 262, 300⟩, ⟨"fanotify_mark", 263, 301⟩, ⟨"name_to_handle_at", 264, 303⟩,
  ⟨"open_by_handle_at", 265, 304⟩, ⟨"clock_adjtime", 266, 305⟩, ⟨"syncfs", 267, 306⟩,
  ⟨"setns", 268, 308⟩, ⟨"sendmmsg", 269, 307⟩, ⟨"process_vm_readv", 270, 310⟩,
  ⟨"process_vm_writev", 271, 311⟩, ⟨"kcmp", 272, 312⟩, ⟨"finit_module", 273, 313⟩,
  ⟨"sched_setattr", 274, 314⟩, ⟨"sched_getattr", 275, 315⟩, ⟨"renameat2", 276, 316⟩,
  ⟨"seccomp", 277, 317⟩, ⟨"getrandom", 278, 318⟩, ⟨"memfd_create", 279, 319⟩, ⟨"bpf", 280, 321⟩,
  ⟨"execveat", 281, 322⟩, ⟨"userfaultfd", 282, 323⟩, ⟨"membarrier", 283, 324⟩,
  ⟨"mlock2", 284, 325⟩, ⟨"copy_file_range", 285, 326⟩, ⟨"preadv2", 286, 327⟩,
  ⟨"pwritev2", 287, 328⟩, ⟨"pkey_mprotect", 288, 329⟩, ⟨"pkey_alloc", 289, 330⟩,
  ⟨"pkey_free", 290, 331⟩, ⟨"statx", 291, 332⟩, ⟨"io_pgetevents", 292, 333⟩, ⟨"rseq", 293, 334⟩,
  ⟨"kexec_file_load", 294, 320⟩, ⟨"pidfd_send_signal", 424, 424⟩, ⟨"io_uring_setup", 425, 425⟩,
  ⟨"io_uring_enter", 426, 426⟩, ⟨"io_uring_register", 427, 427⟩, ⟨"open_tree", 428, 428⟩,
  ⟨"move_mount", 429, 429⟩, ⟨"fsopen", 430, 430⟩, ⟨"fsconfig", 431, 431⟩, ⟨"fsmount", 432, 432⟩,
  ⟨"fspick", 433, 433⟩, ⟨"pidfd_open", 434, 434⟩, ⟨"clone3", 435, 435⟩,
  ⟨"close_range", 436, 436⟩, ⟨"openat2", 437, 437⟩, ⟨"pidfd_getfd", 438, 438⟩,
  ⟨"faccessat2", 439, 439⟩, ⟨"process_madvise", 440, 440⟩, ⟨"epoll_pwait2", 441, 441⟩,
  ⟨"mount_setattr", 442, 442⟩, ⟨"quotactl_fd", 443, 443⟩, ⟨"landlock_create_ruleset", 444, 444⟩,
  ⟨"landlock_add_rule", 445, 445⟩, ⟨"landlock_restrict_self", 446, 446⟩,
  ⟨"memfd_secret", 447, 447⟩, ⟨"process_mrelease", 448, 448⟩, ⟨"futex_waitv", 449, 449⟩,
  ⟨"set_mempolicy_home_node", 450, 450⟩, ⟨"cachestat", 451, 451⟩, ⟨"fchmodat2", 452, 452⟩,
  ⟨"map_shadow_stack", 453, 453⟩, ⟨"futex_wake", 454, 454⟩, ⟨"futex_wait", 455, 455⟩,
  ⟨"futex_requeue", 456, 456⟩, ⟨"statmount", 457, 457⟩, ⟨"listmount", 458, 458⟩,
  ⟨"lsm_get_self_attr", 459, 459⟩, ⟨"lsm_set_self_attr", 460, 460⟩,
  ⟨"lsm_list_modules", 461, 461⟩]

end Arm2x86.Syscall
