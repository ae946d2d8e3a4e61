/-!
# Places

What a system customarily has below its root: directories, other names for some of them, and files.
A place that is not listed is taken not to exist. Main statements: `find?_links` and
`isDirectory_links`, another name is found and leads to a directory that is listed.
-/

namespace ToneRelay.Generator

/-- What is at a path. -/
inductive Place
  | directory
  | file
  /-- Another name of the directory with a path from the root. -/
  | link (target : List String)
deriving DecidableEq, Repr

namespace Place

/-- The directories in a directory, by its path from the root. -/
def directories : List (List String × List String) :=
  [([], ["boot", "dev", "etc", "home", "media", "mnt", "opt", "proc", "root", "run", "srv", "sys",
      "tmp", "usr", "var"]),
    (["dev"], ["mqueue", "pts", "shm"]),
    (["etc"], ["alternatives", "apt", "default", "init.d", "ld.so.conf.d", "opt", "pam.d",
      "profile.d", "security", "skel", "ssl", "systemd"]),
    (["proc"], ["1", "bus", "fs", "irq", "self", "sys", "tty"]),
    (["proc", "self"], ["fd", "ns", "task"]),
    (["run"], ["lock"]),
    (["sys"], ["block", "bus", "class", "dev", "devices", "firmware", "fs", "kernel", "module",
      "power"]),
    (["usr"], ["bin", "games", "include", "lib", "lib64", "libexec", "local", "sbin", "share",
      "src"]),
    (["usr", "local"], ["bin", "etc", "games", "include", "lib", "sbin", "share", "src"]),
    (["usr", "local", "share"], ["man"]),
    (["usr", "share"], ["doc", "man", "misc"]),
    (["var"], ["backups", "cache", "lib", "local", "log", "mail", "opt", "spool", "tmp"])]

/-- The files in a directory, by its path from the root. -/
def files : List (List String × List String) :=
  [(["dev"], ["console", "full", "null", "ptmx", "random", "stderr", "stdin", "stdout", "tty",
      "urandom", "zero"]),
    (["etc"], ["bash.bashrc", "debian_version", "environment", "fstab", "group", "gshadow",
      "host.conf", "hostname", "hosts", "issue", "ld.so.cache", "ld.so.conf", "login.defs",
      "nsswitch.conf", "os-release", "passwd", "profile", "resolv.conf", "shadow", "shells"]),
    (["proc"], ["cmdline", "cpuinfo", "loadavg", "meminfo", "mounts", "stat", "uptime", "version"]),
    (["proc", "self"], ["cmdline", "environ", "exe", "maps", "mounts", "stat", "status"]),
    (["usr", "bin"], ["awk", "bash", "cat", "chmod", "cp", "cut", "dash", "date", "dd", "df", "du",
      "echo", "env", "expr", "false", "find", "grep", "head", "id", "kill", "ls", "mkdir", "mv",
      "perl", "printf", "ps", "pwd", "rm", "rmdir", "sed", "sh", "sleep", "sort", "stat", "tail",
      "tar", "tee", "test", "touch", "tr", "true", "uname", "wc", "which", "whoami", "yes"]),
    (["usr", "lib"], ["os-release"])]

/-- The other names in a directory, by its path from the root, and where each leads. -/
def links : List (List String × List (String × List String)) :=
  [([], [("bin", ["usr", "bin"]), ("lib", ["usr", "lib"]), ("lib64", ["usr", "lib64"]),
      ("sbin", ["usr", "sbin"])]),
    (["dev"], [("fd", ["proc", "self", "fd"])]),
    (["usr", "local"], [("man", ["usr", "local", "share", "man"])]),
    (["var"], [("lock", ["run", "lock"]), ("run", ["run"])])]

/-- What is at a name in a directory. -/
def find? (here : List String) (name : String) : Option Place :=
  if directories.any fun e => e.1 = here && name ∈ e.2 then some .directory
  else if files.any fun e => e.1 = here && name ∈ e.2 then some .file
  else
    let named := links.flatMap fun e => if e.1 = here then e.2 else []
    (named.find? (·.1 = name)).map fun e => .link e.2

/-- Whether a path from the root leads to a directory that is listed. -/
def isDirectory (path : List String) : Bool :=
  match path.getLast? with
  | none => true
  | some name => find? path.dropLast name = some .directory

theorem isDirectory_links : ∀ e ∈ links, isDirectory e.1 ∧ ∀ l ∈ e.2, isDirectory l.2 := by
  decide +kernel

theorem find?_links : ∀ e ∈ links, ∀ l ∈ e.2, find? e.1 l.1 = some (.link l.2) := by
  decide +kernel

end Place

end ToneRelay.Generator
