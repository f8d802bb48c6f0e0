import OsMoap.Lib.Table
import OsMoap.Pack.PyText

/-!
# Descriptors, Files and Streams of the Shell

What the shell has of the system: the table of descriptors, the open file descriptions they
share, the files with their names, and libc's `stdin` and `stdout`.  There is no `fork`, so every
applet and builtin reads and writes through the same two `FILE *`.

`dup2` and `fcntl(F_DUPFD)` share the open file description.  Descriptors do not run out.
-/

namespace OsMoap.Shell

open OsMoap.Lib OsMoap.Pack

/-! ## Files -/

/-- The flags of `open`. -/
structure Access where
  reads : Bool
  writes : Bool
  creates : Bool
  truncates : Bool
  appends : Bool
  deriving DecidableEq

/-- `O_RDONLY`. -/
def rdonly : Access := ⟨true, false, false, false, false⟩

/-- `O_WRONLY | O_CREAT | O_TRUNC`. -/
def wronlyTrunc : Access := ⟨false, true, true, true, false⟩

/-- `O_WRONLY | O_CREAT | O_APPEND`. -/
def wronlyAppend : Access := ⟨false, true, true, false, true⟩

/-- `O_RDWR | O_CREAT`. -/
def rdwr : Access := ⟨true, true, true, false, false⟩

/-- `O_RDWR | O_CREAT | O_TRUNC`. -/
def rdwrTrunc : Access := ⟨true, true, true, true, false⟩

/-- An open file description.  `wrote` records what has been written through it and is not read
by anything. -/
structure Description where
  ino : ℕ
  offset : ℕ
  access : Access
  wrote : Bytes
  deriving DecidableEq

/-- libc's `stdin`: the bytes read ahead and the end-of-file flag, with the description they were
read from. -/
structure Stdin where
  buffer : Bytes
  eof : Bool
  source : ℕ
  deriving DecidableEq

/-- Descriptors lead to descriptions, and names and descriptions to the contents of files.
`creatable` tells for which names a file can be made, and `stdout` is what is not flushed yet. -/
structure Io where
  fds : Table ℕ
  descs : List Description
  data : List Bytes
  names : Text → Option ℕ
  creatable : Text → Bool
  stdin : Stdin
  stdout : Bytes

/-- `bs` at a position of a file, with zeros in a gap before it. -/
def overwrite (old : Bytes) (pos : ℕ) (bs : Bytes) : Bytes :=
  old.take pos ++ List.replicate (pos - old.length) 0 ++ bs ++ old.drop (pos + bs.length)

theorem overwrite_length (old bs : Bytes) : overwrite old old.length bs = old ++ bs := by
  simp [overwrite]

namespace Io

/-! ## System calls -/

/-- `fcntl(fd, F_DUPFD, min)`. -/
def dupfd (io : Io) (fd min : ℕ) : Option ℕ × Io :=
  match io.fds.get fd with
  | none => (none, io)
  | some d => (some (io.fds.lowest min), { io with fds := io.fds.set (io.fds.lowest min) (some d) })

/-- `dup2(from, to)`, and whether it succeeded. -/
def dup2 (io : Io) (old new : ℕ) : Bool × Io :=
  match io.fds.get old with
  | none => (false, io)
  -- what `new` denoted before is closed
  | some d => (true, { io with fds := io.fds.set new (some d) })

def close (io : Io) (fd : ℕ) : Io := { io with fds := io.fds.set fd none }

/-- A new description of a file, in the lowest free descriptor. -/
def install (io : Io) (ino : ℕ) (access : Access) : ℕ × Io :=
  (io.fds.lowest 0, { io with
    fds := io.fds.set (io.fds.lowest 0) (some io.descs.length)
    descs := io.descs ++ [⟨ino, 0, access, []⟩] })

def openFile (io : Io) (path : Text) (access : Access) : Option (ℕ × Io) :=
  match io.names path with
  | some ino =>
    -- the descriptions that are open already see the file truncated
    let data := if access.truncates then io.data.set ino [] else io.data
    some (install { io with data := data } ino access)
  | none =>
    if access.creates && io.creatable path then
      some (install { io with
        data := io.data ++ [[]]
        names := Function.update io.names path (some io.data.length) } io.data.length access)
    else none

def unlink (io : Io) (path : Text) : Io :=
  { io with names := Function.update io.names path none }

/-- The description a descriptor leads to, with its number. -/
def description (io : Io) (fd : ℕ) : Option (ℕ × Description) :=
  (io.fds.get fd).bind fun d => io.descs[d]?.map (d, ·)

def contents (io : Io) (ino : ℕ) : Bytes := io.data[ino]?.getD []

/-- `write(fd, bs)`. -/
def write (io : Io) (fd : ℕ) (bs : Bytes) : Io :=
  match io.description fd with
  | none => io
  | some (d, desc) =>
    if desc.access.writes then
      let old := io.contents desc.ino
      let pos := if desc.access.appends then old.length else desc.offset
      { io with
        data := io.data.set desc.ino (overwrite old pos bs)
        descs := io.descs.set d
          { desc with offset := pos + bs.length, wrote := desc.wrote ++ bs } }
    else io

/-- `read(fd, n)`: `none` is an error and `some []` the end of the file. -/
def read (io : Io) (fd n : ℕ) : Option Bytes × Io :=
  match io.description fd with
  | none => (none, io)
  | some (d, desc) =>
    -- a descriptor opened for writing only gives `EBADF`
    if desc.access.reads then
      let bs := ((io.contents desc.ino).drop desc.offset).take n
      (some bs, { io with descs := io.descs.set d { desc with offset := desc.offset + bs.length } })
    else (none, io)

/-- `lseek(fd, 0, SEEK_SET)`. -/
def rewind (io : Io) (fd : ℕ) : Io :=
  match io.description fd with
  | none => io
  | some (d, desc) => { io with descs := io.descs.set d { desc with offset := 0 } }

/-! ## Streams -/

/-- What a reader of `stdin` gets, with the description it comes from. -/
inductive Delivery where
  | byte (b : UInt8) (source : ℕ)
  | eof (source : ℕ)
  | error
  deriving DecidableEq

/-- The size of the buffer of `stdin`. -/
def bufsiz : ℕ := 1024

/-- `getc(stdin)`: the end-of-file flag is sticky, and the buffer is filled only when empty. -/
def getc (io : Io) : Delivery × Io :=
  match io.stdin.buffer with
  | b :: rest => (.byte b io.stdin.source, { io with stdin := { io.stdin with buffer := rest } })
  | [] =>
    -- the flag stays until `clearerr`
    if io.stdin.eof then (.eof io.stdin.source, io)
    else
      match io.description 0, io.read 0 bufsiz with
      | some (d, _), (some [], io') => (.eof d, { io' with stdin := ⟨[], true, d⟩ })
      | some (d, _), (some (b :: rest), io') => (.byte b d, { io' with stdin := ⟨rest, false, d⟩ })
      | _, _ => (.error, io)

/-- `clearerr(stdin); fpurge(stdin)`. -/
def purge (io : Io) : Io := { io with stdin := { io.stdin with buffer := [], eof := false } }

/-- `stdout` gets bytes and keeps them. -/
def put (io : Io) (bs : Bytes) : Io := { io with stdout := io.stdout ++ bs }

/-- `fflush_all()`. -/
def fflushAll (io : Io) : Io := { io.write 1 io.stdout with stdout := [] }

end Io

/-! ## What commands do -/

/-- What a builtin, an applet or a program that the host runs does to streams and files. -/
inductive Op where
  | getc
  | put (bs : Bytes)
  | flush
  | read (fd n : ℕ)
  | write (fd : ℕ) (bs : Bytes)
  /-- Make a file of its own, or write one anew. -/
  | create (path : Text) (bs : Bytes)
  | unlink (path : Text)
  deriving DecidableEq

namespace Io

def run (io : Io) : Op → Io
  | .getc => io.getc.2
  | .put bs => io.put bs
  | .flush => io.fflushAll
  | .read fd n => (io.read fd n).2
  | .write fd bs => io.write fd bs
  | .create path bs =>
    match io.openFile path wronlyTrunc with
    | none => io
    | some (fd, io') => (io'.write fd bs).close fd
  | .unlink path => io.unlink path

def runAll (io : Io) (ops : List Op) : Io := ops.foldl run io

/-- A session: an input, a terminal and some files. -/
def start (input : Bytes) (files : List (Text × Bytes)) : Io where
  fds := ⟨[some 0, some 1, some 1]⟩
  descs := [⟨0, 0, rdonly, []⟩, ⟨1, 0, wronlyAppend, []⟩]
  data := input :: [] :: files.map Prod.snd
  names path := (files.findIdx? fun f => f.1 = path).map (· + 2)
  creatable _ := true
  stdin := ⟨[], false, 0⟩
  stdout := []

/-! ## Frames of the calls -/

theorem dupfd_of_open {io : Io} {fd d : ℕ} (h : io.fds.get fd = some d) (min : ℕ) :
    io.dupfd fd min = (some (io.fds.lowest min),
      { io with fds := io.fds.set (io.fds.lowest min) (some d) }) := by
  simp only [dupfd, h]

theorem dupfd_of_closed {io : Io} {fd : ℕ} (h : io.fds.get fd = none) (min : ℕ) :
    io.dupfd fd min = (none, io) := by
  simp only [dupfd, h]

/-- A copy is in a free place, and denotes the same. -/
theorem dupfd_eq_some {io : Io} {fd min n : ℕ} (h : (io.dupfd fd min).1 = some n) :
    min ≤ n ∧ io.fds.get n = none ∧
      (io.dupfd fd min).2.fds.get = Function.update io.fds.get n (io.fds.get fd) := by
  cases hfd : io.fds.get fd with
  | none =>
    rw [dupfd_of_closed hfd] at h
    cases h
  | some d =>
    rw [dupfd_of_open hfd] at h ⊢
    cases h
    exact ⟨io.fds.le_lowest min, io.fds.get_lowest min, Table.get_set_eq_update ..⟩

/-- An open descriptor can be copied, and stays what it is. -/
theorem dupfd_isSome {io : Io} {fd d : ℕ} (h : io.fds.get fd = some d) (min : ℕ) :
    ∃ n, (io.dupfd fd min).1 = some n := ⟨io.fds.lowest min, by rw [dupfd_of_open h]⟩

theorem dupfd_get_of_open {io : Io} {n d : ℕ} (h : io.fds.get n = some d) (fd min : ℕ) :
    (io.dupfd fd min).2.fds.get n = some d := by
  cases hfd : io.fds.get fd with
  | none => rw [dupfd_of_closed hfd, h]
  | some d' =>
    rw [dupfd_of_open hfd, Table.get_set_of_ne, h]
    rintro rfl
    rw [Table.get_lowest] at h
    cases h

theorem dup2_of_open {io : Io} {old d : ℕ} (h : io.fds.get old = some d) (new : ℕ) :
    io.dup2 old new = (true, { io with fds := io.fds.set new (some d) }) := by
  simp only [dup2, h]

theorem dup2_of_closed {io : Io} {old : ℕ} (h : io.fds.get old = none) (new : ℕ) :
    io.dup2 old new = (false, io) := by
  simp only [dup2, h]

theorem openFile_cases {io io' : Io} {path : Text} {access : Access} {fd : ℕ}
    (h : io.openFile path access = some (fd, io')) :
    fd = io.fds.lowest 0 ∧ io'.fds = io.fds.set fd (some io.descs.length) ∧
      io'.stdin = io.stdin ∧ io'.stdout = io.stdout ∧ io'.creatable = io.creatable := by
  rw [openFile] at h
  split at h
  · cases h
    exact ⟨rfl, rfl, rfl, rfl, rfl⟩
  · split_ifs at h
    cases h
    exact ⟨rfl, rfl, rfl, rfl, rfl⟩

/-- A file that can be made can be opened anew. -/
theorem openFile_isSome {io : Io} {path : Text} (h : io.creatable path = true) {access : Access}
    (hcreates : access.creates = true) : (io.openFile path access).isSome := by
  rw [openFile]
  split
  · rfl
  · rw [if_pos (by rw [h, hcreates]; rfl)]
    rfl

@[simp]
theorem write_fds (io : Io) (fd : ℕ) (bs : Bytes) : (io.write fd bs).fds = io.fds := by
  rw [write]
  split
  · rfl
  · split
    · rfl
    · rfl

@[simp]
theorem write_stdin (io : Io) (fd : ℕ) (bs : Bytes) : (io.write fd bs).stdin = io.stdin := by
  rw [write]
  split
  · rfl
  · split
    · rfl
    · rfl

@[simp]
theorem write_creatable (io : Io) (fd : ℕ) (bs : Bytes) :
    (io.write fd bs).creatable = io.creatable := by
  rw [write]
  split
  · rfl
  · split
    · rfl
    · rfl

@[simp]
theorem read_fds (io : Io) (fd n : ℕ) : (io.read fd n).2.fds = io.fds := by
  rw [read]
  split
  · rfl
  · split_ifs
    · rfl
    · rfl

@[simp]
theorem read_stdin (io : Io) (fd n : ℕ) : (io.read fd n).2.stdin = io.stdin := by
  rw [read]
  split
  · rfl
  · split_ifs
    · rfl
    · rfl

@[simp]
theorem rewind_fds (io : Io) (fd : ℕ) : (io.rewind fd).fds = io.fds := by
  rw [rewind]
  split
  · rfl
  · rfl

@[simp]
theorem fflushAll_fds (io : Io) : io.fflushAll.fds = io.fds := write_fds ..

@[simp]
theorem fflushAll_stdin (io : Io) : io.fflushAll.stdin = io.stdin := write_stdin ..

@[simp]
theorem fflushAll_creatable (io : Io) : io.fflushAll.creatable = io.creatable := write_creatable ..

@[simp]
theorem read_creatable (io : Io) (fd n : ℕ) : (io.read fd n).2.creatable = io.creatable := by
  rw [read]
  split
  · rfl
  · split_ifs
    · rfl
    · rfl

/-- `getc` does no more than a read from descriptor 0. -/
theorem getc_eq (io : Io) : ∃ stdin,
    io.getc.2 = { io with stdin := stdin } ∨
      io.getc.2 = { (io.read 0 bufsiz).2 with stdin := stdin } := by
  rw [getc]
  split
  · exact ⟨_, Or.inl rfl⟩
  · split_ifs
    · exact ⟨io.stdin, Or.inl rfl⟩
    · split
      · rename_i hread
        exact ⟨_, Or.inr (by rw [hread])⟩
      · rename_i hread
        exact ⟨_, Or.inr (by rw [hread])⟩
      · exact ⟨io.stdin, Or.inl rfl⟩

/-- `getc` moves no descriptor. -/
@[simp]
theorem getc_fds (io : Io) : io.getc.2.fds = io.fds := by
  obtain ⟨stdin, h | h⟩ := getc_eq io
  · rw [h]
  · rw [h]
    exact read_fds io 0 bufsiz

/-- A file made and closed again leaves the table as it was. -/
theorem run_fds (io : Io) (op : Op) (n : ℕ) : (io.run op).fds.get n = io.fds.get n := by
  cases op with
  | getc => exact congrArg (Table.get · n) (getc_fds io)
  | put bs => rfl
  | flush => exact congrArg (Table.get · n) (fflushAll_fds io)
  | read fd k => exact congrArg (Table.get · n) (read_fds io fd k)
  | write fd bs => exact congrArg (Table.get · n) (write_fds io fd bs)
  | create path bs =>
    rw [run]
    split
    · rfl
    · rename_i fd io' hopen
      obtain ⟨hfd, hfds, -, -, -⟩ := openFile_cases hopen
      rw [close, Table.get_set, write_fds, hfds, Table.get_set]
      split_ifs with heq
      · rw [heq, hfd, Table.get_lowest]
      · rfl
  | unlink path => rfl

theorem runAll_fds (io : Io) (ops : List Op) (n : ℕ) :
    (io.runAll ops).fds.get n = io.fds.get n := by
  induction ops generalizing io with
  | nil => rfl
  | cons op ops ih =>
    rw [runAll, List.foldl_cons]
    exact (ih (io.run op)).trans (run_fds io op n)

theorem run_creatable (io : Io) (op : Op) : (io.run op).creatable = io.creatable := by
  cases op with
  | getc =>
    obtain ⟨stdin, h | h⟩ := getc_eq io
    · rw [run, h]
    · rw [run, h]
      exact read_creatable io 0 bufsiz
  | put bs => rfl
  | flush => exact fflushAll_creatable io
  | read fd k => exact read_creatable io fd k
  | write fd bs => exact write_creatable io fd bs
  | create path bs =>
    rw [run]
    split
    · rfl
    · rename_i fd io' hopen
      obtain ⟨-, -, -, -, hcreatable⟩ := openFile_cases hopen
      rw [close, write_creatable, hcreatable]
  | unlink path => rfl

theorem runAll_creatable (io : Io) (ops : List Op) :
    (io.runAll ops).creatable = io.creatable := by
  induction ops generalizing io with
  | nil => rfl
  | cons op ops ih =>
    rw [runAll, List.foldl_cons]
    exact (ih (io.run op)).trans (run_creatable io op)

end Io

end OsMoap.Shell
