import OsMoap.Shell.State

/-!
# Redirections

`redirect` and `popredir` of `guest/busybox/upstream/shell/ash.c`.  A redirected descriptor is
copied to ten or above and noted in the innermost `redirtab`, from which `popredir` puts it back.
`redirect` drops what libc has read ahead of `stdin` when it points descriptor 0 elsewhere.
-/

namespace OsMoap.Shell

open OsMoap.Lib OsMoap.Pack

/-! ## Saving a descriptor -/

/-- The least descriptor a copy may have: `avoid_fd` is at least nine. -/
def saveMin (avoid : Option ℕ) : ℕ := max 10 (avoid.elim 0 (· + 1))

/-- Move the descriptor of the first script that is read from `fd`. -/
def moveScript (io : Io) (fd min : ℕ) : List Parsefile → Option (List Parsefile × Io)
  | [] => none
  | pf :: rest =>
    if pf.fd = some fd then
      match io.dupfd fd min with
      | (some new, io') => some (⟨some new⟩ :: rest, io'.close fd)
      | (none, _) => some (pf :: rest, io)
    else (moveScript io fd min rest).map fun (pfs, io') => (pf :: pfs, io')

/-- What `save_fd_on_redirect` does to the slots of the table. -/
inductive Saving where
  /-- The descriptor has been saved, or moved out of the way. -/
  | saved (sq : Redirtab) (io : Io)
  /-- The copy of another descriptor could not be moved. -/
  | died

/-- A slot that is in the way is moved, a descriptor saved before is not saved again, and a new
one is copied. -/
def saveSlot (io : Io) (fd min : ℕ) : Redirtab → Saving
  | [] =>
    -- a descriptor that is not open cannot be copied, and the slot says `CLOSED`
    let (new, io') := io.dupfd fd min
    .saved [⟨fd, new⟩] io'
  | sq :: rest =>
    if sq.movedTo = some fd then
      match io.dupfd fd min with
      | (some new, io') => .saved ({ sq with movedTo := some new } :: rest) io'
      | (none, _) => .died
    else if sq.origFd = fd then .saved (sq :: rest) io
    else
      match saveSlot io fd min rest with
      | .saved sqs io' => .saved (sq :: sqs) io'
      | .died => .died

/-- `save_fd_on_redirect`, and whether it has closed the descriptor. -/
def saveFdOnRedirect (fd : ℕ) (avoid : Option ℕ) : Sh Bool := do
  let s ← Program.read
  match s.redirlist with
  | [] => pure false
  | sq :: tabs =>
    -- even if the script is read from descriptor 0, a command may use it: it is not moved
    match if fd ≠ 0 then moveScript s.io fd (saveMin avoid) s.parsefiles else none with
    -- moving the script has closed the descriptor, and nothing is to be put back
    | some (pfs, io) =>
      Program.modify fun s => { s with parsefiles := pfs, io := io }
      pure true
    | none =>
      match saveSlot s.io fd (saveMin avoid) sq with
      | .saved sq' io =>
        Program.modify fun s => { s with redirlist := sq' :: tabs, io := io }
        pure false
      -- `xfunc_die`, which no handler catches
      | .died => Program.stop (.exited 1)

/-- `add_squirrel_closed`. -/
def addSquirrelClosed (fd : ℕ) : Sh Unit :=
  Program.modify fun s =>
    match s.redirlist with
    | [] => s
    | sq :: tabs =>
      if sq.any fun q => q.origFd = fd then s
      else { s with redirlist := (sq ++ [⟨fd, none⟩]) :: tabs }

/-- `internally_opened_fd`. -/
def internallyOpenedFd (s : Ash) (fd : ℕ) : Bool :=
  (fd != 0 && s.parsefiles.any fun pf => pf.fd = some fd) ||
    (s.redirlist.headD []).any fun q => q.movedTo = some fd

/-! ## Redirecting -/

/-- What a redirection is from or to. -/
inductive Source where
  /-- `<`, `>`, `>>` or `<>` with a file name. -/
  | file (path : Text) (access : Access)
  /-- A here document. -/
  | here
  /-- `N>&M`. -/
  | dup (fd : ℕ)
  /-- `N>&-`. -/
  | close
  deriving DecidableEq

structure Redir where
  fd : ℕ
  source : Source
  deriving DecidableEq

/-- `dup2_or_raise`. -/
def dup2OrRaise (old new : ℕ) : Sh Unit := do
  let s ← Program.read
  match s.io.dup2 old new with
  | (true, io) => Program.modify fun s => { s with io := io }
  | (false, _) => ashMsgAndRaiseError

/-- Save `fd` and point it to what `newfd` denotes. -/
def redirectTo (fd newfd : ℕ) : Sh Unit := do
  let _ ← saveFdOnRedirect fd (some newfd)
  let s ← Program.read
  -- a descriptor of the shell's own, as if it were not open
  if internallyOpenedFd s newfd then ashMsgAndRaiseError
  else do
    dup2OrRaise newfd fd
    if fd = 0 then onIo Io.purge else pure ()

/-- One redirection of the loop of `redirect`. -/
def redirect1 (r : Redir) : Sh Unit := do
  let s ← Program.read
  match r.source with
  -- `openhere` needs `pipe`, which is `ENOSYS`
  | .here => ashMsgAndRaiseError
  | .file path access =>
    match s.io.openFile path access with
    | none => ashMsgAndRaiseError
    | some (newfd, io) => do
      Program.modify fun s => { s with io := io }
      -- `open` gave precisely the descriptor we wanted: it was not busy
      if r.fd = newfd then addSquirrelClosed r.fd
      else do
        redirectTo r.fd newfd
        onIo (Io.close · newfd)
  | .dup newfd => if r.fd = newfd then pure () else redirectTo r.fd newfd
  -- `newfd` is -1, which no descriptor is to be kept clear of
  | .close => do
    let closed ← saveFdOnRedirect r.fd none
    if closed then pure () else onIo (Io.close · r.fd)

/-- `redirect` with `REDIR_PUSH`. -/
def redirect : List Redir → Sh Unit
  | [] => pure ()
  | r :: rs => do
    redirect1 r
    redirect rs

/-- `redirectsafe`, and whether it succeeded. -/
def redirectsafe (rs : List Redir) : Sh Bool := do
  match ← catching (redirect rs) with
  -- only an `EXERROR` of `redirect` is the failure of the command
  | .ok () => pure true
  | .error .exerror => pure false
  | .error e => raiseException e

/-- `pushredir`, where there is a redirection. -/
def pushredir (rs : List Redir) : Sh Unit :=
  Program.modify fun s => if rs = [] then s else { s with redirlist := [] :: s.redirlist }

/-! ## Undoing -/

/-- The loop of `popredir` over the slots. -/
def popSlots (drop : Bool) : Redirtab → Sh Unit
  | [] => pure ()
  | sq :: rest => do
    match sq.movedTo with
    -- `CLOSED`: it was not open before the redirection
    | none => if drop then pure () else onIo (Io.close · sq.origFd)
    | some copy => do
      if drop then pure () else dup2OrRaise copy sq.origFd
      onIo (Io.close · copy)
    popSlots drop rest

def popredir (drop : Bool) : Sh Unit := do
  let s ← Program.read
  match s.redirlist with
  | [] => pure ()
  | rp :: tabs =>
    popSlots drop rp
    Program.modify fun s => { s with redirlist := tabs }

/-- `popredir`, where there was a redirection. -/
def popredirIf (rs : List Redir) (drop : Bool) : Sh Unit :=
  if rs = [] then pure () else popredir drop

/-- `unwindredir`, over the given number of tables. -/
def unwindredir : ℕ → Sh Unit
  | 0 => pure ()
  | n + 1 => do
    popredir false
    unwindredir n

end OsMoap.Shell
