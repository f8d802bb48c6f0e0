import OsMoap.Lib.Program
import OsMoap.Lib.Table
import OsMoap.Pack.PyText

/-!
# The Stack Allocator of the Shell

`stalloc`, the marks and the growing strings of `guest/busybox/upstream/shell/ash.c`, over a heap of
blocks that are allocated, moved and freed.  A string under construction lies above `stacknxt` and
belongs to nobody: whoever allocates next writes over it.  A word is built in such a string, and a
command substitution in the word evaluates a whole tree in the middle of it, for which
`osd_evalbackcmd_inproc` puts a new stack in place of the old one.

What is not defined in C ends a program: a use of a block that is not there, a store outside of one,
a difference of pointers into two blocks, and the freeing of `stackbase`.
-/

namespace OsMoap.Shell.Arena

open OsMoap.Lib OsMoap.Pack

/-! ## Memory -/

/-- A place in the `space` of a block. -/
structure Ptr where
  block : ℕ
  off : ℕ
  deriving DecidableEq

def Ptr.add (p : Ptr) (n : ℕ) : Ptr := ⟨p.block, p.off + n⟩

/-- `struct stack_block`, with the length of its `space`. -/
structure Block where
  prev : Option ℕ
  size : ℕ
  bytes : ℕ → UInt8

/-- The live blocks by their addresses. -/
abbrev Heap := Table Block

/-- libc's `malloc` and `realloc`: where a block of a size goes, if there is memory, and what is in
memory that was never written. -/
structure Malloc where
  malloc : Heap → ℕ → Option ℕ
  realloc : Heap → ℕ → ℕ → Option ℕ
  junk : ℕ → UInt8
  malloc_free : ∀ {h n a}, malloc h n = some a → h.get a = none
  realloc_free : ∀ {h a n a'}, realloc h a n = some a' → a' = a ∨ h.get a' = none

/-- `globals_memstack`, and `expdest` of the expansion. -/
structure Memstack where
  heap : Heap
  stackp : ℕ
  stacknxt : Ptr
  sstrend : Ptr
  stacknleft : ℕ
  expdest : Option Ptr

/-- `&stackbase`, the block that is not allocated. -/
def stackbase : ℕ := 0

inductive Stop where
  /-- A `longjmp` to `exception_handler`. -/
  | raised
  | undefined
  /-- `xmalloc` has no memory. -/
  | died
  deriving DecidableEq

abbrev Ar := Program Memstack Stop

/-- The bytes at a place. -/
def load (p : Ptr) (n : ℕ) : Ar Bytes := do
  let s ← Program.read
  match s.heap.get p.block with
  | none => Program.stop .undefined
  | some b =>
    if p.off + n ≤ b.size then pure ((List.range n).map fun i => b.bytes (p.off + i))
    else Program.stop .undefined

/-- A block with some bytes written over. -/
def Block.put (b : Block) (off : ℕ) (bs : Bytes) : Block :=
  { b with
    bytes := fun i => if off ≤ i ∧ i < off + bs.length then bs.getD (i - off) 0 else b.bytes i }

def store (p : Ptr) (bs : Bytes) : Ar Unit := do
  let s ← Program.read
  match s.heap.get p.block with
  | none => Program.stop .undefined
  | some b =>
    if p.off + bs.length ≤ b.size then
      Program.modify fun s => { s with heap := s.heap.set p.block (some (b.put p.off bs)) }
    else Program.stop .undefined

/-- `p - q`. -/
def ptrdiff (p q : Ptr) : Ar ℕ :=
  if p.block = q.block ∧ q.off ≤ p.off then pure (p.off - q.off) else Program.stop .undefined

/-! ## Allocating -/

/-- `SHELL_ALIGN`. -/
def shellAlign (nbytes : ℕ) : ℕ := (nbytes + 7) / 8 * 8

/-- `MINSIZE`. -/
def minsize : ℕ := shellAlign 504

/-- `sizeof(struct stack_block) - MINSIZE`: the pointer `prev`. -/
def header : ℕ := 4

/-- The part of `stalloc` for when there is no room. -/
def newBlock (m : Malloc) (blocksize : ℕ) : Ar Unit := do
  -- `len < blocksize`: the sum has wrapped
  if 2 ^ 32 ≤ header + blocksize then Program.stop .raised
  else do
    let s ← Program.read
    match m.malloc s.heap (header + blocksize) with
    | none => Program.stop .died
    | some sp =>
      Program.modify fun s =>
        { s with
          heap := s.heap.set sp (some ⟨some s.stackp, blocksize, m.junk⟩)
          stackp := sp
          stacknxt := ⟨sp, 0⟩
          stacknleft := blocksize
          sstrend := ⟨sp, blocksize⟩ }

def stalloc (m : Malloc) (nbytes : ℕ) : Ar Ptr := do
  let s ← Program.read
  if s.stacknleft < shellAlign nbytes then newBlock m (max (shellAlign nbytes) minsize) else pure ()
  let s ← Program.read
  Program.modify fun s =>
    { s with
      stacknxt := s.stacknxt.add (shellAlign nbytes)
      stacknleft := s.stacknleft - shellAlign nbytes }
  pure s.stacknxt

def stunalloc (p : Ptr) : Ar Unit := do
  let s ← Program.read
  let n ← ptrdiff s.stacknxt p
  Program.modify fun s => { s with stacknleft := s.stacknleft + n, stacknxt := p }

def sstrdup (m : Malloc) (str : Bytes) : Ar Ptr := do
  let p ← stalloc m (str.length + 1)
  store p (str ++ [0])
  pure p

/-! ## Marks -/

structure Stackmark where
  stackp : ℕ
  stacknxt : Ptr
  stacknleft : ℕ
  deriving DecidableEq

def pushstackmark (m : Malloc) (len : ℕ) : Ar Stackmark := do
  let s ← Program.read
  let _ ← stalloc m len
  pure ⟨s.stackp, s.stacknxt, s.stacknleft⟩

/-- A byte is taken at the start of a block, which would else be moved by `growstackblock`. -/
def setstackmark (m : Malloc) : Ar Stackmark := do
  let s ← Program.read
  pushstackmark m (if s.stacknxt = ⟨s.stackp, 0⟩ ∧ s.stackp ≠ stackbase then 1 else 0)

/-- `while (g_stackp != until) { sp = g_stackp; g_stackp = sp->prev; free(sp); }`. -/
def freeBlocks (until_ : Option ℕ) : ℕ → Option ℕ → Ar Unit
  | fuel, sp =>
    if sp = until_ then pure ()
    else
      match fuel, sp with
      | fuel + 1, some sp => do
        let s ← Program.read
        match s.heap.get sp with
        | none => Program.stop .undefined
        | some b =>
          if sp = stackbase then Program.stop .undefined
          else do
            Program.modify fun s => { s with heap := s.heap.set sp none }
            freeBlocks until_ fuel b.prev
      -- `NULL` is not a block; the blocks are never more than there are places for
      | _, _ => Program.stop .undefined

def popstackmark (mark : Stackmark) : Ar Unit := do
  let s ← Program.read
  freeBlocks (some mark.stackp) s.heap.slots.length (some s.stackp)
  Program.modify fun s =>
    { s with
      stackp := mark.stackp
      stacknxt := mark.stacknxt
      stacknleft := mark.stacknleft
      sstrend := mark.stacknxt.add mark.stacknleft }

/-! ## Growing strings -/

/-- How large `growstackblock` makes the room. -/
def grownLength (nleft min : ℕ) : ℕ :=
  if nleft * 2 < shellAlign (min ||| 128) then nleft * 2 + shellAlign (min ||| 128) else nleft * 2

def growstackblock (m : Malloc) (min : ℕ) : Ar Unit := do
  let s ← Program.read
  let newlen := grownLength s.stacknleft min
  if 2 ^ 32 ≤ s.stacknleft * 2 then Program.stop .raised
  else if s.stacknxt = ⟨s.stackp, 0⟩ ∧ s.stackp ≠ stackbase then
    -- nobody has anything in the block: it may move
    match s.heap.get s.stackp, m.realloc s.heap s.stackp (header + newlen) with
    | none, _ => Program.stop .undefined
    | some _, none => Program.stop .died
    | some b, some sp =>
      let bytes := fun i => if i < b.size then b.bytes i else m.junk i
      Program.modify fun s =>
        { s with
          heap := (s.heap.set s.stackp none).set sp (some ⟨b.prev, newlen, bytes⟩)
          stackp := sp
          stacknxt := ⟨sp, 0⟩
          stacknleft := newlen
          sstrend := ⟨sp, newlen⟩ }
  else do
    let p ← stalloc m newlen
    -- `memcpy`
    let old ← load s.stacknxt s.stacknleft
    store p old
    -- free the space we just allocated
    Program.modify fun s => { s with stacknxt := p, stacknleft := s.stacknleft + newlen }

def growstackstr (m : Malloc) : Ar Ptr := do
  let s ← Program.read
  growstackblock m 0
  let s' ← Program.read
  pure (s'.stacknxt.add s.stacknleft)

def growstackto (m : Malloc) (len : ℕ) : Ar Ptr := do
  let s ← Program.read
  if s.stacknleft < len then growstackblock m len else pure ()
  let s ← Program.read
  pure s.stacknxt

def makestrspace (m : Malloc) (newlen : ℕ) (p : Ptr) : Ar Ptr := do
  let s ← Program.read
  let len ← ptrdiff p s.stacknxt
  let q ← growstackto m (len + newlen)
  pure (q.add len)

def stnputs (m : Malloc) (str : Bytes) (p : Ptr) : Ar Ptr := do
  let p ← makestrspace m str.length p
  store p str
  pure (p.add str.length)

/-- `_STPUTC`. -/
def stputc (m : Malloc) (c : UInt8) (p : Ptr) : Ar Ptr := do
  let s ← Program.read
  let p ← (if p = s.sstrend then growstackstr m else pure p)
  store p [c]
  pure (p.add 1)

def grabstackstr (m : Malloc) (p : Ptr) : Ar Ptr := do
  let s ← Program.read
  let len ← ptrdiff p s.stacknxt
  stalloc m len

/-! ## Expanding a word -/

/-- `expdest`, which is `NULL` outside of an expansion. -/
def getExpdest : Ar Ptr := do
  let s ← Program.read
  match s.expdest with
  | none => Program.stop .undefined
  | some p => pure p

def setExpdest (p : Ptr) : Ar Unit := Program.modify fun s => { s with expdest := some p }

def ctlesc : UInt8 := 0x81

/-- What `memtodest` makes of a value: no NUL, and a mark before each byte that needs one. -/
def escaped (esc : UInt8 → Bool) (bs : Bytes) : Bytes :=
  bs.flatMap fun c => if c = 0 then [] else if esc c then [ctlesc, c] else [c]

def memtodest (m : Malloc) (esc : UInt8 → Bool) (bs : Bytes) : Ar Unit :=
  if bs = [] then pure ()
  else do
    let p ← getExpdest
    let q ← makestrspace m (bs.length * 2) p
    store q (escaped esc bs)
    setExpdest (q.add (escaped esc bs).length)

/-- `while (dest > start && dest[-1] == '\n') dest--;`, with `start` the given number of bytes
before. -/
def eatNewlines : ℕ → Ptr → Ar Ptr
  | 0, dest => pure dest
  | n + 1, dest => do
    let c ← load ⟨dest.block, dest.off - 1⟩ 1
    if c = [10] then eatNewlines n ⟨dest.block, dest.off - 1⟩ else pure dest

/-- `setjmp`: only an exception is caught. -/
def catching (body : Ar Unit) : Ar (Option Stop) := fun s =>
  match body s with
  | (.ok _, s') => (.ok none, s')
  | (.error .raised, s') => (.ok (some .raised), s')
  | (.error stop, s') => (.error stop, s')

def reraise : Option Stop → Ar Unit
  | none => pure ()
  | some stop => Program.stop stop

/-- `osd_evalbackcmd_inproc` on the stack: a new one for the tree, and the old one back. -/
def osdEvalbackcmdInproc (m : Malloc) (n : Ar Unit) : Ar Unit := do
  let sv ← Program.read
  match m.malloc sv.heap (header + minsize) with
  | none => Program.stop .died
  | some nb =>
    Program.modify fun s =>
      { heap := s.heap.set nb (some ⟨none, minsize, m.junk⟩)
        stackp := nb
        stacknxt := ⟨nb, 0⟩
        stacknleft := minsize
        sstrend := ⟨nb, minsize⟩
        expdest := none }
    let _ ← catching n
    let s ← Program.read
    freeBlocks none s.heap.slots.length (some s.stackp)
    Program.modify fun s =>
      { s with
        stackp := sv.stackp
        stacknxt := sv.stacknxt
        sstrend := sv.sstrend
        stacknleft := sv.stacknleft
        expdest := sv.expdest }

/-- The pieces in which the output of a substitution is read. -/
def piecesOf : ℕ → Bytes → List Bytes
  | 0, _ => []
  | fuel + 1, bs => if bs = [] then [] else bs.take 128 :: piecesOf fuel (bs.drop 128)

def pieces (bs : Bytes) : List Bytes := piecesOf bs.length bs

def memtodests (m : Malloc) (esc : UInt8 → Bool) : List Bytes → Ar Unit
  | [] => pure ()
  | bs :: rest => do
    memtodest m esc bs
    memtodests m esc rest

def expbackq (m : Malloc) (esc : UInt8 → Bool) (n : Ar Unit) (output : Bytes) : Ar Unit := do
  let p ← getExpdest
  let s ← Program.read
  let startloc ← ptrdiff p s.stacknxt
  let smark ← pushstackmark m startloc
  osdEvalbackcmdInproc m n
  popstackmark smark
  memtodests m esc (pieces output)
  let dest ← getExpdest
  let s ← Program.read
  let len ← ptrdiff dest s.stacknxt
  let dest ← eatNewlines (len - startloc) dest
  setExpdest dest

/-- `expari`; `result` is the value as a number, `none` an error in the expression. -/
def expari (m : Malloc) (esc : UInt8 → Bool) (expr : Ar Unit) (result : Option Bytes) : Ar Unit := do
  let p ← getExpdest
  let s ← Program.read
  let begoff ← ptrdiff p s.stacknxt
  expr
  let p ← getExpdest
  let s ← Program.read
  let endoff ← ptrdiff p s.stacknxt
  -- the text of the expression is taken back, and kept while it is evaluated
  setExpdest (s.stacknxt.add begoff)
  let sm ← pushstackmark m endoff
  match result with
  | none => Program.stop .raised
  | some bs => do
    popstackmark sm
    memtodest m esc bs

def startstackstr : Ar Unit := Program.modify fun s => { s with expdest := some s.stacknxt }

/-! ## What an evaluation asks for -/

mutual

/-- What an evaluation does to the stack. -/
inductive Act where
  | evaltree (body : Acts)
  | evalstring (str : Bytes) (commands : Commands)
  | cmdloop (commands : Commands)
  /-- A node of the parser, or a list of arguments. -/
  | stalloc (nbytes : ℕ)
  | expandarg (parts : Parts)
  | casematch (parts : Parts)
  | raise
  /-- A builtin, a function or redirections: an exception is caught, and the stack stays. -/
  | handler (body : Acts)

inductive Acts where
  | nil
  | cons (a : Act) (as : Acts)

/-- Commands read one after the other: parsed and evaluated. -/
inductive Commands where
  | nil
  | cons (command : Acts) (rest : Commands)

/-- What is appended to a word. -/
inductive Part where
  /-- The text of the word itself. -/
  | stnputs (str : Bytes)
  | stputc (c : UInt8)
  /-- The value of a variable. -/
  | memtodest (bs : Bytes)
  | expari (expr : Parts) (result : Option Bytes)
  | expbackq (n : Acts) (output : Bytes)

inductive Parts where
  | nil
  | cons (part : Part) (parts : Parts)

end

section

variable (m : Malloc) (esc : UInt8 → Bool)

/-- The loop of `evalstring`: one mark for all commands. -/
def evalCommands (smark : Stackmark) : List (Ar Unit) → Ar Unit
  | [] => pure ()
  | command :: rest => do
    command
    popstackmark smark
    evalCommands smark rest

def evalstring (str : Bytes) (commands : List (Ar Unit)) : Ar Unit := do
  let s ← sstrdup m str
  let smark ← setstackmark m
  let ex ← catching (evalCommands smark commands)
  popstackmark smark
  stunalloc s
  reraise ex

/-- A mark before and its pop after, as `evaltree`, `cmdloop` and `casematch` have it. -/
def withStackmark (body : Ar Unit) : Ar Unit := do
  let smark ← setstackmark m
  body
  popstackmark smark

/-- A mark for each command; at the end of the input it is not popped. -/
def cmdloop : List (Ar Unit) → Ar Unit
  | [] => do
    let _ ← setstackmark m
    pure ()
  | command :: rest => do
    withStackmark m command
    cmdloop rest

/-- The text of the word, as `sp->text`. -/
def expandarg (parts : Ar Unit) : Ar Ptr := do
  startstackstr
  parts
  let p ← getExpdest
  grabstackstr m p

/-- The pattern is on the stack while it is matched. -/
def casematch (parts : Ar Unit) : Ar Unit :=
  withStackmark m do
    startstackstr
    parts

mutual

def Act.run : Act → Ar Unit
  | .evaltree body => withStackmark m body.run
  | .evalstring str commands => Arena.evalstring m str commands.runs
  | .cmdloop commands => Arena.cmdloop m commands.runs
  | .stalloc nbytes => do
    let _ ← Arena.stalloc m nbytes
    pure ()
  | .expandarg parts => do
    let _ ← Arena.expandarg m parts.run
    pure ()
  | .casematch parts => Arena.casematch m parts.run
  | .raise => Program.stop .raised
  | .handler body => do
    let _ ← catching body.run
    pure ()

def Acts.run : Acts → Ar Unit
  | .nil => pure ()
  | .cons a as => do
    a.run
    as.run

def Commands.runs : Commands → List (Ar Unit)
  | .nil => []
  | .cons command rest => command.run :: rest.runs

def Part.run : Part → Ar Unit
  | .stnputs str => do
    let p ← getExpdest
    let q ← Arena.stnputs m str p
    setExpdest q
  | .stputc c => do
    let p ← getExpdest
    let q ← Arena.stputc m c p
    setExpdest q
  | .memtodest bs => Arena.memtodest m esc bs
  | .expari expr result => Arena.expari m esc expr.run result
  | .expbackq n output => Arena.expbackq m esc n.run output

def Parts.run : Parts → Ar Unit
  | .nil => pure ()
  | .cons part parts => do
    part.run
    parts.run

end

end

section

variable (m : Malloc) (esc : UInt8 → Bool)

/-- The loops that an interactive `ash_main` goes back to after an exception; whether one of them has
come to the end of the input. -/
def mainLoops (smark : Stackmark) : List Commands → Ar Bool
  | [] => pure false
  | commands :: rest => do
    let ex ← catching (cmdloop m (commands.runs m esc))
    match ex with
    | none => pure true
    | some _ => do
      popstackmark smark
      mainLoops smark rest

/-- `ash_main`: the profiles, and then the loops. -/
def ashMain (profile : Acts) (loops : List Commands) : Ar Bool := do
  let smark ← setstackmark m
  let _ ← catching (profile.run m esc)
  popstackmark smark
  mainLoops m esc smark loops

end

/-- `INIT_G_memstack`: the stack is in `stackbase`. -/
def Memstack.init : Memstack where
  heap := ⟨[some ⟨none, minsize, fun _ => 0⟩]⟩
  stackp := stackbase
  stacknxt := ⟨stackbase, 0⟩
  sstrend := ⟨stackbase, minsize⟩
  stacknleft := minsize
  expdest := none

end OsMoap.Shell.Arena
