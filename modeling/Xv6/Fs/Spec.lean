import Xv6.Fs.Disk
import Xv6.Lib.Code
import Xv6.Log.GroupSpec

/-!
# The file system

`fs.c`, `file.c` and the calls of `sysfile.c`, made one after another on one device. `disk` holds what `bread` gives.
-/

open Function Xv6.Bytes Xv6.Log

namespace Xv6.Fs

abbrev nofile : Nat := 16
abbrev nfile : Nat := 100
abbrev ninode : Nat := 50

/-! ## The state -/

structure Inode where
  inum : Nat
  ref : Int
  locked : Bool
  /-- `I_VALID`. -/
  valid : Bool
  copy : Dinode

abbrev Iptr := Fin ninode

/-- The pipe itself is left out. -/
inductive FileType where
  | none
  | pipe
  | inode
deriving DecidableEq

structure File where
  type : FileType
  ref : Int
  readable : Bool
  writable : Bool
  ip : Iptr
  off : Word

structure Proc where
  ofile : Fin nofile → Option (Fin nfile)
  /-- A process that does not exist has none. -/
  cwd : Option Iptr

/-- The last two fields record the blocks passed to `log_write` since `begin_op`, and those of ended transactions. -/
structure State (P : Type) where
  sb : Superblock
  disk : Disk
  icache : Iptr → Inode
  ftable : Fin nfile → File
  proc : P → Proc
  log : LogState
  logged : List Nat
  txns : List (List Nat)

inductive Panic where
  | outOfBlocks
  | freeingFreeBlock
  | iallocNoInodes
  | igetNoInodes
  | ilock
  | ilockNoType
  | iunlock
  | bmapOutOfRange
  | dirlookupNotDir
  | dirlinkRead
  | dirlink
  | isdiremptyReadi
  | unlinkNlink
  | unlinkWritei
  | createDots
  | createDirlink
  | filedup
  | fileclose
  | fileread
  | filewrite
  | shortFilewrite
  | log (e : Log.Panic)
deriving DecidableEq

inductive Fail where
  | panic (e : Panic)
  /-- It waits for a lock that it holds, or for its own operation. -/
  | stuck
  | input
  | pipe
  | gone
deriving DecidableEq

variable {P : Type} [DecidableEq P]

abbrev Prog (P α : Type) := Code (State P) Fail α

open Code

def panic {α : Type} (e : Panic) : Prog P α := stop (.panic e)

def inodeAt (ip : Iptr) : Prog P Inode := do
  let s ← get
  pure (s.icache ip)

def onInode (ip : Iptr) (f : Inode → Inode) : Prog P Unit :=
  modify fun s => { s with icache := update s.icache ip (f (s.icache ip)) }

def onCopy (ip : Iptr) (f : Dinode → Dinode) : Prog P Unit := onInode ip fun i => { i with copy := f i.copy }

def onFile (f : Fin nfile) (g : File → File) : Prog P Unit :=
  modify fun s => { s with ftable := update s.ftable f (g (s.ftable f)) }

def onProc (p : P) (f : Proc → Proc) : Prog P Unit :=
  modify fun s => { s with proc := update s.proc p (f (s.proc p)) }

def setBuf (b : Nat) (data : Block) : Prog P Unit :=
  modify fun s => { s with disk := update s.disk b data }

/-! ## Transactions -/

def beginOp : Prog P Unit := do
  let s ← get
  match Log.beginOp s.log with
  | none => stop .stuck
  | some l => modify fun s => { s with log := l, logged := [] }

/-- The log is of the size `sb.nlog`. -/
def logWrite (b : Nat) : Prog P Unit := do
  let s ← get
  match logCheck s.sb.nlog s.log with
  | some e => panic (.log e)
  | none => modify fun s => { s with log := Log.logWrite b s.log, logged := s.logged ++ [b] }

/-- A commit empties the log. -/
def endOp : Prog P Unit := do
  let s ← get
  match Log.endOp s.log with
  | .error e => panic (.log e)
  | .ok (l, last) =>
    modify fun s => { s with
      log := if last then { l with lh := [], committing := false } else l
      txns := s.txns ++ [s.logged] }

/-! ## Blocks -/

def readsb : Prog P Unit := modify fun s => { s with sb := getSuperblock (s.disk 1) }

def bzero (b : Nat) : Prog P Unit := do
  setBuf b fun _ => 0
  logWrite b

/-- The two loops go through the blocks in order. -/
def balloc : Prog P Nat := do
  let s ← get
  match (List.range s.sb.size).find? fun b => !marked s.sb s.disk b with
  | none => panic .outOfBlocks
  | some b => do
    setBuf (bblock s.sb b) (setBit (s.disk (bblock s.sb b)) (b % bpb))
    logWrite (bblock s.sb b)
    bzero b
    pure b

def bfree (b : Nat) : Prog P Unit := do
  readsb
  let s ← get
  if marked s.sb s.disk b then do
    setBuf (bblock s.sb b) (clearBit (s.disk (bblock s.sb b)) (b % bpb))
    logWrite (bblock s.sb b)
  else panic .freeingFreeBlock

/-! ## Inodes -/

def iget (inum : Nat) : Prog P Iptr := do
  let s ← get
  match (List.finRange ninode).find? fun ip => 0 < (s.icache ip).ref ∧ (s.icache ip).inum = inum with
  | some ip => do
    onInode ip fun i => { i with ref := i.ref + 1 }
    pure ip
  | none =>
    match (List.finRange ninode).find? fun ip => (s.icache ip).ref = 0 with
    | none => panic .igetNoInodes
    | some ip => do
      onInode ip fun i => { i with inum := inum, ref := 1, valid := false }
      pure ip

def ialloc (type : Half) : Prog P Iptr := do
  let s ← get
  match (List.range s.sb.ninodes).find? fun i => 1 ≤ i ∧ (getInode s.sb s.disk i).type = 0 with
  | none => panic .iallocNoInodes
  | some inum => do
    setBuf (iblock s.sb inum) (putInode s.sb s.disk inum { Dinode.zero with type := type })
    logWrite (iblock s.sb inum)
    iget inum

def iupdate (ip : Iptr) : Prog P Unit := do
  let s ← get
  let i := s.icache ip
  setBuf (iblock s.sb i.inum) (putInode s.sb s.disk i.inum i.copy)
  logWrite (iblock s.sb i.inum)

def idup (ip : Iptr) : Prog P Unit := onInode ip fun i => { i with ref := i.ref + 1 }

def ilock (ip : Iptr) : Prog P Unit := do
  let i ← inodeAt ip
  if i.ref < 1 then panic .ilock
  else if i.locked then stop .stuck
  else do
    onInode ip fun i => { i with locked := true }
    if i.valid then pure ()
    else do
      let s ← get
      let d := getInode s.sb s.disk i.inum
      onInode ip fun i => { i with copy := d, valid := true }
      if d.type = 0 then panic .ilockNoType else pure ()

def iunlock (ip : Iptr) : Prog P Unit := do
  let i ← inodeAt ip
  if ¬i.locked ∨ i.ref < 1 then panic .iunlock
  else onInode ip fun i => { i with locked := false }

def setAddr (ip : Iptr) (k : Fin (ndirect + 1)) (a : Word) : Prog P Unit :=
  onCopy ip fun d => { d with addrs := update d.addrs k a }

def indirect : Fin (ndirect + 1) := ⟨ndirect, by decide⟩

def addrOrAlloc (ip : Iptr) (k : Fin (ndirect + 1)) : Prog P Nat := do
  let i ← inodeAt ip
  if i.copy.addrs k = 0 then do
    let b ← balloc
    setAddr ip k (.ofNat 32 b)
    pure b
  else pure (i.copy.addrs k).toNat

def bmap (ip : Iptr) (bn : Nat) : Prog P Nat :=
  if h : bn < ndirect then addrOrAlloc ip ⟨bn, Nat.lt_succ_of_lt h⟩
  else if bn - ndirect < nindirect then do
    let x ← addrOrAlloc ip indirect
    let s ← get
    let a := getAddr (s.disk x) (bn - ndirect)
    if a = 0 then do
      let b ← balloc
      let s ← get
      setBuf x (putAddr (s.disk x) (bn - ndirect) (.ofNat 32 b))
      logWrite x
      pure b
    else pure a.toNat
  else panic .bmapOutOfRange

def freeDirect (ip : Iptr) (k : Fin ndirect) : Prog P Unit := do
  let i ← inodeAt ip
  if i.copy.addrs k.castSucc = 0 then pure ()
  else do
    bfree (i.copy.addrs k.castSucc).toNat
    setAddr ip k.castSucc 0

def itrunc (ip : Iptr) : Prog P Unit := do
  (List.finRange ndirect).forM (freeDirect ip)
  let s ← get
  let x := (s.icache ip).copy.addrs indirect
  if x = 0 then pure ()
  else do
    let a := s.disk x.toNat
    (List.range nindirect).forM fun j => if getAddr a j = 0 then pure () else bfree (getAddr a j).toNat
    bfree x.toNat
    setAddr ip indirect 0
  onCopy ip fun d => { d with size := 0 }
  iupdate ip

def iput (ip : Iptr) : Prog P Unit := do
  let i ← inodeAt ip
  if i.ref = 1 ∧ i.valid ∧ i.copy.nlink = 0 then do
    itrunc ip
    onCopy ip fun d => { d with type := 0 }
    iupdate ip
    onInode ip fun i => { i with valid := false }
  else pure ()
  onInode ip fun i => { i with ref := i.ref - 1 }

def iunlockput (ip : Iptr) : Prog P Unit := do
  iunlock ip
  iput ip

/-! ## Inode content -/

def console : Half := 1

def readBlocks (ip : Iptr) : Nat → Nat → Nat → Prog P (List Byte)
  | 0, _, _ => pure []
  | fuel + 1, off, n =>
    if n = 0 then pure []
    else do
      let b ← bmap ip (off / bsize)
      let s ← get
      let m := min n (bsize - off % bsize)
      let rest ← readBlocks ip fuel (off + m) (n - m)
      pure (readBytes (s.disk b) (off % bsize) m ++ rest)

/-- The bytes that are read, or `none` for -1. -/
def readi (ip : Iptr) (off n : Word) : Prog P (Option (List Byte)) := do
  let i ← inodeAt ip
  if i.copy.type = tDev then if i.copy.major = console then stop .input else pure none
  else if off > i.copy.size ∨ off + n < off then pure none
  else do
    let n := if off + n > i.copy.size then i.copy.size - off else n
    let bs ← readBlocks ip n.toNat off.toNat n.toNat
    pure (some bs)

def writeBlocks (ip : Iptr) : Nat → List Byte → Nat → Nat → Prog P Unit
  | 0, _, _, _ => pure ()
  | fuel + 1, src, off, n =>
    if n = 0 then pure ()
    else do
      let b ← bmap ip (off / bsize)
      let s ← get
      let m := min n (bsize - off % bsize)
      setBuf b (writeBytes (s.disk b) (off % bsize) (src.take m))
      logWrite b
      writeBlocks ip fuel (src.drop m) (off + m) (n - m)

def writei (ip : Iptr) (src : List Byte) (off n : Word) : Prog P Int := do
  let i ← inodeAt ip
  if i.copy.type = tDev then pure (if i.copy.major = console then n.toInt else -1)
  else if off > i.copy.size ∨ off + n < off then pure (-1)
  else if (off + n).toNat > maxfile * bsize then pure (-1)
  else do
    writeBlocks ip n.toNat src off.toNat n.toNat
    let i ← inodeAt ip
    if n > 0 ∧ off + n > i.copy.size then do
      onCopy ip fun d => { d with size := off + n }
      iupdate ip
    else pure ()
    pure n.toInt

/-! ## Directories -/

/-- `strncmp`. The end of a list is the end of the string. -/
def strncmp : Nat → List Byte → List Byte → Int
  | 0, _, _ => 0
  | n + 1, p, q =>
    let a := p.headD 0
    let b := q.headD 0
    if a ≠ 0 ∧ a = b then strncmp n p.tail q.tail else a.toNat - b.toNat

/-- The `n` bytes that `strncpy` stores. -/
def strncpy : Nat → List Byte → List Byte
  | 0, _ => []
  | n + 1, t => if t.headD 0 = 0 then List.replicate (n + 1) 0 else t.headD 0 :: strncpy n t.tail

def namecmp (s t : List Byte) : Int := strncmp dirsiz s t

def direntSize : Nat := 2 + dirsiz

def dirents (size : Word) : Nat := (size.toNat + (direntSize - 1)) / direntSize

def readDirent (dp : Iptr) (e : Nat) (err : Panic) : Prog P Dirent := do
  match ← readi dp (.ofNat 32 (direntSize * e)) (.ofNat 32 direntSize) with
  | some bs => if bs.length = direntSize then pure (.ofBytes bs) else panic err
  | none => panic err

def dirlookup (dp : Iptr) (name : List Byte) : Prog P (Option (Iptr × Nat)) := do
  let i ← inodeAt dp
  if i.copy.type ≠ tDir then panic .dirlookupNotDir
  else (List.range (dirents i.copy.size)).findSomeM? fun e => do
    let de ← readDirent dp e .dirlinkRead
    if de.inum ≠ 0 ∧ namecmp name de.name = 0 then do
      let ip ← iget de.inum
      pure (some (ip, direntSize * e))
    else pure none

def emptyDirent (dp : Iptr) : Prog P Nat := do
  let i ← inodeAt dp
  let found ← (List.range (dirents i.copy.size)).findSomeM? fun e => do
    let de ← readDirent dp e .dirlinkRead
    pure (if de.inum = 0 then some e else none)
  pure (found.getD (dirents i.copy.size))

def dirlink (dp : Iptr) (name : List Byte) (inum : Nat) : Prog P Int := do
  match ← dirlookup dp name with
  | some (ip, _) => do
    iput ip
    pure (-1)
  | none => do
    let e ← emptyDirent dp
    let de : Dirent := ⟨inum, strncpy dirsiz name⟩
    let r ← writei dp de.bytes (.ofNat 32 (direntSize * e)) (.ofNat 32 direntSize)
    if r ≠ direntSize then panic .dirlink else pure 0

/-! ## Paths -/

def slash : Byte := 47

/-- The next path element, cut to what fits in an entry, and the rest. -/
def skipelem (path : List Byte) : Option (List Byte × List Byte) :=
  let s := path.dropWhile (· = slash)
  if s = [] then none
  else some ((s.takeWhile (· ≠ slash)).take dirsiz, (s.dropWhile (· ≠ slash)).dropWhile (· = slash))

/-- Each element takes at least one byte of the path. -/
def walk (parent : Bool) : Nat → List Byte → Iptr → Prog P (Option (Iptr × List Byte))
  | 0, _, ip => if parent then do iput ip; pure none else pure (some (ip, []))
  | fuel + 1, path, ip =>
    match skipelem path with
    | none => if parent then do iput ip; pure none else pure (some (ip, []))
    | some (name, rest) => do
      ilock ip
      let i ← inodeAt ip
      if i.copy.type ≠ tDir then do
        iunlockput ip
        pure none
      else if parent ∧ rest = [] then do
        iunlock ip
        pure (some (ip, name))
      else do
        match ← dirlookup ip name with
        | none => do
          iunlockput ip
          pure none
        | some (next, _) => do
          iunlockput ip
          walk parent fuel rest next

def cwd (p : P) : Prog P Iptr := do
  let s ← get
  match (s.proc p).cwd with
  | none => stop .gone
  | some ip => pure ip

def startOf (p : P) (path : List Byte) : Prog P Iptr :=
  if path.head? = some slash then iget rootino
  else do
    let ip ← cwd p
    idup ip
    pure ip

def namex (p : P) (path : List Byte) (parent : Bool) : Prog P (Option (Iptr × List Byte)) := do
  let ip ← startOf p path
  walk parent path.length path ip

def namei (p : P) (path : List Byte) : Prog P (Option Iptr) := do
  let r ← namex p path false
  pure (r.map Prod.fst)

def nameiparent (p : P) (path : List Byte) : Prog P (Option (Iptr × List Byte)) := namex p path true

/-! ## Open files -/

def filealloc : Prog P (Option (Fin nfile)) := do
  let s ← get
  match (List.finRange nfile).find? fun f => (s.ftable f).ref = 0 with
  | none => pure none
  | some f => do
    onFile f fun f => { f with ref := 1 }
    pure (some f)

def filedup (f : Fin nfile) : Prog P Unit := do
  let s ← get
  if (s.ftable f).ref < 1 then panic .filedup
  else onFile f fun f => { f with ref := f.ref + 1 }

def fileclose (f : Fin nfile) : Prog P Unit := do
  let s ← get
  let ff := s.ftable f
  if ff.ref < 1 then panic .fileclose
  else if ff.ref - 1 > 0 then onFile f fun f => { f with ref := f.ref - 1 }
  else do
    onFile f fun f => { f with ref := 0, type := .none }
    match ff.type with
    | .none => pure ()
    | .pipe => pure ()
    | .inode => do
      beginOp
      iput ff.ip
      endOp

def fileread (f : Fin nfile) (n : Word) : Prog P (Option (List Byte)) := do
  let s ← get
  let ff := s.ftable f
  if ¬ff.readable then pure none
  else match ff.type with
  | .none => panic .fileread
  | .pipe => stop .pipe
  | .inode => do
    ilock ff.ip
    let r ← readi ff.ip ff.off n
    match r with
    | some bs => onFile f fun f => { f with off := f.off + .ofNat 32 bs.length }
    | none => pure ()
    iunlock ff.ip
    pure r

def writeMax : Nat := (logsize - 1 - 1 - 2) / 2 * 512

/-- One turn of the loop of `filewrite`. -/
def writeChunk (f : Fin nfile) (src : List Byte) (n1 : Nat) : Prog P Int := do
  let s ← get
  let ip := (s.ftable f).ip
  beginOp
  ilock ip
  let r ← writei ip src (s.ftable f).off (.ofNat 32 n1)
  if r > 0 then onFile f fun f => { f with off := f.off + .ofInt 32 r } else pure ()
  iunlock ip
  endOp
  pure r

def writeChunks (f : Fin nfile) : Nat → List Byte → Nat → Prog P Nat
  | 0, _, n => pure n
  | fuel + 1, src, n =>
    if n = 0 then pure 0
    else do
      let n1 := min n writeMax
      let r ← writeChunk f src n1
      if r < 0 then pure n
      else if r ≠ n1 then panic .shortFilewrite
      else writeChunks f fuel (src.drop n1) (n - n1)

/-- `src` holds the bytes from `addr` on. No loop runs for a negative `n`. -/
def filewrite (f : Fin nfile) (src : List Byte) (n : Int) : Prog P Int := do
  let s ← get
  if ¬(s.ftable f).writable then pure (-1)
  else match (s.ftable f).type with
  | .none => panic .filewrite
  | .pipe => stop .pipe
  | .inode => do
    let left ← writeChunks f n.toNat src n.toNat
    pure (if 0 ≤ n ∧ left = 0 then n else -1)

/-! ## System calls -/

def argfd (p : P) (fd : Int) : Prog P (Option (Fin nofile × Fin nfile)) := do
  let s ← get
  if h : 0 ≤ fd ∧ fd.toNat < nofile then
    pure (((s.proc p).ofile ⟨fd.toNat, h.2⟩).map fun f => (⟨fd.toNat, h.2⟩, f))
  else pure none

def setOfile (p : P) (fd : Fin nofile) (f : Option (Fin nfile)) : Prog P Unit :=
  onProc p fun q => { q with ofile := update q.ofile fd f }

def fdalloc (p : P) (f : Fin nfile) : Prog P (Option (Fin nofile)) := do
  let s ← get
  match (List.finRange nofile).find? fun fd => (s.proc p).ofile fd = none with
  | none => pure none
  | some fd => do
    setOfile p fd (some f)
    pure (some fd)

def sysDup (p : P) (fd : Int) : Prog P Int := do
  match ← argfd p fd with
  | none => pure (-1)
  | some (_, f) => do
    match ← fdalloc p f with
    | none => pure (-1)
    | some fd => do
      filedup f
      pure fd

def sysRead (p : P) (fd : Int) (n : Word) : Prog P Int := do
  match ← argfd p fd with
  | none => pure (-1)
  | some (_, f) => do
    match ← fileread f n with
    | none => pure (-1)
    | some bs => pure bs.length

def sysWrite (p : P) (fd : Int) (src : List Byte) (n : Int) : Prog P Int := do
  match ← argfd p fd with
  | none => pure (-1)
  | some (_, f) => filewrite f src n

def sysClose (p : P) (fd : Int) : Prog P Int := do
  match ← argfd p fd with
  | none => pure (-1)
  | some (fd, f) => do
    setOfile p fd none
    fileclose f
    pure 0

def linkBad (ip : Iptr) : Prog P Int := do
  ilock ip
  onCopy ip fun d => { d with nlink := d.nlink - 1 }
  iupdate ip
  iunlockput ip
  endOp
  pure (-1)

def sysLink (p : P) (old new : List Byte) : Prog P Int := do
  beginOp
  match ← namei p old with
  | none => do
    endOp
    pure (-1)
  | some ip => do
    ilock ip
    let i ← inodeAt ip
    if i.copy.type = tDir then do
      iunlockput ip
      endOp
      pure (-1)
    else do
      onCopy ip fun d => { d with nlink := d.nlink + 1 }
      iupdate ip
      iunlock ip
      match ← nameiparent p new with
      | none => linkBad ip
      | some (dp, name) => do
        ilock dp
        let r ← dirlink dp name i.inum
        iunlockput dp
        if r < 0 then linkBad ip
        else do
          iput ip
          endOp
          pure 0

def isdirempty (dp : Iptr) : Prog P Bool := do
  let i ← inodeAt dp
  let found ← ((List.range (dirents i.copy.size)).drop 2).findSomeM? fun e => do
    let de ← readDirent dp e .isdiremptyReadi
    pure (if de.inum ≠ 0 then some () else none)
  pure found.isNone

def dot : List Byte := [46]
def dotdot : List Byte := [46, 46]

def unlinkBad (dp : Iptr) : Prog P Int := do
  iunlockput dp
  endOp
  pure (-1)

/-- `sys_unlink` from where the entry and its inode have been found. -/
def unlinkEntry (dp ip : Iptr) (off : Nat) : Prog P Int := do
  ilock ip
  let i ← inodeAt ip
  if i.copy.nlink.toInt < 1 then panic .unlinkNlink
  else do
    let empty ← if i.copy.type = tDir then isdirempty ip else pure true
    if ¬empty then do
      iunlockput ip
      unlinkBad dp
    else do
      let r ← writei dp (List.replicate direntSize 0) (.ofNat 32 off) (.ofNat 32 direntSize)
      if r ≠ direntSize then panic .unlinkWritei
      else do
        if i.copy.type = tDir then do
          onCopy dp fun d => { d with nlink := d.nlink - 1 }
          iupdate dp
        else pure ()
        iunlockput dp
        onCopy ip fun d => { d with nlink := d.nlink - 1 }
        iupdate ip
        iunlockput ip
        endOp
        pure 0

def sysUnlink (p : P) (path : List Byte) : Prog P Int := do
  beginOp
  match ← nameiparent p path with
  | none => do
    endOp
    pure (-1)
  | some (dp, name) => do
    ilock dp
    if namecmp name dot = 0 ∨ namecmp name dotdot = 0 then unlinkBad dp
    else do
      match ← dirlookup dp name with
      | none => unlinkBad dp
      | some (ip, off) => unlinkEntry dp ip off

def makeDots (dp ip : Iptr) : Prog P Unit := do
  onCopy dp fun d => { d with nlink := d.nlink + 1 }
  iupdate dp
  let self ← inodeAt ip
  let up ← inodeAt dp
  let r ← dirlink ip dot self.inum
  if r < 0 then panic .createDots
  else do
    let r ← dirlink ip dotdot up.inum
    if r < 0 then panic .createDots else pure ()

def createNew (dp : Iptr) (name : List Byte) (type major minor : Half) : Prog P Iptr := do
  let ip ← ialloc type
  ilock ip
  onCopy ip fun d => { d with major := major, minor := minor, nlink := 1 }
  iupdate ip
  if type = tDir then makeDots dp ip else pure ()
  let i ← inodeAt ip
  let r ← dirlink dp name i.inum
  if r < 0 then panic .createDirlink
  else do
    iunlockput dp
    pure ip

def create (p : P) (path : List Byte) (type major minor : Half) : Prog P (Option Iptr) := do
  match ← nameiparent p path with
  | none => pure none
  | some (dp, name) => do
    ilock dp
    match ← dirlookup dp name with
    | some (ip, _) => do
      iunlockput dp
      ilock ip
      let i ← inodeAt ip
      if type = tFile ∧ i.copy.type = tFile then pure (some ip)
      else do
        iunlockput ip
        pure none
    | none => do
      let ip ← createNew dp name type major minor
      pure (some ip)

def oRdonly : Word := 0x000
def oWronly : Word := 0x001
def oRdwr : Word := 0x002
def oCreate : Word := 0x200

def openInode (p : P) (path : List Byte) (omode : Word) : Prog P (Option Iptr) :=
  if omode &&& oCreate ≠ 0 then create p path tFile 0 0
  else do
    match ← namei p path with
    | none => pure none
    | some ip => do
      ilock ip
      let i ← inodeAt ip
      if i.copy.type = tDir ∧ omode ≠ oRdonly then do
        iunlockput ip
        pure none
      else pure (some ip)

def openBad (ip : Iptr) : Prog P Int := do
  iunlockput ip
  endOp
  pure (-1)

def sysOpen (p : P) (path : List Byte) (omode : Word) : Prog P Int := do
  beginOp
  match ← openInode p path omode with
  | none => do
    endOp
    pure (-1)
  | some ip => do
    match ← filealloc with
    | none => openBad ip
    | some f => do
      match ← fdalloc p f with
      | none => do
        fileclose f
        openBad ip
      | some fd => do
        iunlock ip
        endOp
        onFile f fun f => { f with
          type := .inode
          ip := ip
          off := 0
          readable := omode &&& oWronly = 0
          writable := omode &&& oWronly ≠ 0 ∨ omode &&& oRdwr ≠ 0 }
        pure fd

def makeNode (p : P) (path : List Byte) (type major minor : Half) : Prog P Int := do
  beginOp
  match ← create p path type major minor with
  | none => do
    endOp
    pure (-1)
  | some ip => do
    iunlockput ip
    endOp
    pure 0

def sysMkdir (p : P) (path : List Byte) : Prog P Int := makeNode p path tDir 0 0

def sysMknod (p : P) (path : List Byte) (major minor : Half) : Prog P Int := makeNode p path tDev major minor

def sysChdir (p : P) (path : List Byte) : Prog P Int := do
  beginOp
  match ← namei p path with
  | none => do
    endOp
    pure (-1)
  | some ip => do
    ilock ip
    let i ← inodeAt ip
    if i.copy.type ≠ tDir then do
      iunlockput ip
      endOp
      pure (-1)
    else do
      iunlock ip
      let old ← cwd p
      iput old
      endOp
      onProc p fun q => { q with cwd := some ip }
      pure 0

/-- `page` says whether `kalloc` has a page for the pipe. -/
def pipealloc (page : Bool) : Prog P (Option (Fin nfile × Fin nfile)) := do
  match ← filealloc with
  | none => pure none
  | some f0 => do
    match ← filealloc with
    | none => do
      fileclose f0
      pure none
    | some f1 =>
      if page then do
        onFile f0 fun f => { f with type := .pipe, readable := true, writable := false }
        onFile f1 fun f => { f with type := .pipe, readable := false, writable := true }
        pure (some (f0, f1))
      else do
        fileclose f0
        fileclose f1
        pure none

def pipeBad (rf wf : Fin nfile) : Prog P Int := do
  fileclose rf
  fileclose wf
  pure (-1)

def sysPipe (p : P) (page : Bool) : Prog P Int := do
  match ← pipealloc page with
  | none => pure (-1)
  | some (rf, wf) => do
    match ← fdalloc p rf with
    | none => pipeBad rf wf
    | some fd0 => do
      match ← fdalloc p wf with
      | none => do
        setOfile p fd0 none
        pipeBad rf wf
      | some _ => pure 0

/-! ## `exec` -/

def elfMagic : Nat := 0x464C457F
def elfProgLoad : Nat := 1

/-- `sizeof` of the two headers of an ELF file. -/
def elfhdrSize : Nat := 52
def proghdrSize : Nat := 32

def pgsize : Nat := 4096

def field (bs : List Byte) (off w : Nat) : Nat := ofLe ((bs.drop off).take w)

/-- What the calls of `exec` to `vm.c` give. -/
structure Memory where
  kvm : Bool
  segment : Nat → Bool
  stack : Bool

def readAll (ip : Iptr) (off n : Nat) : Prog P (Option (List Byte)) := do
  match ← readi ip (.ofNat 32 off) (.ofNat 32 n) with
  | none => pure none
  | some bs => pure (if bs.length = n then some bs else none)

def loaduvm (ip : Iptr) (off sz : Nat) : Prog P Bool := do
  let bad ← (List.range ((sz + (pgsize - 1)) / pgsize)).findSomeM? fun k => do
    let bs ← readAll ip (off + pgsize * k) (min (sz - pgsize * k) pgsize)
    pure (if bs = none then some () else none)
  pure bad.isNone

def loadSegment (ip : Iptr) (mem : Memory) (phoff k : Nat) : Prog P Bool := do
  match ← readAll ip (phoff + proghdrSize * k) proghdrSize with
  | none => pure false
  | some ph =>
    let vaddr := field ph 8 4
    let filesz := field ph 16 4
    let memsz := field ph 20 4
    if field ph 0 4 ≠ elfProgLoad then pure true
    else if memsz < filesz ∨ 2 ^ 32 ≤ vaddr + memsz ∨ !mem.segment k ∨ vaddr % pgsize ≠ 0 then pure false
    else loaduvm ip (field ph 4 4) filesz

def loadProgram (ip : Iptr) (mem : Memory) : Prog P Bool := do
  match ← readAll ip 0 elfhdrSize with
  | none => pure false
  | some elf =>
    if field elf 0 4 ≠ elfMagic ∨ !mem.kvm then pure false
    else do
      let bad ← (List.range (field elf 44 2)).findSomeM? fun k => do
        let ok ← loadSegment ip mem (field elf 28 4) k
        pure (if ok then none else some ())
      pure bad.isNone

/-- The inode is put back before the stack is made. -/
def exec (p : P) (path : List Byte) (mem : Memory) : Prog P Int := do
  beginOp
  match ← namei p path with
  | none => do
    endOp
    pure (-1)
  | some ip => do
    ilock ip
    let ok ← loadProgram ip mem
    iunlockput ip
    endOp
    pure (if ok && mem.stack then 0 else -1)

/-! ## Processes -/

def forkFile (p child : P) (fd : Fin nofile) : Prog P Unit := do
  let s ← get
  match (s.proc p).ofile fd with
  | none => pure ()
  | some f => do
    filedup f
    setOfile child fd (some f)

/-- `fork`, where `allocproc` finds `child` if there is no such process. -/
def fork (p child : P) : Prog P Int := do
  let s ← get
  if (s.proc child).cwd ≠ none then pure (-1)
  else do
    (List.finRange nofile).forM (forkFile p child)
    let ip ← cwd p
    idup ip
    onProc child fun q => { q with cwd := some ip }
    pure 0

def exitFile (p : P) (fd : Fin nofile) : Prog P Unit := do
  let s ← get
  match (s.proc p).ofile fd with
  | none => pure ()
  | some f => do
    fileclose f
    setOfile p fd none

def exit (p : P) : Prog P Int := do
  (List.finRange nofile).forM (exitFile p)
  beginOp
  let ip ← cwd p
  iput ip
  endOp
  onProc p fun q => { q with cwd := none }
  pure 0

/-! ## Runs -/

inductive Call (P : Type) where
  | open (path : List Byte) (omode : Word)
  | mkdir (path : List Byte)
  | mknod (path : List Byte) (major minor : Half)
  | link (old new : List Byte)
  | unlink (path : List Byte)
  | chdir (path : List Byte)
  | read (fd : Int) (n : Word)
  /-- `argptr` has checked that there are `n` bytes. -/
  | write (fd : Int) (src : List Byte) (n : Int) (h : n ≤ src.length)
  | dup (fd : Int)
  | close (fd : Int)
  | pipe (page : Bool)
  | exec (path : List Byte) (mem : Memory)
  | fork (child : P)
  | exit

def syscall (p : P) : Call P → Prog P Int
  | .open path omode => sysOpen p path omode
  | .mkdir path => sysMkdir p path
  | .mknod path major minor => sysMknod p path major minor
  | .link old new => sysLink p old new
  | .unlink path => sysUnlink p path
  | .chdir path => sysChdir p path
  | .read fd n => sysRead p fd n
  | .write fd src n _ => sysWrite p fd src n
  | .dup fd => sysDup p fd
  | .close fd => sysClose p fd
  | .pipe page => sysPipe p page
  | .exec path mem => exec p path mem
  | .fork child => fork p child
  | .exit => exit p

/-- There is no next state when the call does not come back. -/
def step (s : State P) (a : P × Call P) : Option (State P) :=
  if (s.proc a.1).cwd = none then none
  else match syscall a.1 a.2 s with
  | .ok (_, t) => some t
  | .error _ => none

end Xv6.Fs
