import Xv6.Fs.Image

/-!
# `mkfs`

`mkfs.c` as code over the image file. The files are given by their names and by what each `read` returns.
-/

open Xv6.Bytes Xv6.Log Xv6.Fs

namespace Xv6.Mkfs

def fssize : Nat := 1000
def ninodes : Nat := 200
def nbitmap : Nat := fssize / (bsize * 8) + 1
def ninodeblocks : Nat := ninodes / ipb + 1
def nlog : Nat := 30
def nmeta : Nat := 2 + nlog + ninodeblocks + nbitmap
def nblocks : Nat := fssize - nmeta

def sb : Superblock := ⟨fssize, nblocks, ninodes, nlog, 2, 2 + nlog, 2 + nlog + ninodeblocks⟩

structure Chunk where
  bytes : List Byte
  pos : bytes ≠ []
  le : bytes.length ≤ bsize

/-- An argument of `mkfs`. A file that cannot be opened has no chunks. -/
structure File where
  name : List Byte
  chunks : Option (List Chunk)
  noNul : 0 ∉ name

structure State where
  /-- The image, and its length. -/
  disk : Disk
  sectors : Nat
  freeinode : Nat
  freeblock : Nat

inductive Exit where
  | assertion
  | perror
deriving DecidableEq

abbrev Prog (α : Type) := Code State Exit α

open Code

def assert (c : Prop) [Decidable c] : Prog Unit := if c then pure () else stop .assertion

def wsect (sec : Nat) (buf : Block) : Prog Unit :=
  modify fun s => { s with disk := Function.update s.disk sec buf, sectors := max s.sectors (sec + 1) }

def rsect (sec : Nat) : Prog Block := do
  let s ← get
  if sec < s.sectors then pure (s.disk sec) else stop .perror

def winode (inum : Nat) (d : Dinode) : Prog Unit := do
  let buf ← rsect (iblock sb inum)
  wsect (iblock sb inum) (writeBytes buf (64 * (inum % ipb)) d.bytes)

def rinode (inum : Nat) : Prog Dinode := do
  let buf ← rsect (iblock sb inum)
  pure (.ofFields (unpackFields Dinode.widths (readBytes buf (64 * (inum % ipb)) 64)))

def nextBlock : Prog Nat := do
  let s ← get
  modify fun s => { s with freeblock := s.freeblock + 1 }
  pure s.freeblock

def ialloc (type : Half) : Prog Nat := do
  let s ← get
  modify fun s => { s with freeinode := s.freeinode + 1 }
  winode s.freeinode { Dinode.zero with type := type, nlink := 1 }
  pure s.freeinode

def addrOrNext (din : Dinode) (k : Fin (ndirect + 1)) : Prog (Dinode × Nat) :=
  if din.addrs k = 0 then do
    let b ← nextBlock
    pure ({ din with addrs := Function.update din.addrs k (.ofNat 32 b) }, (BitVec.ofNat 32 b).toNat)
  else pure (din, (din.addrs k).toNat)

def entryOrNext (a j : Nat) : Prog Nat := do
  let buf ← rsect a
  if getAddr buf j = 0 then do
    let b ← nextBlock
    wsect a (putAddr buf j (.ofNat 32 b))
    pure (BitVec.ofNat 32 b).toNat
  else pure (getAddr buf j).toNat

def blockOf (din : Dinode) (fbn : Nat) : Prog (Dinode × Nat) :=
  if h : fbn < ndirect then addrOrNext din ⟨fbn, Nat.lt_succ_of_lt h⟩
  else do
    let (din, a) ← addrOrNext din indirect
    let x ← entryOrNext a (fbn - ndirect)
    pure (din, x)

def appendBlocks : Nat → Dinode → Nat → List Byte → Prog (Dinode × Nat)
  | 0, din, off, _ => pure (din, off)
  | fuel + 1, din, off, p =>
    if p.length = 0 then pure (din, off)
    else do
      let fbn := off / bsize
      assert (fbn < maxfile)
      let (din, x) ← blockOf din fbn
      let n1 := min p.length ((fbn + 1) * bsize - off)
      let buf ← rsect x
      wsect x (writeBytes buf (off - fbn * bsize) (p.take n1))
      appendBlocks fuel din (off + n1) (p.drop n1)

def iappend (inum : Nat) (p : List Byte) : Prog Unit := do
  let din ← rinode inum
  let (din, off) ← appendBlocks p.length din din.size.toNat p
  winode inum { din with size := .ofNat 32 off }

def balloc (used : Nat) : Prog Unit := do
  assert (used < bsize * 8)
  wsect sb.bmapstart ((List.range used).foldl setBit fun _ => 0)

def underscore : Byte := 95

/-- The name in the file system: one leading `_` is skipped. -/
def File.target (f : File) : List Byte := if f.name.head? = some underscore then f.name.tail else f.name

def addFile (rootino : Nat) (f : File) : Prog Unit := do
  assert (slash ∉ f.name)
  match f.chunks with
  | none => stop .perror
  | some chunks => do
    let inum ← ialloc tFile
    iappend rootino (Dirent.bytes ⟨inum, strncpy dirsiz f.target⟩)
    chunks.forM fun c => iappend inum c.bytes

def fixRoot (rootino : Nat) : Prog Unit := do
  let din ← rinode rootino
  winode rootino { din with size := .ofNat 32 ((din.size.toNat / bsize + 1) * bsize) }

def start : State := ⟨fun _ _ => 0, 0, 1, nmeta⟩

def format : Prog Unit := do
  (List.range fssize).forM fun i => wsect i fun _ => 0
  wsect 1 (listBlock sb.bytes)

def makeRoot : Prog Nat := do
  let rootino ← ialloc tDir
  assert (rootino = Fs.rootino)
  iappend rootino (Dirent.bytes ⟨rootino, strncpy dirsiz dot⟩)
  iappend rootino (Dirent.bytes ⟨rootino, strncpy dirsiz dotdot⟩)
  pure rootino

def main (files : List File) : Prog Unit := do
  format
  let rootino ← makeRoot
  files.forM (addFile rootino)
  fixRoot rootino
  let s ← get
  balloc s.freeblock

theorem sb_eq : sb = mkfsSuper := by decide

end Xv6.Mkfs
