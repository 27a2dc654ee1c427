import Xv6.Lib.Bytes
import Xv6.Lib.Replay

/-!
# The log on disk

What `log.c` writes to the disk, and in which order. A crash leaves the disk of the boot with some of the writes, from
the first on.
-/

open Xv6.Bytes Xv6.Replay

namespace Xv6.Log

def maxopblocks : Nat := 10
def logsize : Nat := maxopblocks * 3

abbrev Block := Nat → Byte

abbrev Disk := Nat → Block

/-- `log.start` and `log.size`. The header comes first. -/
structure Area where
  start : Nat
  size : Nat
  size_pos : 0 < size
  size_le : size ≤ logsize + 1

def Area.Outside (a : Area) (b : Nat) : Prop := b < a.start ∨ a.start + a.size ≤ b

instance (a : Area) (b : Nat) : Decidable (a.Outside b) := inferInstanceAs (Decidable (_ ∨ _))

/-! ## The header block -/

/-- `hb->n`. No loop runs for a negative number. -/
def headN (hb : Block) : Nat :=
  let n := getLe hb 0 4
  if n < 2 ^ 31 then n else 0

def readHead (hb : Block) : List Nat := (List.range (headN hb)).map fun i => getLe hb (4 + 4 * i) 4

def putBlocks : Nat → List Nat → Block → Block
  | _, [], hb => hb
  | i, b :: bs, hb => putBlocks (i + 1) bs (putLe hb (4 + 4 * i) 4 b)

/-- What `write_head` does to the header block. Entries past `n` stay. -/
def fillHead (lh : List Nat) (hb : Block) : Block := putBlocks 0 lh (putLe hb 0 4 lh.length)

/-! ## The machine -/

/-- `buf` is what `bread` gives: the cache, and the disk below it. -/
structure Machine where
  base : Disk
  issued : List (Nat × Block)
  buf : Disk

def Machine.disk (m : Machine) : Disk := replay m.base m.issued

def boot (d : Disk) : Machine := ⟨d, [], d⟩

def bwrite (b : Nat) (m : Machine) : Machine := { m with issued := m.issued ++ [(b, m.buf b)] }

def setBuf (b : Nat) (data : Block) (m : Machine) : Machine := { m with buf := Function.update m.buf b data }

/-! ## `log.c` -/

def installTransFrom (a : Area) : Nat → List Nat → Machine → Machine
  | _, [], m => m
  | tail, b :: bs, m => installTransFrom a (tail + 1) bs (bwrite b (setBuf b (m.buf (a.start + tail + 1)) m))

def installTrans (a : Area) (lh : List Nat) (m : Machine) : Machine := installTransFrom a 0 lh m

def writeHead (a : Area) (lh : List Nat) (m : Machine) : Machine :=
  bwrite a.start (setBuf a.start (fillHead lh (m.buf a.start)) m)

def recoverFromLog (a : Area) (m : Machine) : Machine :=
  let lh := readHead (m.buf a.start)
  writeHead a [] (installTrans a lh m)

def writeLogFrom (a : Area) : Nat → List Nat → Machine → Machine
  | _, [], m => m
  | tail, b :: bs, m =>
    writeLogFrom a (tail + 1) bs (bwrite (a.start + tail + 1) (setBuf (a.start + tail + 1) (m.buf b) m))

def writeLog (a : Area) (lh : List Nat) (m : Machine) : Machine := writeLogFrom a 0 lh m

def commit (a : Area) (lh : List Nat) (m : Machine) : Machine :=
  if 0 < lh.length then writeHead a [] (installTrans a lh (writeHead a lh (writeLog a lh m))) else m

/-! ## Transactions, crashes and recovery -/

/-- The blocks that the log has when `commit` is called, and what the cache holds for them. -/
structure Tx (a : Area) where
  blocks : List Nat
  data : Nat → Block
  nodup : blocks.Nodup
  fits : blocks.length ≤ a.size - 1
  outside : ∀ b ∈ blocks, a.Outside b
  word : ∀ b ∈ blocks, b < 2 ^ 32

variable {a : Area}

def Tx.cached (tx : Tx a) (m : Machine) : Machine :=
  { m with buf := fun b => if b ∈ tx.blocks then tx.data b else m.buf b }

def Tx.run (m : Machine) (tx : Tx a) : Machine := commit a tx.blocks (tx.cached m)

def Tx.writes (m : Machine) (tx : Tx a) : List (Nat × Block) := (Tx.run m tx).issued.drop m.issued.length

def Tx.apply (d : Disk) (tx : Tx a) : Disk := fun b => if b ∈ tx.blocks then tx.data b else d b

def cutRecovery (a : Area) (d : Disk) (k : Nat) : Disk := replay d ((recoverFromLog a (boot d)).issued.take k)

def recoverAfter (a : Area) (cuts : List Nat) (d : Disk) : Disk :=
  (recoverFromLog a (boot (cuts.foldl (cutRecovery a) d))).disk

end Xv6.Log
