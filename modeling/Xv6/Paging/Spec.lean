import Mathlib.Data.List.FinRange
import Mathlib.Logic.Function.Basic
import Xv6.Lib.Bytes
import Xv6.Lib.Code

/-!
# Address spaces

`vm.c` with the flags of the entries and the contents of the pages. Virtual addresses are 32-bit numbers, and a page of
physical memory is given by its number.
-/

namespace Xv6.Paging

open Code Bytes

abbrev Word := BitVec 32
abbrev Page := Nat

/-! ## `mmu.h` and `memlayout.h` -/

abbrev pgsize : Nat := 4096
abbrev kernbase : Nat := 0x80000000
abbrev extmem : Nat := 0x100000
abbrev phystop : Nat := 0xE000000
abbrev devspace : Nat := 0xFE000000

def pdx (va : Nat) : Fin 1024 := ⟨va / 2 ^ 22 % 1024, Nat.mod_lt _ (by decide)⟩
def ptx (va : Nat) : Fin 1024 := ⟨va / 2 ^ 12 % 1024, Nat.mod_lt _ (by decide)⟩

def pgaddr (d t o : Nat) : Nat := (d * 2 ^ 22 + t * 2 ^ 12 + o) % 2 ^ 32

def pgroundup (sz : Nat) : Nat := (sz + (pgsize - 1)) % 2 ^ 32 / pgsize * pgsize
def pgrounddown (a : Nat) : Nat := a / pgsize * pgsize

def pteP : Word := 0x001
def pteW : Word := 0x002
def pteU : Word := 0x004

/-- Where the linker puts the data of the kernel, and the first page after it. -/
structure Link where
  data : Nat
  first : Nat
  extmem_lt : extmem < data * pgsize
  data_le : data ≤ first
  first_lt : first * pgsize < phystop

def pteAddr (pte : Word) : Page := pte.toNat / pgsize
def pteFlags (pte : Word) : Word := pte &&& 0xFFF

/-! ## Memory -/

abbrev Frame := Fin 4096 → Byte

def byteOf (i : Fin 1024) (k : Fin 4) : Fin 4096 := ⟨4 * i.val + k.val, by omega⟩

namespace Frame

def word (f : Frame) (i : Fin 1024) : Word := f (byteOf i 3) ++ f (byteOf i 2) ++ f (byteOf i 1) ++ f (byteOf i 0)

def setWord (f : Frame) (i : Fin 1024) (w : Word) : Frame := fun k =>
  if k.val / 4 = i.val then w.extractLsb' (8 * (k.val % 4)) 8 else f k

def put (f : Frame) (off : Nat) (bs : List Byte) : Frame := fun k =>
  if off ≤ k.val then bs[k.val - off]?.getD (f k) else f k

end Frame

/-- The free list, and the contents of all pages but for the links in free ones. -/
structure Mem where
  freelist : List Page
  frame : Page → Frame

namespace Mem

def word (m : Mem) (x : Page) (i : Fin 1024) : Word := (m.frame x).word i

def setFrame (m : Mem) (x : Page) (f : Frame) : Mem := { m with frame := Function.update m.frame x f }

def setWord (m : Mem) (x : Page) (i : Fin 1024) (w : Word) : Mem := m.setFrame x ((m.frame x).setWord i w)

def memset (m : Mem) (x : Page) (c : Byte) : Mem := m.setFrame x fun _ => c

def memmove (m : Mem) (dst src : Page) : Mem := m.setFrame dst (m.frame src)
def put (m : Mem) (x : Page) (off : Nat) (bs : List Byte) : Mem := m.setFrame x ((m.frame x).put off bs)

end Mem

inductive Stop where
  | kfree
  | remap
  | phystopTooHigh
  | pageAligned
  | addressShouldExist
  | pteShouldExist
  | pageNotPresent
  | clearpteu
  /-- `uva2ka` looks for an entry at address 0. -/
  | nullPte
  /-- A loop has not come to its end. -/
  | forever
deriving DecidableEq, Repr

@[irreducible] def turns : Nat := 2 ^ 20 + 1

/-! ## `kalloc.c` -/

def kfree (l : Link) (x : Page) : Code Mem Stop Unit := do
  if x < l.first ∨ phystop ≤ x * pgsize then stop .kfree
  modify fun m => m.memset x 1
  modify fun m => { m with freelist := x :: m.freelist }

def kalloc : Code Mem Stop (Option Page) := do
  let m ← get
  match m.freelist with
  | [] => pure none
  | r :: next =>
    modify fun m => { m with freelist := next }
    pure (some r)

/-! ## `vm.c` -/

/-- The page table that has the entry of `va`, which is entry `ptx va` of it. -/
def walkpgdir (pgdir : Page) (va : Nat) (alloc : Bool) : Code Mem Stop (Option Page) := do
  let m ← get
  let pde := m.word pgdir (pdx va)
  if pde &&& pteP ≠ 0 then pure (some (pteAddr pde))
  else if !alloc then pure none
  else
    match ← kalloc with
    | none => pure none
    | some pgtab =>
      modify fun m => m.memset pgtab 0
      modify fun m => m.setWord pgdir (pdx va) (BitVec.ofNat 32 (pgtab * pgsize) ||| pteP ||| pteW ||| pteU)
      pure (some pgtab)

/-- It is `false` where `mappages` returns -1. -/
def mapLoop (pgdir : Page) (perm : Word) (last : Nat) : (n a pa : Nat) → Code Mem Stop Bool
  | 0, _, _ => stop .forever
  | n + 1, a, pa => do
    match ← walkpgdir pgdir a true with
    | none => pure false
    | some pgtab =>
      let m ← get
      if m.word pgtab (ptx a) &&& pteP ≠ 0 then stop .remap
      modify fun m => m.setWord pgtab (ptx a) (BitVec.ofNat 32 pa ||| perm ||| pteP)
      if a = last then pure true
      else mapLoop pgdir perm last n ((a + pgsize) % 2 ^ 32) ((pa + pgsize) % 2 ^ 32)

def mappages (pgdir : Page) (va size pa : Nat) (perm : Word) : Code Mem Stop Bool :=
  mapLoop pgdir perm (pgrounddown ((va + size + (2 ^ 32 - 1)) % 2 ^ 32)) turns (pgrounddown va) pa

structure Kmap where
  virt : Nat
  physStart : Nat
  physEnd : Nat
  perm : Word

def kmap (l : Link) : List Kmap :=
  [⟨kernbase, 0, extmem, pteW⟩, ⟨kernbase + extmem, extmem, l.data * pgsize, 0⟩,
    ⟨kernbase + l.data * pgsize, l.data * pgsize, phystop, pteW⟩, ⟨devspace, devspace, 0, pteW⟩]

def mapKernel (pgdir : Page) : List Kmap → Code Mem Stop Bool
  | [] => pure true
  | k :: ks => do
    if ← mappages pgdir k.virt ((k.physEnd + (2 ^ 32 - k.physStart)) % 2 ^ 32) k.physStart k.perm then
      mapKernel pgdir ks
    else pure false

def setupkvm (l : Link) : Code Mem Stop (Option Page) := do
  match ← kalloc with
  | none => pure none
  | some pgdir =>
    modify fun m => m.memset pgdir 0
    if devspace < kernbase + phystop then stop .phystopTooHigh
    if ← mapKernel pgdir (kmap l) then pure (some pgdir) else pure none

def deallocLoop (l : Link) (pgdir : Page) (oldsz : Nat) : (n a : Nat) → Code Mem Stop Unit
  | 0, _ => stop .forever
  | n + 1, a => do
    if a < oldsz then
      match ← walkpgdir pgdir a false with
      | none => deallocLoop l pgdir oldsz n ((pgaddr ((pdx a).val + 1) 0 0 + (2 ^ 32 - pgsize) + pgsize) % 2 ^ 32)
      | some pgtab =>
        let m ← get
        let pte := m.word pgtab (ptx a)
        if pte &&& pteP ≠ 0 then
          if pteAddr pte = 0 then stop .kfree
          kfree l (pteAddr pte)
          modify fun m => m.setWord pgtab (ptx a) 0
        deallocLoop l pgdir oldsz n ((a + pgsize) % 2 ^ 32)

def deallocuvm (l : Link) (pgdir : Page) (oldsz newsz : Nat) : Code Mem Stop Nat := do
  if oldsz ≤ newsz then pure oldsz
  else
    deallocLoop l pgdir oldsz turns (pgroundup newsz)
    pure newsz

def allocLoop (l : Link) (pgdir : Page) (oldsz newsz : Nat) : (n a : Nat) → Code Mem Stop Nat
  | 0, _ => stop .forever
  | n + 1, a => do
    if a < newsz then
      match ← kalloc with
      | none =>
        let _ ← deallocuvm l pgdir newsz oldsz
        pure 0
      | some mem =>
        modify fun m => m.memset mem 0
        if ← mappages pgdir a pgsize (mem * pgsize) (pteW ||| pteU) then
          allocLoop l pgdir oldsz newsz n ((a + pgsize) % 2 ^ 32)
        else
          let _ ← deallocuvm l pgdir newsz oldsz
          kfree l mem
          pure 0
    else pure newsz

def allocuvm (l : Link) (pgdir : Page) (oldsz newsz : Nat) : Code Mem Stop Nat :=
  if kernbase ≤ newsz then pure 0
  else if newsz < oldsz then pure oldsz
  else allocLoop l pgdir oldsz newsz turns (pgroundup oldsz)

def freevm (l : Link) (pgdir : Page) : Code Mem Stop Unit := do
  let _ ← deallocuvm l pgdir kernbase 0
  (List.finRange 1024).forM fun i => do
    let m ← get
    if m.word pgdir i &&& pteP ≠ 0 then kfree l (pteAddr (m.word pgdir i))
  kfree l pgdir

def clearpteu (pgdir : Page) (uva : Nat) : Code Mem Stop Unit := do
  match ← walkpgdir pgdir uva false with
  | none => stop .clearpteu
  | some pgtab => modify fun m => m.setWord pgtab (ptx uva) (m.word pgtab (ptx uva) &&& ~~~pteU)

/-- It is `false` where the source goes to `bad`. -/
def copyLoop (pgdir d : Page) (sz : Nat) : (n i : Nat) → Code Mem Stop Bool
  | 0, _ => stop .forever
  | n + 1, i => do
    if i < sz then
      match ← walkpgdir pgdir i false with
      | none => stop .pteShouldExist
      | some pgtab =>
        let m ← get
        let pte := m.word pgtab (ptx i)
        if pte &&& pteP = 0 then stop .pageNotPresent
        match ← kalloc with
        | none => pure false
        | some mem =>
          modify fun m => m.memmove mem (pteAddr pte)
          if ← mappages d i pgsize (mem * pgsize) (pteFlags pte) then
            copyLoop pgdir d sz n ((i + pgsize) % 2 ^ 32)
          else pure false
    else pure true

def copyuvm (l : Link) (pgdir : Page) (sz : Nat) : Code Mem Stop (Option Page) := do
  match ← setupkvm l with
  | none => pure none
  | some d =>
    if ← copyLoop pgdir d sz turns 0 then pure (some d)
    else
      freevm l d
      pure none

def uva2ka (pgdir : Page) (uva : Nat) : Code Mem Stop (Option Page) := do
  match ← walkpgdir pgdir uva false with
  | none => stop .nullPte
  | some pgtab =>
    let m ← get
    let pte := m.word pgtab (ptx uva)
    if pte &&& pteP = 0 then pure none
    else if pte &&& pteU = 0 then pure none
    else pure (some (pteAddr pte))

/-- The bytes are those that are left, so that `len` is their number. -/
def copyoutLoop (pgdir : Page) : (n va : Nat) → List Byte → Code Mem Stop Bool
  | _, _, [] => pure true
  | 0, _, _ => stop .forever
  | n + 1, va, buf => do
    let va0 := pgrounddown va
    match ← uva2ka pgdir va0 with
    | none => pure false
    | some pa0 =>
      let k := min (pgsize - (va - va0)) buf.length
      modify fun m => m.put pa0 (va - va0) (buf.take k)
      copyoutLoop pgdir n ((va0 + pgsize) % 2 ^ 32) (buf.drop k)

/-- It is `false` where `copyout` returns -1. -/
def copyout (pgdir : Page) (va : Nat) (p : List Byte) : Code Mem Stop Bool := copyoutLoop pgdir p.length va p

/-- `bytes` is the file from `offset` on. -/
def loadLoop (pgdir : Page) (addr : Nat) (bytes : List Byte) (sz : Nat) : (n i : Nat) → Code Mem Stop Bool
  | 0, _ => stop .forever
  | n + 1, i => do
    if i < sz then
      match ← walkpgdir pgdir ((addr + i) % 2 ^ 32) false with
      | none => stop .addressShouldExist
      | some pgtab =>
        let m ← get
        let k := min (sz - i) pgsize
        let chunk := (bytes.drop i).take k
        modify fun m' => m'.put (pteAddr (m.word pgtab (ptx ((addr + i) % 2 ^ 32)))) 0 chunk
        if chunk.length = k then loadLoop pgdir addr bytes sz n ((i + pgsize) % 2 ^ 32) else pure false
    else pure true

def loaduvm (pgdir : Page) (addr : Nat) (bytes : List Byte) (sz : Nat) : Code Mem Stop Bool := do
  if addr % pgsize ≠ 0 then stop .pageAligned
  loadLoop pgdir addr bytes sz turns 0

/-! ## `proc.c` and `sysproc.c` -/

structure Proc where
  pgdir : Page
  sz : Nat
  esp : Nat

structure Sys where
  mem : Mem
  proc : Proc

def Sys.setSz (s : Sys) (sz : Nat) : Sys := { s with proc := { s.proc with sz := sz } }

def onMem {α : Type} (c : Code Mem Stop α) : Code Sys Stop α := fun s =>
  match c s.mem with
  | .ok (a, m) => .ok (a, { s with mem := m })
  | .error e => .error e

/-- It is `false` where `growproc` returns -1. `n` is an `int`. -/
def growproc (l : Link) (n : Int) : Code Sys Stop Bool := do
  let s ← get
  let sz := s.proc.sz
  let newsz := ((sz + n) % 2 ^ 32).toNat
  if 0 < n then
    let sz ← onMem (allocuvm l s.proc.pgdir sz newsz)
    if sz = 0 then pure false
    else
      modify fun s => s.setSz sz
      pure true
  else if n < 0 then
    let sz ← onMem (deallocuvm l s.proc.pgdir sz newsz)
    if sz = 0 then pure false
    else
      modify fun s => s.setSz sz
      pure true
  else pure true

def sysSbrk (l : Link) (n : Int) : Code Sys Stop Word := do
  let s ← get
  if ← growproc l n then pure (BitVec.ofNat 32 s.proc.sz) else pure (-1)

/-! ## `exec.c` -/

abbrev maxarg : Nat := 32

structure Proghdr where
  load : Bool
  vaddr : Nat
  filesz : Nat
  memsz : Nat
  bytes : List Byte
  vaddr_lt : vaddr < 2 ^ 32
  memsz_lt : memsz < 2 ^ 32

/-- Whether there is a program, and its headers. One that could not be read is `none`. -/
structure Image where
  header : Bool
  phdrs : List (Option Proghdr)

def loadSegments (l : Link) (pgdir : Page) (sz : Nat) : List (Option Proghdr) → Code Mem Stop (Option Nat)
  | [] => pure (some sz)
  | none :: _ => pure none
  | some ph :: phdrs => do
    let top := (ph.vaddr + ph.memsz) % 2 ^ 32
    if !ph.load then loadSegments l pgdir sz phdrs
    else if ph.memsz < ph.filesz ∨ top < ph.vaddr then pure none
    else
      let sz ← allocuvm l pgdir sz top
      if sz = 0 ∨ ph.vaddr % pgsize ≠ 0 then pure none
      else if ← loaduvm pgdir ph.vaddr ph.bytes ph.filesz then loadSegments l pgdir sz phdrs
      else pure none

/-- The arguments that are left, and `sp` and `ustack` for those that are done. -/
def pushArgs (pgdir : Page) (sp : Nat) (ustack : List Nat) : List (List Byte) → Code Mem Stop (Option (Nat × List Nat))
  | [] => pure (some (sp, ustack))
  | s :: argv => do
    if maxarg ≤ ustack.length then pure none
    else
      let sp := (sp + (2 ^ 32 - (s.length + 1))) % 2 ^ 32 / 4 * 4
      if ← copyout pgdir sp (s ++ [0]) then pushArgs pgdir sp (ustack ++ [sp]) argv else pure none

def pushStack (l : Link) (pgdir : Page) (sz : Nat) (argv : List (List Byte)) : Code Mem Stop (Option (Nat × Nat)) := do
  let sz := pgroundup sz
  let sz ← allocuvm l pgdir sz ((sz + 2 * pgsize) % 2 ^ 32)
  if sz = 0 then pure none
  else
    clearpteu pgdir (sz - 2 * pgsize)
    match ← pushArgs pgdir sz [] argv with
    | none => pure none
    | some (sp, ustack) =>
      let argc := ustack.length
      let argvPtr := (sp + (2 ^ 32 - (argc + 1) * 4)) % 2 ^ 32
      let sp := (sp + (2 ^ 32 - (3 + argc + 1) * 4)) % 2 ^ 32
      let words := [0xFFFFFFFF, argc, argvPtr] ++ ustack ++ [0]
      if ← copyout pgdir sp (words.flatMap (toLe 4)) then pure (some (sz, sp)) else pure none

/-- The new address space, up to where `exec` commits to it. -/
def buildImage (l : Link) (image : Image) (argv : List (List Byte)) : Code Mem Stop (Option (Page × Nat × Nat)) := do
  if !image.header then pure none
  else
    match ← setupkvm l with
    | none => pure none
    | some pgdir =>
      match ← loadSegments l pgdir 0 image.phdrs with
      | none =>
        freevm l pgdir
        pure none
      | some sz =>
        match ← pushStack l pgdir sz argv with
        | none =>
          freevm l pgdir
          pure none
        | some (sz, sp) => pure (some (pgdir, sz, sp))

/-- It is `false` where `exec` returns -1. -/
def exec (l : Link) (image : Image) (argv : List (List Byte)) : Code Sys Stop Bool := do
  match ← onMem (buildImage l image argv) with
  | none => pure false
  | some (pgdir, sz, sp) =>
    let s ← get
    modify fun s => { s with proc := ⟨pgdir, sz, sp⟩ }
    onMem (freevm l s.proc.pgdir)
    pure true

end Xv6.Paging
