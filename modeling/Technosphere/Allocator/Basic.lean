import Technosphere.Lib.SortedMap
import Technosphere.Lib.Memory
import Technosphere.Lib.Run

inductive AllocErrorType
  | invalidFree
  | noMemory
deriving DecidableEq, Repr

-- Addresses and sizes are natural numbers that wrap around at `sizeRange`, and 0 is the null
-- pointer.
abbrev nullptr : ℕ := 0

abbrev sizeRange : ℕ := 2 ^ 64

structure Block where
  begin : ℕ := nullptr
  size  : ℕ := 0
deriving DecidableEq, Repr

namespace Block

def empty (b : Block) : Bool :=
  b.size == 0

def getEnd (b : Block) : ℕ :=
  (b.begin + b.size) % sizeRange

end Block

-- A handle names its allocator by the address of the allocator object.
structure Pointer where
  allocator : Option ℕ := none
  id        : ℕ := 0
deriving DecidableEq, Repr

structure Allocator where
  freeBlocks  : List Block
  pointers    : SortedMap ℕ Block
  base₁       : ℕ
  base₂       : ℕ
  memorySize₁ : ℕ
  memorySize₂ : ℕ
  pointerId   : ℕ
deriving DecidableEq

namespace Allocator

def init (base : ℕ) (size : ℕ) : Allocator where
  freeBlocks  := [⟨base, size / 2⟩]
  pointers    := ∅
  base₁       := base
  base₂       := base + size / 2
  memorySize₁ := size / 2
  memorySize₂ := size - size / 2
  pointerId   := 1

def findBlock (a : Allocator) (id : ℕ) : Block :=
  (a.pointers.find? id).getD {}

def findBegin (a : Allocator) (id : ℕ) : ℕ :=
  (a.findBlock id).begin

def findSize (a : Allocator) (id : ℕ) : ℕ :=
  (a.findBlock id).size

end Allocator

namespace Pointer

def get (p : Pointer) (allocators : ℕ → Allocator) : ℕ :=
  match p.allocator with
  | none   => nullptr
  | some a => (allocators a).findBegin p.id

-- The source calls this only when `get` is not null, so that there is an allocator to ask.
def getSize (p : Pointer) (allocators : ℕ → Allocator) : ℕ :=
  match p.allocator with
  | none   => 0
  | some a => (allocators a).findSize p.id

end Pointer

namespace Allocator

-- An iterator into the list of free blocks is a position in it, and the length of the list is
-- `end()`. This is `*it`.
def block (a : Allocator) (it : ℕ) : Block :=
  a.freeBlocks.getD it {}

-- The source only calls this with an `n` that is not more than the size.
def splitBlock (a : Allocator) (it : ℕ) (n : ℕ) : Allocator :=
  let newBlock   :=
    { begin := ((a.block it).begin + n) % sizeRange, size := (a.block it).size - n : Block }
  let freeBlocks := a.freeBlocks.eraseIdx it
  if newBlock.empty then { a with freeBlocks }
  else { a with freeBlocks := freeBlocks.insertIdx it newBlock }

def extendBlock (a : Allocator) (it : ℕ) (n : ℕ) : Allocator :=
  { a with
    freeBlocks := a.freeBlocks.modify it fun b => { b with size := (b.size + n) % sizeRange } }

def findNearestFreeBlock (a : Allocator) (p : Pointer) : ℕ :=
  if a.freeBlocks.isEmpty then a.freeBlocks.length
  else a.freeBlocks.findIdx fun b => (a.findBlock p.id).getEnd ≤ b.begin

-- The size is the one that the pointer's own allocator knows, the block is the one of `a`.
def addFreeBlock (a : Allocator) (allocators : ℕ → Allocator) (p : Pointer) :
    Allocator × ℕ :=
  let curSize := p.getSize allocators
  if curSize = 0 then (a, 0)
  else
    let it           := a.findNearestFreeBlock p
    let newFreeBlock := a.findBlock p.id
    ({ a with freeBlocks := a.freeBlocks.insertIdx it newFreeBlock }, it)

-- The list is only ever merged at neighbouring positions `it₁ < it₂`, so erasing `it₂` leaves `it₁`
-- where it is.
def merge2Blocks (a : Allocator) (it₁ it₂ : ℕ) : Allocator × ℕ :=
  let addSize := (a.block it₂).size
  ((a.splitBlock it₂ addSize).extendBlock it₁ addSize, it₁)

def touch (a : Allocator) (it₁ it₂ : ℕ) : Bool :=
  match a.freeBlocks[it₁]?, a.freeBlocks[it₂]? with
  | some b₁, some b₂ => b₁.getEnd == b₂.begin
  | _,       _       => false

def mergeBlocks (a : Allocator) (it : ℕ) : Allocator :=
  let prevIt := it - 1
  let nextIt := it + 1
  if a.freeBlocks.length ≤ 1 then a
  else if it = 0 then
    if a.touch it nextIt then (a.merge2Blocks it nextIt).1 else a
  else if it = a.freeBlocks.length then
    if a.touch prevIt it then (a.merge2Blocks prevIt it).1 else a
  else
    let (a, it) := if a.touch it nextIt then a.merge2Blocks it nextIt else (a, it)
    if a.touch prevIt it then (a.merge2Blocks prevIt it).1 else a

def alloc (a : Allocator) (this : ℕ) (n : ℕ) : Except AllocErrorType Pointer × Allocator :=
  if n = 0 then (.ok {}, a)
  else
    match a.freeBlocks.findIdx? (n ≤ ·.size) with
    | none    => (.error .noMemory, a)
    | some it =>
      let pointer  := { allocator := some this, id := a.pointerId : Pointer }
      let pointers := a.pointers.insert a.pointerId { begin := (a.block it).begin, size := n }
      (.ok pointer, { a with pointers, pointerId := a.pointerId + 1 : Allocator }.splitBlock it n)

def erasePointer (a : Allocator) (p : Pointer) : Except AllocErrorType Unit × Allocator :=
  if (a.pointers.find? p.id).isSome then (.ok (), { a with pointers := a.pointers.erase p.id })
  else (.error .invalidFree, a)

-- The last component is what the call leaves in the caller's `p`.
def free (a : Allocator) (allocators : ℕ → Allocator) (p : Pointer) :
    Except AllocErrorType Unit × Allocator × Pointer :=
  if p.get allocators = nullptr then (.ok (), a, p)
  else
    let (a, it) := a.addFreeBlock allocators p
    let a       := a.mergeBlocks it
    match a.erasePointer p with
    | (.ok (), a)   => (.ok (), a, {})
    | (.error e, a) => (.error e, a, p)

structure DefragLocals where
  curBegin     : ℕ
  allSize      : ℕ := 0
  tempPointers : SortedMap ℕ Block := ∅
  copies       : List Memory.Copy := []

def defragBody (a : Allocator) (l : DefragLocals) (it : ℕ × Block) : DefragLocals :=
  let allSize := (l.allSize + it.2.size) % sizeRange
  { allSize
    copies       := l.copies ++ [⟨l.curBegin, it.2.begin, it.2.size⟩]
    tempPointers := l.tempPointers.insert it.1 ⟨l.curBegin, it.2.size⟩
    curBegin     := (a.base₂ + allSize) % sizeRange }

def defragLoop (a : Allocator) : DefragLocals :=
  a.pointers.entries.foldl a.defragBody { curBegin := a.base₂ }

def defrag (a : Allocator) : Allocator × List Memory.Copy :=
  let l := a.defragLoop
  ({ a with
      freeBlocks  := [⟨l.curBegin, (a.memorySize₂ + sizeRange - l.allSize) % sizeRange⟩]
      base₁       := a.base₂
      base₂       := a.base₁
      memorySize₁ := a.memorySize₂
      memorySize₂ := a.memorySize₁
      pointers    := l.tempPointers },
   l.copies)

end Allocator

structure World where
  allocators : ℕ → Allocator
  memory     : Memory

namespace World

def update (w : World) (this : ℕ) (a : Allocator) : World :=
  { w with allocators := Function.update w.allocators this a }

def memcpy (w : World) (c : Memory.Copy) : World :=
  { w with memory := c.apply w.memory }

def alloc (w : World) (this : ℕ) (n : ℕ) : Except AllocErrorType Pointer × World :=
  let (r, a) := (w.allocators this).alloc this n
  (r, w.update this a)

def free (w : World) (this : ℕ) (p : Pointer) :
    Except AllocErrorType Unit × World × Pointer :=
  let (r, a, p) := (w.allocators this).free w.allocators p
  (r, w.update this a, p)

-- `memcpy(base2_, p.get(), prev_size)`, by which `realloc` saves the bytes of `p`.
def saveCopy (w : World) (this : ℕ) (p : Pointer) : Memory.Copy :=
  ⟨(w.allocators this).base₂, p.get w.allocators, p.getSize w.allocators⟩

def restoreCopy (w : World) (this : ℕ) (p : Pointer) (n : ℕ) : Memory.Copy :=
  ⟨p.get w.allocators, (w.allocators this).base₂, n⟩

def realloc (w : World) (this : ℕ) (p : Pointer) (n : ℕ) :
    Except AllocErrorType Unit × World × Pointer :=
  if p.get w.allocators = nullptr then
    match w.alloc this n with
    | (.ok p, w)    => (.ok (), w, p)
    | (.error e, w) => (.error e, w, p)
  else
    let prevSize := p.getSize w.allocators
    let w        := w.memcpy (w.saveCopy this p)
    match w.free this p with
    | (.error e, w, p) => (.error e, w, p)
    | (.ok (), w, p)   =>
      match w.alloc this n with
      | (.error e, w) => (.error e, w, p)
      | (.ok p, w)    =>
        if p.get w.allocators ≠ nullptr then
          (.ok (), w.memcpy (w.restoreCopy this p (min prevSize n)), p)
        else (.ok (), w, p)

def defrag (w : World) (this : ℕ) : World :=
  let (a, copies) := (w.allocators this).defrag
  { w.update this a with memory := w.memory.copyAll copies }

end World

-- The memory that is handed to an allocator, which no null pointer points to, and whose addresses
-- and size can be represented.
structure Arena where
  base    : ℕ
  size    : ℕ
  nonnull : base ≠ nullptr
  fits    : base + size < sizeRange

namespace Allocator

inductive Call
  | alloc (n : ℕ)
  | free (p : Pointer)
  | realloc (p : Pointer) (n : ℕ)
  | defrag

def Issued (a : Allocator) (this : ℕ) (p : Pointer) : Prop :=
  p = {} ∨ (p.allocator = some this ∧ p.id < a.pointerId)

def Call.Valid (w : World) (this : ℕ) : Call → Prop
  | alloc _ | defrag     => True
  | free p | realloc p _ => (w.allocators this).Issued this p

-- Calls that throw leave the state they have reached.
def Call.exec (w : World) (this : ℕ) : Call → World
  | alloc n     => (w.alloc this n).2
  | free p      => (w.free this p).2.1
  | realloc p n => (w.realloc this p n).2.1
  | defrag      => w.defrag this

def Step (this : ℕ) (w : World) (c : Call) (w' : World) : Prop :=
  c.Valid w this ∧ w' = c.exec w this

def Initial (arena : Arena) (this : ℕ) (w : World) : Prop :=
  w.allocators this = init arena.base arena.size

end Allocator
