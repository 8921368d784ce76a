import Technosphere.Allocator.Basic

def Arena.span (arena : Arena) : Set ℕ :=
  Set.Ico arena.base (arena.base + arena.size)

namespace Allocator

def Call.result (w : World) (this : ℕ) : Call → Except AllocErrorType Unit × Pointer
  | alloc n     =>
    match (w.alloc this n).1 with
    | .ok p    => (.ok (), p)
    | .error e => (.error e, {})
  | free p      => ((w.free this p).1, (w.free this p).2.2)
  | realloc p n => ((w.realloc this p n).1, (w.realloc this p n).2.2)
  | defrag      => (.ok (), {})

-- Several allocators in one address space, each of which has an arena of its own, with a program
-- that uses them and the rest of the memory.
namespace Shared

inductive Event
  | call (this : ℕ) (c : Call) (result : Except AllocErrorType Unit × Pointer)
  | write (this : ℕ) (p : Pointer) (i : ℕ) (v : UInt8)
  | store (x : ℕ) (v : UInt8)

def Event.owner : Event → Option ℕ
  | call this .. | write this .. => this
  | store ..                     => none

-- Each allocator is only given its own pointers, and nothing is stored in an arena but through
-- pointers to live blocks.
inductive Step (S : Set ℕ) (arena : ℕ → Arena) (w : World) : Event → World → Prop
  | call {this : ℕ} {c : Call} {w' : World} (mem : this ∈ S)
      (step : Allocator.Step this w c w') :
    Step S arena w (.call this c (c.result w this)) w'
  | write {this : ℕ} {p : Pointer} {i : ℕ} {v : UInt8} (mem : this ∈ S)
      (issued : (w.allocators this).Issued this p) (nonnull : p.get w.allocators ≠ nullptr)
      (inside : i < p.getSize w.allocators) :
    Step S arena w (.write this p i v)
      { w with memory := w.memory.write (p.get w.allocators + i) v }
  | store {x : ℕ} {v : UInt8} (outside : ∀ this ∈ S, x ∉ (arena this).span) :
    Step S arena w (.store x v) { w with memory := w.memory.write x v }

end Shared

end Allocator
