import Xv6.Lib.Prog
import Xv6.Mem.Mmu
/-!
# Vm.Kalloc — the page allocator of the virtual-memory kernel

kalloc.c.  A pointer to a page of kernel memory is the frame it points into, and `kmem.freelist` the list of its
frames.  This kernel has no swap space, so `kalloc` fails when the list is empty.  A program stops where the kernel
panics, and where C leaves a null or wild pointer's dereference undefined.
-/
namespace Xv6
namespace Vm

open Mem

/-- The frames, and the symbols `end` and `data` of the linker. -/
structure Phys where
  mem      : Frame → Page
  freelist : List Frame
  freemems : Int
  kend     : Addr
  kdata    : Addr

/-- A call of `walkpgdir` and a call of `kfree`. -/
inductive PhysEvent where
  | walk (va : Addr)
  | kfree (f : Frame)
  deriving DecidableEq

inductive Stop where
  | panic (msg : String)
  /-- A null or wild pointer is dereferenced. -/
  | wild
  | diverge
  deriving DecidableEq

abbrev V := Prog Stop Phys PhysEvent

def Phys.setPage (s : Phys) (f : Frame) (p : Page) : Phys := { s with mem := fun g => if g = f then p else s.mem g }

/-- `memset` of a whole page. -/
def memset (f : Frame) (b : BitVec 8) : V Unit := Prog.modify (fun s => s.setPage f (fun _ => b))

/-- What `kfree` leaves of a page: ones, and the link to the next free page. -/
def freePage (next : Option Frame) : Page :=
  setWord (fun _ => 1) 0 (match next with | some g => p2v g | none => 0)

/-- The frames `kfree` takes. -/
def Phys.kfrees (s : Phys) (f : Frame) : Bool := !decide (p2v f < s.kend ∨ phystop ≤ frameAddr f)

def kfree (f : Frame) : V Unit := do
  Prog.emit (.kfree f)
  if ← Prog.read (fun s => s.kfrees f) then
    Prog.modify (fun s => { s.setPage f (freePage s.freelist.head?) with
      freelist := f :: s.freelist, freemems := s.freemems + 1 })
  else Prog.stop (.panic "kfree")

def kalloc : V (Option Frame) := do
  match ← Prog.read (·.freelist) with
  | []     =>
    Prog.modify (fun s => { s with freemems := s.freemems - 1 })
    pure none
  | f :: l =>
    Prog.modify (fun s => { s with freelist := l, freemems := s.freemems - 1 })
    pure (some f)

/-- `kalloc` where the caller does not look at the result before it writes to the page. -/
def kallocPage : V Frame := do
  match ← kalloc with
  | none   => Prog.stop .wild
  | some f => pure f

theorem kfrees_congr {k k' : Phys} (h : k.kend = k'.kend) (f : Frame) : k.kfrees f = k'.kfrees f := by
  unfold Phys.kfrees
  rw [h]

theorem kfree_run (f : Frame) (k : Phys) : kfree f k = if k.kfrees f then
    ⟨.ok (), { k.setPage f (freePage k.freelist.head?) with
      freelist := f :: k.freelist, freemems := k.freemems + 1 }, [.kfree f]⟩
    else ⟨.error (.panic "kfree"), k, [.kfree f]⟩ := by
  unfold kfree
  rw [Prog.bind_run_ok (Prog.emit_run _ k), Prog.read_bind_run]
  cases k.kfrees f <;> rfl

end Vm
end Xv6
