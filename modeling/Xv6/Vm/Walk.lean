import Xv6.Vm.Frame
/-!
# Vm.Walk — what a property of programs has to have to hold of every call

A property of programs that sequencing keeps holds of the calls on the process table as soon as it holds of their parts:
the programs on page tables, the steps of the table, and the updates that leave `mtable` alone.
-/
namespace Xv6
namespace Vm

open Mem
open Sched (nproc)

structure Walk (J : (α : Type) → M α → Prop) : Prop where
  pure   : ∀ {α : Type} (a : α), J α (pure a)
  stop   : ∀ {α : Type} (e : Stop), J α (Prog.stop e)
  read   : ∀ {α : Type} (g : Sys → α), J α (Prog.read g)
  bind   : ∀ {α β : Type} {c : M α} {f : α → M β}, J α c → (∀ a, J β (f a)) → J β (c >>= f)
  modify : ∀ f : Sys → Sys, (∀ s, (f s).maps = s.maps) → (∀ s, (f s).locked = s.locked) → J Unit (Prog.modify f)
  vm     : ∀ {α : Type} (c : V α), J α (vm c)
  table  : ∀ a, J Unit (table a)
  space  : ∀ p, J Unit (Prog.emit (.space p))
  freed  : ∀ g l, J Unit (Prog.emit (.freed g l))

namespace Walk

variable {J : (α : Type) → M α → Prop} (hJ : Walk J) {p : Fin nproc}

theorem ite (_ : Walk J) {α : Type} {b : Prop} [Decidable b] {c d : M α} (hc : b → J α c) (hd : ¬ b → J α d) :
    J α (if b then c else d) := by
  split
  · exact hc ‹_›
  · exact hd ‹_›

include hJ

theorem forEach {β : Type} {body : β → M Unit} : ∀ l : List β, (∀ x ∈ l, J Unit (body x)) →
    J Unit (Prog.forEach l body)
  | [], _     => hJ.pure ()
  | x :: l, h => hJ.bind (h x List.mem_cons_self) fun _ => forEach l fun y hy => h y (List.mem_cons_of_mem x hy)

theorem follow {α : Type} (f : Sys → Option α) : J α (follow f) := by
  refine hJ.bind (hJ.read f) fun o => ?_
  cases o with
  | none => exact hJ.stop _
  | some a => exact hJ.pure a

theorem filedup (i : Nat) : J Unit (filedup i) :=
  hJ.bind (hJ.read _) fun _ => hJ.ite (fun _ => hJ.stop _) fun _ => hJ.modify _ (fun _ => rfl) fun _ => rfl

theorem fileclose (i : Nat) : J Unit (fileclose i) :=
  hJ.bind (hJ.read _) fun _ => hJ.ite (fun _ => hJ.stop _) fun _ => hJ.ite
    (fun _ => hJ.modify _ (fun _ => rfl) fun _ => rfl) fun _ => hJ.modify _ (fun _ => rfl) fun _ => rfl

theorem fileread (i : Nat) (n : Word) : J (Option (List Byte)) (fileread p (.file i) n) := by
  refine hJ.bind (hJ.read _) fun fl => hJ.ite (fun _ => hJ.pure _) fun _ => ?_
  cases fl.kind with
  | none => exact hJ.stop _
  | pipe q => exact hJ.bind (hJ.modify _ (fun _ => rfl) fun _ => rfl) fun _ => hJ.pure _
  | inode data _ => exact hJ.bind (hJ.modify _ (fun _ => rfl) fun _ => rfl) fun _ => hJ.pure _
  | dev q => exact hJ.bind (hJ.modify _ (fun _ => rfl) fun _ => rfl) fun _ => hJ.pure _

theorem fds {body : Fin 16 → Nat → M Unit} (hb : ∀ fd i, J Unit (body fd i)) :
    J Unit (Prog.forEach fds (fun fd => do
      match ← Prog.read (fun s : Sys => s.ofile p fd) with
      | none   => Pure.pure ()
      | some i => body fd i)) := by
  refine hJ.forEach _ fun fd _ => hJ.bind (hJ.read _) fun o => ?_
  cases o with
  | none => exact hJ.pure _
  | some i => exact hb fd i

theorem setImage (g : Space) (sz : Addr) : J Unit (setImage p g sz) :=
  hJ.bind (hJ.modify _ (fun _ => rfl) fun _ => rfl) fun _ => hJ.space p

theorem freevmOf (g : Space) : J Unit (freevmOf g) :=
  hJ.bind (hJ.vm _) fun _ => hJ.bind (hJ.read _) fun l => hJ.freed g l

theorem allocproc : J (Option (Fin nproc)) allocproc := by
  refine hJ.bind (hJ.read _) fun o => ?_
  cases o with
  | none => exact hJ.pure _
  | some p =>
    refine hJ.bind (hJ.table _) fun _ => hJ.bind (hJ.vm _) fun k => ?_
    cases k with
    | none => exact hJ.bind (hJ.table _) fun _ => hJ.pure _
    | some k => exact hJ.bind (hJ.modify _ (fun _ => rfl) fun _ => rfl) fun _ => hJ.pure _

theorem fork (hm : ∀ np, J Unit (mapFork p np)) : J (Option (Fin nproc)) (fork p) := by
  refine hJ.bind hJ.allocproc fun o => ?_
  cases o with
  | none => exact hJ.pure _
  | some np =>
    refine hJ.bind (hJ.follow _) fun g => hJ.bind (hJ.read _) fun sz => hJ.bind (hJ.vm _) fun d => ?_
    cases d with
    | none =>
      exact hJ.bind (hJ.follow _) fun k => hJ.bind (hJ.vm _) fun _ =>
        hJ.bind (hJ.modify _ (fun _ => rfl) fun _ => rfl) fun _ => hJ.bind (hJ.table _) fun _ => hJ.pure _
    | some d =>
      exact hJ.bind (hJ.setImage d sz) fun _ => hJ.bind (hJ.forEach _ fun _ _ => hJ.table _) fun _ =>
        hJ.bind (hJ.fds fun _ i => hJ.bind (hJ.filedup i) fun _ => hJ.modify _ (fun _ => rfl) fun _ => rfl) fun _ =>
          hJ.bind (hJ.table _) fun _ => hJ.bind (hm np) fun _ => hJ.pure _

theorem exit : J Unit (exit p) :=
  hJ.bind (hJ.read _) fun _ => hJ.ite (fun _ => hJ.stop _) fun _ => hJ.bind
    (hJ.fds fun _ i => hJ.bind (hJ.fileclose i) fun _ => hJ.modify _ (fun _ => rfl) fun _ => rfl) fun _ => hJ.table _

theorem wait : J Unit (wait p) := by
  refine hJ.bind (hJ.read _) fun o => ?_
  cases o with
  | none => exact hJ.pure _
  | some z =>
    refine hJ.bind (hJ.read _) fun k => ?_
    cases k with
    | none => exact hJ.stop _
    | some k =>
      exact hJ.bind (hJ.vm _) fun _ => hJ.bind (hJ.modify _ (fun _ => rfl) fun _ => rfl) fun _ =>
        hJ.bind (hJ.follow _) fun g => hJ.bind (hJ.freevmOf g) fun _ => hJ.table _

theorem exec (load : V (Option (Space × Addr))) : J Unit (exec p load) := by
  refine hJ.bind (hJ.vm _) fun o => ?_
  cases o with
  | none => exact hJ.pure _
  | some x => exact hJ.bind (hJ.follow _) fun old => hJ.bind (hJ.setImage _ _) fun _ => hJ.freevmOf old

theorem growproc (n : Word) : J Int (growproc p n) := by
  have hr : ∀ g sz, J (Addr × Space) (resize g sz n) := fun g sz =>
    hJ.ite (fun _ => hJ.vm _) fun _ => hJ.ite (fun _ => hJ.vm _) fun _ => hJ.pure _
  exact hJ.bind (hJ.read _) fun sz => hJ.bind (hJ.follow _) fun g => hJ.bind (hr g sz) fun _ =>
    hJ.bind (hJ.modify _ (fun _ => rfl) fun _ => rfl) fun _ => hJ.ite (fun _ => hJ.pure _) fun _ =>
      hJ.bind (hJ.modify _ (fun _ => rfl) fun _ => rfl) fun _ => hJ.pure _

theorem userinit (init : List Byte) : J Unit (userinit init) := by
  refine hJ.bind (hJ.read _) fun o => ?_
  cases o with
  | none => exact hJ.stop _
  | some p =>
    refine hJ.bind (hJ.vm _) fun k => ?_
    cases k with
    | none => exact hJ.stop _
    | some k =>
      refine hJ.bind (hJ.modify _ (fun _ => rfl) fun _ => rfl) fun _ => hJ.bind (hJ.vm _) fun g => ?_
      cases g with
      | none => exact hJ.stop _
      | some g => exact hJ.bind (hJ.vm _) fun g => hJ.bind (hJ.setImage g _) fun _ => hJ.table _

/-- **Every call**, from the calls that map memory. -/
theorem body (hm : ∀ p np, J Unit (mapFork p np)) (c : Call) (hmm : ∀ m, c = .mm m → J Unit (mmStep m)) :
    J Unit c.body := by
  cases c with
  | userinit init => exact hJ.userinit init
  | mm c => exact hmm c rfl
  | read p fd n =>
    refine hJ.bind (hJ.read _) fun o => ?_
    cases o with
    | none => exact hJ.pure _
    | some i => exact hJ.bind (hJ.fileread i n) fun _ => hJ.pure _
  | fork p => exact hJ.bind (hJ.fork (hm p)) fun _ => hJ.pure _
  | exec p load => exact hJ.exec load
  | exit p => exact hJ.exit
  | wait p => exact hJ.wait
  | sbrk p n => exact hJ.bind (hJ.growproc n) fun _ => hJ.pure _
  | setFd p fd f => exact hJ.modify _ (fun _ => rfl) fun _ => rfl
  | setFile i f => exact hJ.modify _ (fun _ => rfl) fun _ => rfl
  | table a => exact hJ.table a

theorem step (hmm : ∀ c, J Unit (mmStep c)) (hm : ∀ p np, J Unit (mapFork p np)) (c : Call) : J Unit (step c) :=
  hJ.bind (hJ.read id) fun _ => hJ.ite (fun _ => hJ.body hm c fun m _ => hmm m) fun _ => hJ.pure _

end Walk

end Vm
end Xv6
