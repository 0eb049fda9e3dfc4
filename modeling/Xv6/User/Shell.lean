import Xv6.Lib.Forest
import Xv6.Lib.Table
import Xv6.User.Parse
/-!
# User.Shell — the processes of the shell (sh.c)

`main`, `runcmd` and `fork1`.  What is left to do of a process is its code, of which every step is one call of the
system, and the processes step in any order.  A command has a meaning: which process runs each of its parts, and with
which descriptors. The calls to `close`, `dup` and `open`, which take the lowest free descriptor, come to just that, and
no process is left with an end of a pipe that is not its own.
-/
namespace Xv6
namespace Sh

abbrev nofile : Nat := 16

/-- A process, by the numbers of the children that lead to it from the shell. -/
abbrev Pid := List Nat

/-- What a descriptor stands for.  A pipe goes by the process that made it and the number of children it had forked. -/
inductive Object where
  /-- What the shell was started with. -/
  | given (i : Nat)
  | console
  | file (name : List Byte) (mode : Nat)
  | readEnd (p : Pid) (n : Nat)
  | writeEnd (p : Pid) (n : Nat)
  /-- What a program opened. -/
  | own
deriving DecidableEq

abbrev Fds := Table nofile Object

inductive Code where
  /-- The loop of `main` that opens the console. -/
  | console
  /-- `main` at `getcmd`. -/
  | main
  | parse
  | run (cmd : Cmd)
  | close (fd : Nat) (k : Code)
  | dup (fd : Nat) (k : Code)
  | opens (file : Word) (mode : Nat) (k : Code)
  | pipe (left right : Cmd)
  | fork (child k : Code)
  | wait (k : Code)
  | exec (argv : List Word)
  /-- A program that was executed. -/
  | program
  | exit
  | zombie

/-- The switch of `runcmd`. -/
def runcmd : Cmd → Code
  | .exec argv              => if argv = [] then .exit else .exec argv
  | .redir cmd file mode fd => .close fd (.opens file mode (.run cmd))
  | .pipe left right        => .pipe left right
  | .list left right        => .fork (.run left) (.wait (.run right))
  | .back cmd               => .fork (.run cmd) .exit

/-- The case `PIPE`, once `pipe` has returned. -/
def piped (left right : Cmd) (p0 p1 : Nat) : Code :=
  .fork (.close 1 (.dup p1 (.close p0 (.close p1 (.run left)))))
    (.fork (.close 0 (.dup p0 (.close p0 (.close p1 (.run right)))))
      (.close p0 (.close p1 (.wait (.wait .exit)))))

structure Proc where
  code : Code
  fds  : Fds
  /-- `buf`. -/
  line : List Byte
  /-- How many children it forked. -/
  kids : Nat

abbrev Sys := Forest Proc

/-- What decides a step: whether a call succeeds, the line that was read, the child that `wait` finds, what a program does
with its descriptors. -/
inductive Choice where
  | ok
  | fails
  | line (str : List Byte)
  | child (j : Nat)
  | table (fds : Fds)
  | killed

def Proc.goto (r : Proc) (k : Code) : Proc := { r with code := k }

/-- `open("console", O_RDWR)`, and `close` from descriptor 3 on. -/
def Proc.console (r : Proc) : Proc :=
  match r.fds.take .console with
  | none        => r.goto .main
  | some (i, f) => if 3 ≤ (i : Nat) then r.goto .main else { r with fds := f }

/-- `main` has read a line; `cd` is its own. -/
def Proc.getcmd (r : Proc) (str : List Byte) : Option Proc :=
  if str.contains 0 ∨ str = [] ∨ 100 ≤ str.length then none
  else if str.take 3 = [99, 100, 32] then some { r with line := str }
  else some { r with code := .fork .parse (.wait .main), line := str }

def Proc.parsecmd (r : Proc) : Option Proc :=
  match (Sh.parsecmd r.line 0).res with
  | .ok cmd           => some (r.goto (.run cmd))
  | .error (.panic _) => some (r.goto .exit)
  | .error _          => none

def Proc.open (r : Proc) (file : Word) (mode : Nat) (k : Code) : Proc :=
  match r.fds.take (.file (file.bytes r.line) mode) with
  | none        => r.goto .exit
  | some (_, f) => { r with code := k, fds := f }

def Proc.pipe (p : Pid) (r : Proc) (left right : Cmd) : Proc :=
  match r.fds.take (.readEnd p r.kids) with
  | none         => r.goto .exit
  | some (p0, f) =>
    match f.take (.writeEnd p r.kids) with
    | none         => r.goto .exit
    | some (p1, g) => { r with code := piped left right p0 p1, fds := g }

def Proc.table (r : Proc) (f : Fds) : Option Proc :=
  if ∀ i, f i = none ∨ f i = some .own ∨ ∃ j, f i = r.fds j then some { r with fds := f } else none

def call (p : Pid) (r : Proc) (c : Choice) : Option Proc :=
  match r.code, c with
  | .zombie, _                  => none
  | _, .killed                  => some (r.goto .exit)
  | .console, .ok               => some r.console
  | .console, .fails            => some (r.goto .main)
  | .main, .line str            => r.getcmd str
  | .main, .fails               => some (r.goto .exit)
  | .parse, .ok                 => r.parsecmd
  | .run cmd, .ok               => some (r.goto (runcmd cmd))
  | .close fd k, .ok            => some { r with code := k, fds := r.fds.close fd }
  | .dup fd k, .ok              => some { r with code := k, fds := r.fds.dup fd }
  | .opens file mode k, .ok     => some (r.open file mode k)
  | .opens _ _ _, .fails        => some (r.goto .exit)
  | .pipe left right, .ok       => some (r.pipe p left right)
  | .pipe _ _, .fails           => some (r.goto .exit)
  | .fork _ _, .fails           => some (r.goto .exit)
  | .exec _, .ok                => some (r.goto .program)
  | .exec _, .fails             => some (r.goto .exit)
  | .program, .table f          => r.table f
  | .program, .fails            => some (r.goto .exit)
  | .exit, .ok                  => some { r with code := .zombie, fds := fun _ => none }
  | _, _                        => none

/-- `fork`: child and parent go on. -/
def fork (p : Pid) (r : Proc) (child k : Code) (s : Sys) : Sys :=
  s.fork p r.kids { r with code := child, kids := 0 } { r with code := k, kids := r.kids + 1 }

def zombie (s : Sys) (p : Pid) : Bool :=
  match s p with
  | some ⟨.zombie, _, _, _⟩ => true
  | _                       => false

/-- `wait` finds child `j`. -/
def reap (p : Pid) (r : Proc) (j : Nat) (k : Code) (s : Sys) : Option Sys :=
  if j < r.kids ∧ zombie s (p ++ [j]) then some ((s.drop (p ++ [j])).put p (r.goto k)) else none

/-- `wait` finds no child. -/
def childless (p : Pid) (r : Proc) (k : Code) (s : Sys) : Option Sys :=
  if ∀ j < r.kids, s (p ++ [j]) = none then some (s.put p (r.goto k)) else none

inductive Act where
  | step (p : Pid) (c : Choice)
  /-- `init` waits for child `j` of a process that has exited. -/
  | orphan (p : Pid) (j : Nat)

def step (s : Sys) : Act → Option Sys
  | .step p c =>
    match s p with
    | none   => none
    | some r =>
      match r.code, c with
      | .fork child k, .ok => some (fork p r child k s)
      | .program, .ok      => some (fork p r .program .program s)
      | .wait k, .child j  => reap p r j k s
      | .wait k, .fails    => childless p r k s
      | .program, .child j => reap p r j .program s
      | _, _               => (call p r c).map (s.put p)
  | .orphan p j => if (s p = none ∨ zombie s p) ∧ zombie s (p ++ [j]) then some (s.drop (p ++ [j])) else none

def run : Sys → List Act → Option Sys
  | s, []      => some s
  | s, a :: as => (step s a).bind fun t => run t as

/-- What `init` starts the shell with. -/
def given : Fds := fun i => if (i : Nat) < 3 then some (.given i) else none

def start : Sys := fun p => if p = [] then some ⟨.console, given, [], 0⟩ else none

/-! ## What a command means -/

/-- **The meaning of command lines**: `Meant line p n cmd f` where process `p`, which has forked `n` children, is to run
`cmd` with the descriptors `f`. -/
inductive Meant (line : List Byte) : Pid → Nat → Cmd → Fds → Prop where
  | line {cmd} (k : Nat) (h : (parsecmd line 0).res = .ok cmd) (hnul : 0 ∉ line) : Meant line [k] 0 cmd given
  | redir {p n cmd file mode f} {fd : Fin nofile} (h : Meant line p n (.redir cmd file mode fd) f) :
    Meant line p n cmd (f.set fd (.file (file.bytes line) mode))
  | left {p n left right f} (h : Meant line p n (.list left right) f) : Meant line (p ++ [n]) 0 left f
  | right {p n left right f} (h : Meant line p n (.list left right) f) : Meant line p (n + 1) right f
  | pipeLeft {p n left right f} (h : Meant line p n (.pipe left right) f) :
    Meant line (p ++ [n]) 0 left (f.set 1 (.writeEnd p n))
  | pipeRight {p n left right f} (h : Meant line p n (.pipe left right) f) :
    Meant line (p ++ [n + 1]) 0 right (f.set 0 (.readEnd p n))
  | back {p n cmd f} (h : Meant line p n (.back cmd) f) : Meant line (p ++ [n]) 0 cmd f

/-- The redirections of a tree are of the descriptors 0 and 1. -/
def Cmd.Std : Cmd → Prop
  | .exec _           => True
  | .redir cmd _ _ fd => fd ≤ 1 ∧ cmd.Std
  | .pipe left right  => left.Std ∧ right.Std
  | .list left right  => left.Std ∧ right.Std
  | .back cmd         => cmd.Std

/-- An end of a pipe is where it belongs: the writing end in the first child that its maker forked, or below it, the reading
end in the second. -/
def Object.Settled (p : Pid) : Object → Prop
  | .readEnd q m  => q ++ [m + 1] <+: p
  | .writeEnd q m => q ++ [m] <+: p
  | _             => True

/-- The same, but for the ends that the maker and the other child still have. -/
def Object.Near (p : Pid) : Object → Prop
  | .readEnd q m  => q ++ [m + 1] <+: p ∨ p = q ∨ p = q ++ [m]
  | .writeEnd q m => q ++ [m] <+: p ∨ p = q ∨ p = q ++ [m + 1]
  | _             => True

def Settled (p : Pid) (f : Fds) : Prop := ∀ i x, f i = some x → x.Settled p

def Near (p : Pid) (f : Fds) : Prop := ∀ i x, f i = some x → x.Near p

theorem Object.Settled.near {p : Pid} {x : Object} (h : x.Settled p) : x.Near p := by
  cases x with
  | readEnd q m => exact .inl h
  | writeEnd q m => exact .inl h
  | _ => trivial

theorem Object.Settled.child {p : Pid} {x : Object} (h : x.Settled p) (n : Nat) : x.Settled (p ++ [n]) := by
  cases x with
  | readEnd q m => exact h.trans (List.prefix_append p [n])
  | writeEnd q m => exact h.trans (List.prefix_append p [n])
  | _ => trivial

theorem Settled.near {p : Pid} {f : Fds} (h : Settled p f) : Near p f := fun i x hx => (h i x hx).near

theorem Settled.child {p : Pid} {f : Fds} (h : Settled p f) (n : Nat) :
    Settled (p ++ [n]) f := fun i x hx => (h i x hx).child n

theorem Settled.set {p : Pid} {f : Fds} (h : Settled p f) (i : Fin nofile) {x : Object} (hx : x.Settled p) :
    Settled p (f.set i x) := fun j y hy => by
  rcases Table.of_set hy with rfl | hj
  · exact hx
  · exact h j y hj

theorem Near.set {p : Pid} {f : Fds} (h : Near p f) (i : Fin nofile) {x : Object} (hx : x.Near p) : Near p (f.set i x) :=
  fun j y hy => by
    rcases Table.of_set hy with rfl | hj
    · exact hx
    · exact h j y hj

theorem Near.close {p : Pid} {f : Fds} (h : Near p f) (k : Nat) : Near p (f.close k) :=
  fun i x hx => h i x (Table.of_close hx)

theorem Near.dup {p : Pid} {f : Fds} (h : Near p f) (k : Nat) : Near p (f.dup k) := fun _ x hx =>
  have ⟨j, hj⟩ := Table.of_dup hx
  h j x hj

/-! ## The trees of the parser -/

theorem std_backs {cmd : Cmd} (h : cmd.Std) : ∀ n, (cmd.backs n).Std := by
  intro n
  induction n generalizing cmd with
  | zero => exact h
  | succ n ih => exact ih (show (Cmd.back cmd).Std from h)

theorem std_wrap {cmd : Cmd} (h : cmd.Std) (rs : List Redir) : (cmd.wrap rs).Std := by
  induction rs using List.reverseRecOn with
  | nil => exact h
  | append_singleton rs r ih =>
    rw [wrap_append]
    unfold Redir.wrap
    split
    · exact ⟨Nat.zero_le 1, ih⟩
    · exact ⟨Nat.le_refl 1, ih⟩
    · exact ⟨Nat.le_refl 1, ih⟩

theorem derives_std {kd : Kind} {ts : List Token} {cmd : Cmd} (h : Derives kd ts cmd) : cmd.Std := by
  induction h with
  | line n _ ih => exact std_backs ih n
  | list n _ _ ihc ihd => exact ⟨std_backs ihc n, ihd⟩
  | single _ ih => exact ih
  | pipe _ _ ihc ihd => exact ⟨ihc, ihd⟩
  | block rs _ ih => exact std_wrap ih rs
  | exec rs as _ => exact std_wrap (show (Cmd.exec _).Std from trivial) _

theorem parsecmd_std {line : List Byte} {cmd : Cmd} (hnul : 0 ∉ line) (h : (parsecmd line 0).res = .ok cmd) : cmd.Std := by
  have hsound := parsecmd_wpt hnul
  unfold Prog.wpt at hsound
  rw [h] at hsound
  exact derives_std hsound

/-! ## What a meaning comes with -/

theorem given_filled : given.Filled 3 := fun i => by
  unfold given
  split <;> rename_i h <;> simp [h]

theorem given_settled (p : Pid) : Settled p given := fun i x hx => by
  unfold given at hx
  split at hx
  · cases hx
    trivial
  · cases hx

variable {line : List Byte} {p : Pid} {n : Nat} {cmd left right : Cmd} {f g : Fds}

theorem Meant.std (h : Meant line p n cmd f) : cmd.Std := by
  induction h with
  | line k h hnul => exact parsecmd_std hnul h
  | redir _ ih => exact ih.2
  | left _ ih => exact ih.1
  | right _ ih => exact ih.2
  | pipeLeft _ ih => exact ih.1
  | pipeRight _ ih => exact ih.2
  | back _ ih => exact ih

theorem Meant.filled (h : Meant line p n cmd f) : f.Filled 3 := by
  induction h with
  | line k h hnul => exact given_filled
  | redir h ih =>
    have hfd := h.std.1
    exact ih.set (by omega) _
  | left _ ih => exact ih
  | right _ ih => exact ih
  | pipeLeft _ ih => exact ih.set (by decide) _
  | pipeRight _ ih => exact ih.set (by decide) _
  | back _ ih => exact ih

theorem Meant.settled (h : Meant line p n cmd f) : Settled p f := by
  induction h with
  | line k h hnul => exact given_settled _
  | redir _ ih => exact ih.set _ trivial
  | left _ ih => exact ih.child _
  | right _ ih => exact ih
  | pipeLeft _ ih => exact (ih.child _).set _ (List.prefix_rfl)
  | pipeRight _ ih => exact (ih.child _).set _ (List.prefix_rfl)
  | back _ ih => exact ih.child _

/-! ## What a process is about to do -/

/-- **The code of a process fits its descriptors**: every command that it comes to is to run with them. -/
def Fits (line : List Byte) : Code → Pid → Nat → Fds → Prop
  | .console, p, _, f          => p = [] ∧ f = given
  | .main, p, _, f             => p = [] ∧ f = given
  | .parse, p, n, f            => 0 ∉ line ∧ (∃ k, p = [k]) ∧ n = 0 ∧ f = given
  | .run cmd, p, n, f          => Meant line p n cmd f
  | .close fd k, p, n, f       => Near p f ∧ Fits line k p n (f.close fd)
  | .dup fd k, p, n, f         => Near p f ∧ Fits line k p n (f.dup fd)
  | .opens file mode k, p, n, f =>
    Settled p f ∧ ∀ i g, f.take (.file (file.bytes line) mode) = some (i, g) → Fits line k p n g
  | .pipe left right, p, n, f  => Meant line p n (.pipe left right) f
  | .fork child k, p, n, f     => Near p f ∧ Fits line child (p ++ [n]) 0 f ∧ Fits line k p (n + 1) f
  | .wait k, p, n, f           => Settled p f ∧ Fits line k p n f
  | .exec argv, p, n, f        => Meant line p n (.exec argv) f
  | .program, p, _, f          => Settled p f
  | .exit, p, _, f             => Near p f
  | .zombie, _, _, f           => ∀ i, f i = none

/-- **`runcmd` does what the command means.** -/
theorem runcmd_fits (h : Meant line p n cmd f) : Fits line (runcmd cmd) p n f := by
  cases cmd with
  | exec argv =>
    simp only [runcmd]
    split
    · exact h.settled.near
    · exact h
  | redir cmd file mode fd =>
    have hfd := h.std.1
    have hlt : fd < nofile := Nat.lt_of_le_of_lt hfd (by decide)
    have hbelow : ∀ j < (⟨fd, hlt⟩ : Fin nofile), (f j).isSome := fun j hj =>
      h.filled.below (Nat.lt_of_lt_of_le (Fin.lt_def.1 hj) (by simp only; omega))
    have htake := Table.take_close hbelow (Object.file (file.bytes line) mode)
    refine ⟨h.settled.near, fun i x hx => h.settled i x (Table.of_close hx), fun i g hg => ?_⟩
    cases htake.symm.trans hg
    exact Meant.redir (show Meant line p n (.redir cmd file mode (⟨fd, hlt⟩ : Fin nofile)) f from h)
  | pipe left right => exact h
  | list left right => exact ⟨h.settled.near, h.left, h.settled, h.right⟩
  | back cmd => exact ⟨h.settled.near, h.back, h.settled.near⟩

theorem side_fds (h : f.Filled 3) {i j : Fin nofile} (hi : (i : Nat) < 3) (hj : 3 ≤ (j : Nat)) {x y z : Object}
    (hz : ((f.set 3 x).set 4 y) j = some z) :
    ((((f.set 3 x).set 4 y).close i).dup j) = ((f.set 3 x).set 4 y).set i z ∧
      (((((f.set 3 x).set 4 y).close i).dup j).close 3).close 4 = f.set i z := by
  have hne : ∀ k : Fin nofile, (k : Nat) < 3 → k ≠ 3 ∧ k ≠ 4 := by decide
  obtain ⟨hi3, hi4⟩ := hne i hi
  have hbelow : ∀ k < i, (((f.set 3 x).set 4 y) k).isSome := fun k hk => by
    have hk3 : (k : Nat) < 3 := Nat.lt_trans (Fin.lt_def.1 hk) hi
    rw [Table.set_ne (hne k hk3).2, Table.set_ne (hne k hk3).1]
    exact h.below hk3
  have hget : (((f.set 3 x).set 4 y).close i) j = some z := by
    rw [Table.close_ne (by omega), hz]
  have hdup := Table.dup_eq hget (Table.take_close hbelow z)
  refine ⟨hdup, ?_⟩
  rw [hdup, Table.set_comm hi4.symm, Table.set_comm hi3.symm]
  exact Table.close_pair (by rw [Table.set_ne hi3.symm]; exact h.free (Nat.le_refl 3))
    (by rw [Table.set_ne hi4.symm]; exact h.free (by decide)) x y

/-- **After `pipe`, the two sides and the shell's own process end up with what the command means.** -/
theorem piped_fits (h : Meant line p n (.pipe left right) f) :
    Fits line (piped left right 3 4) p n ((f.set 3 (.readEnd p n)).set 4 (.writeEnd p n)) := by
  have hpair : (((f.set 3 (.readEnd p n)).set 4 (.writeEnd p n)).close 3).close 4 = f :=
    Table.close_pair (h.filled.free (Nat.le_refl 3)) (h.filled.free (by decide)) _ _
  obtain ⟨hdup₁, hend₁⟩ := side_fds h.filled (i := 1) (j := 4) (x := .readEnd p n) (y := .writeEnd p n)
      (by decide) (by decide)
    (Table.set_self _ _ _)
  obtain ⟨hdup₀, hend₀⟩ := side_fds h.filled (i := 0) (j := 3) (x := .readEnd p n) (y := .writeEnd p n)
      (by decide) (by decide)
    (z := .readEnd p n) (by rw [Table.set_ne (by decide), Table.set_self])
  have hnear : ∀ q, Settled q f → (Object.readEnd p n).Near q → (Object.writeEnd p n).Near q →
      Near q ((f.set 3 (.readEnd p n)).set 4 (.writeEnd p n)) := fun q hq hr hw => (hq.near.set 3 hr).set 4 hw
  have hp := hnear p h.settled (.inr (.inl rfl)) (.inr (.inl rfl))
  have hl := hnear (p ++ [n]) (h.settled.child n) (.inr (.inr rfl)) (.inl List.prefix_rfl)
  have hr := hnear (p ++ [n + 1]) (h.settled.child (n + 1)) (.inl List.prefix_rfl) (.inr (.inr rfl))
  refine ⟨hp, ⟨hl, hl.close 1, (hl.close 1).dup 4, ((hl.close 1).dup 4).close 3, ?_⟩, hp,
    ⟨hr, hr.close 0, (hr.close 0).dup 3, ((hr.close 0).dup 3).close 3, ?_⟩, hp, hp.close 3, ?_, ?_, ?_⟩
  · exact hend₁ ▸ h.pipeLeft
  · exact hend₀ ▸ h.pipeRight
  · rw [hpair]
    exact h.settled
  · rw [hpair]
    exact h.settled
  · rw [hpair]
    exact h.settled.near

theorem Fits.near {k : Code} (h : Fits line k p n f) : Near p f := by
  cases k with
  | console => exact h.2 ▸ (given_settled p).near
  | main => exact h.2 ▸ (given_settled p).near
  | parse => exact h.2.2.2 ▸ (given_settled p).near
  | run cmd => exact h.settled.near
  | pipe left right => exact h.settled.near
  | exec argv => exact h.settled.near
  | opens file mode k => exact h.1.near
  | wait k => exact h.1.near
  | program => exact Settled.near h
  | close fd k => exact h.1
  | dup fd k => exact h.1
  | fork child k => exact h.1
  | exit => exact h
  | zombie => exact fun i x hx => by rw [h i] at hx; cases hx

def Proc.Fits (p : Pid) (r : Proc) : Prop := Sh.Fits r.line r.code p r.kids r.fds

variable {r t : Proc} {file : Word} {mode : Nat} {k : Code}

theorem goto_fits : (r.goto k).Fits p ↔ Sh.Fits r.line k p r.kids r.fds := Iff.rfl

theorem console_fits (hf : r.fds = given) : r.console.Fits [] := by
  have htake := given_filled.take (by decide) Object.console
  have hmain : r.console = r.goto .main := by
    unfold Proc.console
    rw [hf, htake]
    exact if_pos (Nat.le_refl 3)
  rw [hmain]
  exact ⟨rfl, hf⟩

theorem getcmd_fits {str : List Byte} (hf : r.fds = given) (hc : r.code = .main) (h : r.getcmd str = some t) :
    t.Fits [] := by
  unfold Proc.getcmd at h
  split at h
  · cases h
  · rename_i hstr
    rw [not_or] at hstr
    split at h
    · cases h
      rw [Proc.Fits, hc]
      exact ⟨rfl, hf⟩
    · cases h
      rw [Proc.Fits, hf]
      have hnul : 0 ∉ str := fun h0 => hstr.1 (List.contains_iff_mem.2 h0)
      exact ⟨(given_settled _).near, ⟨hnul, ⟨r.kids, rfl⟩, rfl, rfl⟩, given_settled _, rfl, rfl⟩

theorem parsecmd_fits (hnul : 0 ∉ r.line) {j : Nat} (hn : r.kids = 0) (hf : r.fds = given) (h : r.parsecmd = some t) :
    t.Fits [j] := by
  unfold Proc.parsecmd at h
  split at h
  · rename_i cmd hparse
    cases h
    rw [goto_fits, hn, hf]
    exact .line j hparse hnul
  · cases h
    rw [goto_fits, hf]
    exact (given_settled _).near
  · cases h

theorem open_fits (hf : (r.goto (.opens file mode k)).Fits p) : (r.open file mode k).Fits p := by
  unfold Proc.open
  split
  · exact hf.1.near
  · rename_i i g htake
    exact hf.2 i g htake

theorem pipe_fits (hm : Meant r.line p r.kids (.pipe left right) r.fds) : (r.pipe p left right).Fits p := by
  have hp : r.pipe p left right = { r with code := piped left right 3 4,
                                           fds := (r.fds.set 3 (.readEnd p r.kids)).set 4 (.writeEnd p r.kids) } := by
    unfold Proc.pipe
    rw [hm.filled.take (by decide)]
    simp only
    rw [(hm.filled.push (by decide) _).take (by decide)]
    rfl
  rw [hp]
  exact piped_fits hm

theorem table_fits (hf : Settled p r.fds) (hc : r.code = .program) (h : r.table f = some t) : t.Fits p := by
  unfold Proc.table at h
  split at h
  · rename_i hown
    cases h
    rw [Proc.Fits, hc]
    intro i x hx
    rcases hown i with hi | hi | ⟨j, hi⟩
    · cases hi.symm.trans hx
    · cases hi.symm.trans hx
      trivial
    · exact hf j x (hi.symm.trans hx)
  · cases h

/-- **A call keeps what a process is about to do in step with its descriptors.** -/
theorem call_fits {c : Choice} (h : call p r c = some t) (hf : r.Fits p) : t.Fits p := by
  have hexit : (r.goto .exit).Fits p := Fits.near hf
  obtain ⟨code, fds, line, kids⟩ := r
  cases c with
  | killed =>
    cases code with
    | zombie => cases h
    | _ =>
      cases h
      exact hexit
  | fails =>
    cases code with
    | console =>
      cases h
      exact hf
    | main | opens | pipe | fork | exec | program =>
      cases h
      exact hexit
    | _ => cases h
  | line str =>
    cases code with
    | main =>
      obtain ⟨rfl, rfl⟩ := hf
      exact getcmd_fits rfl rfl h
    | _ => cases h
  | child j => cases code <;> cases h
  | table f =>
    cases code with
    | program => exact table_fits hf rfl h
    | _ => cases h
  | ok =>
    cases code with
    | console =>
      obtain ⟨rfl, rfl⟩ := hf
      cases h
      exact console_fits rfl
    | parse =>
      obtain ⟨hnul, ⟨j, rfl⟩, rfl, rfl⟩ := hf
      exact parsecmd_fits hnul rfl rfl h
    | run cmd =>
      cases h
      exact runcmd_fits hf
    | close fd k =>
      cases h
      exact hf.2
    | dup fd k =>
      cases h
      exact hf.2
    | opens file mode k =>
      cases h
      exact open_fits hf
    | pipe left right =>
      cases h
      exact pipe_fits hf
    | exec argv =>
      cases h
      exact Meant.settled hf
    | exit =>
      cases h
      exact fun _ => rfl
    | _ => cases h

/-! ## Steps and runs -/

/-- With `m` children left, the waits that are to come leave none when the next command runs. -/
def Code.Allows : Code → Nat → Prop
  | .console, m      => m = 0
  | .main, m         => m = 0
  | .parse, m        => m = 0
  | .run _, m        => m = 0
  | .pipe _ _, m     => m = 0
  | .exec _, m       => m = 0
  | .close _ k, m    => k.Allows m
  | .dup _ k, m      => k.Allows m
  | .opens _ _ k, m  => k.Allows m
  | .fork child k, m => child.Allows 0 ∧ k.Allows (m + 1)
  | .wait k, m       => k.Allows (m - 1)
  | .program, _      => True
  | .exit, _         => True
  | .zombie, _       => True

theorem runcmd_allows (cmd : Cmd) : (runcmd cmd).Allows 0 := by
  cases cmd with
  | exec argv =>
    simp only [runcmd]
    split
    · trivial
    · rfl
  | redir cmd file mode fd => rfl
  | pipe left right => rfl
  | list left right => exact ⟨rfl, rfl⟩
  | back cmd => exact ⟨rfl, trivial⟩

theorem open_allows {m : Nat} (h : k.Allows m) : (r.open file mode k).code.Allows m := by
  unfold Proc.open
  split
  · trivial
  · exact h

theorem pipe_allows : (r.pipe p left right).code.Allows 0 := by
  unfold Proc.pipe
  split
  · trivial
  · split
    · trivial
    · exact ⟨rfl, rfl, trivial⟩

theorem open_kids : (r.open file mode k).kids = r.kids := by
  unfold Proc.open
  split <;> rfl

theorem pipe_kids : (r.pipe p left right).kids = r.kids := by
  unfold Proc.pipe
  split
  · rfl
  · split <;> rfl

theorem console_allows (h : r.code.Allows 0) : r.console.code.Allows 0 := by
  unfold Proc.console
  split
  · rfl
  · split
    · rfl
    · exact h

theorem console_kids : r.console.kids = r.kids := by
  unfold Proc.console
  split
  · rfl
  · split <;> rfl

theorem call_allows {c : Choice} {m : Nat} (h : call p r c = some t) (ha : r.code.Allows m) :
    t.kids = r.kids ∧ t.code.Allows m := by
  obtain ⟨code, fds, line, kids⟩ := r
  cases c with
  | killed =>
    cases code with
    | zombie => cases h
    | _ =>
      cases h
      exact ⟨rfl, trivial⟩
  | fails =>
    cases code with
    | console =>
      cases h
      exact ⟨rfl, ha⟩
    | main | opens | pipe | fork | exec | program =>
      cases h
      exact ⟨rfl, trivial⟩
    | _ => cases h
  | line str =>
    cases code with
    | main =>
      have hget : Proc.getcmd ⟨.main, fds, line, kids⟩ str = some t := h
      unfold Proc.getcmd at hget
      split at hget
      · cases hget
      · split at hget
        · cases hget
          exact ⟨rfl, ha⟩
        · cases hget
          exact ⟨rfl, rfl, by rw [Code.Allows, Code.Allows, show m = 0 from ha]⟩
    | _ => cases h
  | child j => cases code <;> cases h
  | table f =>
    cases code with
    | program =>
      have htable : Proc.table ⟨.program, fds, line, kids⟩ f = some t := h
      unfold Proc.table at htable
      split at htable
      · cases htable
        exact ⟨rfl, trivial⟩
      · cases htable
    | _ => cases h
  | ok =>
    cases code with
    | console =>
      obtain rfl : m = 0 := ha
      cases h
      exact ⟨console_kids, console_allows rfl⟩
    | parse =>
      have hparse : Proc.parsecmd ⟨.parse, fds, line, kids⟩ = some t := h
      unfold Proc.parsecmd at hparse
      split at hparse
      · cases hparse
        exact ⟨rfl, ha⟩
      · cases hparse
        exact ⟨rfl, trivial⟩
      · cases hparse
    | run cmd =>
      obtain rfl : m = 0 := ha
      cases h
      exact ⟨rfl, runcmd_allows cmd⟩
    | close fd k =>
      cases h
      exact ⟨rfl, ha⟩
    | dup fd k =>
      cases h
      exact ⟨rfl, ha⟩
    | opens file mode k =>
      cases h
      exact ⟨open_kids, open_allows ha⟩
    | pipe left right =>
      obtain rfl : m = 0 := ha
      cases h
      exact ⟨pipe_kids, pipe_allows⟩
    | exec argv =>
      cases h
      exact ⟨rfl, trivial⟩
    | exit =>
      cases h
      exact ⟨rfl, trivial⟩
    | _ => cases h

inductive Moves (s : Sys) : Sys → Prop where
  | call {p : Pid} {r t : Proc} {c : Choice} (hp : s p = some r) (h : call p r c = some t) : Moves s (s.put p t)
  | fork {p : Pid} {r : Proc} {child k : Code} (hp : s p = some r)
    (hc : r.code = .fork child k ∨ r.code = .program ∧ child = .program ∧ k = .program) : Moves s (fork p r child k s)
  | reap {p : Pid} {r : Proc} {j : Nat} {k : Code} (hp : s p = some r)
    (hc : r.code = .wait k ∨ r.code = .program ∧ k = .program) (hj : j < r.kids) (hz : zombie s (p ++ [j])) :
    Moves s ((s.drop (p ++ [j])).put p (r.goto k))
  | childless {p : Pid} {r : Proc} {k : Code} (hp : s p = some r) (hc : r.code = .wait k)
    (hno : ∀ j < r.kids, s (p ++ [j]) = none) : Moves s (s.put p (r.goto k))
  | orphan {p : Pid} {j : Nat} (hp : s p = none ∨ zombie s p) (hz : zombie s (p ++ [j])) : Moves s (s.drop (p ++ [j]))

theorem reap_moves {s u : Sys} {j : Nat} (hp : s p = some r) (hc : r.code = .wait k ∨ r.code = .program ∧ k = .program)
    (h : reap p r j k s = some u) : Moves s u := by
  unfold reap at h
  split at h
  · rename_i hj
    cases h
    exact .reap hp hc hj.1 hj.2
  · cases h

/-- **A step is one of these.** -/
theorem step_moves {s u : Sys} {a : Act} (h : step s a = some u) : Moves s u := by
  cases a with
  | orphan p j =>
    simp only [step] at h
    split at h
    · rename_i hz
      cases h
      exact .orphan hz.1 hz.2
    · cases h
  | step p c =>
    simp only [step] at h
    split at h
    · cases h
    · rename_i r hp
      split at h
      · rename_i child k hc
        cases h
        exact .fork hp (.inl hc)
      · rename_i hc
        cases h
        exact .fork hp (.inr ⟨hc, rfl, rfl⟩)
      · rename_i k j hc
        exact reap_moves hp (.inl hc) h
      · rename_i k hc
        unfold childless at h
        split at h
        · rename_i hno
          cases h
          exact .childless hp hc hno
        · cases h
      · rename_i j hc
        exact reap_moves hp (.inr ⟨hc, rfl⟩) h
      · obtain ⟨t, ht, rfl⟩ := Option.map_eq_some_iff.1 h
        exact .call hp ht

/-- **What holds between any two steps.** -/
structure Inv (s : Sys) : Prop where
  fits  : ∀ p r, s p = some r → r.Fits p
  fresh : Forest.Fresh Proc.kids s
  waits : ∀ p r, s p = some r → r.code.Allows (s.left p r.kids)

variable {s u : Sys} {child : Code} {j : Nat}

theorem Proc.Fits.child_of (h : r.Fits p)
    (hc : r.code = .fork child k ∨ r.code = .program ∧ child = .program ∧ k = .program) :
    Sh.Fits r.line child (p ++ [r.kids]) 0 r.fds ∧ Sh.Fits r.line k p (r.kids + 1) r.fds := by
  unfold Proc.Fits at h
  rcases hc with hc | ⟨hc, rfl, rfl⟩
  · rw [hc] at h
    exact h.2
  · rw [hc] at h
    exact ⟨Settled.child h _, h⟩

theorem Proc.Fits.wait_of (h : r.Fits p) (hc : r.code = .wait k ∨ r.code = .program ∧ k = .program) : (r.goto k).Fits p := by
  unfold Proc.Fits at h
  rcases hc with hc | ⟨hc, rfl⟩
  · rw [hc] at h
    exact h.2
  · rw [hc] at h
    exact h

theorem Inv.put (h : Inv s) (hp : s p = some r) (hk : t.kids = r.kids) (hf : t.Fits p)
    (ha : t.code.Allows (s.left p r.kids)) : Inv (s.put p t) := by
  have hleft : ∀ q n, (s.put p t).left q n = s.left q n := fun q n => Forest.left_put (by rw [hp]; rfl)
  refine ⟨fun q x hq => ?_, h.fresh.put hp hk.ge, fun q x hq => ?_⟩
  · rcases Forest.of_put hq with ⟨rfl, rfl⟩ | ⟨-, hq⟩
    · exact hf
    · exact h.fits q x hq
  · rw [hleft]
    rcases Forest.of_put hq with ⟨rfl, rfl⟩ | ⟨-, hq⟩
    · rwa [hk]
    · exact h.waits q x hq

theorem Inv.drop (h : Inv s) (hp : ∀ r, s p = some r → r.code.Allows ((s.drop (p ++ [j])).left p r.kids)) :
    Inv (s.drop (p ++ [j])) := by
  refine ⟨fun q x hq => h.fits q x (Forest.of_drop hq).2, h.fresh.drop _, fun q x hq => ?_⟩
  have hs := (Forest.of_drop hq).2
  by_cases hqp : q = p
  · exact hqp ▸ hp x (hqp ▸ hs)
  · rw [Forest.left_drop_ne fun i e => hqp (List.append_inj' e rfl).1]
    exact h.waits q x hs

theorem zombie_code (h : zombie s p) : ∃ r, s p = some r ∧ r.code = .zombie := by
  unfold zombie at h
  split at h
  · rename_i f l n hs
    exact ⟨_, hs, rfl⟩
  · cases h

theorem Inv.fork (h : Inv s) (hp : s p = some r)
    (hc : r.code = .fork child k ∨ r.code = .program ∧ child = .program ∧ k = .program) : Inv (Sh.fork p r child k s) := by
  obtain ⟨hchild, hk⟩ := (h.fits p r hp).child_of hc
  have ha : child.Allows 0 ∧ k.Allows (s.left p r.kids + 1) := by
    have := h.waits p r hp
    rcases hc with hc | ⟨hc, rfl, rfl⟩
    · rwa [hc] at this
    · exact ⟨trivial, trivial⟩
  have hnone : ∀ q, s (p ++ r.kids :: q) = none := h.fresh p r hp r.kids (Nat.le_refl _)
  refine ⟨fun q x hq => ?_, h.fresh.fork hp rfl, fun q x hq => ?_⟩
  · rcases Forest.of_fork hq with ⟨rfl, rfl⟩ | ⟨rfl, rfl⟩ | ⟨-, -, hq⟩
    · exact hk
    · exact hchild
    · exact h.fits q x hq
  · rcases Forest.of_fork hq with ⟨rfl, rfl⟩ | ⟨rfl, rfl⟩ | ⟨hqp, hqc, hq⟩
    · rw [Sh.fork, Forest.left_fork (by rw [hp]; rfl)]
      exact ha.2
    · exact ha.1
    · rw [Sh.fork, Forest.fork, Forest.left_put, Forest.left_put_ne fun i e => hqp (List.append_inj' e rfl).1]
      · exact h.waits q x hq
      · rw [Forest.put_ne (Forest.ne_child p r.kids).symm, hp]
        rfl

theorem Inv.reap (h : Inv s) (hp : s p = some r) (hc : r.code = .wait k ∨ r.code = .program ∧ k = .program) (hj : j < r.kids)
    (hz : zombie s (p ++ [j])) : Inv ((s.drop (p ++ [j])).put p (r.goto k)) := by
  have hp' : (s.drop (p ++ [j])) p = some r := by rwa [Forest.drop_ne (Forest.ne_child p j).symm]
  have hleft : ∀ q n, ((s.drop (p ++ [j])).put p (r.goto k)).left q n = (s.drop (p ++ [j])).left q n := fun q n =>
    Forest.left_put (by rw [hp']; rfl)
  refine ⟨fun q x hq => ?_, (h.fresh.drop _).put hp' (Nat.le_refl _), fun q x hq => ?_⟩
  · rcases Forest.of_put hq with ⟨rfl, rfl⟩ | ⟨-, hq⟩
    · exact (h.fits q r hp).wait_of hc
    · exact h.fits q x (Forest.of_drop hq).2
  · rw [hleft]
    rcases Forest.of_put hq with ⟨rfl, rfl⟩ | ⟨hqp, hq⟩
    · obtain ⟨x, hx, -⟩ := zombie_code hz
      have hsome : (s (q ++ [j])).isSome := by rw [hx]; rfl
      have hone := Forest.left_drop hj hsome
      have ha := h.waits q r hp
      rcases hc with hc | ⟨-, rfl⟩
      · rw [hc, ← hone] at ha
        exact ha
      · trivial
    · rw [Forest.left_drop_ne fun i e => hqp (List.append_inj' e rfl).1]
      exact h.waits q x (Forest.of_drop hq).2

/-- **Every step keeps it.** -/
theorem Inv.moves (h : Inv s) (hm : Moves s u) : Inv u := by
  cases hm with
  | call hp hcall =>
    obtain ⟨hk, ha⟩ := call_allows hcall (h.waits _ _ hp)
    exact h.put hp hk (call_fits hcall (h.fits _ _ hp)) ha
  | fork hp hc => exact h.fork hp hc
  | childless hp hc hno =>
    refine h.put hp rfl ((h.fits _ _ hp).wait_of (.inl hc)) ?_
    have ha := h.waits _ _ hp
    rw [hc, Forest.left_eq_zero.2 hno] at ha
    rw [Forest.left_eq_zero.2 hno]
    exact ha
  | reap hp hc hj hz => exact h.reap hp hc hj hz
  | @orphan p j hp hz =>
    refine h.drop fun r hr => ?_
    rcases hp with hp | hp
    · rw [hp] at hr
      cases hr
    · obtain ⟨x, hx, hcode⟩ := zombie_code hp
      cases hr.symm.trans hx
      rw [hcode]
      trivial

theorem Inv.init : Inv start := by
  have hroot : ∀ p r, start p = some r → p = [] ∧ r = ⟨.console, given, [], 0⟩ := fun p r hr => by
    unfold start at hr
    split at hr
    · exact ⟨‹_›, (Option.some.inj hr).symm⟩
    · cases hr
  refine ⟨fun p r hr => ?_, fun p r hr j _ q => ?_, fun p r hr => ?_⟩
  · obtain ⟨rfl, rfl⟩ := hroot p r hr
    exact ⟨rfl, rfl⟩
  · exact if_neg (by simp)
  · obtain ⟨rfl, rfl⟩ := hroot p r hr
    rfl

theorem Inv.run {as : List Act} (h : Inv s) (hr : run s as = some u) : Inv u := by
  induction as generalizing s with
  | nil => exact Option.some.inj hr ▸ h
  | cons a as ih =>
    obtain ⟨t, ht, hu⟩ := Option.bind_eq_some_iff.1 hr
    exact ih (h.moves (step_moves ht)) hu

/-- A process that is still about its descriptors, or about to exit. -/
def Code.Plumbs : Code → Prop
  | .close _ _ => True
  | .dup _ _   => True
  | .fork _ _  => True
  | .exit      => True
  | _          => False

theorem Fits.settled (h : Sh.Fits line k p n f) (hk : ¬ k.Plumbs) : Settled p f := by
  cases k with
  | console => exact h.2 ▸ given_settled p
  | main => exact h.2 ▸ given_settled p
  | parse => exact h.2.2.2 ▸ given_settled p
  | run cmd => exact Meant.settled h
  | pipe left right => exact Meant.settled h
  | exec argv => exact Meant.settled h
  | opens file mode k => exact h.1
  | wait k => exact h.1
  | program => exact h
  | close fd k => exact absurd trivial hk
  | dup fd k => exact absurd trivial hk
  | fork child k => exact absurd trivial hk
  | exit => exact absurd trivial hk
  | zombie => exact fun i x hx => by rw [h i] at hx; cases hx

/-- **The shell's descriptors.**  In whatever order its processes step and whichever calls fail, a program is executed with
the descriptors that the command means.  A process that is past its calls to `close` and `dup` has no end of a pipe but those
it is to use; so once the processes of a pipe's left side have exited, and its maker and the right side are past theirs, the
writing end is closed everywhere. -/
theorem shell_plumbed {as : List Act} (hs : run start as = some s) :
    (∀ p r argv, s p = some r → r.code = .exec argv → Meant r.line p r.kids (.exec argv) r.fds) ∧
    (∀ p r, s p = some r → ¬ r.code.Plumbs → Settled p r.fds) ∧
    ∀ p n, (∀ q r, s q = some r → q = p ∨ q = p ++ [n + 1] → ¬ r.code.Plumbs) →
      (∀ q r, s q = some r → p ++ [n] <+: q → r.code = .zombie) →
        ∀ q r i, s q = some r → r.fds i ≠ some (.writeEnd p n) := by
  have h := Inv.init.run hs
  refine ⟨fun p r argv hp hc => ?_, fun p r hp hc => (h.fits p r hp).settled hc, fun p n hquiet hleft q r i hq hi => ?_⟩
  · have hf : Sh.Fits r.line r.code p r.kids r.fds := h.fits p r hp
    rwa [hc] at hf
  · have hf : Sh.Fits r.line r.code q r.kids r.fds := h.fits q r hq
    have hpre : p ++ [n] <+: q := by
      rcases hf.near i _ hi with hpre | rfl | rfl
      · exact hpre
      · exact hf.settled (hquiet _ r hq (.inl rfl)) i _ hi
      · exact hf.settled (hquiet _ r hq (.inr rfl)) i _ hi
    rw [hleft q r hq hpre] at hf
    rw [hf i] at hi
    cases hi

/-- The left side of `a|b`. -/
theorem shell_plumbed_pipe : ∃ s r, run start [.step [] .fails, .step [] (.line [97, 124, 98]), .step [] .ok, .step [0] .ok,
    .step [0] .ok, .step [0] .ok, .step [0] .ok, .step [0, 0] .ok, .step [0, 0] .ok, .step [0, 0] .ok, .step [0, 0] .ok,
    .step [0, 0] .ok] = some s ∧ s [0, 0] = some r ∧ r.fds 1 = some (.writeEnd [0] 0) ∧
      Meant r.line [0, 0] r.kids (.exec [⟨0, 1⟩]) r.fds := by
  have hrun : ∃ s r, run start [.step [] .fails, .step [] (.line [97, 124, 98]), .step [] .ok, .step [0] .ok,
      .step [0] .ok, .step [0] .ok, .step [0] .ok, .step [0, 0] .ok, .step [0, 0] .ok, .step [0, 0] .ok, .step [0, 0] .ok,
      .step [0, 0] .ok] = some s ∧ s [0, 0] = some r ∧ r.code = .exec [⟨0, 1⟩] ∧ r.fds 1 = some (.writeEnd [0] 0) :=
    ⟨_, _, rfl, rfl, rfl, rfl⟩
  obtain ⟨s, r, hs, hr, hc, hw⟩ := hrun
  exact ⟨s, r, hs, hr, hw, (shell_plumbed hs).1 [0, 0] r _ hr hc⟩

/-- **The shell's order.**  A command is only run, and the prompt only shown, by a process whose children have all exited and
been waited for. -/
theorem shell_waits {as : List Act} (hs : run start as = some s) (hp : s p = some r)
    (hc : r.code = .main ∨ ∃ cmd, r.code = .run cmd) (j : Nat) : s (p ++ [j]) = none := by
  have h := Inv.init.run hs
  have hzero : s.left p r.kids = 0 := by
    have ha := h.waits p r hp
    rcases hc with hc | ⟨cmd, hc⟩
    · rwa [hc] at ha
    · rwa [hc] at ha
  by_cases hj : j < r.kids
  · exact Forest.left_eq_zero.1 hzero j hj
  · exact h.fresh p r hp j (Nat.not_lt.1 hj) []

/-- The prompt after `a`. -/
theorem shell_waits_prompt : ∃ s r, run start [.step [] .fails, .step [] (.line [97]), .step [] .ok, .step [0] .ok,
    .step [0] .ok, .step [0] .fails, .step [0] .ok, .step [] (.child 0)] = some s ∧ s [] = some r ∧ r.code = .main ∧
      s [0] = none := by
  have hrun : ∃ s r, run start [.step [] .fails, .step [] (.line [97]), .step [] .ok, .step [0] .ok, .step [0] .ok,
      .step [0] .fails, .step [0] .ok, .step [] (.child 0)] = some s ∧ s [] = some r ∧ r.code = .main :=
    ⟨_, _, rfl, rfl, rfl⟩
  obtain ⟨s, r, hs, hr, hc⟩ := hrun
  exact ⟨s, r, hs, hr, hc, shell_waits hs hr (.inl hc) 0⟩

end Sh
end Xv6
