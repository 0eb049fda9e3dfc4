import Xv6.Files.Dir
/-!
# Files.Sysfile — files and system calls (file.c, sysfile.c)

The calls of process `p`.  An argument that `argstr` or `argint` refuses is `none`; all inodes are of one device.
-/
namespace Xv6
namespace Files

abbrev nofile : Nat := 16

def dot : Name := [46]
def dotDot : Name := [46, 46]

/-! ## Files -/

def State.setFile (s : State) (f : Fin nfile) (v : File) : State := { s with file := fun g => if g = f then v else s.file g }

def State.setOfile (s : State) (p fd : Nat) (v : Option (Fin nfile)) : State :=
  { s with ofile := fun q => if q = p then fun e => if e = fd then v else s.ofile q e else s.ofile q }

def filealloc : F (Option (Fin nfile)) := do
  match ← Prog.read (fun s => (List.finRange nfile).find? (fun f => decide ((s.file f).ref = 0))) with
  | none   => pure none
  | some f =>
    Prog.modify (fun s => s.setFile f { s.file f with ref := 1 })
    pure (some f)

def fdalloc (p : Nat) (f : Fin nfile) : F (Option Nat) := do
  match ← Prog.read (fun s => (List.range nofile).find? (fun fd => (s.ofile p fd).isNone)) with
  | none    => pure none
  | some fd =>
    Prog.modify (·.setOfile p fd (some f))
    pure (some fd)

def filedup (f : Fin nfile) : F Unit := do
  let ff ← Prog.read (·.file f)
  if ff.ref < 1 then Prog.stop (.panic "filedup") else Prog.modify (·.setFile f { ff with ref := ff.ref + 1 })

/-- The end of `fileclose`, for the last reference. -/
def lastClose (ff : File) : F Unit :=
  Prog.when (ff.type = .inode) (do
    beginOp
    iput ff.ip
    endOp)

def fileclose (f : Fin nfile) : F Unit := do
  let ff ← Prog.read (·.file f)
  if ff.ref < 1 then Prog.stop (.panic "fileclose")
  else if 0 < ff.ref - 1 then Prog.modify (·.setFile f { ff with ref := ff.ref - 1 })
  else
    Prog.modify (·.setFile f { ff with ref := 0, type := .none })
    lastClose ff

/-- `fileread` of an inode; `none` is `-1`. -/
def fileread (f : Fin nfile) (n : BitVec 32) : F (Option (List Byte)) := do
  let v ← Prog.read (·.file f)
  if !v.readable then pure none
  else
    ilock v.ip
    let r ← readi v.ip v.off n
    Prog.modify (·.setFile f { v with off := v.off + BitVec.ofNat 32 (r.getD []).length })
    iunlock v.ip
    pure r

/-- `max`, the bytes of one transaction. -/
def maxWrite : Nat := (Fs.maxOpBlocks - 1 - 1 - 2) / 2 * 512

/-- One transaction of `filewrite`. -/
def writeChunk (f : Fin nfile) (src : Nat → Byte) (n : Nat) : F Int := do
  beginOp
  let v ← Prog.read (·.file f)
  ilock v.ip
  let r ← writei v.ip src v.off (BitVec.ofNat 32 n)
  Prog.when (0 < r) (Prog.modify (·.setFile f { v with off := v.off + BitVec.ofInt 32 r }))
  iunlock v.ip
  endOp
  pure r

/-- The loop of `filewrite` on the `n` bytes that are left, in at most `k` turns. -/
def filewriteLoop (f : Fin nfile) : Nat → (Nat → Byte) → Nat → F Bool
  | 0, _, _ => pure true
  | k + 1, src, n =>
    if n = 0 then pure true
    else do
      let r ← writeChunk f src (min n maxWrite)
      if r < 0 then pure false
      else if r ≠ (min n maxWrite : Nat) then Prog.stop (.panic "short filewrite")
      else filewriteLoop f k (fun j => src (min n maxWrite + j)) (n - min n maxWrite)

/-- `filewrite` to an inode. -/
def filewrite (f : Fin nfile) (src : Nat → Byte) (n : Nat) : F Int := do
  let v ← Prog.read (·.file f)
  if !v.writable then pure (-1)
  else if ← filewriteLoop f n src n then pure n
  else pure (-1)

/-! ## Links -/

/-- `ip->nlink += k` and `iupdate`. -/
def relink (i : Nat) (k : BitVec 16) : F Unit := do
  Prog.modify (fun s => s.setIp i { s.ip i with nlink := (s.ip i).nlink + k })
  iupdate i

/-- `bad` of `sys_link`. -/
def unlinked (ip : Nat) : F Int := do
  ilock ip
  relink ip (-1)
  iunlockput ip
  endOp
  pure (-1)

def linkAt (dp : Nat) (name : Name) (ip : Nat) : F Int := do
  ilock dp
  if (← dirlink dp name ip) < 0 then
    iunlockput dp
    unlinked ip
  else
    iunlockput dp
    iput ip
    endOp
    pure 0

/-- `sys_link` of an inode that is locked. -/
def linkTo (p ip : Nat) (new : Path) : F Int := do
  if (← Prog.read (·.ip ip)).type = .dir then
    iunlockput ip
    endOp
    pure (-1)
  else
    relink ip 1
    iunlock ip
    match ← nameiparent p new with
    | none            => unlinked ip
    | some (dp, name) => linkAt dp name ip

def sysLink (p : Nat) (old new : Option Path) : F Int := do
  match old, new with
  | some old, some new =>
    beginOp
    match ← namei p old with
    | none =>
      endOp
      pure (-1)
    | some ip =>
      ilock ip
      linkTo p ip new
  | _, _ => pure (-1)

def isdirempty (dp : Nat) : F Bool := do
  let d ← Prog.read (·.ip dp)
  match ← scan dp "isdirempty: readi" (fun de => decide (de.inum ≠ 0)) ((offsets d.size).drop 2) with
  | none   => pure true
  | some _ => pure false

/-- `bad` of `sys_unlink`. -/
def unlinkBad (dp : Nat) : F Int := do
  iunlockput dp
  endOp
  pure (-1)

/-- `sys_unlink` of an entry that it removes. -/
def removeEntry (dp off ip : Nat) (dir : Bool) : F Int := do
  if (← writei dp (fun _ => 0) (BitVec.ofNat 32 off) 16) ≠ 16 then Prog.stop (.panic "unlink: writei")
  else
    Prog.when (dir = true) (relink dp (-1))
    iunlockput dp
    relink ip (-1)
    iunlockput ip
    endOp
    pure 0

def removable (ip : Nat) : F Bool := do
  if (← Prog.read (·.ip ip)).type = .dir then isdirempty ip else pure true

/-- `sys_unlink` of an entry that it has found. -/
def unlinkFound (dp off ip : Nat) : F Int := do
  ilock ip
  let d ← Prog.read (·.ip ip)
  if d.nlink.toInt < 1 then Prog.stop (.panic "unlink: nlink < 1")
  else if ← removable ip then removeEntry dp off ip (decide (d.type = .dir))
  else
    iunlockput ip
    unlinkBad dp

/-- `sys_unlink` in the directory of the entry. -/
def unlinkIn (dp : Nat) (name : Name) : F Int := do
  ilock dp
  if nameEq name dot || nameEq name dotDot then unlinkBad dp
  else
    match ← dirlookup dp name with
    | none           => unlinkBad dp
    | some (ip, off) => unlinkFound dp off ip

def sysUnlink (p : Nat) (path : Option Path) : F Int := do
  match path with
  | none      => pure (-1)
  | some path =>
    beginOp
    match ← nameiparent p path with
    | none =>
      endOp
      pure (-1)
    | some (dp, name) => unlinkIn dp name

/-! ## New inodes -/

/-- `create` where the name is there. -/
def createFound (dp ip : Nat) (type : FileType) : F (Option Nat) := do
  iunlockput dp
  ilock ip
  if type = .file ∧ (← Prog.read (·.ip ip)).type = .file then pure (some ip)
  else
    iunlockput ip
    pure none

/-- `.` and `..` of a new directory. -/
def dots (dp ip : Nat) : F Unit := do
  relink dp 1
  if (← dirlink ip dot ip) < 0 then Prog.stop (.panic "create dots")
  else if (← dirlink ip dotDot dp) < 0 then Prog.stop (.panic "create dots")
  else pure ()

/-- `create` where the name is not there. -/
def createNew (dp : Nat) (name : Name) (type : FileType) (major minor : BitVec 16) : F (Option Nat) := do
  let ip ← ialloc type
  ilock ip
  Prog.modify (fun s => s.setIp ip { s.ip ip with major := major, minor := minor, nlink := 1 })
  iupdate ip
  Prog.when (type = .dir) (dots dp ip)
  if (← dirlink dp name ip) < 0 then Prog.stop (.panic "create: dirlink")
  else
    iunlockput dp
    pure (some ip)

def create (p : Nat) (path : Path) (type : FileType) (major minor : BitVec 16) : F (Option Nat) := do
  match ← nameiparent p path with
  | none            => pure none
  | some (dp, name) =>
    ilock dp
    match ← dirlookup dp name with
    | some (ip, _) => createFound dp ip type
    | none         => createNew dp name type major minor

/-! ## The calls -/

/-- `sys_open` of an inode that is there. -/
def openOld (p : Nat) (path : Path) (omode : BitVec 32) : F (Option Nat) := do
  match ← namei p path with
  | none    => pure none
  | some ip =>
    ilock ip
    if (← Prog.read (·.ip ip)).type = .dir ∧ omode ≠ 0 then
      iunlockput ip
      pure none
    else pure (some ip)

/-- `sys_open` without a file or a descriptor. -/
def openFails (ip : Nat) : F Int := do
  iunlockput ip
  endOp
  pure (-1)

/-- `sys_open` of the locked inode `ip`. -/
def openFile (p ip : Nat) (omode : BitVec 32) : F Int := do
  match ← filealloc with
  | none   => openFails ip
  | some f =>
    match ← fdalloc p f with
    | none =>
      fileclose f
      openFails ip
    | some fd =>
      iunlock ip
      endOp
      Prog.modify (fun s => s.setFile f { s.file f with
        type := .inode, ip := ip, off := 0, readable := !omode.getLsbD 0, writable := omode.getLsbD 0 || omode.getLsbD 1 })
      pure fd

/-- The inode that `sys_open` opens, locked; bit 9 is `O_CREATE`. -/
def openInode (p : Nat) (path : Path) (omode : BitVec 32) : F (Option Nat) :=
  if omode.getLsbD 9 then create p path .file 0 0 else openOld p path omode

def sysOpen (p : Nat) (path : Option Path) (omode : Option (BitVec 32)) : F Int := do
  match path, omode with
  | some path, some omode =>
    beginOp
    match ← openInode p path omode with
    | none =>
      endOp
      pure (-1)
    | some ip => openFile p ip omode
  | _, _ => pure (-1)

/-- `sys_mkdir` and `sys_mknod`. -/
def make (p : Nat) (path : Path) (type : FileType) (major minor : BitVec 16) : F Int := do
  match ← create p path type major minor with
  | none =>
    endOp
    pure (-1)
  | some ip =>
    iunlockput ip
    endOp
    pure 0

/-- `end_op(); return -1`. -/
def fails : F Int := do
  endOp
  pure (-1)

def sysMkdir (p : Nat) (path : Option Path) : F Int := do
  beginOp
  match path with
  | none      => fails
  | some path => make p path .dir 0 0

def sysMknod (p : Nat) (path : Option Path) (major minor : Option (BitVec 32)) : F Int := do
  beginOp
  match path, major, minor with
  | some path, some major, some minor => make p path .dev (major.setWidth 16) (minor.setWidth 16)
  | _, _, _ => fails

/-- `sys_chdir` to the inode `ip`. -/
def chdirTo (p ip : Nat) : F Int := do
  ilock ip
  if (← Prog.read (·.ip ip)).type ≠ .dir then
    iunlockput ip
    fails
  else
    iunlock ip
    iput (← Prog.read (fun s => s.cwd p))
    endOp
    Prog.modify (fun s => { s with cwd := fun q => if q = p then ip else s.cwd q })
    pure 0

def sysChdir (p : Nat) (path : Option Path) : F Int := do
  beginOp
  match path with
  | none      => fails
  | some path =>
    match ← namei p path with
    | none    => fails
    | some ip => chdirTo p ip

def State.argfd (s : State) (p fd : Nat) : Option (Fin nfile) := if fd < nofile then s.ofile p fd else none

def sysDup (p : Nat) (fd : Nat) : F Int := do
  match ← Prog.read (·.argfd p fd) with
  | none   => pure (-1)
  | some f =>
    match ← fdalloc p f with
    | none    => pure (-1)
    | some fd =>
      filedup f
      pure fd

def sysClose (p : Nat) (fd : Nat) : F Int := do
  match ← Prog.read (·.argfd p fd) with
  | none   => pure (-1)
  | some f =>
    Prog.modify (·.setOfile p fd none)
    fileclose f
    pure 0

/-! ## `fork` and `exit` (proc.c) -/

/-- `fork` on a descriptor. -/
def dupFd (p q fd : Nat) : F Unit := do
  match ← Prog.read (fun s => s.ofile p fd) with
  | none   => pure ()
  | some f =>
    filedup f
    Prog.modify (·.setOfile q fd (some f))

def State.setCwd (s : State) (p i : Nat) : State := { s with cwd := fun q => if q = p then i else s.cwd q }

/-- The files and the directory that `fork` gives to process `q`. -/
def fork (p q : Nat) : F Unit := do
  Prog.forEach (List.range nofile) (dupFd p q)
  let i ← idup (← Prog.read (fun s => s.cwd p))
  Prog.modify (·.setCwd q i)

/-- `exit` on a descriptor. -/
def closeFd (p fd : Nat) : F Unit := do
  match ← Prog.read (fun s => s.ofile p fd) with
  | none   => pure ()
  | some f =>
    fileclose f
    Prog.modify (·.setOfile p fd none)

/-- `exit` on the files and the directory. -/
def exit (p : Nat) : F Unit := do
  Prog.forEach (List.range nofile) (closeFd p)
  beginOp
  iput (← Prog.read (fun s => s.cwd p))
  endOp

end Files
end Xv6
