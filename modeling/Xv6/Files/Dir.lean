import Xv6.Files.Inode
/-!
# Files.Dir — directories and paths (fs.c)

A directory is a file of entries of 16 bytes.  A path is the bytes of a C string.
-/
namespace Xv6
namespace Files

abbrev dirsiz : Nat := 14
abbrev rootIno : Nat := 1

abbrev Name := List Byte
abbrev Path := List Byte

def slash : Byte := 47

/-- `struct dirent`. -/
structure Dirent where
  inum : BitVec 16
  name : Name

def Dirent.ofBytes (l : List Byte) : Dirent := ⟨l.getD 1 0 ++ l.getD 0 0, l.drop 2⟩

/-- The bytes of an entry, after `strncpy(de.name, name, DIRSIZ)`. -/
def Dirent.byte (de : Dirent) (k : Nat) : Byte :=
  if k = 0 then de.inum.extractLsb' 0 8
  else if k = 1 then de.inum.extractLsb' 8 8
  else (de.name.take dirsiz).getD (k - 2) 0

/-- A name up to its end, in at most `DIRSIZ` bytes. -/
def cname (n : Name) : Name := (n.take dirsiz).takeWhile (fun b => b ≠ 0)

/-- `namecmp(s, t) == 0`. -/
def nameEq (s t : Name) : Bool := decide (cname s = cname t)

def readDirent (dp : Nat) (off : Nat) (msg : String) : F Dirent := do
  match ← readi dp (BitVec.ofNat 32 off) 16 with
  | none   => Prog.stop (.panic msg)
  | some l => if l.length = 16 then pure (Dirent.ofBytes l) else Prog.stop (.panic msg)

def offsets (size : BitVec 32) : List Nat := (List.range ((size.toNat + 15) / 16)).map (fun k => 16 * k)

def scan (dp : Nat) (msg : String) (test : Dirent → Bool) : List Nat → F (Option (Nat × Dirent))
  | []       => pure none
  | off :: l => do
    let de ← readDirent dp off msg
    if test de then pure (some (off, de)) else scan dp msg test l

/-- `dirlookup`, with the offset it stores in `*poff`. -/
def dirlookup (dp : Nat) (name : Name) : F (Option (Nat × Nat)) := do
  let d ← Prog.read (·.ip dp)
  if d.type ≠ .dir then Prog.stop (.panic "dirlookup not DIR")
  else
    match ← scan dp "dirlookup read" (fun de => decide (de.inum ≠ 0) && nameEq name de.name) (offsets d.size) with
    | none           => pure none
    | some (off, de) =>
      let i ← iget de.inum.toNat
      pure (some (i, off))

/-- `dirlink` of a name that is not present. -/
def addDirent (dp : Nat) (name : Name) (inum : Nat) : F Int := do
  let d ← Prog.read (·.ip dp)
  let hole ← scan dp "dirlink read" (fun de => decide (de.inum = 0)) (offsets d.size)
  let off := match hole with
    | none          => 16 * (offsets d.size).length
    | some (off, _) => off
  if (← writei dp (Dirent.byte ⟨BitVec.ofNat 16 inum, name⟩) (BitVec.ofNat 32 off) 16) ≠ 16 then
    Prog.stop (.panic "dirlink")
  else pure 0

def dirlink (dp : Nat) (name : Name) (inum : Nat) : F Int := do
  match ← dirlookup dp name with
  | some (i, _) =>
    iput i
    pure (-1)
  | none => addDirent dp name inum

/-- The next element of a path, and what follows it without leading slashes. -/
def skipelem (path : Path) : Option (Path × Name) :=
  match path.dropWhile (fun b => b = slash) with
  | []     => none
  | b :: l =>
    let elem := (b :: l).takeWhile (fun b => b ≠ slash)
    some (((b :: l).dropWhile (fun b => b ≠ slash)).dropWhile (fun b => b = slash), elem.take dirsiz)

/-- One turn of `namex` at a directory: stop with an inode or nothing, or go on. -/
inductive Walk where
  | stop (r : Option Nat)
  | next (ip : Nat)

def walk (parent : Bool) (ip : Nat) (rest : Path) (name : Name) : F Walk := do
  ilock ip
  if (← Prog.read (·.ip ip)).type ≠ .dir then
    iunlockput ip
    pure (.stop none)
  else if parent ∧ rest = [] then
    iunlock ip
    pure (.stop (some ip))
  else
    match ← dirlookup ip name with
    | none =>
      iunlockput ip
      pure (.stop none)
    | some (next, _) =>
      iunlockput ip
      pure (.next next)

/-- The loop of `namex` on the rest of a path, in at most `k` turns, with the last element that it copied. -/
def namexLoop (parent : Bool) : Nat → Nat → Path → Name → F (Option (Nat × Name))
  | 0, ip, _, name => pure (some (ip, name))
  | k + 1, ip, path, name =>
    match skipelem path with
    | none =>
      if parent then do
        iput ip
        pure none
      else pure (some (ip, name))
    | some (rest, elem) => do
      match ← walk parent ip rest elem with
      | .stop none     => pure none
      | .stop (some i) => pure (some (i, elem))
      | .next i        => namexLoop parent k i rest elem

/-- The inode at which `namex` starts. -/
def start (p : Nat) (path : Path) : F Nat := do
  let cwd ← Prog.read (fun s => s.cwd p)
  if path.head? = some slash then iget rootIno else idup cwd

/-- `namex` by process `p`; each turn takes something off the path. -/
def namex (p : Nat) (path : Path) (parent : Bool) : F (Option (Nat × Name)) := do
  let ip ← start p path
  namexLoop parent (path.length + 1) ip path []

def namei (p : Nat) (path : Path) : F (Option Nat) := do
  match ← namex p path false with
  | none         => pure none
  | some (ip, _) => pure (some ip)

def nameiparent (p : Nat) (path : Path) : F (Option (Nat × Name)) := namex p path true

end Files
end Xv6
