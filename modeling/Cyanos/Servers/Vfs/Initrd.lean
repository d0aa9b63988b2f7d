import Cyanos.Servers.Vfs.Ramfs

/-!
# The initrd archive

The walks of `servers/vfs/src/lib.rs` over the newc archive: `find_in_initrd`, and the part of
`handle_getdents64` that lists what the archive has in a directory.

A slice outside of its bounds is a panic.  The sizes in an archive have eight hexadecimal digits and
a slice is shorter than `2 ^ 63` bytes, so the sums do not wrap.  The loops take a bound on the
number of headers they look at (`Stuck.endless` when it is used up).
-/

namespace Cyanos.Vfs

open Lib

/-- How a walk over an archive does not return. -/
inductive Stuck where
  /-- A slice outside of its bounds. -/
  | panic
  /-- More headers than were allowed. -/
  | endless
  deriving DecidableEq

/-- `&data[a..b]`. -/
def slice (data : List UInt8) (a b : ℕ) : Except Stuck (List UInt8) :=
  if a ≤ b ∧ b ≤ data.length then .ok ((data.drop a).take (b - a)) else .error .panic

/-- The value of a hexadecimal digit. -/
def hexDigit (b : UInt8) : Option ℕ :=
  let n := b.toNat
  if 48 ≤ n ∧ n ≤ 57 then some (n - 48)
  else if 97 ≤ n ∧ n ≤ 102 then some (n - 97 + 10)
  else if 65 ≤ n ∧ n ≤ 70 then some (n - 65 + 10)
  else none

/-- The value of hexadecimal digits, `none` if one of the bytes is not a digit. -/
def hexValue (s : List UInt8) : Option ℕ :=
  s.foldlM (fun val b => (hexDigit b).map (val * 16 + ·)) 0

/-- `parse_cpio_hex` of the VFS server. -/
def parseCpioHex (s : List UInt8) : ℕ := (hexValue s).getD 0

/-- `"070701"`. -/
def cpioMagic : List UInt8 := bstr "070701"

/-- `"TRAILER!!!"`. -/
def cpioTrailer : List UInt8 := bstr "TRAILER!!!"

/-- `(x + 3) & !3`. -/
def align4 (x : ℕ) : ℕ := (x + 3) / 4 * 4

/-- The list without `p` at its start. -/
def stripStart (p l : List UInt8) : List UInt8 := if p <+: l then l.drop p.length else l

/-- A name without a leading `./` and then without a leading `/`. -/
def cpioName (name : List UInt8) : List UInt8 := stripStart (bstr "/") (stripStart (bstr "./") name)

/-- The header at `offset`, if there is room for one and it begins with the magic number. -/
def cpioHeader (data : List UInt8) (offset : ℕ) : Except Stuck (Option (List UInt8)) :=
  if data.length < offset + 110 then .ok none
  else do
    let header ← slice data offset (offset + 110)
    let magic ← slice header 0 6
    return if magic = cpioMagic then some header else none

/-- The loop of `find_in_initrd`: where the file is, and its bytes. -/
def findLoop (data query : List UInt8) : ℕ → ℕ → Except Stuck (Option (ℕ × List UInt8))
  | 0, _ => .error .endless
  | fuel + 1, offset => do
    match ← cpioHeader data offset with
    | none => return none
    | some header =>
      let namesize := parseCpioHex (← slice header 94 102)
      let filesize := parseCpioHex (← slice header 54 62)
      let nameOff := offset + 110
      if data.length < nameOff + namesize then return none
      else
        let name ← slice data nameOff (nameOff + (namesize - 1))
        if name = cpioTrailer then return none
        else
          let fileOff := align4 (nameOff + namesize)
          let nextOff := align4 (fileOff + filesize)
          if cpioName name = query ∧ fileOff + filesize ≤ data.length then
            return some (fileOff, ← slice data fileOff (fileOff + filesize))
          else if nextOff ≤ offset then return none
          else findLoop data query fuel nextOff

/-- `find_in_initrd`, looking at `fuel` headers. -/
def findInInitrdWithin (fuel : ℕ) (data path : List UInt8) :
    Except Stuck (Option (ℕ × List UInt8)) :=
  if data.length < 6 then .ok none
  else do
    let magic ← slice data 0 6
    if magic = cpioMagic then findLoop data (stripStart (bstr "/") path) fuel 0
    else return none

/-- `find_in_initrd`; an archive has fewer headers than bytes. -/
def findInInitrd (data path : List UInt8) : Except Stuck (Option (ℕ × List UInt8)) :=
  findInInitrdWithin (data.length + 1) data path

/-- `is_duplicated`. -/
def isDuplicated (path : List UInt8) : Bool :=
  let p := bstr "/" ++ (cpioName path).take 254
  ramfs.any (·.path == p) || ramfsDirs.contains p

/-! ### Directory listings -/

/-- A listing so far: the bytes used in the buffer, the position of the descriptor, the number of
the next child, and what was stored. -/
structure Listing where
  off : ℕ
  pos : ℕ
  virtualIdx : ℕ
  stored : List (ℕ × List UInt8)

/-- `write_dirent`; `none` when the record does not fit. -/
def writeDirent (buf count : ℕ) (l : Listing) (ino : ℕ) (name : List UInt8) (dType : UInt8) :
    Option Listing :=
  let reclen := (8 + 8 + 2 + 1 + name.length + 1 + 7) / 8 * 8
  if count < l.off + reclen then none
  else some { l with
    off := l.off + reclen
    pos := l.pos + 1
    stored := l.stored ++ [(buf + l.off,
      leBytes 8 ino ++ leBytes 8 0 ++ leBytes 2 reclen ++ [dType] ++ name ++ [0])] }

/-- A child is listed if it was not listed by an earlier request; an error is a full buffer. -/
def listChild (buf count : ℕ) (l : Listing) (ino : ℕ) (name : List UInt8) (dType : UInt8) :
    Except Listing Listing :=
  if l.pos ≤ l.virtualIdx then
    match writeDirent buf count l ino name dType with
    | none => .error l
    | some l => .ok { l with virtualIdx := l.virtualIdx + 1 }
  else .ok { l with virtualIdx := l.virtualIdx + 1 }

/-- The name in the directory `dir` of the path of a child of it. -/
def childName (dir child : List UInt8) : Option (List UInt8) :=
  if dir = bstr "/" then
    if 1 < child.length ∧ bstr "/" <+: child ∧ 47 ∉ child.drop 1 then some (child.drop 1) else none
  else
    if dir.length + 1 < child.length ∧ dir <+: child ∧ child[dir.length]? = some 47 ∧
        47 ∉ child.drop (dir.length + 1) then
      some (child.drop (dir.length + 1))
    else none

/-- The children among `RAMFS_DIRS`. -/
def listDirs (buf count : ℕ) (dir : List UInt8) (l : Listing) : Except Listing Listing :=
  ramfsDirs.foldlM (fun l child =>
    if child = dir then .ok l
    else match childName dir child with
      | none => .ok l
      | some name => listChild buf count l (l.virtualIdx + 100) name 4) l

/-- The children in `RAMFS`. -/
def listFiles (buf count : ℕ) (dir : List UInt8) (l : Listing) : Except Listing Listing :=
  ramfs.foldlM (fun l entry =>
    match childName dir entry.path with
    | none => .ok l
    | some name => listChild buf count l (l.virtualIdx + 200) name 8) l

/-- A directory without a leading and a trailing `/`. -/
def matchDir (dir : List UInt8) : List UInt8 :=
  let d := stripStart (bstr "/") dir
  if bstr "/" <:+ d then d.dropLast else d

/-- The name in the directory `dir` of an entry of the archive that is in it. -/
def initrdChild (dir name : List UInt8) : Option (List UInt8) :=
  let matchName := cpioName name
  let d := matchDir dir
  if dir = bstr "/" then
    if matchName ≠ [] ∧ 47 ∉ matchName ∧ matchName ≠ bstr "." then some matchName else none
  else if d ≠ [] ∧ d <+: matchName ∧ matchName[d.length]? = some 47 then
    let r := matchName.drop (d.length + 1)
    if r ≠ [] ∧ 47 ∉ r then some r else none
  else none

/-- The entry at `offset` of the archive is listed if it is a child that is not in RamFS. -/
def listEntry (buf count : ℕ) (dir : List UInt8) (offset mode : ℕ) (name : List UInt8)
    (l : Listing) : Except Listing Listing :=
  match initrdChild dir name with
  | none => .ok l
  | some child =>
    if isDuplicated name then .ok l
    else listChild buf count l (1000 + offset) child (if mode &&& 0o170000 = 0o040000 then 4 else 8)

/-- The loop of `handle_getdents64` over the archive. -/
def listLoop (buf count : ℕ) (dir data : List UInt8) :
    ℕ → ℕ → Listing → Except Stuck (Except Listing Listing)
  | 0, _, _ => .error .endless
  | fuel + 1, offset, l => do
    match ← cpioHeader data offset with
    | none => return .ok l
    | some header =>
      let namesize := parseCpioHex (← slice header 94 102)
      let filesize := parseCpioHex (← slice header 54 62)
      let mode := parseCpioHex (← slice header 14 22)
      let nameOff := offset + 110
      if data.length < nameOff + namesize then return .ok l
      else
        -- The end is one before the start of the name when the name has size 0.
        let name ← slice data nameOff (nameOff + namesize - 1)
        if name = cpioTrailer then return .ok l
        else
          match listEntry buf count dir offset mode name l with
          | .error l => return .error l
          | .ok l =>
            let nextOff := align4 (align4 (nameOff + namesize) + filesize)
            if nextOff ≤ offset then return .ok l
            else listLoop buf count dir data fuel nextOff l

/-- The part of `handle_getdents64` over the archive, looking at `fuel` headers. -/
def listInitrdWithin (fuel buf count : ℕ) (dir data : List UInt8) (l : Listing) :
    Except Stuck (Except Listing Listing) :=
  if 6 < data.length then do
    let magic ← slice data 0 6
    if magic = cpioMagic then listLoop buf count dir data fuel 0 l else return .ok l
  else .ok (.ok l)

/-- `handle_getdents64` on a directory, from the first record on: the listing when the buffer is
full or there are no more children. -/
def listDirectoryWithin (fuel buf count : ℕ) (dir data : List UInt8) (pos : ℕ) :
    Except Stuck Listing :=
  let start : Listing := ⟨0, pos, 2, []⟩
  let dots : Except Listing Listing := do
    let l ← if start.pos = 0 then
        (writeDirent buf count start 1 (bstr ".") 4).elim (.error start) .ok
      else .ok start
    if l.pos = 1 then (writeDirent buf count l 1 (bstr "..") 4).elim (.error l) .ok else .ok l
  match dots.bind fun l => (listDirs buf count dir l).bind (listFiles buf count dir) with
  | .error l => .ok l
  | .ok l =>
    (listInitrdWithin fuel buf count dir data l).map fun r =>
      match r with
      | .error l => l
      | .ok l => l

end Cyanos.Vfs
