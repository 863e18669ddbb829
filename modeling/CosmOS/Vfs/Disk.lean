import CosmOS.Vfs.Dentry

/-!
# Vfs.Disk — directories of a file system

The directory operations that a file system offers to the VFS: `Ext4Inode` and `FatInode`.

* A directory is the list of its entries.  ext4 compares names exactly; FAT32 ignores the case of ASCII
  names, and an entry with a long name also answers to its short name.
* `Request` is one operation and `apply` its result.  The number of a new file and its short name are
  chosen by the file system and are given with the request.  `fail` is an error of the device.
* `footprint` are the entries that a request may add or remove.

`.` and `..` are resolved before a lookup and are not entries here.  FAT32 has no links, and a file cannot
be removed or renamed there.
-/

namespace CosmOS.Vfs

open Function

/-- `FS_ERRNO`, as far as directory operations give it. -/
inductive FsErrno where
  | EPERM | ENOENT | EIO | EACCES | EBUSY | EEXIST | EXDEV | ENOTDIR | EISDIR | EROFS | ENOTEMPTY
  | EOPNOTSUPP
  deriving DecidableEq

inductive FileType where
  | regular
  | directory
  | symlink
  deriving DecidableEq

inductive FsKind where
  | ext4
  | fat32
  deriving DecidableEq

/-! ## Names on FAT32 -/

variable (n : Name)

def isAscii : Bool := n.all fun c => c.toNat < 128

def nameEq (a b : Name) : Bool :=
  if isAscii a && isAscii b then a.map Char.toLower = b.map Char.toLower else a = b

def validSfnChar (c : Char) : Bool := c.isAlphanum || "_-$~!".toList.contains c

/-- `encode_component` accepts it: no mixed case. -/
def validComponent : Bool :=
  n.all validSfnChar && !(n.any Char.isLower && n.any Char.isUpper)

/-- The white space of `str::trim`: the characters with the Unicode property `White_Space`. -/
def isWhiteSpace (c : Char) : Bool :=
  let code := c.toNat
  (0x9 ≤ code && code ≤ 0xD) || (0x2000 ≤ code && code ≤ 0x200A) ||
    [0x20, 0x85, 0xA0, 0x1680, 0x2028, 0x2029, 0x202F, 0x205F, 0x3000].contains code

def trim : Name := ((n.dropWhile isWhiteSpace).reverse.dropWhile isWhiteSpace).reverse

/-- `sfn_from_str`: the name that `name_string` gives back, if the name fits into the short form. -/
def sfnFromStr : Option Name :=
  let n := trim n
  if n = [] || n = ['.'] || n = ['.', '.'] then none
  else
    let base := n.takeWhile (· ≠ '.')
    let ext := (n.dropWhile (· ≠ '.')).drop 1
    if ext.contains '.' || base = [] || 8 < base.length || 3 < ext.length then none
    else if validComponent base && validComponent ext then
      some (if ext = [] then base else base ++ '.' :: ext)
    else none

/-! ## Directories -/

structure Dirent where
  dir : Ino
  name : Name
  /-- The short name of a long name. -/
  sfn : Option Name
  ino : Ino
  deriving DecidableEq

/-- The entry answers to the name. -/
def Dirent.names (kind : FsKind) (e : Dirent) (n : Name) : Bool :=
  match kind with
  | .ext4 => e.name = n
  | .fat32 => nameEq e.name n || e.sfn.any fun a => nameEq a n

structure Disk where
  kind : FsKind
  dirents : List Dirent
  isDir : Ino → Bool
  /-- The links of a file; a directory has one.  Without links the number is free. -/
  links : Ino → ℕ

namespace Disk

variable (disk : Disk)

/-- `ext4_dir_lookup`, `find_by_name_in_dir`. -/
def dirent? (d : Ino) (n : Name) : Option Dirent :=
  disk.dirents.find? fun e => e.dir = d && e.names disk.kind n

def find (d : Ino) (n : Name) : Option Ino :=
  if disk.isDir d then (disk.dirent? d n).map (·.ino) else none

def hasEntry (d : Ino) : Bool := disk.dirents.any fun e => e.dir = d

/-- The name under which a new entry is stored. -/
def storedName (n : Name) : Name :=
  match disk.kind with
  | .ext4 => n
  | .fat32 => (sfnFromStr n).getD n

/-- `find_in_dir`: an entry has the short name. -/
def hasShortName (d : Ino) (n : Name) : Bool :=
  disk.dirents.any fun e => e.dir = d && nameEq (e.sfn.getD e.name) n

/-- The name is taken.  `FatInode::create` also looks for the short name that it would store,
`FatInode::mkdir` only for the name as it is given. -/
def taken (ft : FileType) (d : Ino) (n : Name) : Bool :=
  (disk.dirent? d n).isSome ||
    (disk.kind = .fat32 && ft ≠ .directory && (sfnFromStr n).any (disk.hasShortName d))

def edit (removed added : List Dirent) : Disk :=
  { disk with dirents := disk.dirents.filter (fun e => e ∉ removed) ++ added }

end Disk

inductive Request where
  | create (ft : FileType) (d : Ino) (n : Name) (sfn : Option Name) (new : Option Ino)
  | link (d : Ino) (oldName newName : Name)
  | unlink (d : Ino) (n : Name)
  | rmdir (d : Ino) (n : Name)
  | rename (d : Ino) (n : Name) (d' : Ino) (n' : Name)
  deriving DecidableEq

namespace Disk

open FsErrno

variable (disk : Disk) (fail : Bool)

/-- `Ext4Inode::create_result`, `mkdir_result` and `symlink`; `FatInode::create` and `mkdir`. -/
def create (ft : FileType) (d : Ino) (n : Name) (sfn : Option Name)
    (new : Option Ino) : Option FsErrno × Disk :=
  if disk.kind = .fat32 ∧ ft = .symlink then (some .EOPNOTSUPP, disk)
  else if !disk.isDir d then (some (if disk.kind = .ext4 then .ENOTDIR else EIO), disk)
  else if disk.taken ft d n then
    (some (if disk.kind = .ext4 then .EEXIST else EIO), disk)
  else
    match new with
    | none => (some EIO, disk)
    | some i =>
      if disk.links i ≠ 0 then (some EIO, disk)
      else
        let disk' := disk.edit [] [⟨d, disk.storedName n, sfn, i⟩]
        -- `symlink` writes the target after the entry is made
        (if fail ∧ ft = .symlink then some EIO else none,
          { disk' with
            isDir := update disk.isDir i (ft = .directory)
            links := update disk.links i 1 })

variable (d : Ino)

/-- `Ext4Inode::link`. -/
def link (oldName newName : Name) : Option FsErrno × Disk :=
  if disk.kind = .fat32 then (some .EACCES, disk)
  else if !disk.isDir d then (some .ENOTDIR, disk)
  else
    match disk.dirent? d oldName with
    | none => (some .ENOENT, disk)
    | some e =>
      if (disk.dirent? d newName).isSome then (some .EEXIST, disk)
      else if fail then (some EIO, disk)
      else
        (none, { disk.edit [] [⟨d, newName, none, e.ino⟩] with
          links := update disk.links e.ino (disk.links e.ino + 1) })

/-- `Ext4Inode::unlink`. -/
def unlink (n : Name) : Option FsErrno × Disk :=
  if disk.kind = .fat32 then (some .EACCES, disk)
  else if !disk.isDir d then (some .ENOTDIR, disk)
  else
    match disk.dirent? d n with
    | none => (some .ENOENT, disk)
    | some e =>
      if disk.isDir e.ino then (some .EISDIR, disk)
      else if fail then (some EIO, disk)
      else
        (none, { disk.edit [e] [] with
          links := update disk.links e.ino (disk.links e.ino - 1) })

/-- `Ext4Inode::rmdir`. -/
def rmdir (n : Name) : Option FsErrno × Disk :=
  if disk.kind = .fat32 then (some .EACCES, disk)
  else if !disk.isDir d then (some .ENOTDIR, disk)
  else
    match disk.dirent? d n with
    | none => (some .ENOENT, disk)
    | some e =>
      if !disk.isDir e.ino then (some .ENOTDIR, disk)
      else if disk.hasEntry e.ino then (some .ENOTEMPTY, disk)
      else if fail then (some EIO, disk)
      else (none, { disk.edit [e] [] with links := update disk.links e.ino 0 })

/-- What `rename_child_to` finds wrong with an existing target. -/
def targetError (child target : Ino) : Option FsErrno :=
  if disk.isDir child && !disk.isDir target then some .ENOTDIR
  else if !disk.isDir child && disk.isDir target then some .EISDIR
  else if disk.isDir target && disk.hasEntry target then some .ENOTEMPTY
  else none

/-- `Ext4Inode::rename_child_to`. -/
def rename (n : Name) (d' : Ino) (n' : Name) :
    Option FsErrno × Disk :=
  if disk.kind = .fat32 then (some .EOPNOTSUPP, disk)
  else if !disk.isDir d || !disk.isDir d' then (some .ENOTDIR, disk)
  else
    match disk.dirent? d n, disk.dirent? d' n' with
    | none, _ => (some .ENOENT, disk)
    | some e, none =>
      if fail then (some EIO, disk) else (none, disk.edit [e] [⟨d', n', none, e.ino⟩])
    | some e, some t =>
      if e.ino = t.ino then (none, disk)
      else
        match disk.targetError e.ino t.ino with
        | some err => (some err, disk)
        | none =>
          if fail then (some EIO, disk)
          else
            (none, { disk.edit [e, t] [⟨d', n', none, e.ino⟩] with
              links := update disk.links t.ino
                (if disk.isDir t.ino then 0 else disk.links t.ino - 1) })

/-- The error, if any, and the directories after the request. -/
def apply : Request → Option FsErrno × Disk
  | .create ft d n sfn new => disk.create fail ft d n sfn new
  | .link d oldName newName => disk.link fail d oldName newName
  | .unlink d n => disk.unlink fail d n
  | .rmdir d n => disk.rmdir fail d n
  | .rename d n d' n' => disk.rename fail d n d' n'

/-- The entries that a request may add or remove. -/
def footprint : Request → List Dirent
  | .create _ d n sfn new => (new.map fun i => ⟨d, disk.storedName n, sfn, i⟩).toList
  | .link d oldName newName =>
    ((disk.dirent? d oldName).map fun e => ⟨d, newName, none, e.ino⟩).toList
  | .unlink d n | .rmdir d n => (disk.dirent? d n).toList
  | .rename d n d' n' =>
    match disk.dirent? d n with
    | none => []
    | some e => [e] ++ (disk.dirent? d' n').toList ++ [⟨d', n', none, e.ino⟩]

end Disk

end CosmOS.Vfs
