import PredicateIndex.Disk

/-!
# Lock files

A lock is held on a file, by identity, until its handle is released. Taking a
lock opens and empties the file first, and only then finds out whether another
handle holds it; the holder writes its process id on a line of its own.
-/

set_option autoImplicit false

namespace PredicateIndex

structure FileLock where
  file : FileId
  path : Path
  deriving DecidableEq, Repr

namespace FileLock

def ownerText (process : Nat) : Bytes :=
  (Nat.toDigits 10 process).map (fun c => UInt8.ofNat c.toNat) ++ [10]

def acquire (path : Path) (disk : Disk) : Except Fault FileLock × Disk :=
  match disk.openFile path with
  | .error cause => (.error (.file cause), disk)
  | .ok (file, disk) =>
    if file ∈ disk.locked then (.error (.file .lockHeld), disk.setContent file [])
    else
      (.ok ⟨file, path⟩,
        { disk.setContent file (ownerText disk.process) with locked := file :: disk.locked })

def release (lock : FileLock) (disk : Disk) : Disk :=
  { disk with locked := disk.locked.erase lock.file }

def namesOwner (lock : FileLock) (disk : Disk) : Bool :=
  disk.content lock.file = ownerText disk.process

end FileLock

end PredicateIndex
