import WinIndex.Indexer

/-!
# The age of the index file

`IndexStore::IsIndexValid` and `IndexStore::GetIndexAgeSeconds` (src/core/storage/IndexStore.cpp): the two computations of an age
from the clock and the last write of the file, both numbers of 100 nanoseconds in 64 bits. `fad` is what `GetFileAttributesExW`
says of the file.
-/

namespace WinIndex

/-- `FILETIME`. -/
structure FileTime where
  dwHighDateTime : UInt32
  dwLowDateTime : UInt32

/-- `nowVal`, from `GetSystemTimeAsFileTime`. -/
def FileTime.val (now : FileTime) : UInt64 := combine now.dwHighDateTime now.dwLowDateTime

/-- `fileVal`, from `ftLastWriteTime`. -/
def AttributeData.fileVal (fad : AttributeData) : UInt64 := combine fad.dwHighDateTime fad.dwLowDateTime

/-- `hundredNsPerHour`. -/
def hundredNsPerHour : UInt64 := 36000000000

/-- `IsIndexValid`. -/
def isIndexValid (fad : Option AttributeData) (reindexIntervalHours : UInt64) (now : FileTime) : Bool :=
  match fad with
  | none => false
  | some fad =>
    if reindexIntervalHours = 0 then true
    else
      let ageHours := (now.val - fad.fileVal) / hundredNsPerHour
      ageHours < reindexIntervalHours

/-- `GetIndexAgeSeconds`. -/
def getIndexAgeSeconds (fad : Option AttributeData) (now : FileTime) : UInt64 :=
  match fad with
  | none => 0xFFFFFFFFFFFFFFFF
  | some fad => if now.val ≤ fad.fileVal then 0 else (now.val - fad.fileVal) / 10000000

end WinIndex
