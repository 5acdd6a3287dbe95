import LsmTree.FileName
import LsmTree.Text.Hex
import LsmTree.Text.Quoted

/-!
# Errors

Each cause of failure has its own constructor, which carries what the message tells. The wording is in
the `message` functions and nowhere else.
-/

namespace LsmTree

/-- Why the file system refused an operation. -/
inductive OsError
  | noEntry
  | denied
  | alreadyExists
  | noDevice
  | notDirectory
  | isDirectory
  | invalid
  | nameTooLong
  | notEmpty
  /-- A path holds the octet zero, so it cannot even be asked for. -/
  | nulByte
  deriving DecidableEq, Repr

namespace OsError

/-- The reason, with its number if it has one. -/
def message : OsError → String
  | noEntry => "No such file or directory (os error 2)"
  | denied => "Permission denied (os error 13)"
  | alreadyExists => "File exists (os error 17)"
  | noDevice => "No such device (os error 19)"
  | notDirectory => "Not a directory (os error 20)"
  | isDirectory => "Is a directory (os error 21)"
  | invalid => "Invalid argument (os error 22)"
  | nameTooLong => "File name too long (os error 36)"
  | notEmpty => "Directory not empty (os error 39)"
  | nulByte => "file name contained an unexpected NUL byte"

end OsError

/-- Why a data directory cannot be opened. -/
inductive InitFault
  | notDirectory (dir : String)
  | missingDirectory (dir : String)
  | unusableDirectory (dir : String) (cause : OsError)
  | missingFiles (generation : UInt64)
  deriving DecidableEq, Repr

namespace InitFault

def message : InitFault → String
  | notDirectory dir => s!"{dir} is not a directory"
  | missingDirectory dir => s!"data directory {dir} does not exist"
  | unusableDirectory dir cause => s!"data directory {dir} is unusable: {cause.message}"
  | missingFiles generation =>
    s!"segment {generation.toNat} is committed but its files are missing"

end InitFault

/-- The sizes of a segment: entries, octets of data, octets of index. -/
structure SegmentSizes where
  entries : Nat
  data : Nat
  index : Nat
  deriving DecidableEq, Repr

def SegmentSizes.message (sizes : SegmentSizes) : String :=
  s!"{sizes.entries} entries, data {sizes.data} bytes, index {sizes.index} bytes"

/-- Why the files of a segment are not accepted. -/
inductive SegmentFault
  | raggedIndex (length : Nat)
  | unpairedIndex (slots : Nat)
  | nonzeroStart
  | strayFlag (slot : Nat)
  | decreasing (slot offset previous : Nat)
  | valuedTombstone (entry : Nat)
  | dataLength (indexed actual : Nat)
  | sizes (onDisk recorded : SegmentSizes)
  | checksum (actual recorded : UInt32)
  | keyOrder (entry : Nat)
  | missingHalf (half : Half)
  deriving DecidableEq, Repr

namespace SegmentFault

def message : SegmentFault → String
  | raggedIndex length => s!"index length {length} is not a multiple of 8"
  | unpairedIndex slots => s!"index holds {slots} offsets, expected 2N+1"
  | nonzeroStart => "first offset is not zero"
  | strayFlag slot => s!"tombstone flag outside a key/value boundary at offset {slot}"
  | decreasing slot offset previous => s!"offset {slot} decreases ({offset} < {previous})"
  | valuedTombstone entry => s!"tombstone at entry {entry} carries value bytes"
  | dataLength indexed actual => s!"index ends at {indexed}, data file holds {actual} bytes"
  | sizes onDisk recorded => s!"on disk: {onDisk.message}; manifest: {recorded.message}"
  | checksum actual recorded =>
    let hex (crc : UInt32) := String.ofList (Text.Hex.digits 8 crc.toNat)
    s!"data checksum {hex actual}, expected {hex recorded}"
  | keyOrder entry => s!"keys out of order at entry {entry}"
  | missingHalf .data => "data file is missing"
  | missingHalf .index => "index file is missing"

end SegmentFault

/-- Why the bytes of a manifest are not accepted, or cannot be made. -/
inductive ManifestFault
  | truncatedHeader (length : Nat)
  | payloadLength (actual stated : Nat)
  | checksum
  | version (found : UInt32)
  | tooLarge (length : Nat)
  deriving DecidableEq, Repr

namespace ManifestFault

def message : ManifestFault → String
  | truncatedHeader length => s!"truncated header ({length} bytes)"
  | payloadLength actual stated => s!"payload is {actual} bytes, header says {stated}"
  | checksum => "checksum mismatch"
  | version found => s!"unsupported format version {found.toNat}"
  | tooLarge length => s!"manifest too large: {length} bytes"

end ManifestFault

/-- Why the payload of a manifest cannot be read. -/
inductive DecodeFault
  | endOfInput
  | invalidTag (tag : Nat)
  deriving DecidableEq, Repr

namespace DecodeFault

def message : DecodeFault → String
  | endOfInput => "io error: unexpected end of file"
  | invalidTag tag => s!"tag for enum is not valid, found {tag}"

end DecodeFault

/-- Why an operation failed. -/
inductive Error
  | io (cause : OsError)
  | init (fault : InitFault)
  | corrupt (generation : UInt64) (fault : SegmentFault)
  | outOfOrder (generation : UInt64) (key last : Bytes)
  | manifest (fault : ManifestFault)
  | payload (fault : DecodeFault)
  | closed
  deriving DecidableEq, Repr

namespace Error

/-- The text of an error. -/
def message : Error → String
  | io cause => s!"IO error: {cause.message}"
  | init fault => s!"Initialization failed: {fault.message}"
  | corrupt generation fault => s!"Corrupt segment {generation.toNat}: {fault.message}"
  | outOfOrder generation key last =>
    s!"Storage error: segment {generation.toNat}: key {Text.Quoted.text key}" ++
      s!" not after {Text.Quoted.text last}"
  | manifest fault => s!"Manifest error: {fault.message}"
  | payload fault => s!"Serialization error: {fault.message}"
  | closed => "Engine is closed"

end Error

end LsmTree
