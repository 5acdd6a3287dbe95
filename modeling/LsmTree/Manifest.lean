import LsmTree.Bytes.Checksum
import LsmTree.Bytes.Word
import LsmTree.Error

/-!
# The manifest

The manifest lists the committed segments, oldest first, and the generation that may be handed out
next. Its bytes are a checksum and a length, four octets each, and then the payload that they describe:

| field | octets |
|---|---|
| version | 4 |
| next generation | 8 |
| count of segments | 8 |
| per segment: generation, entry count, data length, index length | 4 × 8 |
| per segment: 0, or 1 followed by the checksum of the data | 1 or 5 |

* **`Manifest.encode`** writes these bytes;
* **`Manifest.decode`** reads them; octets of the payload past the last segment are ignored.
-/

namespace LsmTree

/-- What the manifest records of a segment. -/
structure SegmentMeta where
  generation : UInt64
  entryCount : UInt64
  dataLen : UInt64
  indexLen : UInt64
  /-- The CRC-32 of the data file, if it is known. -/
  dataCrc : Option UInt32
  deriving DecidableEq, Repr

/-- The committed state of a data directory. -/
structure Manifest where
  version : UInt32
  /-- The least generation that may still be handed out. -/
  next : UInt64
  /-- The committed segments, oldest first. -/
  segments : List SegmentMeta
  deriving DecidableEq, Repr

/-- Reads a value from the front of the bytes and leaves the rest. -/
abbrev Decoder := StateT Bytes (Except DecodeFault)

namespace Decoder

/-- A number of `width` octets. -/
def word (width : Nat) : Decoder Nat := fun bytes =>
  match bytes.split? width with
  | some (front, rest) => .ok (Bytes.ofWord front, rest)
  | none => .error .endOfInput

/-- `count` values, one after the other. -/
def many {α : Type} (one : Decoder α) : Nat → Decoder (List α)
  | 0 => pure []
  | count + 1 => do
    let head ← one
    let tail ← many one count
    return head :: tail

/-- A value that may be missing: a zero octet, or a one and then the value. -/
def optional {α : Type} (one : Decoder α) : Decoder (Option α) := do
  match ← word 1 with
  | 0 => return none
  | 1 => return some (← one)
  | tag => throw (.invalidTag tag)

end Decoder

namespace SegmentMeta

/-- The octets of an optional checksum. -/
def encodeCrc : Option UInt32 → Bytes
  | none => [0]
  | some crc => 1 :: Bytes.word 4 crc.toNat

/-- The record of a segment in the payload. -/
def encode (segment : SegmentMeta) : Bytes :=
  Bytes.word 8 segment.generation.toNat ++ Bytes.word 8 segment.entryCount.toNat ++
    Bytes.word 8 segment.dataLen.toNat ++ Bytes.word 8 segment.indexLen.toNat ++
    encodeCrc segment.dataCrc

/-- Reads the record of a segment. -/
def decoder : Decoder SegmentMeta := do
  let generation ← Decoder.word 8
  let entryCount ← Decoder.word 8
  let dataLen ← Decoder.word 8
  let indexLen ← Decoder.word 8
  let dataCrc ← Decoder.optional (Decoder.word 4)
  return {
    generation := .ofNat generation
    entryCount := .ofNat entryCount
    dataLen := .ofNat dataLen
    indexLen := .ofNat indexLen
    dataCrc := dataCrc.map .ofNat }

end SegmentMeta

namespace Manifest

/-- The version of the format that is written and read. -/
def currentVersion : UInt32 := 1

/-- The manifest of a list of segments, oldest first, in the current version. -/
def current (next : UInt64) (segments : List SegmentMeta) : Manifest :=
  ⟨currentVersion, next, segments⟩

/-- The payload that records a manifest. -/
def payload (manifest : Manifest) : Bytes :=
  Bytes.word 4 manifest.version.toNat ++ Bytes.word 8 manifest.next.toNat ++
    Bytes.word 8 manifest.segments.length ++ manifest.segments.flatMap SegmentMeta.encode

/-- The checksum and the length that come before a payload. -/
def header (payload : Bytes) : Bytes :=
  Bytes.word 4 payload.crc32.toNat ++ Bytes.word 4 payload.length

/-- The bytes of the manifest file. The length field limits the payload. -/
def encode (manifest : Manifest) : Except Error Bytes :=
  let payload := manifest.payload
  if payload.length < UInt32.size then .ok (header payload ++ payload)
  else .error (.manifest (.tooLarge payload.length))

/-- Reads a payload. -/
def decoder : Decoder Manifest := do
  let version ← Decoder.word 4
  let next ← Decoder.word 8
  let count ← Decoder.word 8
  let segments ← Decoder.many SegmentMeta.decoder count
  return ⟨.ofNat version, .ofNat next, segments⟩

/-- Reads the bytes of a manifest file: the header is checked against the payload before any of it is
read, and the version after all of it is. -/
def decode (bytes : Bytes) : Except Error Manifest :=
  if bytes.length < 8 then .error (.manifest (.truncatedHeader bytes.length))
  else
    let crc := Bytes.ofWord (bytes.take 4)
    let length := Bytes.ofWord ((bytes.drop 4).take 4)
    let payload : Bytes := bytes.drop 8
    if payload.length ≠ length then .error (.manifest (.payloadLength payload.length length))
    else if payload.crc32.toNat ≠ crc then .error (.manifest .checksum)
    else
      match decoder payload with
      | .error fault => .error (.payload fault)
      | .ok (manifest, _) =>
        -- By now the bytes are known to be undamaged, so another version is really meant.
        if manifest.version ≠ currentVersion then .error (.manifest (.version manifest.version))
        else .ok manifest

end Manifest

end LsmTree
