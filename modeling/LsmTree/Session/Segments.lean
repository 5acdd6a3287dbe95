import LsmTree.Session.Answer

/-!
# Steps on builders, segments and manifest files
-/

namespace LsmTree

/-- A step on the builder of a name. -/
inductive BuilderStep
  | start (dir : String) (generation : UInt64) (sync : Bool)
  | add (entry : Entry)
  | addAll (entries : List Entry)
  | count
  | finish
  | drop

namespace BuilderStep

/-- Gives up the builder of a name, if there is one. -/
def discard (name : String) : StateM Session Unit := do
  let session ← get
  match Named.get? session.builders name with
  | none => return
  | some (dir, builder) =>
    set { session with builders := session.builders.erase name }
    Session.onDisk dir builder.discard

/-- Puts a builder under a name. -/
def keep (name dir : String) (builder : Builder) : StateM Session Unit :=
  modify fun session => { session with builders := session.builders.put name (dir, builder) }

/-- Takes the step. -/
def run (name : String) : BuilderStep → SessionM Answer
  | start dir generation sync => do
    discard name
    keep name dir (← Session.tryOnDisk dir (Builder.start generation sync))
    return .done
  | add entry => do
    let (dir, builder) ← Session.object Session.builders name
    let builder ← Session.tryOnDisk dir (builder.add entry)
    keep name dir builder
    return .number builder.count
  | addAll entries => do
    let (dir, builder) ← Session.object Session.builders name
    let (builder, refusal) ←
      (Session.onDisk dir (builder.addAll entries) : StateM Session (Builder × Option Error))
    keep name dir builder
    match refusal with
    | some error => throw (.store error)
    | none => return .number builder.count
  | count => do
    let (_, builder) ← Session.object Session.builders name
    return .number builder.count
  | finish => do
    let (dir, builder) ← Session.object Session.builders name
    modify fun session => { session with builders := session.builders.erase name }
    return .info (← Session.tryOnDisk dir builder.finish)
  | drop => do
    let _ ← Session.object Session.builders name
    discard name
    return .done

end BuilderStep

/-- A step on the opened segment of a name. -/
inductive SegmentStep
  | load (dir : String) (generation : UInt64) (recorded : Option SegmentMeta) (verified : Bool)
  | find (keys : List Bytes)
  | range (bounds : KeyRange)
  | cursor (reader : String) (bounds : KeyRange)
  | stat
  /-- Marks the segment as replaced. -/
  | replace
  | drop

namespace SegmentStep

/-- What is told of an opened segment. -/
def report (session : Session) (handle : Handle) : SegmentReport where
  info := handle.segment.info
  count := handle.segment.count
  dataLen := handle.segment.sizes.data
  indexLen := handle.segment.sizes.index
  replaced := session.isReplaced handle
  dataPath := FileName.join handle.dir (FileName.segment .data handle.segment.generation)
  indexPath := FileName.join handle.dir (FileName.segment .index handle.segment.generation)

/-- Takes the step. -/
def run (name : String) : SegmentStep → SessionM Answer
  | load dir generation recorded verified => do
    Session.dropSegment name
    let segment ← Session.tryOnDisk dir (Segment.load generation recorded verified)
    Session.nameSegment name (← Session.adopt dir segment)
    return .info segment.info
  | find keys => do
    let handle ← Session.object Session.segments name
    return .lookups (keys.map handle.segment.find?)
  | range bounds => do
    let handle ← Session.object Session.segments name
    return .entries (handle.segment.rangeEntries bounds)
  | cursor reader bounds => do
    let handle ← Session.object Session.segments name
    modify fun session =>
      { session with cursors := session.cursors.addLeaf reader (.ofHandle handle bounds) }
    return .done
  | stat => do
    let handle ← Session.object Session.segments name
    return .segment (report (← get) handle)
  | replace => do
    let handle ← Session.object Session.segments name
    modify fun session =>
      if session.isReplaced handle then session
      else { session with replaced := session.replaced ++ [handle] }
    return .done
  | drop => do
    let _ ← Session.object Session.segments name
    Session.dropSegment name
    return .done

end SegmentStep

/-- A step on the manifest file of a directory. -/
inductive ManifestStep
  | load
  | store (manifest : Manifest)

namespace ManifestStep

/-- Takes the step. -/
def run (dir : String) : ManifestStep → SessionM Answer
  | load => return .manifest (← Session.tryOnDisk dir Manifest.load)
  | store manifest => do
    Session.tryOnDisk dir manifest.store
    return .done

end ManifestStep

end LsmTree
