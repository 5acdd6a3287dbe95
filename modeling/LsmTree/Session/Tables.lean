import LsmTree.Session.Answer

/-!
# Steps on tables
-/

namespace LsmTree

/-- A step on the table of a name. -/
inductive TableStep
  | make
  | insert (entry : Entry)
  | lookup (key : Bytes)
  | all
  | range (bounds : KeyRange)
  | stat
  | drop
  | cursor (reader : String) (bounds : KeyRange)

namespace TableStep

/-- Takes the step. -/
def run (name : String) : TableStep → SessionM Answer
  | make => do
    modify fun session =>
      let (id, memory) := session.memory.newTable
      { session with memory, tables := session.tables.put name id }
    return .done
  | insert entry => do
    let id ← Session.object Session.tables name
    let (told, _) := ((← get).memory.table id).write entry
    modify fun session => { session with memory := session.memory.insert id entry }
    return .number told
  | lookup key => do
    let table := (← get).memory.table (← Session.object Session.tables name)
    return .lookup (table.get? key)
  | all => do
    let table := (← get).memory.table (← Session.object Session.tables name)
    return .entries table.entries
  | range bounds => do
    let table := (← get).memory.table (← Session.object Session.tables name)
    return .entries (table.rangeEntries bounds)
  | stat => do
    let table := (← get).memory.table (← Session.object Session.tables name)
    return .table table.count table.size table.isEmpty
  | drop => do
    let _ ← Session.object Session.tables name
    modify fun session => { session with tables := session.tables.erase name }
    return .done
  | cursor reader bounds => do
    let id ← Session.object Session.tables name
    modify fun session =>
      { session with cursors := session.cursors.addLeaf reader (.ofTable id bounds) }
    return .done

end TableStep

end LsmTree
