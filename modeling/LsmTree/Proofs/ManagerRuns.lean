import LsmTree.Proofs.Runs
import LsmTree.Session.Answer

/-!
# A directory and the manager that uses it

A session reduced to one data directory, used by one manager at a time, with the segments that the manager
has opened or built. No segment is marked as replaced, so letting go of one leaves its files. Events take
place in any order: steps of the manager, openings, and directories that are put in the way of files or
taken away again.

* **`Store.step`** — what an event answers and what it makes of the store;
* **`Store.run`** — a sequence of events, with their answers;
* **`Store.Reached`** — the stores that events lead to from an empty directory, each with a
  **`Store.Ledger`** of the list committed last.
-/

namespace LsmTree

/-- A data directory with the manager that uses it, if there is one. -/
structure Store where
  dir : Snapshot
  manager : Option Manager
  /-- The segments that the manager has opened or built. -/
  segments : List Segment

namespace Store

/-- What may happen in a store. -/
inductive Event
  /-- Opens the directory; a manager that still uses it is let go first. -/
  | load (config : Config)
  | allocate
  | build (entries : List Entry)
  /-- Commits the segments at the given positions among those opened or built, newest first. -/
  | commit (positions : List Nat)
  /-- Lets go of the manager and of its segments. -/
  | drop
  /-- Puts a directory under a name that is free. -/
  | block (name : String)
  /-- Takes an empty directory away. -/
  | unblock (name : String)

/-- The store at the start. -/
def empty : Store := ⟨.empty, none, []⟩

/-- The segments at the given positions, in any order and as often as they are given. -/
def pick (store : Store) (positions : List Nat) : List Segment :=
  positions.filterMap fun position => store.segments[position]?

/-- Opens the directory. -/
def load (store : Store) (config : Config) : Except StepFault Answer × Store :=
  match (Manager.recover config).run.run (.ofSnapshot store.dir) with
  | (.error error, disk) => (.error (.store error), ⟨disk.snapshot, none, []⟩)
  | (.ok (manager, segments), disk) =>
    (.ok (.manager manager.next (segments.map Segment.info)), ⟨disk.snapshot, some manager, segments⟩)

/-- Writes entries as the segment of the next generation, with a manager. -/
def build (store : Store) (manager : Manager) (entries : List Entry) :
    Except StepFault Answer × Store :=
  let (generation, manager) := manager.allocate
  match (Manager.build manager.sync generation entries).run.run (.ofSnapshot store.dir) with
  | (.error error, disk) =>
    (.error (.store error), { store with dir := disk.snapshot, manager := some manager })
  | (.ok built, disk) =>
    (.ok (.info (built.map Segment.info)),
      ⟨disk.snapshot, some manager, store.segments ++ built.toList⟩)

/-- Commits segments, with a manager. -/
def commit (store : Store) (manager : Manager) (segments : List Segment) :
    Except StepFault Answer × Store :=
  match (manager.commit segments).run.run (.ofSnapshot store.dir) with
  | (.error error, disk) => (.error (.store error), { store with dir := disk.snapshot })
  | (.ok _, disk) => (.ok .done, { store with dir := disk.snapshot })

/-- Changes the directory from outside, unless that is refused. -/
def change (store : Store) (changed : Except OsError Directory) : Except StepFault Answer × Store :=
  match changed with
  | .error cause => (.error (.files cause), store)
  | .ok names => (.ok .done, { store with dir := { store.dir with names } })

/-- Takes a step that needs a manager. -/
def withManager (store : Store) (step : Manager → Except StepFault Answer × Store) :
    Except StepFault Answer × Store :=
  match store.manager with
  | none => (.error .noObject, store)
  | some manager => step manager

/-- What an event answers and makes of the store. -/
def step (store : Store) : Event → Except StepFault Answer × Store
  | .load config => store.load config
  | .allocate => store.withManager fun manager =>
    let (generation, manager) := manager.allocate
    (.ok (.number generation.toNat), { store with manager := some manager })
  | .build entries => store.withManager fun manager => store.build manager entries
  | .commit positions => store.withManager fun manager => store.commit manager (store.pick positions)
  | .drop => (.ok .done, { store with manager := none, segments := [] })
  | .block name => store.change (store.dir.names.makeFolder name)
  | .unblock name => store.change (store.dir.names.removeFolder name)

/-- Takes one event after another, and tells each with its answer. -/
def run (store : Store) : List Event → List (Event × Except StepFault Answer) × Store
  | [] => ([], store)
  | event :: rest =>
    let (answer, store) := store.step event
    let (answers, store) := store.run rest
    ((event, answer) :: answers, store)

/-- How many generations an event hands out: one for each segment that is to be built, whether or not it
comes to that. -/
def handsOut (store : Store) : Event → Nat
  | .allocate | .build _ => if store.manager.isSome then 1 else 0
  | _ => 0

/-- A list of segments that was committed, and the next generation at that time. -/
structure Commit where
  /-- The segments, newest first. -/
  segments : List Segment
  next : UInt64

/-- What is known of a directory from the events in it. -/
structure Ledger where
  /-- The list that was committed last, or that an opening has returned since, if there was one. -/
  last : Option Commit
  /-- How many generations were ever handed out. -/
  handedOut : Nat

namespace Ledger

/-- The ledger of a directory that was never opened. -/
def empty : Ledger := ⟨none, 0⟩

/-- Notes an event of a store. -/
def note (ledger : Ledger) (store : Store) (event : Event) : Ledger :=
  let handedOut := ledger.handedOut + store.handsOut event
  let (answer, after) := store.step event
  match event, answer with
  | .load _, .ok _ => ⟨after.manager.map fun manager => ⟨after.segments, manager.next⟩, handedOut⟩
  | .commit positions, .ok _ =>
    ⟨after.manager.map fun manager => ⟨store.pick positions, manager.next⟩, handedOut⟩
  | _, _ => { ledger with handedOut }

/-- Notes one event after another. -/
def noteAll (ledger : Ledger) (store : Store) : List Event → Ledger
  | [] => ledger
  | event :: rest => (ledger.note store event).noteAll (store.step event).2 rest

end Ledger

/-- The stores that events lead to from an empty directory, whatever files there are elsewhere, with their
ledgers. -/
inductive Reached : Store → Ledger → Prop
  | start {contents : Contents} : Reached ⟨⟨.empty, contents⟩, none, []⟩ .empty
  | step {store : Store} {ledger : Ledger} (h : Reached store ledger) (event : Event) :
    Reached (store.step event).2 (ledger.note store event)

theorem Reached.run {store : Store} {ledger : Ledger} (h : Reached store ledger) (events : List Event) :
    Reached (store.run events).2 (ledger.noteAll store events) := by
  induction events generalizing store ledger with
  | nil => exact h
  | cons event rest ih => exact ih (h.step event)

end Store

end LsmTree
