import LsmTree.Maintenance
import LsmTree.Proofs.ReadPaths

/-!
# What a store has for each key

The content of a store is what it answers for each key. Tables lie over segments, and writes over what
was there before them; putting a table into a segment, or all layers into one, changes nothing of it:

* **`Content.overlay`**, **`Content.ofSegments`**, **`Content.after`** — the content of tables over older
  content, of segments, and after writes;
* **`Memtable.Holds`** — a table that holds the last version of each key of some writes;
* **`ofSegments_cons_of_table`**, **`ofSegments_merged`** — what writing out and merging keep.
-/

namespace LsmTree

/-- What a store has for each key: a value, or none. -/
abbrev Content := Bytes → Option Bytes

namespace Content

/-- The content of the store that holds nothing. -/
def empty : Content := fun _ => none

/-- The value of a version, if there is one, or what older content has. -/
def shadow (version : Option Entry) (older : Option Bytes) : Option Bytes :=
  match version with
  | some entry => entry.value
  | none => older

/-- The content of tables, newest first, over older content. -/
def overlay (memory : Memory) (tables : List Nat) (base : Content) : Content := fun key =>
  shadow (tables.findSome? fun id => (memory.table id).get? key) (base key)

/-- The content of segments, newest first. -/
def ofSegments (segments : List Segment) : Content := fun key =>
  (segments.findSome? fun segment => segment.find? key).bind Entry.value

/-- The content after some writes, in their order: the last one of a key decides. -/
def after (base : Content) (writes : List Entry) : Content := fun key =>
  shadow (lookup writes.reverse key) (base key)

theorem shadow_or (newer older : Option Entry) (base : Option Bytes) :
    shadow (newer.or older) base = shadow newer (shadow older base) := by
  cases newer <;> rfl

theorem shadow_none_eq_bind (version : Option Entry) : shadow version none = version.bind Entry.value := by
  cases version <;> rfl

@[simp] theorem overlay_nil (memory : Memory) (base : Content) : overlay memory [] base = base := rfl

theorem overlay_append (memory : Memory) (newer older : List Nat) (base : Content) :
    overlay memory (newer ++ older) base = overlay memory newer (overlay memory older base) := by
  funext key
  rw [overlay, List.findSome?_append, shadow_or]
  rfl

/-- Only the tables themselves count. -/
theorem overlay_congr {memory memory' : Memory} {tables : List Nat}
    (h : ∀ id ∈ tables, memory'.table id = memory.table id) (base : Content) :
    overlay memory' tables base = overlay memory tables base := by
  funext key
  have hfound : (tables.findSome? fun id => (memory'.table id).get? key) =
      tables.findSome? fun id => (memory.table id).get? key := by
    induction tables with
    | nil => rfl
    | cons id rest ih =>
      rw [List.findSome?_cons, List.findSome?_cons, h id (by simp), ih fun id hmem => h id (by simp [hmem])]
  rw [overlay, hfound]
  rfl

theorem overlay_singleton_of_isEmpty {memory : Memory} {id : Nat} (h : (memory.table id).isEmpty = true)
    (base : Content) : overlay memory [id] base = base := by
  have hentries : (memory.table id).entries = [] := List.isEmpty_iff.1 h
  funext key
  rw [overlay, List.findSome?_cons, Memtable.get?_eq_lookup, hentries]
  rfl

@[simp] theorem after_nil (base : Content) : after base [] = base := rfl

theorem after_append (base : Content) (writes more : List Entry) :
    after base (writes ++ more) = after (after base writes) more := by
  funext key
  rw [after, List.reverse_append, lookup_append, shadow_or]
  rfl

end Content

/-! ## Tables -/

/-- A table holds the last version of each key that was written, and no other. -/
def Memtable.Holds (table : Memtable) (writes : List Entry) : Prop :=
  ∀ key, table.get? key = lookup writes.reverse key

namespace Memtable.Holds

theorem insert {table : Memtable} {writes : List Entry} (h : table.Holds writes) (entry : Entry) :
    (table.insert entry).Holds (writes ++ [entry]) := by
  intro key
  rw [Memtable.get?_insert, List.reverse_append, List.reverse_singleton, List.singleton_append,
    lookup_cons, h key]

theorem of_isEmpty {table : Memtable} (h : table.isEmpty = true) : table.Holds [] := by
  intro key
  rw [Memtable.get?_eq_lookup, List.isEmpty_iff.1 h]
  rfl

theorem writes_eq_nil {table : Memtable} {writes : List Entry} (h : table.Holds writes)
    (hempty : table.isEmpty = true) : writes = [] := by
  have hentries : table.entries = [] := List.isEmpty_iff.1 hempty
  cases hlast : writes.reverse with
  | nil => simpa using hlast
  | cons entry rest =>
    have hget := h entry.key
    rw [Memtable.get?_eq_lookup, hentries, hlast, lookup_cons, if_pos rfl] at hget
    cases hget

/-- Over older content such a table is what the writes make of it. -/
theorem overlay_eq {memory : Memory} {id : Nat} {writes : List Entry}
    (h : (memory.table id).Holds writes) (base : Content) :
    Content.overlay memory [id] base = Content.after base writes := by
  funext key
  have hfound : ([id].findSome? fun id => (memory.table id).get? key) = lookup writes.reverse key := by
    rw [List.findSome?_cons, h key]
    cases lookup writes.reverse key <;> rfl
  rw [Content.overlay, hfound]
  rfl

end Memtable.Holds

/-! ## Segments -/

namespace Content

/-- **A segment with the entries of a table** is to the older segments what the table was. -/
theorem ofSegments_cons_of_table {memory : Memory} {id : Nat} {segment : Segment}
    (hentries : segment.entries = (memory.table id).entries) (older : List Segment) :
    ofSegments (segment :: older) = overlay memory [id] (ofSegments older) := by
  funext key
  have hasc : Ascending segment.entries := hentries ▸ (memory.table id).ascending
  have hfind : segment.find? key = (memory.table id).get? key := by
    rw [Segment.find?_eq_lookup hasc, hentries, Memtable.get?_eq_lookup]
  rw [ofSegments, overlay, List.findSome?_cons, hfind, List.findSome?_cons]
  cases (memory.table id).get? key <;> rfl

theorem overlay_ofSegments (memory : Memory) (tables : List Nat) (segments : List Segment) (key : Bytes) :
    overlay memory tables (ofSegments segments) key =
      (newestIn memory tables segments key).bind Entry.value := by
  rw [overlay, ofSegments, ← shadow_none_eq_bind, ← shadow_or, shadow_none_eq_bind]
  rfl

/-- **All live entries of the layers, in one segment or in none,** have the content of the layers. -/
theorem ofSegments_merged {memory : Memory} {tables : List Nat} {handles : List Handle}
    (hasc : ∀ handle ∈ handles, Ascending handle.segment.entries) {built : Option Segment}
    (hnone : built = none → merged memory tables handles .all = [])
    (hsome : ∀ segment, built = some segment → segment.entries = merged memory tables handles .all) :
    ofSegments built.toList = overlay memory tables (ofSegments (handles.map Handle.segment)) := by
  funext key
  have hbuilt : ofSegments built.toList key =
      (lookup (merged memory tables handles .all) key).bind Entry.value := by
    cases hcase : built with
    | none =>
      rw [hnone hcase]
      rfl
    | some segment =>
      have hentries := hsome segment hcase
      have hfind : segment.find? key = lookup (merged memory tables handles .all) key := by
        rw [Segment.find?_eq_lookup (by rw [hentries]; exact merged_ascending hasc), hentries]
      rw [ofSegments, Option.toList_some, List.findSome?_cons, hfind]
      cases lookup (merged memory tables handles .all) key <;> rfl
  rw [hbuilt, overlay_ofSegments]
  -- A version that is not merged is missing or a tombstone, and has no value either way.
  cases hfound : lookup (merged memory tables handles .all) key with
  | some entry =>
    obtain ⟨hmem, hkey⟩ := (lookup_eq_some (merged_ascending hasc)).1 hfound
    obtain ⟨-, hnewest, -⟩ := (mem_merged hasc).1 hmem
    rw [hkey] at hnewest
    rw [hnewest]
  | none =>
    cases hnewest : newestIn memory tables (handles.map Handle.segment) key with
    | none => rfl
    | some entry =>
      have hkey := key_of_newestIn hasc hnewest
      cases hvalue : entry.value with
      | none => simp [hvalue]
      | some value =>
        have hmem : entry ∈ merged memory tables handles .all :=
          (mem_merged hasc).2 ⟨rfl, hkey ▸ hnewest, by simp [Entry.isTombstone, hvalue]⟩
        exact absurd hkey (lookup_eq_none.1 hfound entry hmem)

end Content

/-! ## Engines -/

namespace Engine

/-- What an engine has for each key. -/
def content (memory : Memory) (engine : Engine) : Content :=
  Content.overlay memory engine.tables (Content.ofSegments engine.live)

/-- **An open engine answers each key with its content.** -/
theorem get_eq_content {memory : Memory} {engine : Engine} (hopen : engine.closed = false) (key : Bytes) :
    engine.get memory key = .ok (engine.content memory key) := by
  rw [content, Content.overlay_ofSegments, get, hopen, find?_eq_newestIn]
  rfl

theorem content_eq_overlay (memory : Memory) (engine : Engine) :
    engine.content memory = Content.overlay memory [engine.active]
      (Content.overlay memory engine.queue.reverse (Content.ofSegments engine.live)) := by
  rw [content, tables, ← List.singleton_append, Content.overlay_append]

end Engine

end LsmTree
