import LsmTree.Proofs.Committed

/-!
# Directories at long paths

The path of a directory may leave so little room that some names cannot be looked up in it. For the store it
is then as if a directory stood under each of these names, whatever is there: no file can be made, read or
taken away. What an operation does at such a path is compared with what it does where there is room for all
names, once the directories that are in the way are put up for real:

* **`Directory.shaded`** — a directory with those in it;
* **`Directory.Suits`** — what stays as it is in a directory: other directories, and all that names hold that
  are too long;
* **`Disk.Shadows`** — a disk, and one that has room for all names, with the shaded directory;
* **`Mirrors`** — two operations that, run on either, agree and leave them so, with **`Mirrors.bind`** and
  **`Mirrors.andThen`** for one operation after another;
* **`Mirrors.create`**, **`Mirrors.rename`**, **`Mirrors.unlink`**, **`Mirrors.read`** — the operations that
  touch a directory.
-/

namespace LsmTree

/-! ## Names that are too long -/

/-- Whether a name is short enough for the room that a path leaves. -/
def fitsIn (room : Option Nat) (name : String) : Bool :=
  room.all fun room => name.utf8ByteSize ≤ room

namespace FileName

/-- All names that the store gives to files. -/
def all : List String :=
  manifest :: temporary manifest ::
    (List.range UInt64.size).flatMap fun n => ofGeneration (.ofNat n)

theorem manifest_mem_all : manifest ∈ all := by simp [all]

theorem temporary_manifest_mem_all : temporary manifest ∈ all := by simp [all]

theorem mem_all_of_mem {name : String} {generation : UInt64} (h : name ∈ ofGeneration generation) :
    name ∈ all := by
  refine List.mem_cons_of_mem _ (List.mem_cons_of_mem _ (List.mem_flatMap.2 ⟨generation.toNat, ?_, ?_⟩))
  · exact List.mem_range.2 generation.toNat_lt_size
  · rw [UInt64.ofNat_toNat]
    exact h

theorem segment_mem_all (half : Half) (generation : UInt64) : segment half generation ∈ all :=
  mem_all_of_mem (segment_mem_ofGeneration.2 rfl)

theorem temporary_segment_mem_all (half : Half) (generation : UInt64) :
    temporary (segment half generation) ∈ all :=
  mem_all_of_mem (mem_ofGeneration.2 ⟨half, .inr rfl⟩)

theorem fitsIn_of_temporary {room : Option Nat} {name : String}
    (h : fitsIn room (temporary name) = true) : fitsIn room name = true := by
  cases room with
  | none => rfl
  | some room =>
    have hsize : (temporary name).utf8ByteSize =
        name.utf8ByteSize + (String.ofList ('.' :: temporaryExtension)).utf8ByteSize := by
      rw [temporary, String.ofList_append, String.ofList_toList, String.utf8ByteSize_append]
    simp only [fitsIn, Option.all_some, decide_eq_true_eq] at h ⊢
    omega

end FileName

/-- The names of the store that are too long, each with a directory. -/
def overlong (room : Option Nat) : List (String × Node) :=
  (FileName.all.filter fun name => ¬ fitsIn room name).map fun name => (name, .folder [])

namespace Directory

variable {room : Option Nat} {dir : Directory} {name : String}

/-- What a directory holds under names that are short enough, with directories under the others. -/
def shaded (room : Option Nat) (dir : Directory) : Directory :=
  ⟨dir.entries.filter (fun entry => fitsIn room entry.1) ++ overlong room⟩

/-- What is added are directories under names that are too long. -/
theorem get?_overlong : ((overlong room).find? fun entry => entry.1 = name).map Prod.snd =
    if name ∈ FileName.all ∧ fitsIn room name = false then some (.folder []) else none := by
  split
  · next h =>
    have hmem : (name, Node.folder []) ∈ overlong room := by
      refine List.mem_map.2 ⟨name, List.mem_filter.2 ⟨h.1, ?_⟩, rfl⟩
      simp [h.2]
    cases hfind : (overlong room).find? fun entry => entry.1 = name with
    | none => simpa using List.find?_eq_none.1 hfind _ hmem
    | some entry =>
      obtain ⟨other, -, rfl⟩ := List.mem_map.1 (List.mem_of_find?_eq_some hfind)
      rfl
  · next h =>
    rw [Option.map_eq_none_iff, List.find?_eq_none]
    rintro entry hmem
    obtain ⟨other, hother, rfl⟩ := List.mem_map.1 hmem
    obtain ⟨hall, hlong⟩ := List.mem_filter.1 hother
    simp only [decide_eq_true_eq]
    rintro rfl
    exact h ⟨hall, by simpa using hlong⟩

theorem get?_shaded : (dir.shaded room).get? name =
    if fitsIn room name = true then dir.get? name
    else if name ∈ FileName.all then some (.folder []) else none := by
  have hkept : (dir.entries.filter fun entry => fitsIn room entry.1).find? (fun entry => entry.1 = name) =
      if fitsIn room name = true then dir.entries.find? fun entry => entry.1 = name else none := by
    rw [List.find?_filter]
    split
    · next hfits =>
      congr 1
      funext entry
      by_cases hname : entry.1 = name <;> simp [hname, hfits]
    · next hlong =>
      rw [List.find?_eq_none]
      rintro entry - hname
      simp only [decide_eq_true_eq] at hname
      exact hlong (hname.2 ▸ hname.1)
  rw [get?, shaded, List.find?_append, Option.map_or, get?_overlong, hkept]
  cases fitsIn room name with
  | true => simp [get?]
  | false => simp

theorem get?_shaded_of_fits (h : fitsIn room name = true) :
    (dir.shaded room).get? name = dir.get? name := by
  rw [get?_shaded, if_pos h]

/-- Whatever is there, the store finds a directory under a name of its own that is too long. -/
theorem get?_shaded_of_long (hmem : name ∈ FileName.all) (hlong : fitsIn room name = false) :
    (dir.shaded room).get? name = some (.folder []) := by
  rw [get?_shaded, if_neg (by simp [hlong]), if_pos hmem]

theorem file?_shaded : (dir.shaded room).file? name =
    if fitsIn room name = true then dir.file? name else none := by
  unfold file?
  rw [get?_shaded]
  cases fitsIn room name with
  | true => rfl
  | false =>
    rw [if_neg Bool.false_ne_true, if_neg Bool.false_ne_true]
    by_cases hmem : name ∈ FileName.all
    · rw [if_pos hmem]
    · rw [if_neg hmem]

theorem shaded_erase (h : fitsIn room name = true) :
    (dir.shaded room).erase name = (dir.erase name).shaded room := by
  have hothers : (overlong room).filter (fun entry => entry.1 ≠ name) = overlong room := by
    refine List.filter_eq_self.2 fun entry hmem => ?_
    obtain ⟨other, hother, rfl⟩ := List.mem_map.1 hmem
    have hlong := (List.mem_filter.1 hother).2
    simp only [decide_eq_true_eq]
    rintro rfl
    simp [h] at hlong
  rw [erase, shaded, List.filter_append, hothers, List.filter_filter]
  simp only [erase, shaded, List.filter_filter, Bool.and_comm]

theorem shaded_put (h : fitsIn room name = true) (node : Node) :
    (dir.shaded room).put name node = (dir.put name node).shaded room := by
  have hcons : ((name, node) :: (dir.erase name).entries).filter (fun entry => fitsIn room entry.1) =
      (name, node) :: (dir.erase name).entries.filter fun entry => fitsIn room entry.1 :=
    List.filter_cons_of_pos h
  rw [put, shaded_erase h, put, shaded, shaded, hcons]
  rfl

/-- Of the files those are listed whose names are short enough. -/
theorem fileNames_shaded : (dir.shaded room).fileNames = dir.fileNames.filter (fitsIn room) := by
  have hnone : ((overlong room).map Prod.fst).filter
      (fun name => ((dir.shaded room).file? name).isSome) = [] := by
    refine List.filter_eq_nil_iff.2 fun name hmem hfile => ?_
    obtain ⟨entry, hentry, rfl⟩ := List.mem_map.1 hmem
    obtain ⟨other, hother, rfl⟩ := List.mem_map.1 hentry
    have hlong := (List.mem_filter.1 hother).2
    rw [file?_shaded, if_neg (by simpa using hlong)] at hfile
    cases hfile
  have hnames : (dir.entries.filter fun entry => fitsIn room entry.1).map Prod.fst =
      (dir.entries.map Prod.fst).filter (fitsIn room) := by
    rw [List.filter_map]
    rfl
  rw [fileNames, fileNames]
  show ((dir.entries.filter (fun entry => fitsIn room entry.1) ++ overlong room).map Prod.fst).filter _ = _
  rw [List.map_append, List.filter_append, hnone, List.append_nil, hnames, List.filter_filter,
    List.filter_filter]
  refine List.filter_congr fun name _ => ?_
  rw [file?_shaded]
  cases fitsIn room name with
  | true => simp
  | false => simp

end Directory

/-- A directory with the contents of its files, and others under the names that are too long. -/
def Snapshot.shaded (room : Option Nat) (s : Snapshot) : Snapshot := ⟨s.names.shaded room, s.contents⟩

/-- No directory has the name. -/
def Directory.NoFolder (dir : Directory) (name : String) : Prop :=
  ∀ entries, dir.get? name ≠ some (.folder entries)

/-- A directory with the directories of `origin`, in which the names that are too long hold what they hold
there. -/
structure Directory.Suits (room : Option Nat) (origin dir : Directory) : Prop where
  kept : ∀ name, fitsIn room name = false → dir.get? name = origin.get? name
  same : ∀ name entries, dir.get? name = some (.folder entries) ↔ origin.get? name = some (.folder entries)

theorem Directory.Suits.refl (room : Option Nat) (dir : Directory) : dir.Suits room dir :=
  ⟨fun _ _ => rfl, fun _ _ => Iff.rfl⟩

/-- A disk, and one with room for all names that has the shaded directory. -/
structure Disk.Shadows (room : Option Nat) (origin : Directory) (disk shadow : Disk) : Prop where
  room_eq : disk.room = room
  opens : disk.barred = none
  syncs : disk.unsynced = none
  reachable : disk.folder = .ok disk.snapshot.names
  suits : origin.Suits room disk.snapshot.names
  plain : shadow.Plain
  shown : shadow.snapshot = disk.snapshot.shaded room

/-! ## Operations that agree -/

/-- The same error, or the one about a name that is too long and the one about the directory there. -/
def Error.Matches (error other : Error) : Prop :=
  error = other ∨ error = .io .nameTooLong ∧ (other = .io .isDirectory ∨ other = .io .noDevice)

theorem Error.Matches.refl (error : Error) : error.Matches error := .inl rfl

/-- What is missing is told apart from all else. -/
theorem Error.Matches.missing_iff {error other : Error} (h : error.Matches other) :
    error = .io .noEntry ↔ other = .io .noEntry := by
  rcases h with rfl | ⟨rfl, rfl | rfl⟩
  · exact Iff.rfl
  · simp
  · simp

theorem Error.Matches.eq {error other : Error} (h : error.Matches other) (hio : ∀ cause, other ≠ .io cause) :
    error = other := by
  rcases h with hsame | ⟨-, hother | hother⟩
  · exact hsame
  · exact absurd hother (hio _)
  · exact absurd hother (hio _)

/-- Two outcomes agree: both are errors that match, or both are values that belong together. -/
def Agree {α β : Type} (same : α → β → Prop) : Except Error α → Except Error β → Prop
  | .ok a, .ok b => same a b
  | .error error, .error other => error.Matches other
  | _, _ => False

theorem Agree.refl {α : Type} (result : Except Error α) : Agree Eq result result := by
  cases result with
  | error error => exact Error.Matches.refl error
  | ok a => rfl

theorem Agree.mono {α β : Type} {same same' : α → β → Prop} {result : Except Error α}
    {result' : Except Error β} (h : Agree same result result') (himp : ∀ a b, same a b → same' a b) :
    Agree same' result result' := by
  cases result with
  | error error =>
    cases result' with
    | error other => exact h
    | ok b => exact h
  | ok a =>
    cases result' with
    | error other => exact h
    | ok b => exact himp a b h

/-- Run in states that are related, two operations agree and leave states that are related. -/
def Mirrors {σ τ α β : Type} (related : σ → τ → Prop) (agree : α → β → Prop) (operation : StateM σ α)
    (mirror : StateM τ β) : Prop :=
  ∀ state shadow, related state shadow →
    agree (operation.run state).1 (mirror.run shadow).1 ∧
      related (operation.run state).2 (mirror.run shadow).2

namespace Mirrors

variable {σ τ α β γ δ : Type} {related : σ → τ → Prop} {agree : α → β → Prop} {later : γ → δ → Prop}

theorem pure {a : α} {b : β} (h : agree a b) :
    Mirrors related agree (pure a : StateM σ α) (pure b : StateM τ β) :=
  fun _ _ hrelated => ⟨h, hrelated⟩

theorem mono {operation : StateM σ α} {mirror : StateM τ β} {agree' : α → β → Prop}
    (h : Mirrors related agree operation mirror) (himp : ∀ a b, agree a b → agree' a b) :
    Mirrors related agree' operation mirror := fun state shadow hrelated =>
  ⟨himp _ _ (h state shadow hrelated).1, (h state shadow hrelated).2⟩

/-- **One operation after another**, if what the first ones give makes the second ones agree. -/
theorem bind {operation : StateM σ α} {mirror : StateM τ β} {next : α → StateM σ γ}
    {next' : β → StateM τ δ} (h : Mirrors related agree operation mirror)
    (hnext : ∀ a b, agree a b → Mirrors related later (next a) (next' b)) :
    Mirrors related later (operation >>= next) (mirror >>= next') := fun state shadow hrelated =>
  hnext _ _ (h state shadow hrelated).1 _ _ (h state shadow hrelated).2

/-! ### Operations that may fail -/

variable {same : α → β → Prop} {after : γ → δ → Prop}

theorem value {a : α} {b : β} (h : same a b) :
    Mirrors related (Agree same) (Pure.pure a : ExceptT Error (StateM σ) α).run
      (Pure.pure b : ExceptT Error (StateM τ) β).run :=
  fun _ _ hrelated => ⟨h, hrelated⟩

/-- What does not depend on the state. -/
theorem settled (outcome : Except Error α) :
    Mirrors related (Agree Eq) (ExceptT.mk (Pure.pure outcome) : ExceptT Error (StateM σ) α).run
      (ExceptT.mk (Pure.pure outcome) : ExceptT Error (StateM τ) α).run :=
  pure (.refl outcome)

theorem throw {error other : Error} (h : error.Matches other) :
    Mirrors related (Agree same) (throw error : ExceptT Error (StateM σ) α).run
      (MonadExcept.throw other : ExceptT Error (StateM τ) β).run :=
  fun _ _ hrelated => ⟨h, hrelated⟩

theorem andThen {operation : ExceptT Error (StateM σ) α} {mirror : ExceptT Error (StateM τ) β}
    {next : α → ExceptT Error (StateM σ) γ} {next' : β → ExceptT Error (StateM τ) δ}
    (h : Mirrors related (Agree same) operation.run mirror.run)
    (hnext : ∀ a b, same a b → Mirrors related (Agree after) (next a).run (next' b).run) :
    Mirrors related (Agree after) (operation >>= next).run (mirror >>= next').run := by
  show Mirrors related (Agree after) (operation.run >>= ExceptT.bindCont next)
    (mirror.run >>= ExceptT.bindCont next')
  refine bind h ?_
  rintro (error | a) (other | b) hagree
  · exact fun _ _ hrelated => ⟨hagree, hrelated⟩
  · exact hagree.elim
  · exact hagree.elim
  · exact hnext a b hagree

theorem liftThen {operation : StateM σ α} {mirror : StateM τ β}
    {next : α → ExceptT Error (StateM σ) γ} {next' : β → ExceptT Error (StateM τ) δ}
    (h : Mirrors related agree operation mirror)
    (hnext : ∀ a b, agree a b → Mirrors related (Agree after) (next a).run (next' b).run) :
    Mirrors related (Agree after) ((liftM operation : ExceptT Error (StateM σ) α) >>= next).run
      ((liftM mirror : ExceptT Error (StateM τ) β) >>= next').run :=
  fun state shadow hrelated =>
    hnext _ _ (h state shadow hrelated).1 _ _ (h state shadow hrelated).2

theorem lift {operation : StateM σ α} {mirror : StateM τ β}
    (h : Mirrors related same operation mirror) :
    Mirrors related (Agree same) (liftM operation : ExceptT Error (StateM σ) α).run
      (liftM mirror : ExceptT Error (StateM τ) β).run :=
  fun state shadow hrelated => h state shadow hrelated

/-- Errors that match may be handled. -/
theorem tryCatch {operation : ExceptT Error (StateM σ) α} {mirror : ExceptT Error (StateM τ) β}
    {handler : Error → ExceptT Error (StateM σ) α} {handler' : Error → ExceptT Error (StateM τ) β}
    (h : Mirrors related (Agree same) operation.run mirror.run)
    (hhandler : ∀ error other, error.Matches other →
      Mirrors related (Agree same) (handler error).run (handler' other).run) :
    Mirrors related (Agree same) (tryCatch operation handler : ExceptT Error (StateM σ) α).run
      (MonadExcept.tryCatch mirror handler' : ExceptT Error (StateM τ) β).run := by
  rw [ExceptT.run_tryCatch, ExceptT.run_tryCatch]
  refine bind h ?_
  rintro (error | a) (other | b) hagree
  · exact hhandler error other hagree
  · exact hagree.elim
  · exact hagree.elim
  · exact fun _ _ hrelated => ⟨hagree, hrelated⟩

end Mirrors

/-! ## Disks -/

namespace Disk.Shadows

variable {room : Option Nat} {origin : Directory} {disk shadow : Disk}

theorem names_eq (h : Shadows room origin disk shadow) :
    shadow.snapshot.names = disk.snapshot.names.shaded room :=
  congrArg Snapshot.names h.shown

/-- Only the directory of the other disk counts. -/
theorem rebase (h : Shadows room origin disk shadow) :
    Shadows room origin disk (.ofSnapshot shadow.snapshot) :=
  ⟨h.room_eq, h.opens, h.syncs, h.reachable, h.suits, Disk.plain_ofSnapshot _, h.shown⟩

theorem contents_eq (h : Shadows room origin disk shadow) : shadow.contents = disk.contents :=
  congrArg Snapshot.contents h.shown

theorem reach_eq (h : Shadows room origin disk shadow) {names : List String}
    (hfits : ∀ name ∈ names, fitsIn room name = true) : disk.reach names = .ok disk.snapshot.names := by
  have hall : names.all disk.fits = true := List.all_eq_true.2 fun name hmem => by
    show fitsIn disk.room name = true
    rw [h.room_eq]
    exact hfits name hmem
  rw [Disk.reach, if_pos hall, h.reachable]

theorem reach_refused (h : Shadows room origin disk shadow) {names : List String} {name : String}
    (hmem : name ∈ names) (hlong : fitsIn room name = false) : disk.reach names = .error .nameTooLong := by
  have hnot : ¬ names.all disk.fits = true := fun hall => by
    have hfits : fitsIn disk.room name = true := List.all_eq_true.1 hall name hmem
    rw [h.room_eq, hlong] at hfits
    cases hfits
  rw [Disk.reach, if_neg hnot]

theorem syncFault?_eq (h : Shadows room origin disk shadow) : disk.syncFault? = none := by
  rw [Disk.syncFault?, h.opens, h.syncs]
  rfl

end Disk.Shadows

namespace Mirrors

variable {room : Option Nat} {origin : Directory} {α : Type}

open Disk (Shadows)

/-- A change under names that are short enough is the same beside the directories that are added. -/
theorem perform {mutation : Mutation} {good : Prop} {change : Snapshot → Except OsError (α × Snapshot)}
    (hfits : ∀ name ∈ mutation.names, fitsIn room name = true)
    (hchange : ∀ s, change (s.shaded room) = (change s).map fun made => (made.1, made.2.shaded room))
    (hsuits : ∀ s a t, change s = .ok (a, t) → origin.Suits room s.names →
      good ∧ origin.Suits room t.names) :
    Mirrors (Shadows room origin) (Agree fun a b => a = b ∧ good) (Disk.perform mutation change).run
      (Disk.perform mutation change).run := by
  intro disk shadow h
  have hdisk : (⟨disk.snapshot.names, disk.contents⟩ : Snapshot) = disk.snapshot := rfl
  have hshadow : (⟨shadow.snapshot.names, shadow.contents⟩ : Snapshot) = disk.snapshot.shaded room := h.shown
  simp only [Disk.perform, ExceptT.run, ExceptT.mk, StateT.run, h.reach_eq hfits, h.plain.reach_eq, hdisk,
    hshadow, hchange]
  cases hcase : change disk.snapshot with
  | error cause => exact ⟨Error.Matches.refl _, h⟩
  | ok made =>
    obtain ⟨a, t⟩ := made
    obtain ⟨hgood, hafter⟩ := hsuits _ _ _ hcase h.suits
    exact ⟨⟨rfl, hgood⟩, h.room_eq, h.opens, h.syncs, rfl, hafter,
      ⟨⟨_, rfl⟩, h.plain.roomy, h.plain.opens, h.plain.syncs⟩, rfl⟩

/-- A change under a name that is too long is refused on both disks. -/
theorem perform_refused {mutation : Mutation} {change : Snapshot → Except OsError (α × Snapshot)}
    {same : α → α → Prop} {name : String} (hname : name ∈ mutation.names) (hlong : fitsIn room name = false)
    (hrefused : ∀ s : Snapshot, change (s.shaded room) = .error .isDirectory) :
    Mirrors (Shadows room origin) (Agree same) (Disk.perform mutation change).run
      (Disk.perform mutation change).run := by
  intro disk shadow h
  have hshadow : (⟨shadow.snapshot.names, shadow.contents⟩ : Snapshot) = disk.snapshot.shaded room := h.shown
  simp only [Disk.perform, ExceptT.run, ExceptT.mk, StateT.run, h.reach_refused hname hlong,
    h.plain.reach_eq, hshadow, hrefused]
  exact ⟨.inr ⟨rfl, .inl rfl⟩, h⟩

end Mirrors

/-! ### What the changes do beside the directories that are added -/

namespace Snapshot

variable {room : Option Nat} {s t : Snapshot} {name source target : String} {number : Nat}

theorem create_shaded (h : fitsIn room name = true) : (s.shaded room).create name =
    (s.create name).map fun made => (made.1, made.2.shaded room) := by
  unfold create
  rw [show (s.shaded room).names.get? name = s.names.get? name from Directory.get?_shaded_of_fits h]
  cases s.names.get? name with
  | none =>
    show Except.ok (_, Snapshot.mk ((s.names.shaded room).put name _) _) = Except.ok (_, Snapshot.mk _ _)
    rw [Directory.shaded_put h]
    rfl
  | some node =>
    cases node with
    | file number => rfl
    | folder entries => rfl

/-- What a name holds after a file of it was created. -/
theorem get?_of_create (h : s.create name = .ok (number, t)) : s.names.NoFolder name ∧
    ∀ other, t.names.get? other = if other = name then some (.file number) else s.names.get? other := by
  unfold create at h
  split at h
  · cases h
  · next hget =>
    cases h
    refine ⟨fun entries hfolder => ?_, fun other => ?_⟩
    · rw [hget] at hfolder
      cases hfolder
    · split
      · next hother => exact hother ▸ hget
      · rfl
  · next hget =>
    cases h
    refine ⟨fun entries hfolder => ?_, fun other => Directory.get?_put _ _ _ _⟩
    rw [hget] at hfolder
    cases hfolder

theorem rename_shaded (hsource : fitsIn room source = true) (htarget : fitsIn room target = true) :
    (s.shaded room).apply (.rename source target) =
      (s.apply (.rename source target)).map (Snapshot.shaded room) := by
  show ((s.names.shaded room).rename source target).map _ = ((s.names.rename source target).map _).map _
  unfold Directory.rename
  rw [Directory.get?_shaded_of_fits hsource, Directory.get?_shaded_of_fits htarget]
  cases s.names.get? source with
  | none => rfl
  | some node =>
    dsimp only
    split
    · rfl
    · cases node.refusedOver? (s.names.get? target) with
      | some cause => rfl
      | none =>
        dsimp only
        rw [Directory.shaded_erase hsource, Directory.shaded_put htarget]
        rfl

theorem unlink_shaded (h : fitsIn room name = true) :
    (s.shaded room).apply (.unlink name) = (s.apply (.unlink name)).map (Snapshot.shaded room) := by
  show ((s.names.shaded room).unlink name).map _ = ((s.names.unlink name).map _).map _
  unfold Directory.unlink
  rw [Directory.get?_shaded_of_fits h]
  cases s.names.get? name with
  | none => rfl
  | some node =>
    cases node with
    | folder entries => rfl
    | file number =>
      dsimp only
      rw [Directory.shaded_erase h]
      rfl

/-- What a name holds after a file was moved. -/
theorem get?_of_rename (h : s.apply (.rename source target) = .ok t) (hsource : s.names.NoFolder source) :
    t.names = s.names ∨ s.names.NoFolder target ∧ ∃ number, ∀ other, t.names.get? other =
      if other = target then some (.file number) else if other = source then none
      else s.names.get? other := by
  have hrename : (s.names.rename source target).map (fun names => { s with names }) = .ok t := h
  unfold Directory.rename at hrename
  split at hrename
  · cases hrename
  · next node hnode =>
    split at hrename
    · cases hrename
      exact .inl rfl
    · split at hrename
      · cases hrename
      · next hallowed =>
        cases hrename
        cases node with
        | folder entries => exact absurd hnode (hsource entries)
        | file number =>
          refine .inr ⟨fun entries hfolder => ?_, number, fun other => ?_⟩
          · rw [hfolder] at hallowed
            cases hallowed
          · rw [Directory.get?_put, Directory.get?_erase]

/-- What a name holds after a file was taken away. -/
theorem get?_of_unlink (h : s.apply (.unlink name) = .ok t) : s.names.NoFolder name ∧
    ∀ other, t.names.get? other = if other = name then none else s.names.get? other := by
  have hunlink : (s.names.unlink name).map (fun names => { s with names }) = .ok t := h
  unfold Directory.unlink at hunlink
  split at hunlink
  · cases hunlink
  · cases hunlink
  · next number hget =>
    cases hunlink
    refine ⟨fun entries hfolder => ?_, fun other => Directory.get?_erase _ _ _⟩
    rw [hget] at hfolder
    cases hfolder

end Snapshot

namespace Directory

variable {room : Option Nat} {origin dir changed : Directory} {name : String} {node : Option Node}

/-- What is put in the place of a file, or of nothing, leaves the directories, unless it is one; and what
names hold that are too long, if its own is not. -/
theorem Suits.replaced (h : origin.Suits room dir) (hfits : fitsIn room name = true)
    (hfree : dir.NoFolder name)
    (hget : ∀ other, changed.get? other = if other = name then node else dir.get? other)
    (hnode : ∀ entries, node ≠ some (.folder entries)) : origin.Suits room changed := by
  refine ⟨fun other hlong => ?_, fun other entries => ?_⟩
  · have hother : other ≠ name := by
      rintro rfl
      simp [hfits] at hlong
    rw [hget, if_neg hother]
    exact h.kept other hlong
  · rw [hget]
    split
    · next hother =>
      subst hother
      exact ⟨fun hsome => absurd hsome (hnode entries),
        fun hsome => absurd ((h.same _ entries).2 hsome) (hfree entries)⟩
    · exact h.same other entries

theorem Suits.noFolder (h : origin.Suits room dir) (hfree : dir.NoFolder name) : origin.NoFolder name :=
  fun entries hfolder => hfree entries ((h.same name entries).2 hfolder)

theorem Suits.noFolder_of (h : origin.Suits room dir) (hfree : origin.NoFolder name) : dir.NoFolder name :=
  fun entries hfolder => hfree entries ((h.same name entries).1 hfolder)

end Directory

/-! ### Names and files -/

namespace Mirrors

variable {room : Option Nat} {origin : Directory} {α : Type} {name source target : String}

open Disk (Shadows)

/-- **A file is created** under a name that is short enough and has no directory. -/
theorem create (hmem : name ∈ FileName.all) :
    Mirrors (Shadows room origin)
      (Agree fun a b => a = b ∧ fitsIn room name = true ∧ origin.NoFolder name)
      (Disk.create name).run (Disk.create name).run := by
  cases hfits : fitsIn room name with
  | true =>
    refine perform (fun other hother => ?_) (fun s => Snapshot.create_shaded hfits) ?_
    · exact List.mem_singleton.1 hother ▸ hfits
    · intro s number t hcreate hsuits
      obtain ⟨hfree, hget⟩ := Snapshot.get?_of_create hcreate
      exact ⟨⟨rfl, hsuits.noFolder hfree⟩, hsuits.replaced hfits hfree hget nofun⟩
  | false =>
    refine perform_refused (List.mem_singleton.2 rfl) hfits fun s => ?_
    have hfolder : (s.shaded room).names.get? name = some (.folder []) :=
      Directory.get?_shaded_of_long hmem hfits
    unfold Snapshot.create
    rw [hfolder]

/-- A mutation under names that are short enough. -/
theorem mutate {mutation : Mutation} (hfits : ∀ name ∈ mutation.names, fitsIn room name = true)
    (happly : ∀ s : Snapshot, (s.shaded room).apply mutation =
      (s.apply mutation).map (Snapshot.shaded room))
    (hsuits : ∀ s t : Snapshot, s.apply mutation = .ok t → origin.Suits room s.names →
      origin.Suits room t.names) :
    Mirrors (Shadows room origin) (Agree Eq) (Disk.mutate mutation).run (Disk.mutate mutation).run := by
  have h : Mirrors (Shadows room origin) (Agree fun a b => a = b ∧ True) (Disk.mutate mutation).run
      (Disk.mutate mutation).run := by
    refine perform hfits (fun s => ?_) fun s _ t hchange hbefore => ⟨trivial, ?_⟩
    · rw [happly]
      cases s.apply mutation <;> rfl
    · cases happly' : s.apply mutation with
      | error cause =>
        rw [happly'] at hchange
        cases hchange
      | ok changed =>
        rw [happly'] at hchange
        cases hchange
        exact hsuits s t happly' hbefore
  exact h.mono fun _ _ hagree => hagree.mono fun _ _ h => h.1

/-- **A file is moved**, if both names are short enough and the first is that of no directory. -/
theorem rename (hsource : fitsIn room source = true) (hfree : origin.NoFolder source)
    (htarget : fitsIn room target = true) :
    Mirrors (Shadows room origin) (Agree Eq) (Disk.mutate (.rename source target)).run
      (Disk.mutate (.rename source target)).run := by
  refine mutate (fun name hname => ?_) (fun s => Snapshot.rename_shaded hsource htarget) ?_
  · rcases List.mem_cons.1 hname with rfl | hname
    · exact hsource
    · exact List.mem_singleton.1 hname ▸ htarget
  · intro s t hrename hsuits
    have hsource' := hsuits.noFolder_of hfree
    rcases Snapshot.get?_of_rename hrename hsource' with hsame | ⟨htarget', number, hget⟩
    · rw [hsame]
      exact hsuits
    · -- The file is taken from the one name and put under the other one.
      have htaken : origin.Suits room (s.names.erase source) :=
        hsuits.replaced hsource hsource' (Directory.get?_erase _ _) nofun
      have hput : ∀ other, t.names.get? other =
          if other = target then some (.file number) else (s.names.erase source).get? other :=
        fun other => by rw [hget, Directory.get?_erase]
      refine htaken.replaced htarget (fun entries hfolder => ?_) hput nofun
      rw [Directory.get?_erase] at hfolder
      split at hfolder
      · cases hfolder
      · exact htarget' entries hfolder

/-- **A file is taken away**, or cannot be. -/
theorem unlink (hmem : name ∈ FileName.all ∨ fitsIn room name = true) :
    Mirrors (Shadows room origin) (Agree Eq) (Disk.mutate (.unlink name)).run
      (Disk.mutate (.unlink name)).run := by
  cases hfits : fitsIn room name with
  | true =>
    refine mutate (fun other hother => ?_) (fun s => Snapshot.unlink_shaded hfits) ?_
    · exact List.mem_singleton.1 hother ▸ hfits
    · intro s t hunlink hsuits
      obtain ⟨hfree, hget⟩ := Snapshot.get?_of_unlink hunlink
      exact hsuits.replaced hfits hfree hget nofun
  | false =>
    have hmem : name ∈ FileName.all := hmem.resolve_right (by simp [hfits])
    refine perform_refused (List.mem_singleton.2 rfl) hfits fun s => ?_
    show (((s.names.shaded room).unlink name).map _).map _ = _
    unfold Directory.unlink
    rw [Directory.get?_shaded_of_long hmem hfits]
    rfl

/-- What cannot be taken away is left. -/
theorem attempt (hmem : name ∈ FileName.all ∨ fitsIn room name = true) :
    Mirrors (Shadows room origin) Eq (Disk.attempt (.unlink name)) (Disk.attempt (.unlink name)) :=
  fun disk shadow h => ⟨rfl, (unlink hmem disk shadow h).2⟩

theorem write (file offset : Nat) (bytes : Bytes) :
    Mirrors (Shadows room origin) Eq (Disk.write file offset bytes) (Disk.write file offset bytes) := by
  intro disk shadow h
  refine ⟨rfl, h.room_eq, h.opens, h.syncs, h.reachable, h.suits, ⟨h.plain.reachable, h.plain.roomy,
    h.plain.opens, h.plain.syncs⟩, ?_⟩
  show Snapshot.mk shadow.snapshot.names (shadow.contents.write file offset bytes) = _
  rw [h.names_eq, h.contents_eq]
  rfl

theorem fileLength (file : Nat) :
    Mirrors (Shadows room origin) Eq (Disk.fileLength file) (Disk.fileLength file) := by
  intro disk shadow h
  refine ⟨?_, h⟩
  show (disk.contents.get file).length = (shadow.contents.get file).length
  rw [h.contents_eq]

/-- **A file is read**, or cannot be. -/
theorem read (hmem : name ∈ FileName.all) :
    Mirrors (Shadows room origin) (Agree Eq) (Disk.read name).run (Disk.read name).run := by
  intro disk shadow h
  simp only [Disk.read, ExceptT.run, ExceptT.mk, StateT.run, h.plain.reach_eq, h.names_eq, h.contents_eq]
  cases hfits : fitsIn room name with
  | true =>
    rw [h.reach_eq fun other hother => List.mem_singleton.1 hother ▸ hfits,
      Directory.get?_shaded_of_fits hfits]
    dsimp only
    cases disk.snapshot.names.get? name with
    | none => exact ⟨Error.Matches.refl _, h⟩
    | some node =>
      cases node with
      | file number => exact ⟨rfl, h⟩
      | folder entries => exact ⟨Error.Matches.refl _, h⟩
  | false =>
    rw [h.reach_refused (List.mem_singleton.2 rfl) hfits, Directory.get?_shaded_of_long hmem hfits]
    exact ⟨.inr ⟨rfl, .inl rfl⟩, h⟩

/-- The directory itself can be synced, whatever is in it. -/
theorem sync : Mirrors (Shadows room origin) (Agree fun _ _ => True) Disk.sync.run Disk.sync.run := by
  intro disk shadow h
  rw [Disk.run_sync h.reachable, Disk.run_sync h.plain.folder_eq, h.syncFault?_eq, h.plain.syncFault?_eq]
  exact ⟨trivial, h⟩

theorem run_fileNames {disk : Disk} {dir : Directory} (hfolder : disk.folder = .ok dir)
    (hopens : disk.barred = none) :
    Disk.fileNames.run.run disk = (.ok (dir.fileNames.filter disk.fits), disk) := by
  show (Disk.enter.run >>= ExceptT.bindCont _).run disk = _
  rw [StateT.run_bind, Disk.run_enter hfolder hopens]
  rfl

/-- **A directory is listed** without what was added to it. -/
theorem fileNames : Mirrors (Shadows room origin)
    (Agree fun a b => a = b ∧ ∀ name ∈ a, fitsIn room name = true)
    Disk.fileNames.run Disk.fileNames.run := by
  intro disk shadow h
  have hroomy : ∀ name ∈ (disk.snapshot.names.shaded room).fileNames, shadow.fits name = true :=
    fun name _ => by simp [Disk.fits, h.plain.roomy]
  have hfits : disk.fits = fitsIn room := by
    funext name
    rw [← h.room_eq]
    rfl
  rw [run_fileNames h.reachable h.opens, run_fileNames h.plain.folder_eq h.plain.opens, h.names_eq,
    List.filter_eq_self.2 hroomy, Directory.fileNames_shaded, hfits]
  exact ⟨⟨rfl, fun name hmem => (List.mem_filter.1 hmem).2⟩, h⟩

end Mirrors

end LsmTree
