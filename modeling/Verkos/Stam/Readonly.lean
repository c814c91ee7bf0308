import Verkos.Lib.Steps
import Verkos.Stam.SmallDisk
import Verkos.Stam.Store

/-!
# Files opened for reading

A file object is writable or not, and `file_alloc` leaves that as the last file in the object had it.
An object that `file_open` returned for reading refuses every write, over any run of opens, writes
and closes, when each opening for reading found no memory file and no directory under the name and,
for a file on the disk, took an object that was not writable.
-/

namespace Verkos.Stam

open Verkos.Lib
open Fat (Handle Geo Volume Io)
open Option (some.inj map_eq_some_iff)

attribute [local instance] neZero4096

/-- What a process asks for. The transfers of a call go through as `ok` says. -/
inductive FileCall where
  | opens (path : List UInt8) (mode : OpenMode) (junk : Nat → UInt8) (ok : Nat → Bool)
  | writes (f : Fin nFile) (buf : List UInt8) (ok : Nat → Bool)
  | closes (f : Fin nFile) (ok : Nat → Bool)

/-- The files, and how `file_open` was asked for each object it returned last. -/
structure OpenFiles where
  store : Store
  mode : Fin nFile → Option OpenMode

/-- One call. -/
def OpenFiles.step (m : Media) (fuel : Nat) (w : OpenFiles) : FileCall → Option OpenFiles
  | .opens path mode junk ok =>
    (w.store.fileOpen m fuel junk ok path mode).map fun r =>
      match r.2 with
      | .ok f => ⟨r.1, Function.update w.mode f (some mode)⟩
      | .error _ => ⟨r.1, w.mode⟩
  | .writes f buf ok => (w.store.fileWrite m ok f buf).map fun r => ⟨r.1, w.mode⟩
  | .closes f ok => (w.store.fileClose m ok f).map fun st => ⟨st, w.mode⟩

/-- The name behind the slash of an absolute one. -/
def bareName (path : List UInt8) : List UInt8 := if path.head? == some 47 then path.tail else path

/-- What an opening for reading needs: no memory file has the name, and unless the archive has it the
disk has no directory there and the first free object is not writable. -/
def FileCall.Guarded (m : Media) (fuel : Nat) (w : OpenFiles) : FileCall → Prop
  | .opens path .read junk ok =>
    w.store.pools.findMem (bareName path) = none ∧
      (m.archived (bareName path) = none →
        (∀ ff b v, w.store.lookUp m fuel junk ok (bareName path) (path.head? == some 47) .read =
          some (.ok (some (ff, b)), v) → ff.isDir = false) ∧
        ∀ f, w.store.pools.findFree = some f → (w.store.pools.files f).writable = false)
  | _ => True

/-! ## Objects that are made -/

variable {at' : Option (Nat × Nat)} {res : Except Int (Fin nFile)} {junk : Nat → UInt8}
  {path : List UInt8}

namespace Fs

variable {s s' : Fs} {f g : Fin nFile} {kind : Kind} {fill : File → File} {name : List UInt8}
  {mode : OpenMode}

/-- The object a free one becomes. -/
def fresh (x : File) (kind : Kind) : File :=
  { x with
    kind := kind, refs := 1, pipe := none, mem := none, ro := none, roLen := 0, pos := 0,
    sock := none, conn := none }

@[simp] theorem files_setFile_self (x : File) : (s.setFile f x).files f = x :=
  Function.update_self ..

theorem files_setFile_of_ne (h : g ≠ f) (x : File) : (s.setFile f x).files g = s.files g :=
  Function.update_of_ne h ..

theorem allocWith_error {e : Int} (h : s.allocWith kind fill = (s', .error e)) : s' = s := by
  unfold allocWith fileAlloc at h
  cases hf : s.findFree with
  | none =>
    rw [hf] at h
    exact (Prod.mk.inj h).1.symm
  | some f =>
    rw [hf] at h
    cases (Prod.mk.inj h).2

theorem allocWith_ok (h : s.allocWith kind fill = (s', .ok f)) :
    s.findFree = some f ∧ s' = s.setFile f (fill (fresh (s.files f) kind)) := by
  unfold allocWith fileAlloc at h
  cases hf : s.findFree with
  | none =>
    rw [hf] at h
    cases (Prod.mk.inj h).2
  | some f' =>
    rw [hf] at h
    dsimp only at h
    obtain ⟨hs, hr⟩ := Prod.mk.inj h
    obtain rfl : f' = f := Except.ok.inj hr
    refine ⟨rfl, ?_⟩
    rw [← hs, setFile_setFile, files_setFile_self]
    rfl

/-- The objects are as they were, or the first free one is taken. -/
def Takes (s s' : Fs) : Except Int (Fin nFile) → Prop
  | .error _ => s'.files = s.files
  | .ok f => s.findFree = some f ∧ ∀ g, g ≠ f → s'.files g = s.files g

theorem openFound_takes {r : Except Int (Option (FatFile × Bool))}
    (h : s.openFound r at' name mode = (s', res)) : s.Takes s' res := by
  have halloc : ∀ {s0 : Fs} {kind : Kind} {fill : File → File}, s0.files = s.files →
      s0.findFree = s.findFree → s0.allocWith kind fill = (s', res) → s.Takes s' res := by
    intro s0 kind fill hfiles hfree h0
    cases res with
    | error e =>
      rw [allocWith_error h0]
      exact hfiles
    | ok f =>
      obtain ⟨hf, rfl⟩ := allocWith_ok h0
      exact ⟨hfree ▸ hf, fun g hg => by rw [files_setFile_of_ne hg, hfiles]⟩
  unfold openFound at h
  split at h
  · obtain ⟨rfl, rfl⟩ := Prod.mk.inj h
    rfl
  · exact halloc rfl rfl h
  · split at h
    · split at h
      · obtain ⟨rfl, rfl⟩ := Prod.mk.inj h
        rfl
      · exact @halloc (s.openMem _ name mode) _ _ rfl rfl h
    · split at h
      · exact halloc rfl rfl h
      · exact halloc rfl rfl h
      · exact halloc rfl rfl h
      · obtain ⟨rfl, rfl⟩ := Prod.mk.inj h
        rfl

/-- What an opening for reading makes, with neither a memory file nor a directory there. -/
theorem openFound_read {fat : Option FatFile} (hmem : s.findMem name = none)
    (h : s.openFound (.ok (fat.map fun ff => (ff, false))) at' name .read = (s', .ok f))
    (hdir : at' = none → ∀ ff, fat = some ff → ff.isDir = false) : (s'.files f).kind = .initrd ∨
      at' = none ∧ (s'.files f).kind = .fat ∧ (s'.files f).writable = (s.files f).writable := by
  unfold openFound at h
  rw [hmem] at h
  cases fat with
  | none =>
    cases at' with
    | none => cases (Prod.mk.inj h).2
    | some x =>
      change s.allocWith .initrd (fun y => { y with ro := some x.1, roLen := x.2, pos := 0 }) =
        _ at h
      obtain ⟨-, rfl⟩ := allocWith_ok h
      left
      rw [files_setFile_self]
      rfl
  | some ff =>
    cases at' with
    | none =>
      have hff := hdir rfl ff rfl
      change s.openFat ff (if ff.isDir then .fatDir else .fat) .read false = _ at h
      obtain ⟨-, rfl⟩ := allocWith_ok h
      refine .inr ⟨rfl, ?_, ?_⟩
      · rw [files_setFile_self]
        change (if ff.isDir = true then Kind.fatDir else Kind.fat) = .fat
        rw [hff]
        rfl
      · rw [files_setFile_self]
        exact Bool.false_or _
    | some x =>
      change s.allocWith .initrd (fun y => { y with ro := some x.1, roLen := x.2, pos := 0 }) =
        _ at h
      obtain ⟨-, rfl⟩ := allocWith_ok h
      left
      rw [files_setFile_self]
      rfl

theorem files_setPipe (p : Fin nPipe) (x : Pipe) : (s.setPipe p x).files = s.files := rfl

theorem fileClose_files (s : Fs) (f : Fin nFile) : (∀ g, g ≠ f → (s.fileClose f).files g = s.files g) ∧
    (((s.fileClose f).files f).kind = .free ∨ ((s.fileClose f).files f).kind = (s.files f).kind) ∧
    ((s.fileClose f).files f).writable = (s.files f).writable := by
  unfold fileClose
  dsimp only
  split
  · refine ⟨fun g hg => files_setFile_of_ne hg _, .inr ?_, ?_⟩
    · rw [files_setFile_self]
    · rw [files_setFile_self]
  · have hforget : (s.forget f).files = s.files := rfl
    split
    · unfold closeEnd
      rw [files_setPipe]
      refine ⟨fun g hg => ?_, .inl ?_, ?_⟩
      · rw [files_setFile_of_ne hg, hforget]
      · rw [files_setFile_self]
      · rw [files_setFile_self]
    · refine ⟨fun g hg => ?_, .inl ?_, ?_⟩
      · rw [files_setFile_of_ne hg, hforget]
      · rw [files_setFile_self]
      · rw [files_setFile_self]

end Fs

/-! ## Runs -/

/-- An object that refuses writes: it is free, from the archive, or from the disk and not writable. -/
def File.Refuses (x : File) : Prop :=
  x.kind = .free ∨ x.kind = .initrd ∨ x.kind = .fat ∧ x.writable = false

/-- Every object that was opened for reading refuses writes. -/
def OpenFiles.ReadOnly (w : OpenFiles) : Prop :=
  ∀ f, w.mode f = some .read → (w.store.pools.files f).Refuses

section Runs

variable {m : Media} {fuel : Nat} {w w' : OpenFiles} {st st' : Store} {f g : Fin nFile}
  {buf : List UInt8} {ok : Nat → Bool} {r : Reply}

theorem Store.fileWrite_refused (h : (st.pools.files f).Refuses) :
    st.fileWrite m ok f buf = some (st, .returns (-9)) := by
  unfold fileWrite
  dsimp only
  rcases h with h | h | ⟨h, hw⟩
  · rw [h]
  · rw [h]
  · rw [h, hw]
    rfl

theorem Store.fileWrite_files (h : st.fileWrite m ok f buf = some (st', r)) (g : Fin nFile) :
    (st'.pools.files g).kind = (st.pools.files g).kind ∧
      (st'.pools.files g).writable = (st.pools.files g).writable := by
  have hpos : ∀ pos, ((st.setPos f pos).pools.files g).kind = (st.pools.files g).kind ∧
      ((st.setPos f pos).pools.files g).writable = (st.pools.files g).writable := by
    intro pos
    by_cases hg : g = f
    · subst hg
      rw [setPos, Fs.files_setFile_self]
      exact ⟨rfl, rfl⟩
    · rw [setPos, Fs.files_setFile_of_ne hg]
      exact ⟨rfl, rfl⟩
  have hsame : ∀ {x : Reply}, some (st, x) = some (st', r) →
      (st'.pools.files g).kind = (st.pools.files g).kind ∧
        (st'.pools.files g).writable = (st.pools.files g).writable := by
    intro x he
    obtain ⟨rfl, -⟩ := Prod.mk.inj (some.inj he)
    exact ⟨rfl, rfl⟩
  unfold fileWrite at h
  dsimp only at h
  cases hk : (st.pools.files f).kind with
  | fat =>
    rw [hk] at h
    dsimp only at h
    split at h
    · exact hsame h
    · split at h
      · exact hsame h
      · split at h
        · cases h
        · obtain ⟨rfl, -⟩ := Prod.mk.inj (some.inj h)
          dsimp only
          split
          · exact hpos _
          · exact ⟨rfl, rfl⟩
  | mem =>
    rw [hk] at h
    dsimp only at h
    split at h
    · exact hsame h
    · obtain ⟨rfl, -⟩ := Prod.mk.inj (some.inj h)
      exact hpos _
  | free | console | pipeR | pipeW | initrd | fatDir | udp | tcp =>
    rw [hk] at h
    exact hsame h

theorem Store.fileClose_pools (h : st.fileClose m ok f = some st') :
    st'.pools = st.pools.fileClose f := by
  unfold fileClose at h
  dsimp only at h
  split at h
  · split at h
    · exact (congrArg Store.pools (some.inj h)).symm
    · obtain ⟨r, -, rfl⟩ := map_eq_some_iff.1 h
      rfl
  · exact (congrArg Store.pools (some.inj h)).symm

/-- Nothing on the disk is opened for writing by an opening for reading. -/
theorem Store.lookUp_read {name : List UInt8} {absolute : Bool}
    {x : Except Int (Option (Handle × Bool))} {v : Volume}
    (h : st.lookUp m fuel junk ok name absolute .read = some (x, v)) :
    ∃ found : Option Handle, x = .ok (found.map fun ff => (ff, false)) := by
  unfold lookUp at h
  split at h
  · obtain ⟨rfl, -⟩ := Prod.mk.inj (some.inj h)
    exact ⟨none, rfl⟩
  · refine Blocks.Yields.exec (Q := fun x => ∃ found : Option Handle,
      x = .ok (found.map fun ff => (ff, false))) ?_ h
    unfold lookUpDisk
    rw [if_pos rfl]
    exact Blocks.Yields.bind fun found => ⟨found, rfl⟩

/-- An opening takes the first free object. One for reading that is guarded makes one that refuses
writes. -/
theorem Store.fileOpen_files {mode : OpenMode}
    (h : st.fileOpen m fuel junk ok path mode = some (st', res)) :
    st.pools.Takes st'.pools res := by
  unfold fileOpen at h
  dsimp only at h
  split at h
  · cases h
  · rename_i r v _
    obtain ⟨hs, hr⟩ := Prod.mk.inj (some.inj h)
    rw [← hs, ← hr]
    exact Fs.openFound_takes rfl

theorem FileCall.Guarded.refuses (hg : (FileCall.opens path .read junk ok).Guarded m fuel w)
    (h : w.store.fileOpen m fuel junk ok path .read = some (st', .ok f)) :
    (st'.pools.files f).Refuses := by
  obtain ⟨hmem, hdisk⟩ := hg
  have hfree := (Store.fileOpen_files h).1
  unfold Store.fileOpen at h
  dsimp only at h
  split at h
  · cases h
  · rename_i x v hlook
    obtain ⟨found, rfl⟩ := Store.lookUp_read hlook
    obtain ⟨hs, hr⟩ := Prod.mk.inj (some.inj h)
    have hopen : w.store.pools.openFound (.ok ((found.map FatFile.ofHandle).map
        fun ff => (ff, false))) (m.archived (bareName path)) (bareName path) .read =
          (st'.pools, .ok f) := by
      rw [← hs, ← hr]
      cases found <;> rfl
    rcases Fs.openFound_read hmem hopen (by
      intro hat ff hff
      obtain ⟨h0, rfl, rfl⟩ := map_eq_some_iff.1 hff
      exact (hdisk hat).1 h0 false v hlook) with hk | ⟨hat, hk, hw⟩
    · exact .inr (.inl hk)
    · exact .inr (.inr ⟨hk, hw.trans ((hdisk hat).2 f hfree)⟩)

theorem OpenFiles.readOnly_step {call : FileCall} (hw : w.ReadOnly)
    (hg : call.Guarded m fuel w) (h : w.step m fuel call = some w') : w'.ReadOnly := by
  cases call with
  | opens path mode junk ok =>
    obtain ⟨⟨st', res⟩, hopen, rfl⟩ := map_eq_some_iff.1 h
    have htakes := Store.fileOpen_files hopen
    cases res with
    | error e =>
      intro g hr
      change ((st'.pools.files) g).Refuses
      rw [show st'.pools.files = w.store.pools.files from htakes]
      exact hw g hr
    | ok f =>
      intro g hr
      change Function.update w.mode f (some mode) g = some .read at hr
      by_cases hgf : g = f
      · subst hgf
        rw [Function.update_self] at hr
        obtain rfl : mode = .read := some.inj hr
        exact hg.refuses hopen
      · rw [Function.update_of_ne hgf] at hr
        change (st'.pools.files g).Refuses
        rw [htakes.2 g hgf]
        exact hw g hr
  | writes f buf ok =>
    obtain ⟨⟨st', r⟩, hwrite, rfl⟩ := map_eq_some_iff.1 h
    intro g hr
    obtain ⟨hk, hwr⟩ := Store.fileWrite_files hwrite g
    change (st'.pools.files g).Refuses
    unfold File.Refuses
    rw [hk, hwr]
    exact hw g hr
  | closes f ok =>
    obtain ⟨st', hclose, rfl⟩ := map_eq_some_iff.1 h
    intro g hr
    have hpools := Store.fileClose_pools hclose
    obtain ⟨hother, hk, hwr⟩ := Fs.fileClose_files w.store.pools f
    change (st'.pools.files g).Refuses
    rw [hpools]
    by_cases hgf : g = f
    · subst hgf
      have hold := hw g hr
      unfold File.Refuses at hold ⊢
      rw [hwr]
      rcases hk with hk | hk
      · exact .inl hk
      · rwa [hk]
    · rw [hother g hgf]
      exact hw g hr

/-- In every run of opens, writes and closes whose openings for reading are guarded, from any state,
a write to an object that was opened for reading is refused and changes nothing. -/
theorem read_open_never_written (m : Media) (fuel : Nat) (st : Store) (w : OpenFiles)
    (calls : List FileCall)
    (hrun : Run (OpenFiles.step m fuel) (fun w c => c.Guarded m fuel w) ⟨st, fun _ => none⟩ calls w)
    (f : Fin nFile) (hread : w.mode f = some .read) (buf : List UInt8) (ok : Nat → Bool) :
    w.store.fileWrite m ok f buf = some (w.store, .returns (-9)) := by
  have hinv : w.ReadOnly := Run.invariant (fun _ _ _ hw hg h => OpenFiles.readOnly_step hw hg h) hrun nofun
  exact Store.fileWrite_refused (hinv f hread)

/-! ## A disk with one file -/

/-- Nothing is open, and there are no memory files. -/
def startFs : Fs where
  files _ := ⟨0, .free, none, none, none, 0, ⟨0, false⟩, none, none, false, 0⟩
  pipes _ := ⟨fun _ => 0, 0, 0, 0, 0, false⟩
  mems _ := ⟨[], 0, false⟩
  consoleFile := none

/-- A disk and no archive. -/
def smallMedia : Media := ⟨some Fat.smallGeo, fun _ => none, fun _ => 0⟩

/-- The file `A`, of one byte, and nothing open. -/
def oneFileStore : Store :=
  ⟨startFs, fun _ => ⟨0, 0, false, 0, 0⟩, fun _ _ => 0,
    Fat.smallVolume [0, 0, 0x0ffffff8, 0x0ffffff8]
      [Fat.sectorOf (Fat.smallEntry (65 :: List.replicate 10 32) 0x20 3 1)]⟩

/-- `A` is opened for reading first thing. -/
theorem read_open_never_written_first : ∃ w : OpenFiles, w.mode 0 = some .read ∧
    w.store.fileWrite smallMedia (fun _ => true) 0 [7] = some (w.store, .returns (-9)) := by
  have hlook : (oneFileStore.lookUp smallMedia 2 (fun _ => 0) (fun _ => true) [65] false .read).map
      (fun r => r.1) = some (.ok (some (⟨3, 1, false, 2, 0⟩, false))) := by decide +kernel
  obtain ⟨w, hstep, hread⟩ := map_eq_some_iff.1
    (by decide +kernel : (OpenFiles.step smallMedia 2 ⟨oneFileStore, fun _ => none⟩
      (.opens [65] .read (fun _ => 0) fun _ => true)).map (fun w => w.mode 0) = some (some .read))
  refine ⟨w, hread, read_open_never_written smallMedia 2 oneFileStore w _ (.cons ?_ hstep (.nil w))
    0 hread [7] fun _ => true⟩
  refine ⟨rfl, fun _ => ⟨fun ff b v h => ?_, fun f hf => rfl⟩⟩
  have hff := hlook.symm.trans (congrArg (Option.map fun r => r.1) h)
  obtain ⟨rfl, -⟩ := Prod.mk.inj (some.inj (Except.ok.inj (some.inj hff)))
  rfl

/-- `A` is opened for appending and closed, and then opened for reading. The object is writable still,
and a write to it goes to the disk. -/
theorem recycled_object_is_written : ∃ (w : OpenFiles) (st' : Store),
    Run (OpenFiles.step smallMedia 2) (fun _ _ => True) ⟨oneFileStore, fun _ => none⟩
      [.opens [47, 65] .append (fun _ => 0) (fun _ => true), .closes 0 (fun _ => true),
        .opens [65] .read (fun _ => 0) (fun _ => true)] w ∧
    w.mode 0 = some .read ∧ w.store.disk 3 0 = 0 ∧
    w.store.fileWrite smallMedia (fun _ => true) 0 [7] = some (st', .returns 1) ∧
    st'.disk 3 0 = 7 := by
  obtain ⟨w, hrun, hw⟩ := map_eq_some_iff.1
    (by decide +kernel : (exec (OpenFiles.step smallMedia 2) ⟨oneFileStore, fun _ => none⟩
      [.opens [47, 65] .append (fun _ => 0) (fun _ => true), .closes 0 (fun _ => true),
        .opens [65] .read (fun _ => 0) (fun _ => true)]).map (fun w => (w.mode 0, w.store.disk 3 0,
          (w.store.fileWrite smallMedia (fun _ => true) 0 [7]).map fun r => (r.2, r.1.disk 3 0))) =
      some (some .read, 0, some (.returns 1, 7)))
  obtain ⟨hread, hrest⟩ := Prod.mk.inj hw
  obtain ⟨hbefore, hwrite⟩ := Prod.mk.inj hrest
  obtain ⟨⟨st', r⟩, hwrite, hr⟩ := map_eq_some_iff.1 hwrite
  obtain ⟨rfl, hafter⟩ := Prod.mk.inj hr
  exact ⟨w, st', run_of_exec hrun, hread, hbefore, hwrite, hafter⟩

end Runs

end Verkos.Stam
