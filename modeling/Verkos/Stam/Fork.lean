import Verkos.Stam.Cow
import Verkos.Stam.Descriptors

/-!
# A fork that fails

`do_fork` copies the caller's address space and then asks for a slot and a stack. The copy takes a
page for its first table, a holder of every page it shares, the write permission of the caller and a
page for every other table, and when a later step finds nothing left none of it is given back. So a
fork that fails leaves the machine as it was only when the very first page could not be had.
-/

namespace Verkos.Stam

open Verkos.Lib

/-- The allocator, the address space of the process that forks, and the tables of descriptors and
processes. -/
structure Forker where
  pm : Pmm
  space : Space
  procs : Procs

namespace Forker

/-- `do_fork`. -/
def doFork (k : Forker) (t : Fin maxThreads) : Forker × Int :=
  match k.space.vmCopySpace k.pm with
  | (pm, space, none) => ({ k with pm, space }, -12)
  | (pm, space, some _) =>
    match k.procs.allocSlot with
    | none => ({ k with pm, space }, -11)
    | some _ =>
      match pm.allocPages stackPages with
      | none => ({ pm, space, procs := (k.procs.threadFork t false).1 }, -11)
      | some (_, pm) => ({ pm, space, procs := (k.procs.threadFork t true).1 }, k.procs.nextId)

/-- The page can be written, at once or after one fault. -/
def WritableSoon (k : Forker) (va : Va) : Prop :=
  (∃ d, k.space.walk va = some d ∧ d.el0 = true ∧ d.ro = false) ∨
    ∃ pm space d, k.space.vmCowFault k.pm va = some (pm, space) ∧ space.walk va = some d ∧
      d.ro = false

/-- Everything is as it was: the number of free pages, the holders of every page, the objects and
the descriptors, which processes there are, and what the caller may write. -/
structure Unchanged (k k' : Forker) : Prop where
  avail : k'.pm.avail = k.pm.avail
  count : ∀ p, k'.pm.pageCount p = k.pm.pageCount p
  refs : ∀ f, (k'.procs.fs.files f).refs = (k.procs.fs.files f).refs
  fd : k'.procs.fd = k.procs.fd
  state : k'.procs.state = k.procs.state
  nextId : k'.procs.nextId = k.procs.nextId
  writable : ∀ va, k.WritableSoon va → k'.WritableSoon va

theorem Unchanged.refl (k : Forker) : Unchanged k k :=
  ⟨rfl, fun _ => rfl, fun _ => rfl, rfl, rfl, rfl, fun _ h => h⟩

end Forker

/-! ## What a copy takes -/

section Taken

variable {pm pm' : Pmm} {src dst src' dst' : Space} {ok : Bool}

theorem Pmm.avail_of_allocPage {p : Nat} (h : pm.allocPage = some (p, pm')) :
    pm'.avail + 1 = pm.avail := by
  have hav := pm.avail_allocPage
  rw [h] at hav
  exact hav

namespace Space

theorem descend1_avail {i1 : Fin 512} (h : descend1 pm src i1 = (pm', src', ok)) :
    pm'.avail ≤ pm.avail := by
  unfold descend1 at h
  split at h
  · cases h
    exact le_rfl
  · split at h
    · cases h
      exact le_rfl
    · rename_i ha
      cases h
      have hav := Pmm.avail_of_allocPage ha
      omega

theorem descend2_avail {i1 i2 : Fin 512} (h : descend2 pm src i1 i2 = (pm', src', ok)) :
    pm'.avail ≤ pm.avail := by
  unfold descend2 at h
  split at h
  · cases h
    exact le_rfl
  · split at h
    · cases h
      exact le_rfl
    · rename_i ha
      cases h
      have hav := Pmm.avail_of_allocPage ha
      omega

theorem mapUserPageRaw_avail {va : Va} {d : Desc}
    (h : mapUserPageRaw pm src va d = (pm', src', ok)) : pm'.avail ≤ pm.avail := by
  unfold mapUserPageRaw at h
  split at h
  · rename_i h1
    cases h
    exact descend1_avail h1
  · rename_i h1
    have hle1 := descend1_avail h1
    split at h
    · rename_i h2
      cases h
      exact (descend2_avail h2).trans hle1
    · rename_i h2
      cases h
      exact (descend2_avail h2).trans hle1

theorem copyLoop_avail {vas : List Va} (h : copyLoop pm src dst vas = (pm', src', dst', ok)) :
    pm'.avail ≤ pm.avail := by
  induction vas generalizing pm src dst with
  | nil =>
    cases h
    exact le_rfl
  | cons va vas ih =>
    rw [copyLoop] at h
    split at h
    · exact ih h
    · dsimp only at h
      split at h
      · rename_i hm
        cases h
        exact (mapUserPageRaw_avail hm).trans (by rw [Pmm.avail_pageRef])
      · rename_i hm
        have hle := mapUserPageRaw_avail hm
        rw [Pmm.avail_pageRef] at hle
        exact (ih h).trans hle

theorem vmCopySpace_avail {child : Option Space} (h : vmCopySpace pm src = (pm', src', child)) :
    pm.allocPage = none ∧ pm' = pm ∧ src' = src ∧ child = none ∨ pm'.avail < pm.avail := by
  unfold vmCopySpace at h
  split at h
  · rename_i ha
    cases h
    exact .inl ⟨ha, rfl, rfl, rfl⟩
  · rename_i ha
    have hav := Pmm.avail_of_allocPage ha
    right
    split at h
    · rename_i hc
      cases h
      have hle := copyLoop_avail hc
      omega
    · rename_i hc
      cases h
      have hle := copyLoop_avail hc
      omega

end Space

end Taken

namespace Forker

variable {k : Forker} {t : Fin maxThreads}

theorem doFork_fails (h : (k.doFork t).2 < 0) :
    k.pm.allocPage = none ∧ (k.doFork t).1 = k ∨ (k.doFork t).1.pm.avail < k.pm.avail := by
  unfold doFork at h ⊢
  rcases hc : k.space.vmCopySpace k.pm with ⟨pm, space, child⟩
  rw [hc] at h
  have hav := Space.vmCopySpace_avail hc
  cases child with
  | none =>
    rcases hav with ⟨ha, rfl, rfl, -⟩ | hlt
    · exact .inl ⟨ha, rfl⟩
    · exact .inr hlt
  | some child =>
    have hlt : pm.avail < k.pm.avail := by
      rcases hav with ⟨-, -, -, hn⟩ | hlt
      · cases hn
      · exact hlt
    right
    dsimp only at h ⊢
    split
    · exact hlt
    · rename_i c hslot
      rw [hslot] at h
      dsimp only at h
      split
      · exact hlt
      · rename_i hstack
        rw [hstack] at h
        exact absurd h (by simp)

end Forker

/-- A fork that fails changes nothing exactly when there was no page left for the first table of the
copy. -/
theorem failed_fork_unchanged_iff (k : Forker) (t : Fin maxThreads) (h : (k.doFork t).2 < 0) :
    k.Unchanged (k.doFork t).1 ↔ k.pm.allocPage = none := by
  constructor
  · intro hu
    rcases Forker.doFork_fails h with ⟨ha, -⟩ | hlt
    · exact ha
    · have heq := hu.avail
      omega
  · intro ha
    rcases Forker.doFork_fails h with ⟨-, he⟩ | hlt
    · rw [he]
      exact Forker.Unchanged.refl k
    · have hav := k.pm.avail_allocPage
      rw [ha] at hav
      change k.pm.avail = 0 at hav
      omega

/-! ## No slot left -/

/-- A machine whose processes take every slot, with so many pages free. -/
def crowded (free : Nat) : Forker where
  pm := ⟨1, 100 + free, 100, [], fun _ => 0, fun _ _ => 0⟩
  space := Space.empty 2
  procs := { bootProcs with state := fun _ => .runnable }

theorem crowded_fails (free : Nat) (t : Fin maxThreads) : ((crowded free).doFork t).2 < 0 := by
  have hslot : (crowded free).procs.allocSlot = none :=
    List.find?_eq_none.2 fun _ _ => by simp [crowded]
  unfold Forker.doFork
  rw [hslot]
  split
  · exact Int.negSucc_lt_zero _
  · exact Int.negSucc_lt_zero _

/-- With no page left nothing changes. -/
theorem failed_fork_unchanged_crowded : (crowded 0).Unchanged ((crowded 0).doFork bootThread).1 :=
  (failed_fork_unchanged_iff _ _ (crowded_fails 0 bootThread)).2 rfl

/-- With ten pages left the copy is lost. -/
theorem failed_fork_loses_pages : ¬∀ (k : Forker) (t : Fin maxThreads), (k.doFork t).2 < 0 →
    k.Unchanged (k.doFork t).1 := by
  intro h
  have hu := h (crowded 10) bootThread (crowded_fails 10 bootThread)
  rcases Forker.doFork_fails (crowded_fails 10 bootThread) with ⟨ha, -⟩ | hlt
  · cases ha
  · have heq := hu.avail
    omega

end Verkos.Stam
