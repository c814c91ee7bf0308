import Verkos.Stam.Sched
import Verkos.Stam.Vm

/-!
# Copying a space while the timer runs

`vm_copy_space` names the child's table in a per-processor field and then calls
`map_user_page_raw`, which reads the field each time. The timer may take the parent off its
processor between any two of its steps and bring it back on another, and `schedule_locked`
saves the field, restores it, and then overwrites it with the incoming thread's own space.

`Machine` is the part of the kernel that this involves. A preemption is any switch away from
the parent, any sequence of what other threads do meanwhile, and the switch back; a schedule
puts a list of them at every point of the loop where the parent has just touched something.
The copy is the loop of `vm.c` with those points in it.

The result is an equivalence. The copy is exact if and only if every call of
`map_user_page_raw` was entered before the parent was first switched away: from then on the
field names the parent's table, the pages go where they already are, and the child does not
get them.
-/

namespace Verkos.Stam

open List
open Function

attribute [local instance] neZero1

/-- The slot table, the allocator, the user tables by the address of their first level, and
`l1_user`. -/
structure Machine (n : Nat) where
  sched : Sched n
  pm : Pmm
  tables : Nat → Space
  l1User : Nat

/-- The fork under way: who copies, from which table, into which. -/
structure Job where
  parent : Fin maxThreads
  src : Nat
  dst : Nat

/-- What happens while the parent is off its processor. A processor switches to a thread
nobody is on; the thread on a processor names another table and takes another space (exec,
fork, exit, in whatever order it does them); memory moves. Nobody but the parent has the
parent's space, and nobody else writes the two tables of the fork. -/
inductive Other (n : Nat)
  | switch (c : Fin n) (next : Fin maxThreads)
  | act (c : Fin n) (table space : Nat)
  | memory (pm : Pmm) (tables : Nat → Space)

/-- A switch away from the parent, what others do, and the processor it comes back on. -/
structure Preemption (n : Nat) (parent : Fin maxThreads) where
  next : Fin maxThreads
  away : next ≠ parent
  others : List (Other n)
  back : Fin n

/-- Where in the work on one page the parent may be preempted: before it shares the page,
before `map_user_page_raw` reads which table is meant, and after it has read that, after each
level of the walk. -/
inductive Point
  | before
  | shared
  | read
  | level1
  | level2
deriving DecidableEq

/-- The preemptions at each point of each page. -/
def Schedule (n : Nat) (parent : Fin maxThreads) : Type :=
  Va → Point → List (Preemption n parent)

variable {pm pm' : Pmm} {sp sp' : Space} {i1 : Fin 512} {ok : Bool} {d : Desc}

namespace Machine

variable {n : Nat}

/-- `mmu_current_user_table_kva` on processor `c`. -/
def currentTable (m : Machine n) (c : Fin n) : Nat :=
  if (m.sched.cpus c).userTable = 0 then m.l1User else (m.sched.cpus c).userTable

/-- `mmu_set_current_user_table_kva` on processor `c`. -/
def setCurrentTable (m : Machine n) (c : Fin n) (table : Nat) : Machine n :=
  { m with sched := m.sched.setCpu c { m.sched.cpus c with userTable := table } }

def setTable (m : Machine n) (table : Nat) (sp : Space) : Machine n :=
  { m with tables := Function.update m.tables table sp }

/-- One step of somebody else's. -/
def other (job : Job) (m : Machine n) : Other n → Machine n
  | .switch c next =>
    if next = job.parent ∨ ∃ c', m.sched.current c' = next then m
    else { m with sched := m.sched.switchTo c next }
  | .act c table space =>
    if m.sched.current c = job.parent ∨ space = job.src then m
    else
      { m with sched := m.sched.setSpace (m.sched.current c) space }.setCurrentTable c table
  | .memory pm tables =>
    { m with
      pm
      tables := fun t => if t = job.src ∨ t = job.dst then m.tables t else tables t }

/-- The parent is switched away from on `c` and comes back on another processor, or the
same. -/
def preempt (job : Job) (mc : Machine n × Fin n) (p : Preemption n job.parent) :
    Machine n × Fin n :=
  let m := { mc.1 with sched := mc.1.sched.switchTo mc.2 p.next }
  let m := p.others.foldl (other job) m
  ({ m with sched := m.sched.switchTo p.back job.parent }, p.back)

/-- The preemptions of one point, one after the other. -/
def preempts (job : Job) (mc : Machine n × Fin n) (ps : List (Preemption n job.parent)) :
    Machine n × Fin n :=
  ps.foldl (preempt job) mc

/-- `map_user_page_raw`, as the parent calls it on processor `c`. -/
def mapUserPageRaw (job : Job) (points : Point → List (Preemption n job.parent)) (m : Machine n)
    (c : Fin n) (va : Va) (d : Desc) : Machine n × Fin n × Bool :=
  let l1 := m.currentTable c
  match preempts job (m, c) (points .read) with
  | (m, c) =>
    match Space.descend1 m.pm (m.tables l1) va.i1 with
    | (pm, sp, false) => ({ m with pm }.setTable l1 sp, c, false)
    | (pm, sp, true) =>
      match preempts job ({ m with pm }.setTable l1 sp, c) (points .level1) with
      | (m, c) =>
        match Space.descend2 m.pm (m.tables l1) va.i1 va.i2 with
        | (pm, sp, false) => ({ m with pm }.setTable l1 sp, c, false)
        | (pm, sp, true) =>
          match preempts job ({ m with pm }.setTable l1 sp, c) (points .level2) with
          | (m, c) => (m.setTable l1 ((m.tables l1).setLeaf va d), c, true)

/-- `cow_share` on the parent's entry for `va`. -/
def cowShare (job : Job) (m : Machine n) (va : Va) (d : Desc) : Machine n :=
  { m with pm := m.pm.pageRef d.page }.setTable job.src
    ((m.tables job.src).setLeaf va { d with ro := true })

/-- The loops of `vm_copy_space`. -/
def copyLoop (job : Job) (sch : Schedule n job.parent) (m : Machine n) (c : Fin n) :
    List Va → Machine n × Fin n × Bool
  | [] => (m, c, true)
  | va :: vas =>
    match (m.tables job.src).walk va with
    | none => copyLoop job sch m c vas
    | some d =>
      match preempts job (m, c) (sch va .before) with
      | (m, c) =>
        match preempts job (cowShare job m va d, c) (sch va .shared) with
        | (m, c) =>
          match mapUserPageRaw job (sch va) m c va { d with ro := true } with
          | (m, c, false) => (m, c, false)
          | (m, c, true) => copyLoop job sch m c vas

/-- `vm_copy_space` from the page `vm_new_space` has just been given: `start` are the
preemptions before the child's table is named, `finish` those after the last page. -/
def copyInto (job : Job) (start finish : List (Preemption n job.parent))
    (sch : Schedule n job.parent) (m : Machine n) (c : Fin n) : Machine n × Option Nat :=
  match preempts job (m.setTable job.dst (Space.empty job.dst), c) start with
  | (m, c) =>
    let saved := m.currentTable c
    match copyLoop job sch (m.setCurrentTable c job.dst) c Space.allVas with
    | (m, c, false) => (m.setCurrentTable c saved, none)
    | (m, c, true) =>
      match preempts job (m, c) finish with
      | (m, c) => (m.setCurrentTable c saved, some job.dst)

/-- `vm_copy_space(src)`, by thread `parent` on processor `c`. -/
def vmCopySpace (parent : Fin maxThreads) (src : Nat)
    (start finish : List (Preemption n parent)) (sch : Schedule n parent) (m : Machine n)
    (c : Fin n) : Machine n × Option Nat :=
  match m.pm.allocPage with
  | none => (m, none)
  | some (dst, pm) => copyInto { parent, src, dst } start finish sch { m with pm } c

/-! ## What a preemption leaves behind -/

/-- The parent is on processor `c` and on no other, in its own space, which nobody else has. -/
structure Running (job : Job) (m : Machine n) (c : Fin n) : Prop where
  here : m.sched.current c = job.parent
  only : ∀ c', m.sched.current c' = job.parent → c' = c
  space : (m.sched.threads job.parent).space = job.src
  alone : ∀ t, t ≠ job.parent → (m.sched.threads t).space ≠ job.src

/-- The parent is on no processor. -/
structure Away (job : Job) (m : Machine n) : Prop where
  off : ∀ c, m.sched.current c ≠ job.parent
  space : (m.sched.threads job.parent).space = job.src
  alone : ∀ t, t ≠ job.parent → (m.sched.threads t).space ≠ job.src

/-- The two tables of the fork are as they were. -/
def SameTables (job : Job) (m m' : Machine n) : Prop :=
  m'.tables job.src = m.tables job.src ∧ m'.tables job.dst = m.tables job.dst

theorem SameTables.trans {job : Job} {m1 m2 m3 : Machine n} (h : SameTables job m1 m2)
    (h' : SameTables job m2 m3) : SameTables job m1 m3 :=
  ⟨h'.1.trans h.1, h'.2.trans h.2⟩

/-- At least `k` pages are left whatever others do with the memory. -/
def Other.Leaves (k : Nat) : Other n → Prop
  | .memory pm _ => k ≤ pm.avail
  | _ => True

def Preemption.Leaves {parent : Fin maxThreads} (k : Nat) (p : Preemption n parent) : Prop :=
  ∀ o ∈ p.others, Other.Leaves k o

theorem Preemption.Leaves.mono {parent : Fin maxThreads} {j k : Nat} {p : Preemption n parent}
    (h : Preemption.Leaves k p) (hj : j ≤ k) : Preemption.Leaves j p := by
  intro o ho
  have hl := h o ho
  cases o with
  | memory pm tables => exact Nat.le_trans hj hl
  | switch c next | act c table space => trivial

section Preempt

variable {job : Job} {m m' : Machine n} {c c' : Fin n}

theorem away_other (h : Away job m) (o : Other n) :
    Away job (other job m o) ∧ SameTables job m (other job m o) := by
  cases o with
  | switch c next =>
    simp only [other]
    split
    · exact ⟨h, rfl, rfl⟩
    · next hn =>
      refine ⟨⟨fun c' => ?_, ?_, fun t ht => ?_⟩, rfl, rfl⟩
      · by_cases hc : c' = c
        · subst hc
          rw [Sched.switchTo_current_self]
          exact fun he => hn (.inl he)
        · rw [Sched.switchTo_current_of_ne hc]
          exact h.off c'
      · rw [Sched.switchTo_space]
        exact h.space
      · rw [Sched.switchTo_space]
        exact h.alone t ht
  | act c table space =>
    simp only [other]
    split
    · exact ⟨h, rfl, rfl⟩
    · next hn =>
      rw [not_or] at hn
      refine ⟨⟨fun c' => ?_, ?_, fun t ht => ?_⟩, rfl, rfl⟩
      · by_cases hc : c' = c
        · subst hc
          simpa [setCurrentTable, Sched.setCpu, Sched.setSpace, Sched.setThread,
            Sched.current] using hn.1
        · simpa [setCurrentTable, Sched.setCpu, Sched.setSpace, Sched.setThread,
            Sched.current, update_of_ne hc] using h.off c'
      · simpa [setCurrentTable, Sched.setCpu, Sched.setSpace, Sched.setThread,
          update_of_ne (Ne.symm hn.1)] using h.space
      · by_cases hcur : t = m.sched.current c
        · subst hcur
          simpa [setCurrentTable, Sched.setCpu, Sched.setSpace, Sched.setThread] using hn.2
        · simpa [setCurrentTable, Sched.setCpu, Sched.setSpace, Sched.setThread,
            update_of_ne hcur] using h.alone t ht
  | memory pm tables =>
    refine ⟨⟨h.off, h.space, h.alone⟩, ?_, ?_⟩
    · simp [other]
    · simp [other]

theorem away_others (os : List (Other n)) : ∀ {m : Machine n}, Away job m →
    Away job (os.foldl (other job) m) ∧ SameTables job m (os.foldl (other job) m) := by
  induction os with
  | nil => exact fun h => ⟨h, rfl, rfl⟩
  | cons o os ih =>
    intro m h
    obtain ⟨hone, hsame⟩ := away_other h o
    obtain ⟨hrest, hsame'⟩ := ih hone
    exact ⟨hrest, hsame.trans hsame'⟩

/-- Whatever happens in between, the parent comes back to a processor whose field names the
parent's own table. -/
theorem preempt_spec (h : Running job m c) (hsrc : job.src ≠ 0) (p : Preemption n job.parent)
    (he : preempt job (m, c) p = (m', c')) :
    Running job m' c' ∧ SameTables job m m' ∧ m'.currentTable c' = job.src := by
  simp only [preempt, Prod.mk.injEq] at he
  obtain ⟨rfl, rfl⟩ := he
  have haway : Away job { m with sched := m.sched.switchTo c p.next } := by
    refine ⟨fun c' => ?_, ?_, fun t ht => ?_⟩
    · by_cases hc : c' = c
      · subst hc
        rw [Sched.switchTo_current_self]
        exact p.away
      · rw [Sched.switchTo_current_of_ne hc]
        exact fun hcur => hc (h.only c' hcur)
    · rw [Sched.switchTo_space]
      exact h.space
    · rw [Sched.switchTo_space]
      exact h.alone t ht
  obtain ⟨hoff, hsame⟩ := away_others p.others haway
  generalize p.others.foldl (other job) { m with sched := m.sched.switchTo c p.next } = m2 at *
  refine ⟨⟨Sched.switchTo_current_self, fun c' hcur => ?_, ?_, fun t ht => ?_⟩, hsame, ?_⟩
  · by_contra hc
    rw [Sched.switchTo_current_of_ne hc] at hcur
    exact hoff.off c' hcur
  · rw [Sched.switchTo_space]
    exact hoff.space
  · rw [Sched.switchTo_space]
    exact hoff.alone t ht
  · -- `mmu_switch_user` wins over the restored field: the spaces differ
    have hother := hoff.alone _ (hoff.off p.back)
    have htable : Sched.incomingTable (m2.sched.threads (m2.sched.current p.back))
        (m2.sched.threads job.parent) = job.src := by
      rw [Sched.incomingTable, hoff.space, if_pos ⟨hsrc, Ne.symm hother⟩]
    simp only [currentTable, Sched.switchTo, Sched.setCpu, update_self, htable,
      if_neg hsrc]

theorem preempts_spec (hsrc : job.src ≠ 0) (ps : List (Preemption n job.parent)) :
    ∀ {m m' : Machine n} {c c' : Fin n}, Running job m c → preempts job (m, c) ps = (m', c') →
      Running job m' c' ∧ SameTables job m m' ∧
        m'.currentTable c' = if ps = [] then m.currentTable c else job.src := by
  induction ps with
  | nil =>
    intro m m' c c' h he
    simp only [preempts, foldl_nil, Prod.mk.injEq] at he
    obtain ⟨rfl, rfl⟩ := he
    exact ⟨h, ⟨rfl, rfl⟩, rfl⟩
  | cons p ps ih =>
    intro m m' c c' h he
    cases hp : preempt job (m, c) p with
    | mk m1 c1 =>
      simp only [preempts, foldl_cons, hp] at he
      obtain ⟨h1, hsame, htable⟩ := preempt_spec h hsrc p hp
      obtain ⟨h2, hsame', htable'⟩ := ih h1 he
      refine ⟨h2, hsame.trans hsame', ?_⟩
      rw [htable', htable, if_neg (cons_ne_nil p ps), ite_self]

end Preempt

/-! ## Enough memory -/

section Memory

variable {job : Job} {m m' : Machine n} {c c' : Fin n} {k : Nat}

theorem other_avail {o : Other n} (ho : Other.Leaves k o) (h : k ≤ m.pm.avail) :
    k ≤ (other job m o).pm.avail := by
  cases o with
  | switch c next | act c table space => simp only [other]; split <;> exact h
  | memory pm tables => exact ho

theorem others_avail (os : List (Other n)) : ∀ {m : Machine n}, (∀ o ∈ os, Other.Leaves k o) →
    k ≤ m.pm.avail → k ≤ (os.foldl (other job) m).pm.avail := by
  induction os with
  | nil => exact fun _ h => h
  | cons o os ih =>
    intro m hos h
    exact ih (fun o' ho' => hos o' (mem_cons_of_mem o ho'))
      (other_avail (hos o mem_cons_self) h)

theorem preempts_avail (ps : List (Preemption n job.parent)) : ∀ {m m' : Machine n} {c c' : Fin n},
    preempts job (m, c) ps = (m', c') → (∀ p ∈ ps, Preemption.Leaves k p) →
    k ≤ m.pm.avail → k ≤ m'.pm.avail := by
  induction ps with
  | nil =>
    intro m m' c c' he _ h
    simp only [preempts, foldl_nil, Prod.mk.injEq] at he
    obtain ⟨rfl, rfl⟩ := he
    exact h
  | cons p ps ih =>
    intro m m' c c' he hps h
    cases hp : preempt job (m, c) p with
    | mk m1 c1 =>
      simp only [preempts, foldl_cons, hp] at he
      have h1 : k ≤ m1.pm.avail := by
        simp only [preempt, Prod.mk.injEq] at hp
        obtain ⟨rfl, rfl⟩ := hp
        exact others_avail p.others (hps p mem_cons_self) h
      exact ih he (fun p' hp' => hps p' (mem_cons_of_mem p hp')) h1

theorem descend1_avail (he : Space.descend1 pm sp i1 = (pm', sp', ok)) (h : k + 1 ≤ pm.avail) :
    ok = true ∧ k ≤ pm'.avail := by
  have hal := pm.avail_allocPage
  rcases Space.descend1_cases he with ⟨-, rfl, rfl, -⟩ | ⟨-, -, hn, -⟩ | ⟨t, -, rfl, hs, -⟩
  · exact ⟨rfl, by omega⟩
  · rw [hn] at hal
    dsimp only at hal
    omega
  · rw [hs] at hal
    dsimp only at hal
    exact ⟨rfl, by omega⟩

theorem descend2_avail {i2 : Fin 512}
    (he : Space.descend2 pm sp i1 i2 = (pm', sp', ok)) (h : k + 1 ≤ pm.avail) :
    ok = true ∧ k ≤ pm'.avail := by
  have hal := pm.avail_allocPage
  rcases Space.descend2_cases he with ⟨-, rfl, rfl, -⟩ | ⟨-, -, hn, -⟩ | ⟨t, -, rfl, hs, -⟩
  · exact ⟨rfl, by omega⟩
  · rw [hn] at hal
    dsimp only at hal
    omega
  · rw [hs] at hal
    dsimp only at hal
    exact ⟨rfl, by omega⟩

/-- One page takes two tables at most. -/
theorem mapUserPageRaw_avail {points : Point → List (Preemption n job.parent)} {va : Va}
    (he : mapUserPageRaw job points m c va d = (m', c', ok))
    (hps : ∀ pt, ∀ p ∈ points pt, Preemption.Leaves (k + 2) p) (h : k + 2 ≤ m.pm.avail) :
    ok = true ∧ k ≤ m'.pm.avail := by
  have hmono : ∀ {j}, j ≤ k + 2 → ∀ pt, ∀ p ∈ points pt, Preemption.Leaves j p :=
    fun hj pt p hp => (hps pt p hp).mono hj
  unfold mapUserPageRaw at he
  cases h1 : preempts job (m, c) (points .read) with
  | mk m1 c1 =>
    have ha1 := preempts_avail _ h1 (hps .read) h
    cases hd1 : Space.descend1 m1.pm (m1.tables (m.currentTable c)) va.i1 with
    | mk pm1 r1 =>
      obtain ⟨sp1, ok1⟩ := r1
      obtain ⟨rfl, hb1⟩ := descend1_avail hd1 ha1
      cases h2 : preempts job ({ m1 with pm := pm1 }.setTable (m.currentTable c) sp1, c1)
          (points .level1) with
      | mk m2 c2 =>
        have ha2 := preempts_avail _ h2 (hmono (by omega) .level1) hb1
        cases hd2 : Space.descend2 m2.pm (m2.tables (m.currentTable c)) va.i1 va.i2 with
        | mk pm2 r2 =>
          obtain ⟨sp2, ok2⟩ := r2
          obtain ⟨rfl, hb2⟩ := descend2_avail hd2 ha2
          cases h3 : preempts job ({ m2 with pm := pm2 }.setTable (m.currentTable c) sp2, c2)
              (points .level2) with
          | mk m3 c3 =>
            have ha3 := preempts_avail _ h3 (hmono (by omega) .level2) hb2
            simp only [h1, hd1, h2, hd2, h3, Prod.mk.injEq] at he
            obtain ⟨rfl, -, rfl⟩ := he
            exact ⟨rfl, ha3⟩

end Memory

/-! ## One page -/

section Page

variable {job : Job} {m m' : Machine n} {c c' : Fin n} {l1 : Nat}

theorem Running.congr (h : Running job m c) (hs : m'.sched = m.sched) : Running job m' c := by
  obtain ⟨h1, h2, h3, h4⟩ := h
  exact ⟨by rw [hs]; exact h1, by rw [hs]; exact h2, by rw [hs]; exact h3, by rw [hs]; exact h4⟩

theorem Running.setTable (h : Running job m c) (pm : Pmm) (sp : Space) :
    Running job ({ m with pm }.setTable l1 sp) c :=
  h.congr rfl

theorem SameTables.eq (h : SameTables job m m') {t : Nat} (ht : t = job.src ∨ t = job.dst) :
    m'.tables t = m.tables t := by
  rcases ht with rfl | rfl
  · exact h.1
  · exact h.2

/-- The parent has put the space `sp` in the place of table `l1`, and the other table of the
fork is as it was. -/
structure Fills (job : Job) (m : Machine n) (l1 : Nat) (sp : Space) (m' : Machine n) : Prop where
  filled : m'.tables l1 = sp
  kept : ∀ t, t = job.src ∨ t = job.dst → t ≠ l1 → m'.tables t = m.tables t

theorem Fills.setTable {sp : Space} {m1 : Machine n} (h : Fills job m l1 sp m1) (pm : Pmm)
    (sp' : Space) : Fills job m l1 sp' ({ m1 with pm }.setTable l1 sp') where
  filled := by simp only [Machine.setTable, update_self]
  kept t ht hne := by
    simp only [Machine.setTable, update_of_ne hne]
    exact h.kept t ht hne

theorem Fills.same {sp : Space} {m1 m2 : Machine n} (h : Fills job m l1 sp m1)
    (hl : l1 = job.src ∨ l1 = job.dst) (hs : SameTables job m1 m2) : Fills job m l1 sp m2 where
  filled := (hs.eq hl).trans h.filled
  kept t ht hne := (hs.eq ht).trans (h.kept t ht hne)

/-- `map_user_page_raw` fills in the table it read at its start, wherever the parent ends up;
what the next call will read is that table only if there was no switch in between. -/
theorem mapUserPageRaw_spec (hsrc : job.src ≠ 0)
    {points : Point → List (Preemption n job.parent)} {va : Va} {d : Desc}
    (hr : Running job m c) (hl : l1 = job.src ∨ l1 = job.dst) (hcur : m.currentTable c = l1)
    (he : mapUserPageRaw job points m c va d = (m', c', true)) :
    ∃ sp, Fills job m l1 sp m' ∧ sp.walk = update (m.tables l1).walk va (some d) ∧
      Running job m' c' ∧ m'.currentTable c' =
        if points .read = [] ∧ points .level1 = [] ∧ points .level2 = [] then l1 else job.src := by
  unfold mapUserPageRaw at he
  rw [hcur] at he
  have h0 : Fills job m l1 (m.tables l1) m := ⟨rfl, fun _ _ _ => rfl⟩
  cases h1 : preempts job (m, c) (points .read) with
  | mk m1 c1 =>
    obtain ⟨hr1, hs1, ht1⟩ := preempts_spec hsrc _ hr h1
    have hf1 := h0.same hl hs1
    cases hd1 : Space.descend1 m1.pm (m1.tables l1) va.i1 with
    | mk pm1 r1 =>
      obtain ⟨sp1, ok1⟩ := r1
      cases ok1 with
      | false => simp only [h1, hd1, Prod.mk.injEq] at he; cases he.2.2
      | true =>
        obtain ⟨hw1, hn1⟩ := Space.descend1_walk hd1
        rw [hf1.filled] at hw1
        cases h2 : preempts job ({ m1 with pm := pm1 }.setTable l1 sp1, c1) (points .level1) with
        | mk m2 c2 =>
          obtain ⟨hr2, hs2, ht2⟩ := preempts_spec hsrc _ (hr1.setTable pm1 sp1) h2
          have hf2 := (hf1.setTable pm1 sp1).same hl hs2
          cases hd2 : Space.descend2 m2.pm (m2.tables l1) va.i1 va.i2 with
          | mk pm2 r2 =>
            obtain ⟨sp2, ok2⟩ := r2
            cases ok2 with
            | false => simp only [h1, hd1, h2, hd2, Prod.mk.injEq] at he; cases he.2.2
            | true =>
              obtain ⟨hw2, hn2⟩ := Space.descend2_walk hd2 (by rw [hf2.filled]; exact hn1 rfl)
              rw [hf2.filled, hw1] at hw2
              cases h3 : preempts job ({ m2 with pm := pm2 }.setTable l1 sp2, c2)
                  (points .level2) with
              | mk m3 c3 =>
                obtain ⟨hr3, hs3, ht3⟩ := preempts_spec hsrc _ (hr2.setTable pm2 sp2) h3
                have hf3 := (hf2.setTable pm2 sp2).same hl hs3
                simp only [h1, hd1, h2, hd2, h3, Prod.mk.injEq] at he
                obtain ⟨rfl, rfl, -⟩ := he
                refine ⟨_, hf3.setTable m3.pm _, ?_, hr3.congr rfl, ?_⟩
                · rw [hf3.filled, Space.setLeaf_walk d (hn2 rfl), hw2]
                · show m3.currentTable c3 = _
                  rw [ht3]
                  by_cases hp3 : points .level2 = []
                  · rw [if_pos hp3]
                    show m2.currentTable c2 = _
                    rw [ht2]
                    by_cases hp2 : points .level1 = []
                    · rw [if_pos hp2]
                      show m1.currentTable c1 = _
                      rw [ht1, hcur]
                      simp only [hp2, hp3, and_true]
                    · rw [if_neg hp2, if_neg (fun h => hp2 h.2.1)]
                  · rw [if_neg hp3, if_neg (fun h => hp3 h.2.2)]

end Page

/-! ## The loop -/

/-- The pages of `vas` the walk `w` reaches. -/
@[irreducible] def mapped (w : Va → Option Desc) (vas : List Va) : List Va := vas.filter fun va => (w va).isSome

section Mapped

variable {w : Va → Option Desc} {va : Va} {vas : List Va}

@[simp] theorem mapped_nil : mapped w [] = [] := by simp [mapped]

theorem mapped_cons_none (h : w va = none) : mapped w (va :: vas) = mapped w vas := by
  simp [mapped, h]

theorem mapped_cons_some (h : w va = some d) : mapped w (va :: vas) = va :: mapped w vas := by
  simp [mapped, h]

theorem mem_mapped : va ∈ mapped w vas ↔ va ∈ vas ∧ (w va).isSome := by
  simp [mapped]

theorem nodup_mapped (h : vas.Nodup) : (mapped w vas).Nodup := by
  rw [mapped]
  exact h.filter _

end Mapped

/-- Every `map_user_page_raw` of the loop is entered before the parent is first switched away:
no preemption before the table is read for a page, and none after it either when another page
follows. -/
def Undisturbed {parent : Fin maxThreads} (sch : Schedule n parent) : List Va → Prop
  | [] => True
  | va :: rest =>
    sch va .before = [] ∧ sch va .shared = [] ∧
    (rest ≠ [] → sch va .read = [] ∧ sch va .level1 = [] ∧ sch va .level2 = []) ∧
    Undisturbed sch rest

section Loop

variable {job : Job} {sch : Schedule n job.parent} {m m' : Machine n} {c c' : Fin n} {l1 : Nat}

theorem cowShare_src {va : Va} (hw : (m.tables job.src).walk va = some d) :
    ((cowShare job m va d).tables job.src).walk =
      update (m.tables job.src).walk va (some { d with ro := true }) := by
  simp only [cowShare, setTable, update_self,
    Space.setLeaf_walk _ (Space.table3_ne_none_of_walk hw)]

theorem cowShare_dst (hne : job.src ≠ job.dst) (va : Va) (d : Desc) :
    (cowShare job m va d).tables job.dst = m.tables job.dst := by
  simp only [cowShare, setTable, update_of_ne (Ne.symm hne)]

section

variable (hsrc : job.src ≠ 0) (hne : job.src ≠ job.dst)
include hsrc hne

/-- The work on one page. The parent's table is shared there and otherwise as it was; the
child's table gets the page when the parent was not switched away before the table was
read. -/
theorem copyPage_spec {va : Va} {d : Desc} {m1 m2 : Machine n} {c1 c2 : Fin n} {l : Nat}
    (hr : Running job m c) (hl1 : l1 = job.src ∨ l1 = job.dst) (hcur : m.currentTable c = l1)
    (hw : (m.tables job.src).walk va = some d)
    (h1 : preempts job (m, c) (sch va .before) = (m1, c1))
    (h2 : preempts job (cowShare job m1 va d, c1) (sch va .shared) = (m2, c2))
    (h3 : mapUserPageRaw job (sch va) m2 c2 va { d with ro := true } = (m', c', true))
    (hl : l = if sch va .before = [] ∧ sch va .shared = [] then l1 else job.src) :
    Running job m' c' ∧
      (m'.tables job.src).walk =
        update (m.tables job.src).walk va (some { d with ro := true }) ∧
      (m'.tables job.dst).walk = (if l = job.dst then
        update (m.tables job.dst).walk va (some { d with ro := true })
        else (m.tables job.dst).walk) ∧
      m'.currentTable c' = if sch va .read = [] ∧ sch va .level1 = [] ∧ sch va .level2 = []
        then l else job.src := by
  obtain ⟨hr1, hs1, ht1⟩ := preempts_spec hsrc _ hr h1
  have hw1 : (m1.tables job.src).walk va = some d := by rw [hs1.1, hw]
  have hr1' : Running job (cowShare job m1 va d) c1 := hr1.congr rfl
  obtain ⟨hr2, hs2, ht2⟩ := preempts_spec hsrc _ hr1' h2
  have hcow : (cowShare job m1 va d).currentTable c1 = m1.currentTable c1 := rfl
  have hsrc2 : (m2.tables job.src).walk =
      update (m.tables job.src).walk va (some { d with ro := true }) := by
    rw [hs2.1, cowShare_src hw1, hs1.1]
  have hdst2 : m2.tables job.dst = m.tables job.dst := by
    rw [hs2.2, cowShare_dst hne, hs1.2]
  have hcur2 : m2.currentTable c2 = l := by
    rw [ht2, hl, hcow, ht1, hcur]
    by_cases hb : sch va .before = []
    · by_cases hsh : sch va .shared = []
      · simp only [hb, hsh, and_self, if_true]
      · simp only [hsh, and_false, if_false]
    · simp only [hb, false_and, if_false, ite_self]
  have hl' : l = job.src ∨ l = job.dst := by
    rw [hl]
    split
    · exact hl1
    · exact .inl rfl
  obtain ⟨sp, hf, hsp, hr3, ht3⟩ := mapUserPageRaw_spec hsrc hr2 hl' hcur2 h3
  refine ⟨hr3, ?_, ?_, ht3⟩
  · rcases hl' with rfl | rfl
    · -- the page goes where it already is
      rw [hf.filled, hsp, hsrc2, update_idem]
    · rw [hf.kept _ (.inl rfl) hne, hsrc2]
  · rcases hl' with rfl | rfl
    · rw [if_neg hne, hf.kept _ (.inr rfl) (Ne.symm hne), hdst2]
    · rw [if_pos rfl, hf.filled, hsp, hdst2]

/-- Once the field names the parent's own table the child gets nothing more, and the parent
never gets a page it did not have. -/
theorem copyLoop_spec (w : Va → Option Desc) (vas : List Va) :
    ∀ {m m' : Machine n} {c c' : Fin n} {l1 : Nat},
      copyLoop job sch m c vas = (m', c', true) → vas.Nodup → Running job m c →
      (l1 = job.src ∨ l1 = job.dst) → m.currentTable c = l1 →
      (∀ va ∈ vas, (m.tables job.src).walk va = w va) →
      (∀ va, (m.tables job.src).walk va = none ↔ w va = none) →
      (∀ va ∈ vas, (m.tables job.dst).walk va = none) →
      Running job m' c' ∧ (∀ va, (m'.tables job.src).walk va = none ↔ w va = none) ∧
      (l1 = job.src → (m'.tables job.dst).walk = (m.tables job.dst).walk) ∧
      (l1 = job.dst → Undisturbed sch (mapped w vas) → ∀ va, (m'.tables job.dst).walk va =
        if va ∈ vas then (w va).map (fun d => { d with ro := true })
        else (m.tables job.dst).walk va) ∧
      (l1 = job.dst → ¬ Undisturbed sch (mapped w vas) → ∃ va ∈ mapped w vas,
        (m'.tables job.dst).walk va = (m.tables job.dst).walk va) := by
  induction vas with
  | nil =>
    intro m m' c c' l1 he _ hr _ _ _ hdom _
    simp only [copyLoop, Prod.mk.injEq] at he
    obtain ⟨rfl, rfl, -⟩ := he
    exact ⟨hr, hdom, fun _ => rfl, fun _ _ _ => by simp, fun _ hn => absurd (by rw [mapped_nil]; trivial) hn⟩
  | cons va vas ih =>
    intro m m' c c' l1 he hnd hr hl1 hcur hsame hdom hempty
    obtain ⟨hva, hnd'⟩ := nodup_cons.mp hnd
    have hsame' : ∀ va' ∈ vas, (m.tables job.src).walk va' = w va' := fun va' h =>
      hsame va' (mem_cons_of_mem va h)
    have hempty' : ∀ va' ∈ vas, (m.tables job.dst).walk va' = none := fun va' h =>
      hempty va' (mem_cons_of_mem va h)
    have hwva := hsame va mem_cons_self
    simp only [copyLoop] at he
    cases hd : w va with
    | none =>
      rw [hd] at hwva
      simp only [hwva] at he
      have hmap : mapped w (va :: vas) = mapped w vas := mapped_cons_none hd
      obtain ⟨h1, h2, h3, h4, h5⟩ := ih he hnd' hr hl1 hcur hsame' hdom hempty'
      refine ⟨h1, h2, h3, fun hl hu va' => ?_, by rw [hmap]; exact h5⟩
      rw [hmap] at hu
      rw [h4 hl hu va']
      by_cases hmem : va' = va
      · subst hmem
        rw [if_neg hva, if_pos mem_cons_self, hd, hempty va' mem_cons_self]
        rfl
      · simp only [mem_cons, hmem, false_or]
    | some d =>
      rw [hd] at hwva
      have hmap : mapped w (va :: vas) = va :: mapped w vas := mapped_cons_some hd
      cases h1 : preempts job (m, c) (sch va .before) with
      | mk m1 c1 =>
        cases h2 : preempts job (cowShare job m1 va d, c1) (sch va .shared) with
        | mk m2 c2 =>
          cases h3 : mapUserPageRaw job (sch va) m2 c2 va { d with ro := true } with
          | mk m3 r3 =>
            obtain ⟨c3, ok⟩ := r3
            cases ok with
            | false =>
              simp only [hwva, h1, h2, h3, Prod.mk.injEq] at he
              cases he.2.2
            | true =>
              simp only [hwva, h1, h2, h3] at he
              obtain ⟨hr3, hsrc3, hdst3, hcur3⟩ :=
                copyPage_spec hsrc hne hr hl1 hcur hwva h1 h2 h3 rfl
              have hkeep : ∀ va' ∈ vas, va' ≠ va := fun va' h hv => hva (hv ▸ h)
              generalize hl : (if sch va .before = [] ∧ sch va .shared = [] then l1
                else job.src) = l at hdst3 hcur3
              have hl' : l = job.src ∨ l = job.dst := by
                rw [← hl]
                split
                · exact hl1
                · exact .inl rfl
              generalize hT : (if sch va .read = [] ∧ sch va .level1 = [] ∧ sch va .level2 = []
                then l else job.src) = T at hcur3
              have hT' : T = job.src ∨ T = job.dst := by
                rw [← hT]
                split
                · exact hl'
                · exact .inl rfl
              -- pages still to come are as they were, in both tables
              have hdst' : ∀ va' ∈ vas, (m3.tables job.dst).walk va' =
                  (m.tables job.dst).walk va' := by
                intro va' h
                rw [hdst3]
                split
                · rw [update_of_ne (hkeep va' h)]
                · rfl
              have hdom3 : ∀ va', (m3.tables job.src).walk va' = none ↔ w va' = none := by
                intro va'
                rw [hsrc3]
                by_cases hv : va' = va
                · subst hv
                  simp [hd]
                · rw [update_of_ne hv]
                  exact hdom va'
              obtain ⟨i1, i2, i3, i4, i5⟩ := ih he hnd' hr3 hT' hcur3
                (fun va' h => by
                  rw [hsrc3, update_of_ne (hkeep va' h)]
                  exact hsame' va' h)
                hdom3 (fun va' h => (hdst' va' h).trans (hempty' va' h))
              refine ⟨i1, i2, fun hs => ?_, fun hs hu va' => ?_, fun hs hn => ?_⟩
              · have hls : l = job.src := by rw [← hl, hs, ite_self]
                have hTs : T = job.src := by rw [← hT, hls, ite_self]
                rw [i3 hTs, hdst3, hls, if_neg hne]
              · rw [hmap] at hu
                obtain ⟨hb, hsh, hrest, hu'⟩ := hu
                have hld : l = job.dst := by rw [← hl, if_pos ⟨hb, hsh⟩, hs]
                rw [if_pos hld] at hdst3
                have hstep : (m'.tables job.dst).walk va' = if va' ∈ vas then
                    (w va').map (fun d => { d with ro := true })
                    else (m3.tables job.dst).walk va' := by
                  by_cases hnil : mapped w vas = []
                  · rcases hT' with hTs | hTd
                    · rw [i3 hTs]
                      split
                      · next hmem =>
                        have hnone : w va' = none := by
                          by_contra hw'
                          have hin : va' ∈ mapped w vas :=
                            mem_mapped.mpr ⟨hmem, Option.isSome_iff_ne_none.mpr hw'⟩
                          rw [hnil] at hin
                          exact not_mem_nil hin
                        rw [hdst' va' hmem, hempty' va' hmem, hnone]
                        rfl
                      · rfl
                    · exact i4 hTd hu' va'
                  · have hTd : T = job.dst := by rw [← hT, if_pos (hrest hnil), hld]
                    exact i4 hTd hu' va'
                rw [hstep, hdst3]
                by_cases hv : va' = va
                · subst hv
                  rw [if_neg hva, if_pos mem_cons_self, update_self, hd]
                  rfl
                · simp only [mem_cons, hv, false_or, update_of_ne hv]
              · rw [hmap] at hn ⊢
                by_cases hbs : sch va .before = [] ∧ sch va .shared = []
                · by_cases hrest : mapped w vas ≠ [] → sch va .read = [] ∧
                      sch va .level1 = [] ∧ sch va .level2 = []
                  · -- the disturbance is later in the list
                    have hn' : ¬ Undisturbed sch (mapped w vas) := fun hu =>
                      hn ⟨hbs.1, hbs.2, hrest, hu⟩
                    have hnil : mapped w vas ≠ [] := by
                      intro hnil
                      rw [hnil] at hn'
                      exact hn' trivial
                    have hTd : T = job.dst := by rw [← hT, if_pos (hrest hnil), ← hl, if_pos hbs, hs]
                    obtain ⟨va', hmem, hv⟩ := i5 hTd hn'
                    refine ⟨va', mem_cons_of_mem va hmem, ?_⟩
                    rw [hv, hdst' va' (mem_mapped.mp hmem).1]
                  · -- the parent went away while this page was being installed
                    rw [Classical.not_imp] at hrest
                    obtain ⟨hnil, hdist⟩ := hrest
                    obtain ⟨va', rest, hcons⟩ := exists_cons_of_ne_nil hnil
                    have hmem : va' ∈ mapped w vas := by rw [hcons]; exact mem_cons_self
                    have hTs : T = job.src := by rw [← hT, if_neg hdist]
                    refine ⟨va', mem_cons_of_mem va hmem, ?_⟩
                    rw [i3 hTs, hdst' va' (mem_mapped.mp hmem).1]
                · -- the parent went away before this page's table was read
                  have hls : l = job.src := by rw [← hl, if_neg hbs]
                  have hTs : T = job.src := by rw [← hT, hls, ite_self]
                  refine ⟨va, mem_cons_self, ?_⟩
                  rw [i3 hTs, hdst3, hls, if_neg hne]

/-- With two pages for every page of the parent the loop comes to its end. -/
theorem copyLoop_ok (w : Va → Option Desc) {k : Nat}
    (hps : ∀ va pt, ∀ p ∈ sch va pt, Preemption.Leaves k p) (vas : List Va) :
    ∀ {m m' : Machine n} {c c' : Fin n} {l1 : Nat} {ok : Bool},
      copyLoop job sch m c vas = (m', c', ok) → vas.Nodup → Running job m c →
      (l1 = job.src ∨ l1 = job.dst) → m.currentTable c = l1 →
      (∀ va ∈ vas, (m.tables job.src).walk va = w va) →
      2 * (mapped w vas).length ≤ k → 2 * (mapped w vas).length ≤ m.pm.avail → ok = true := by
  induction vas with
  | nil =>
    intro m m' c c' l1 ok he _ _ _ _ _ _ _
    simp only [copyLoop, Prod.mk.injEq] at he
    exact he.2.2.symm
  | cons va vas ih =>
    intro m m' c c' l1 ok he hnd hr hl1 hcur hsame hk hav
    obtain ⟨hva, hnd'⟩ := nodup_cons.mp hnd
    have hwva := hsame va mem_cons_self
    simp only [copyLoop] at he
    cases hd : w va with
    | none =>
      rw [hd] at hwva
      simp only [hwva] at he
      have hmap : mapped w (va :: vas) = mapped w vas := mapped_cons_none hd
      rw [hmap] at hk hav
      exact ih he hnd' hr hl1 hcur (fun va' h => hsame va' (mem_cons_of_mem va h)) hk hav
    | some d =>
      rw [hd] at hwva
      have hmap : mapped w (va :: vas) = va :: mapped w vas := mapped_cons_some hd
      rw [hmap, length_cons] at hk hav
      cases h1 : preempts job (m, c) (sch va .before) with
      | mk m1 c1 =>
        have ha1 := preempts_avail _ h1 (fun p hp => (hps va .before p hp).mono hk) hav
        cases h2 : preempts job (cowShare job m1 va d, c1) (sch va .shared) with
        | mk m2 c2 =>
          have hcow : 2 * ((mapped w vas).length + 1) ≤ (cowShare job m1 va d).pm.avail := by
            simpa [cowShare, setTable] using ha1
          have ha2 := preempts_avail _ h2 (fun p hp => (hps va .shared p hp).mono hk) hcow
          cases h3 : mapUserPageRaw job (sch va) m2 c2 va { d with ro := true } with
          | mk m3 r3 =>
            obtain ⟨c3, ok3⟩ := r3
            obtain ⟨rfl, ha3⟩ := mapUserPageRaw_avail h3
              (fun pt p hp => (hps va pt p hp).mono hk) ha2
            simp only [hwva, h1, h2, h3] at he
            obtain ⟨hr3, hsrc3, -, hcur3⟩ :=
              copyPage_spec hsrc hne hr hl1 hcur hwva h1 h2 h3 rfl
            refine ih he hnd' hr3 ?_ hcur3 (fun va' h => ?_) (by omega) ha3
            · split
              · split
                · exact hl1
                · exact .inl rfl
              · exact .inl rfl
            · have hv : va' ≠ va := fun hv => hva (hv ▸ h)
              rw [hsrc3, update_of_ne hv]
              exact hsame va' (mem_cons_of_mem va h)

end

end Loop

/-! ## The whole copy -/

/-- The parent enters `vm_copy_space` in the system call: it is on processor `c` and no other,
the processor's field names its space, nobody else has that space, and the allocator does not
hand it out. -/
structure Forking (parent : Fin maxThreads) (src : Nat) (m : Machine n) (c : Fin n) : Prop where
  here : m.sched.current c = parent
  only : ∀ c', m.sched.current c' = parent → c' = c
  space : (m.sched.threads parent).space = src
  alone : ∀ t, t ≠ parent → (m.sched.threads t).space ≠ src
  table : (m.sched.cpus c).userTable = src
  some_space : src ≠ 0
  fresh : ∀ dst pm, m.pm.allocPage = some (dst, pm) → dst ≠ src ∧ dst ≠ 0

/-- There is a page for the child's first table and two for each page of the parent, and
whatever others do leaves that many. -/
def Enough {parent : Fin maxThreads} (src : Nat) (start : List (Preemption n parent))
    (sch : Schedule n parent) (m : Machine n) : Prop :=
  let k := 2 * (mapped (m.tables src).walk Space.allVas).length
  k + 1 ≤ m.pm.avail ∧ (∀ p ∈ start, Preemption.Leaves k p) ∧
    ∀ va pt, ∀ p ∈ sch va pt, Preemption.Leaves k p

/-- The child's table maps exactly what `w` maps, read-only, and the parent's maps nothing
new. -/
def Exact (w : Va → Option Desc) (src dst : Nat) (m : Machine n) : Prop :=
  (∀ va, (m.tables dst).walk va = (w va).map (fun d => { d with ro := true })) ∧
    ∀ va, w va = none → (m.tables src).walk va = none

section Whole

variable {parent : Fin maxThreads} {src : Nat} {start finish : List (Preemption n parent)}
  {sch : Schedule n parent} {m m' : Machine n} {c : Fin n}

/-- The state in which the loop starts: the child's table is empty and the field names it. -/
theorem Forking.entered (h : Forking parent src m c) {dst : Nat} {pm : Pmm} {m1 : Machine n}
    {c1 : Fin n} (ha : m.pm.allocPage = some (dst, pm)) (hp : preempts ⟨parent, src, dst⟩
      ({ m with pm }.setTable dst (Space.empty dst), c) start = (m1, c1)) :
    Running ⟨parent, src, dst⟩ (m1.setCurrentTable c1 dst) c1 ∧
      (m1.setCurrentTable c1 dst).currentTable c1 = dst ∧
      m1.tables src = m.tables src ∧ m1.tables dst = Space.empty dst := by
  obtain ⟨hds, hd0⟩ := h.fresh dst pm ha
  have hrun : Running ⟨parent, src, dst⟩ ({ m with pm }.setTable dst (Space.empty dst)) c :=
    ⟨h.here, h.only, h.space, h.alone⟩
  have hsrc : (⟨parent, src, dst⟩ : Job).src ≠ 0 := h.some_space
  obtain ⟨hr, hs, -⟩ := preempts_spec hsrc start hrun hp
  refine ⟨⟨?_, fun c' hc' => ?_, hr.space, hr.alone⟩, ?_, ?_, ?_⟩
  · simpa [setCurrentTable, Sched.setCpu, Sched.current] using hr.here
  · refine hr.only c' ?_
    by_cases hc : c' = c1
    · subst hc
      exact hr.here
    · simpa [setCurrentTable, Sched.setCpu, Sched.current, update_of_ne hc] using hc'
  · simp [currentTable, setCurrentTable, Sched.setCpu, hd0]
  · exact hs.1.trans (update_of_ne (Ne.symm hds) _ _)
  · exact hs.2.trans (update_self _ _ _)

theorem Forking.returns (h : Forking parent src m c) (henough : Enough src start sch m) :
    ∃ m' dst, vmCopySpace parent src start finish sch m c = (m', some dst) := by
  obtain ⟨hav, hstart, hps⟩ := henough
  have hnodup := Space.allVas_nodup
  unfold vmCopySpace copyInto
  -- nothing below looks inside the list of all pages
  generalize Space.allVas = vas at hav hstart hps hnodup ⊢
  have hal := m.pm.avail_allocPage
  cases ha : m.pm.allocPage with
  | none =>
    rw [ha] at hal
    dsimp only at hal
    omega
  | some r =>
    obtain ⟨dst, pm⟩ := r
    rw [ha] at hal
    dsimp only at hal
    have hds := (h.fresh dst pm ha).1
    dsimp only
    cases hp : preempts ⟨parent, src, dst⟩
        ({ m with pm }.setTable dst (Space.empty dst), c) start with
    | mk m1 c1 =>
      obtain ⟨hr, hcur, hsrc, -⟩ := h.entered ha hp
      have ha0 : 2 * (mapped (m.tables src).walk vas).length ≤
          ({ m with pm }.setTable dst (Space.empty dst)).pm.avail := by
        show _ ≤ pm.avail
        omega
      have ha1 := preempts_avail _ hp hstart ha0
      dsimp only
      cases hc : copyLoop ⟨parent, src, dst⟩ sch (m1.setCurrentTable c1 dst) c1 vas with
      | mk m2 r2 =>
        obtain ⟨c2, ok⟩ := r2
        have hok : ok = true := copyLoop_ok h.some_space (Ne.symm hds) (m.tables src).walk hps
          vas hc hnodup hr (.inr rfl) hcur
          (fun va _ => congrFun (congrArg Space.walk hsrc) va) (Nat.le_refl _) ha1
        subst hok
        exact ⟨_, dst, rfl⟩

/-- The table `vm_copy_space` returns is an exact copy if and only if no call of
`map_user_page_raw` was entered after a switch. -/
theorem Forking.exact_iff (h : Forking parent src m c) (m' : Machine n) (dst : Nat)
    (he : vmCopySpace parent src start finish sch m c = (m', some dst)) :
    Exact (m.tables src).walk src dst m' ↔
      Undisturbed sch (mapped (m.tables src).walk Space.allVas) := by
  have hnodup := Space.allVas_nodup
  have hall := Space.mem_allVas
  unfold vmCopySpace copyInto at he
  generalize Space.allVas = vas at he hnodup hall ⊢
  cases ha : m.pm.allocPage with
  | none => simp only [ha, Prod.mk.injEq] at he; cases he.2
  | some r =>
    obtain ⟨dst', pm⟩ := r
    have hds := (h.fresh dst' pm ha).1
    simp only [ha] at he
    cases hp : preempts ⟨parent, src, dst'⟩
        ({ m with pm }.setTable dst' (Space.empty dst'), c) start with
    | mk m1 c1 =>
      obtain ⟨hr, hcur, hsrc, hdst⟩ := h.entered ha hp
      cases hc : copyLoop ⟨parent, src, dst'⟩ sch (m1.setCurrentTable c1 dst') c1 vas with
      | mk m2 r2 =>
        obtain ⟨c2, ok⟩ := r2
        cases ok with
        | false => simp only [hp, hc, Prod.mk.injEq] at he; cases he.2
        | true =>
          cases hf : preempts ⟨parent, src, dst'⟩ (m2, c2) finish with
          | mk m3 c3 =>
            simp only [hp, hc, hf, Prod.mk.injEq, Option.some.injEq] at he
            obtain ⟨rfl, rfl⟩ := he
            have hwalk : ∀ va, ((m1.setCurrentTable c1 dst').tables src).walk va =
                (m.tables src).walk va := fun va => congrFun (congrArg Space.walk hsrc) va
            have hempty : ∀ va, ((m1.setCurrentTable c1 dst').tables dst').walk va = none :=
              fun va => congrFun (congrArg Space.walk hdst) va
            obtain ⟨hr2, hdom, -, hgood, hbad⟩ := copyLoop_spec h.some_space (Ne.symm hds)
              (m.tables src).walk vas hc hnodup hr (.inr rfl) hcur
              (fun va _ => hwalk va) (fun va => by rw [hwalk va]) (fun va _ => hempty va)
            obtain ⟨-, ⟨hs, hd⟩, -⟩ := preempts_spec h.some_space finish hr2 hf
            have hs' : ((m3.setCurrentTable c3 (m1.currentTable c1)).tables src) = m2.tables src := hs
            have hd' : ((m3.setCurrentTable c3 (m1.currentTable c1)).tables dst') =
              m2.tables dst' := hd
            constructor
            · rintro ⟨hex, -⟩
              by_contra hn
              obtain ⟨va, hmem, hva⟩ := hbad rfl hn
              obtain ⟨d, hsome⟩ := Option.isSome_iff_exists.mp (mem_mapped.mp hmem).2
              have hchild := hex va
              rw [hd', hva, hempty va, hsome] at hchild
              cases hchild
            · intro hu
              refine ⟨fun va => ?_, fun va hva => ?_⟩
              · rw [hd', hgood rfl hu va, if_pos (hall va)]
              · rw [hs']
                exact (hdom va).mpr hva

end Whole

/-- `vm_copy_space` under preemption. With enough memory it returns a table, and whenever it
returns one, that table is the parent's space over again and the parent has gained nothing if
and only if the parent was not switched away before the last call of `map_user_page_raw` had
read which table to fill in. -/
theorem vmCopySpace_exact_iff_undisturbed {parent : Fin maxThreads} {src : Nat}
    (start finish : List (Preemption n parent)) (sch : Schedule n parent) {m : Machine n}
    {c : Fin n} (h : Forking parent src m c) : (Enough src start sch m →
      ∃ m' dst, vmCopySpace parent src start finish sch m c = (m', some dst)) ∧
    ∀ m' dst, vmCopySpace parent src start finish sch m c = (m', some dst) →
      (Exact (m.tables src).walk src dst m' ↔
        Undisturbed sch (mapped (m.tables src).walk Space.allVas)) :=
  ⟨h.returns, h.exact_iff⟩

/-- A thread that only runs in space `space`. -/
def plainThread (n : Nat) (space : Nat) : Thread n :=
  { state := .runnable, id := 0, parent := -1, waitReason := .none, waitObject := 0, wakeAt := 0
    pgid := 0, home := none, space, userTable := 0, stackLow := 0, fd := fun _ => 0, exit := none }

/-- The first two slots. -/
def slot0 : Fin maxThreads := ⟨0, maxThreads_pos⟩

def slot1 : Fin maxThreads := ⟨1, by decide⟩

/-- A virtual page, and a space with one page there, at page 9. -/
def oneVa : Va := ⟨0, 0, 0⟩

def onePage : Space :=
  (((Space.empty 1).grow1 0 2).grow2 0 0 3).setLeaf oneVa
    { page := 9, el0 := true, ro := false, attrs := 0 }

theorem onePage_walk : onePage.walk = update (fun _ => none) oneVa
    (some { page := 9, el0 := true, ro := false, attrs := 0 }) := by
  have hup : ((Space.empty 1).grow1 0 2).l2 0 ≠ none := by simp [Space.grow1]
  have htable : (((Space.empty 1).grow1 0 2).grow2 0 0 3).table3 oneVa.i1 oneVa.i2 ≠ none := by
    rw [Space.grow2_table3 hup]
    simp [oneVa]
  rw [onePage, Space.setLeaf_walk _ htable, Space.grow2_walk hup (by simp [Space.grow1]),
    Space.grow1_walk (by rfl)]
  rfl

/-- One processor, on the thread in slot 0 in the space whose table is page 1; slot 1 has a
kernel thread, and the pages from 10 on are free. -/
def oneCpu : Machine 1 where
  sched :=
    { threads := fun t => if t = slot0 then { plainThread 1 1 with state := .running }
        else plainThread 1 0
      cpus := fun _ => { cur := slot0, idle := none, userTable := 1 }
      nextId := 2 }
  pm :=
    { start := 10, top := 100, freeNext := 10, freeList := [], refs := fun _ => 0
      mem := fun _ _ => 0 }
  tables := fun _ => onePage
  l1User := 5

theorem oneCpu_forking : Forking slot0 1 oneCpu 0 where
  here := rfl
  only c' _ := Subsingleton.elim c' 0
  space := rfl
  alone t ht := by simp [oneCpu, ht, plainThread]
  table := rfl
  some_space := by decide
  fresh dst pm h := by
    have hdst : 10 = dst := by
      simp only [oneCpu, Pmm.allocPage] at h
      rw [if_neg (by decide)] at h
      exact (Prod.mk.injEq _ _ _ _ ▸ Option.some.inj h).1
    omega

theorem mem_mapped_oneCpu {va : Va} :
    va ∈ mapped (oneCpu.tables 1).walk Space.allVas ↔ va = oneVa := by
  have hw : (oneCpu.tables 1).walk = onePage.walk := rfl
  rw [mem_mapped, hw, onePage_walk]
  by_cases hva : va = oneVa
  · subst hva
    simp [Space.mem_allVas]
  · simp [hva]

theorem mapped_oneCpu : mapped (oneCpu.tables 1).walk Space.allVas = [oneVa] := by
  have hnodup : (mapped (oneCpu.tables 1).walk Space.allVas).Nodup :=
    nodup_mapped Space.allVas_nodup
  have hmem := @mem_mapped_oneCpu
  generalize mapped (oneCpu.tables 1).walk Space.allVas = vas at hnodup hmem ⊢
  cases vas with
  | nil => exact absurd (hmem.mpr rfl) not_mem_nil
  | cons a rest =>
    have ha : a = oneVa := hmem.mp mem_cons_self
    cases rest with
    | nil => rw [ha]
    | cons b rest =>
      have hb : b = oneVa := hmem.mp (mem_cons_of_mem a mem_cons_self)
      rw [ha, hb] at hnodup
      exact absurd mem_cons_self (nodup_cons.mp hnodup).1

theorem oneCpu_enough (sch : Schedule 1 slot0) (h : ∀ va pt, ∀ p ∈ sch va pt, p.others = []) :
    Enough 1 [] sch oneCpu := by
  refine ⟨?_, fun p hp => absurd hp not_mem_nil, fun va pt p hp o ho => ?_⟩
  · rw [mapped_oneCpu]
    decide
  · rw [h va pt p hp] at ho
    exact absurd ho not_mem_nil

/-- The small machine without a preemption: the copy comes back and is exact. -/
theorem vmCopySpace_oneCpu_exact : ∃ m' dst,
    vmCopySpace slot0 1 [] [] (fun _ _ => []) oneCpu 0 = (m', some dst) ∧
      Exact (oneCpu.tables 1).walk 1 dst m' := by
  obtain ⟨hret, hiff⟩ := vmCopySpace_exact_iff_undisturbed [] [] (fun _ _ => []) oneCpu_forking
  obtain ⟨m', dst, he⟩ := hret (oneCpu_enough _ (fun _ _ p hp => absurd hp not_mem_nil))
  refine ⟨m', dst, he, (hiff m' dst he).mpr ?_⟩
  rw [mapped_oneCpu]
  exact ⟨rfl, rfl, fun _ => ⟨rfl, rfl, rfl⟩, trivial⟩

/-- A tick that gives the processor to slot 1 and one that takes it back. -/
def twoTicks : Preemption 1 slot0 where
  next := slot1
  away := by decide
  others := []
  back := 0

/-- Both of them before each page is shared. -/
def ticking : Schedule 1 slot0 := fun _ pt => if pt = .before then [twoTicks] else []

theorem oneCpu_enough_ticking : Enough 1 [] ticking oneCpu := by
  apply oneCpu_enough
  intro va pt p hp
  simp only [ticking] at hp
  split at hp
  · rw [mem_singleton.mp hp]
    rfl
  · exact absurd hp not_mem_nil

theorem not_undisturbed_ticking :
    ¬ Undisturbed ticking (mapped (oneCpu.tables 1).walk Space.allVas) := by
  rw [mapped_oneCpu]
  exact fun hquiet => absurd hquiet.1 (cons_ne_nil twoTicks [])

/-- Two ticks before the first page is shared, and the child's table stays empty. -/
theorem vmCopySpace_twoTicks_not_exact :
    ¬ ∀ (n : Nat) (parent : Fin maxThreads) (src : Nat) (start finish : List (Preemption n parent))
        (sch : Schedule n parent) (m : Machine n) (c : Fin n),
      Forking parent src m c → Enough src start sch m →
      ∃ m' dst, vmCopySpace parent src start finish sch m c = (m', some dst) ∧
        Exact (m.tables src).walk src dst m' := by
  intro hclaim
  obtain ⟨m', dst, he, hex⟩ :=
    hclaim 1 slot0 1 [] [] ticking oneCpu 0 oneCpu_forking oneCpu_enough_ticking
  exact not_undisturbed_ticking ((oneCpu_forking.exact_iff m' dst he).mp hex)

end Machine

end Verkos.Stam
