import Verkos.Stam.FatRead

/-!
# What a write leaves

`fat_write` follows a chain, makes it longer where it ends, and changes the sectors it passes. What a
chain holds is followed by zeros here, so that a longer chain holds the same: `Grows` says what
happens to the table and to the rest of the volume, `padded` what happens to the bytes.
-/

namespace Verkos.Stam.Fat

open Verkos.Lib
open List (getD_append getD_append_right getD_eq_getElem length_append length_take mem_append
  mem_of_getElem? mem_singleton)
open Nat (add_assoc add_mul mod_lt mul_comm one_mul sub_self)

/-! ## Bytes put over others -/

section Put

variable {b : Sector} {o i : Nat} {l l' : List UInt8}

theorem put_nil : put b o [] = b := by
  funext i
  rw [put, List.length_nil, Nat.add_zero, if_neg (by omega)]

theorem put_put : put (put b o l) (o + l.length) l' = put b o (l ++ l') := by
  funext i
  unfold put
  rw [length_append]
  by_cases hback : o + l.length ≤ i ∧ i < o + l.length + l'.length
  · rw [if_pos hback, if_pos (by omega), getD_append_right _ _ _ _ (by omega), Nat.sub_sub]
  · rw [if_neg hback]
    by_cases hfront : o ≤ i ∧ i < o + l.length
    · rw [if_pos hfront, if_pos (by omega), getD_append _ _ _ _ (by omega)]
    · rw [if_neg hfront, if_neg (by omega)]

/-- A list with some of its bytes replaced, longer if they go over its end. -/
def splice (old : List UInt8) (off : Nat) (new : List UInt8) : List UInt8 :=
  old.take off ++ new ++ old.drop (off + new.length)

theorem map_put {f : Nat → UInt8} {size off : Nat} (hoff : off ≤ size) :
    (List.range (max size (off + l.length))).map (put f off l) =
      splice ((List.range size).map f) off l := by
  unfold splice
  apply List.ext_getElem
  · simp only [List.length_map, List.length_range, length_append, length_take,
      List.length_drop]
    omega
  · intro i h1 h2
    rw [List.getElem_map, List.getElem_range, put]
    split
    · rename_i hin
      rw [List.getElem_append_left (by simp; omega), List.getElem_append_right (by simp; omega),
        getD_eq_getElem _ _ (by omega)]
      simp [Nat.min_eq_left hoff]
    · rename_i hout
      by_cases hfront : i < off
      · rw [List.getElem_append_left (by simp; omega), List.getElem_append_left (by simp; omega)]
        simp
      · rw [List.getElem_append_right (by simp; omega)]
        simp only [length_append, length_take, List.length_map, List.length_range,
          List.getElem_drop, List.getElem_map, List.getElem_range]
        congr 1
        omega

end Put

/-! ## A chain that gets longer -/

/-- The byte at a place of the chain, zero behind its end. -/
def padded (g : Geo) (v : Volume) (cs : List Nat) (i : Nat) : UInt8 :=
  if i < cs.length * g.clusterBytes then content g v cs i else 0

/-- The table has a longer chain in place of one, made with clusters that were free, and only the
clusters of the chain have changed besides. -/
structure Grows (g : Geo) (v v' : Volume) (cs cs' : List Nat) : Prop where
  chain : Chain g v' cs'
  pre : cs <+: cs'
  fresh : ∀ c ∈ cs', c ∉ cs → entry g v c = 0
  entry : ∀ c, c < g.totalClus → c ∉ cs' → entry g v' c = entry g v c
  rest : ∀ s, ¬g.InTable s → (∀ c ∈ cs', ¬g.InClus c s) → v' s = v s

section Growing

variable {g : Geo} {v v' v'' : Volume} {cs cs' cs'' : List Nat} {c n k w i : Nat}

theorem Grows.refl (h : Chain g v cs) : Grows g v v cs cs where
  chain := h
  pre := List.prefix_refl cs
  fresh _ hin hnot := absurd hin hnot
  entry _ _ _ := rfl
  rest _ _ _ := rfl

theorem Grows.trans (h : Grows g v v' cs cs') (h' : Grows g v' v'' cs' cs'') :
    Grows g v v'' cs cs'' where
  chain := h'.chain
  pre := h.pre.trans h'.pre
  fresh c hc hnot := by
    by_cases hmid : c ∈ cs'
    · exact h.fresh c hmid hnot
    · rw [← h.entry c (h'.chain.valid c hc).2 hmid]
      exact h'.fresh c hc hmid
  entry c hlt hnot := by
    rw [h'.entry c hlt hnot, h.entry c hlt fun hc => hnot (h'.pre.subset hc)]
  rest s ht hs := by
    rw [h'.rest s ht hs, h.rest s ht fun c hc => hs c (h'.pre.subset hc)]

/-- A cluster in use by something else stays out of it. -/
theorem Grows.not_mem (h : Grows g v v' cs cs') (hnot : c ∉ cs) (hused : Fat.entry g v c ≠ 0) :
    c ∉ cs' :=
  fun hc => hused (h.fresh c hc hnot)

theorem prefix_getD (h : cs <+: cs') (hk : k < cs.length) : cs'.getD k 0 = cs.getD k 0 := by
  obtain ⟨t, rfl⟩ := h
  exact getD_append _ _ _ _ hk

theorem getD_mem (hk : k < cs.length) : cs.getD k 0 ∈ cs := by
  rw [getD_eq_getElem _ _ hk]
  exact List.getElem_mem hk

theorem Chain.congr (h : Chain g v cs) (he : ∀ c ∈ cs, Fat.entry g v' c = Fat.entry g v c) :
    Chain g v' cs where
  valid := h.valid
  nodup := h.nodup
  links k c hk := by rw [next_congr (he c (mem_of_getElem? hk)), h.links k c hk]
  used c hc := by rw [he c hc]; exact h.used c hc

/-- Two places of a chain in one sector are in the same sector of the file. -/
theorem Chain.sector_inj (h : Chain g v cs) (ok : g.Ok) {i j : Nat}
    (hi : i < cs.length * g.clusterBytes) (hj : j < cs.length * g.clusterBytes)
    (hs : clusSector g (cs.getD (i / g.clusterBytes) 0) + i % g.clusterBytes / 512 =
      clusSector g (cs.getD (j / g.clusterBytes) 0) + j % g.clusterBytes / 512) :
    i / 512 = j / 512 := by
  have hpos := clusterBytes_pos ok
  have hki : i / g.clusterBytes < cs.length := Nat.div_lt_of_lt_mul (by rwa [mul_comm] at hi)
  have hkj : j / g.clusterBytes < cs.length := Nat.div_lt_of_lt_mul (by rwa [mul_comm] at hj)
  have hsi := sector_index (mod_lt i hpos)
  have hsj := sector_index (mod_lt j hpos)
  have hclus := inClus_unique ok (h.valid _ (getD_mem hki)) (h.valid _ (getD_mem hkj))
    (inClus_of_lt hsi) (by rw [hs]; exact inClus_of_lt hsj)
  have hk : i / g.clusterBytes = j / g.clusterBytes := by
    rw [getD_eq_getElem _ _ hki, getD_eq_getElem _ _ hkj] at hclus
    exact (h.nodup.getElem_inj_iff).1 hclus
  rw [hclus] at hs
  have hin := Nat.div_add_mod' i g.clusterBytes
  have hjn := Nat.div_add_mod' j g.clusterBytes
  rw [← hk] at hjn
  have hsplit : ∀ x, (i / g.clusterBytes * g.clusterBytes + x) / 512 =
      i / g.clusterBytes * g.secPerClus + x / 512 := by
    intro x
    unfold Geo.clusterBytes
    rw [← Nat.mul_assoc, Nat.add_comm, Nat.add_mul_div_right _ _ (by omega), Nat.add_comm]
  rw [← hin, ← hjn, hsplit, hsplit]
  omega

theorem Chain.linked (h : Chain g v cs) (ok : g.Ok) (hk : cs[k]? = some c)
    (hlast : k + 1 = cs.length) (hl : Links g c n v v') : Chain g v' (cs ++ [n]) := by
  have htotal := ok.total
  have hnew : n ∉ cs := fun hn => h.used n hn hl.free
  have hn := hl.valid
  have hc : c ∈ cs := mem_of_getElem? hk
  have hentry : ∀ c' ∈ cs, c' ≠ c → Fat.entry g v' c' = Fat.entry g v c' := by
    intro c' hc' hne
    rw [hl.entry c' (h.valid c' hc').2, if_neg hne, if_neg fun he : c' = n => hnew (he ▸ hc')]
  have hentryc : Fat.entry g v' c = n := by rw [hl.entry c (h.valid c hc).2, if_pos rfl]
  have hentryn : Fat.entry g v' n = 0x0ffffff8 := by
    rw [hl.entry n hn.2, if_neg fun he : n = c => hnew (he ▸ hc), if_pos rfl]
  have hnextc : next g v' c = n := by
    rw [next_of_entry (h.valid c hc) (by rw [hentryc]; exact hn.1)
      (by rw [hentryc]; exact Nat.lt_of_lt_of_le hn.2 htotal), hentryc]
  have hnextn : next g v' n = 0 := by
    unfold next
    rw [hentryn]
    simp
  refine ⟨?_, ?_, ?_, ?_⟩
  · intro c' hc'
    rcases mem_append.1 hc' with hc' | hc'
    · exact h.valid c' hc'
    · rw [mem_singleton.1 hc']
      exact hn
  · refine List.nodup_append.2 ⟨h.nodup, List.nodup_singleton n, ?_⟩
    rintro a ha b hb rfl
    exact hnew (mem_singleton.1 hb ▸ ha)
  · intro j c' hj
    rcases Nat.lt_or_ge j cs.length with hlt | hge
    · rw [List.getElem?_append_left hlt] at hj
      by_cases hjk : j = k
      · subst hjk
        obtain rfl : c' = c := Option.some.inj (hj.symm.trans hk)
        rw [hnextc, getD_append_right _ _ _ _ (by omega), hlast, sub_self,
          List.getD_cons_zero]
      · have hne : c' ≠ c := by
          rintro rfl
          obtain ⟨_, he1⟩ := List.getElem?_eq_some_iff.1 hj
          obtain ⟨_, he2⟩ := List.getElem?_eq_some_iff.1 hk
          exact hjk ((h.nodup.getElem_inj_iff).1 (he1.trans he2.symm))
        rw [next_congr (hentry c' (mem_of_getElem? hj) hne), h.links j c' hj,
          getD_append _ _ _ _ (by omega)]
    · rw [List.getElem?_append_right hge] at hj
      obtain ⟨hz, he⟩ := List.getElem?_eq_some_iff.1 hj
      obtain rfl : n = c' := (List.getElem_singleton hz).symm.trans he
      have hlen := hz
      rw [List.length_singleton] at hlen
      rw [hnextn, List.getD_eq_default _ _ (by simp; omega)]
  · intro c' hc'
    rcases mem_append.1 hc' with hin | hc'
    · by_cases hne : c' = c
      · rw [hne, hentryc]
        have h2 := hn.1
        omega
      · rw [hentry c' hin hne]
        exact h.used c' hin
    · rw [mem_singleton.1 hc', hentryn]
      exact Nat.succ_ne_zero _

theorem padded_congr (ok : g.Ok) (hs : ∀ c ∈ cs, ∀ s, g.InClus c s → ∀ o < 512, v' s o = v s o) :
    padded g v' cs = padded g v cs := by
  funext i
  unfold padded content
  split
  · rename_i hi
    have hk : i / g.clusterBytes < cs.length :=
      Nat.div_lt_of_lt_mul (by rwa [mul_comm] at hi)
    exact hs _ (getD_mem hk) _
      (inClus_of_lt (sector_index (mod_lt i (clusterBytes_pos ok)))) _ (mod_lt _ (by omega))
  · rfl

theorem padded_append (ok : g.Ok) (hz : ∀ s, g.InClus n s → v s = fun _ => 0) :
    padded g v (cs ++ [n]) = padded g v cs := by
  have hpos := clusterBytes_pos ok
  funext i
  unfold padded
  by_cases hi : i < cs.length * g.clusterBytes
  · have hk : i / g.clusterBytes < cs.length :=
      Nat.div_lt_of_lt_mul (by rwa [mul_comm] at hi)
    have hlen : i < (cs ++ [n]).length * g.clusterBytes := by
      rw [length_append, add_mul]
      omega
    rw [if_pos hi, if_pos hlen, content, content, getD_append _ _ _ _ hk]
  · rw [if_neg hi]
    split
    · rename_i hlt
      have hk : i / g.clusterBytes = cs.length := by
        rw [length_append, List.length_singleton] at hlt
        exact Nat.div_eq_of_lt_le (by omega) hlt
      rw [content, hk, getD_append_right _ _ _ _ le_rfl, sub_self, List.getD_cons_zero,
        hz _ (inClus_of_lt (sector_index (mod_lt i hpos)))]
    · rfl

theorem Links.grows (hl : Links g c n v v') (h : Chain g v cs) (ok : g.Ok) (hk : cs[k]? = some c)
    (hlast : k + 1 = cs.length) :
    Grows g v v' cs (cs ++ [n]) ∧ padded g v' (cs ++ [n]) = padded g v cs := by
  have hc : c ∈ cs := mem_of_getElem? hk
  refine ⟨⟨h.linked ok hk hlast hl, List.prefix_append _ _, ?_, ?_, ?_⟩, ?_⟩
  · intro c' hc' hnot
    rcases mem_append.1 hc' with hin | hin
    · exact absurd hin hnot
    · rw [mem_singleton.1 hin]
      exact hl.free
  · intro c' hlt hnot
    rw [mem_append, not_or, mem_singleton] at hnot
    rw [hl.entry c' hlt, if_neg fun he : c' = c => hnot.1 (he ▸ hc), if_neg hnot.2]
  · intro s ht hs
    exact hl.rest s ht (hs n (List.mem_append_right _ (List.mem_singleton_self n)))
  · rw [padded_append ok hl.cleared]
    refine padded_congr ok fun c' hc' s hs o _ => ?_
    have hv := h.valid c' hc'
    rw [hl.rest s (InClus.not_inTable ok hv hs) fun hn =>
      h.used c' hc' (inClus_unique ok hv hl.valid hs hn ▸ hl.free)]

theorem Allocates.grows (ha : Allocates g n v v') (ok : g.Ok) :
    Grows g v v' [] [n] ∧ padded g v' [n] = padded g v [] := by
  have hn := ha.valid
  have hentry : Fat.entry g v' n = 0x0ffffff8 := by rw [ha.entry n hn.2, if_pos rfl]
  have hnext : next g v' n = 0 := by
    unfold next
    rw [hentry]
    simp
  refine ⟨⟨⟨?_, List.nodup_singleton n, ?_, ?_⟩, List.nil_prefix, ?_, ?_, ?_⟩, ?_⟩
  · intro c hc
    rw [mem_singleton.1 hc]
    exact hn
  · intro j c hj
    obtain ⟨hz, he⟩ := List.getElem?_eq_some_iff.1 hj
    obtain rfl : n = c := (List.getElem_singleton hz).symm.trans he
    rw [hnext, List.getD_eq_default _ _ (by simp)]
  · intro c hc
    rw [mem_singleton.1 hc, hentry]
    exact Nat.succ_ne_zero _
  · intro c hc _
    rw [mem_singleton.1 hc]
    exact ha.free
  · intro c hlt hnot
    rw [ha.entry c hlt, if_neg fun he => hnot (mem_singleton.2 he)]
  · intro s ht hs
    exact ha.rest s ht (hs n (List.mem_singleton_self n))
  · rw [← List.nil_append [n], padded_append ok ha.cleared]
    funext i
    simp [padded]

/-- The cluster behind one of a chain, which is longer then if that was its last. -/
theorem Chain.run_nextOrNew (h : Chain g v cs) (ok : g.Ok) (hk : k < cs.length) :
    ∃ v' cs', (nextOrNew g (cs.getD k 0)).run v = some (cs'.getD (k + 1) 0, v') ∧
      Grows g v v' cs cs' ∧ padded g v' cs' = padded g v cs ∧
      (cs'.getD (k + 1) 0 = 0 → Full g v' ∧ v' = v) := by
  have hget : cs[k]? = some (cs.getD k 0) := by
    rw [getD_eq_getElem _ _ hk, List.getElem?_eq_getElem hk]
  have hvalid := h.valid _ (mem_of_getElem? hget)
  have hnz : cs.getD k 0 ≠ 0 := by
    have h2 := hvalid.1
    omega
  unfold nextOrNew
  rw [Blocks.run_bind_of (h.run_next hnz)]
  split
  · rename_i hz
    have hlast : k + 1 = cs.length := by
      have hle := h.getD_zero.1 hz
      omega
    rcases run_linkNew ok hvalid v with ⟨hfull, hrun⟩ | ⟨n, v', hrun, hl⟩
    · exact ⟨v, cs, by rw [hrun, hz], .refl h, rfl, fun _ => ⟨hfull, rfl⟩⟩
    · obtain ⟨hgrows, hpad⟩ := hl.grows h ok hget hlast
      have hn : (cs ++ [n]).getD (k + 1) 0 = n := by
        rw [getD_append_right _ _ _ _ (by omega), hlast, sub_self, List.getD_cons_zero]
      refine ⟨v', cs ++ [n], by rw [hrun, hn], hgrows, hpad, fun hz => ?_⟩
      have h2 := hl.valid.1
      omega
  · rename_i hz
    exact ⟨v, cs, rfl, .refl h, rfl, fun h0 => absurd h0 hz⟩

/-- The walk to the cluster a write starts in. -/
theorem Chain.run_extendTo (ok : g.Ok) : ∀ (j : Nat) {k : Nat} {v : Volume} {cs : List Nat},
    Chain g v cs → k < cs.length →
      ∃ v' cs', (extendTo g j (cs.getD k 0)).run v = some (cs'.getD (k + j) 0, v') ∧
        Grows g v v' cs cs' ∧ padded g v' cs' = padded g v cs
  | 0, k, v, cs, h, _ => ⟨v, cs, rfl, Grows.refl h, rfl⟩
  | j + 1, k, v, cs, h, hk => by
    obtain ⟨v1, cs1, hrun, hgrows, hpad, -⟩ := h.run_nextOrNew ok hk
    rw [extendTo, Blocks.run_bind_of hrun]
    split
    · rename_i hz
      have hlen := hgrows.chain.getD_zero.1 hz
      refine ⟨v1, cs1, ?_, hgrows, hpad⟩
      rw [hgrows.chain.getD_zero.2 (show cs1.length ≤ k + (j + 1) by omega)]
      rfl
    · rename_i hnz
      have hk1 : k + 1 < cs1.length := by
        by_contra hle
        exact hnz (hgrows.chain.getD_zero.2 (by omega))
      obtain ⟨v2, cs2, hrun2, hgrows2, hpad2⟩ := Chain.run_extendTo ok j hgrows.chain hk1
      exact ⟨v2, cs2, by rw [hrun2, Nat.add_right_comm, add_assoc], hgrows.trans hgrows2,
        hpad2.trans hpad⟩

/-- A walk that does not get to its cluster, at most one behind the end, has changed nothing. -/
theorem Chain.extendTo_failed (h : Chain g v cs) (ok : g.Ok) : ∀ (j : Nat) {k : Nat},
    k < cs.length → k + j ≤ cs.length → (extendTo g j (cs.getD k 0)).run v = some (0, v') → v' = v
  | 0, _, _, _, hrun => (Prod.mk.inj (Option.some.inj hrun)).2.symm
  | j + 1, k, hk, hj, hrun => by
    obtain ⟨v1, cs1, hnext, hv1, -, hz⟩ := h.run_nextOrNew ok hk
    rw [extendTo, Blocks.run_bind_of hnext] at hrun
    split at hrun
    · rename_i h0
      rw [← (Prod.mk.inj (Option.some.inj hrun)).2]
      exact (hz h0).2
    · rename_i h0
      by_cases hin : k + 1 < cs.length
      · -- the next cluster is one of the chain
        have hnz : cs.getD (k + 1) 0 ≠ 0 := fun hz => by
          have hlen := h.getD_zero.1 hz
          omega
        have hstay : (nextOrNew g (cs.getD k 0)).run v = some (cs.getD (k + 1) 0, v) := by
          have hne : cs.getD k 0 ≠ 0 := fun hz => by
            have hlen := h.getD_zero.1 hz
            omega
          unfold nextOrNew
          rw [Blocks.run_bind_of (h.run_next hne), if_neg hnz]
          rfl
        obtain ⟨hc, hv⟩ := Prod.mk.inj (Option.some.inj (hnext.symm.trans hstay))
        rw [hc, hv] at hrun
        exact h.extendTo_failed ok j hin (by omega) hrun
      · obtain rfl : j = 0 := by omega
        exact absurd (Prod.mk.inj (Option.some.inj hrun)).1 h0

/-- Bytes written to one sector of the chain. The other bytes of the sector are those it had. -/
theorem Chain.padded_update (h : Chain g v cs) (ok : g.Ok) (hk : k < cs.length)
    (hw : w < g.clusterBytes) {b : Sector} {l : List UInt8} (hl : l.length ≤ 512 - w % 512)
    (hb : ∀ x < 512, x < w % 512 ∨ w % 512 + l.length ≤ x →
      b x = v (clusSector g (cs.getD k 0) + w / 512) x) :
    padded g (Function.update v (clusSector g (cs.getD k 0) + w / 512) (put b (w % 512) l)) cs =
      put (padded g v cs) (k * g.clusterBytes + w) l := by
  have hmul := Nat.mul_le_mul_right g.clusterBytes (show k + 1 ≤ cs.length from hk)
  rw [add_mul, one_mul] at hmul
  have hlast := sector_lt hw (show 512 - w % 512 - 1 < 512 - w % 512 by omega)
  have hmod : (k * g.clusterBytes + w) % 512 = w % 512 := place_mod_512
  funext i
  unfold padded put
  dsimp only
  by_cases hi : i < cs.length * g.clusterBytes
  · rw [if_pos hi, if_pos hi, content, content]
    by_cases hs : clusSector g (cs.getD (i / g.clusterBytes) 0) + i % g.clusterBytes / 512 =
        clusSector g (cs.getD k 0) + w / 512
    · have hsame : i / 512 = (k * g.clusterBytes + w) / 512 := by
        refine h.sector_inj ok hi (by omega) ?_
        rw [place_div hw, place_mod hw]
        exact hs
      rw [hs, Function.update_self]
      have hin : w % 512 ≤ i % 512 ∧ i % 512 < w % 512 + l.length ↔
          k * g.clusterBytes + w ≤ i ∧ i < k * g.clusterBytes + w + l.length := by omega
      by_cases hput : k * g.clusterBytes + w ≤ i ∧ i < k * g.clusterBytes + w + l.length
      · rw [if_pos (hin.2 hput), if_pos hput]
        congr 1
        omega
      · rw [if_neg (mt hin.1 hput), if_neg hput]
        exact hb _ (mod_lt _ (by omega)) (by have := mt hin.1 hput; omega)
    · rw [Function.update_of_ne hs]
      have hout : ¬(k * g.clusterBytes + w ≤ i ∧ i < k * g.clusterBytes + w + l.length) := by
        rintro ⟨hlo, hhi⟩
        apply hs
        have hsum : i = k * g.clusterBytes + (w + (i - (k * g.clusterBytes + w))) := by omega
        have hlt := sector_lt hw (show i - (k * g.clusterBytes + w) < 512 - w % 512 by omega)
        rw [hsum, place_div hlt, place_mod hlt]
        omega
      rw [if_neg hout]
  · rw [if_neg hi, if_neg hi, if_neg (by omega)]

theorem Chain.update (h : Chain g v cs) (ok : g.Ok) (hk : k < cs.length) (hw : w < g.clusterBytes)
    (b : Sector) :
    Grows g v (Function.update v (clusSector g (cs.getD k 0) + w / 512) b) cs cs := by
  have hin := inClus_of_lt (c := cs.getD k 0) (sector_index hw)
  have hvalid := h.valid _ (getD_mem hk)
  have hsame : ∀ c, c < g.totalClus →
      Fat.entry g (Function.update v (clusSector g (cs.getD k 0) + w / 512) b) c =
        Fat.entry g v c := by
    intro c hc
    refine entry_of_same ok hc fun s hs => Function.update_of_ne ?_ ..
    rintro rfl
    exact InClus.not_inTable ok hvalid hin hs
  refine ⟨h.congr fun c hc => hsame c (h.valid c hc).2, List.prefix_refl cs,
    fun _ hin hnot => absurd hin hnot, fun c hc _ => hsame c hc, fun s _ hs => ?_⟩
  refine Function.update_of_ne ?_ ..
  rintro rfl
  exact hs _ (getD_mem hk) hin

/-- The loop of `fat_write` puts as much as it says from its place on, everything unless no cluster
is free any more. -/
theorem Chain.run_writeLoop (ok : g.Ok) : ∀ (n : Nat) {k w d : Nat} {src : List UInt8}
    {v : Volume} {cs : List Nat}, Chain g v cs → k < cs.length → w < g.clusterBytes →
      src.length ≤ n →
      ∃ m v' cs', (writeLoop g n (cs.getD k 0) w src d).run v = some ((d + m, true), v') ∧
        m ≤ src.length ∧ (src ≠ [] → 0 < m) ∧ (m = src.length ∨ Full g v') ∧
        Grows g v v' cs cs' ∧ k * g.clusterBytes + w + m ≤ cs'.length * g.clusterBytes ∧
        padded g v' cs' = put (padded g v cs) (k * g.clusterBytes + w) (src.take m) := by
  intro n
  induction n with
  | zero =>
    intro k w d src v cs h hk hw hsrc
    have hmul := Nat.mul_le_mul_right g.clusterBytes (show k + 1 ≤ cs.length from hk)
    rw [add_mul, one_mul] at hmul
    obtain rfl : src = [] := List.length_eq_zero_iff.1 (Nat.le_zero.1 hsrc)
    exact ⟨0, v, cs, rfl, le_rfl, fun hne => absurd rfl hne, .inl rfl, .refl h, by omega,
      put_nil.symm⟩
  | succ n ih =>
    intro k w d src v cs h hk hw hsrc
    have hmul := Nat.mul_le_mul_right g.clusterBytes (show k + 1 ≤ cs.length from hk)
    rw [add_mul, one_mul] at hmul
    by_cases hnil : src = []
    · subst hnil
      rw [writeLoop, if_pos rfl]
      exact ⟨0, v, cs, rfl, le_rfl, fun hne => absurd rfl hne, .inl rfl, .refl h, by omega,
        put_nil.symm⟩
    have hpos := List.length_pos_iff.2 hnil
    -- one round: the sector has the first bytes, whether it was read before or not
    obtain ⟨take, htake⟩ : ∃ take, take = min (512 - w % 512) src.length := ⟨_, rfl⟩
    obtain ⟨v1, hv1, hpad1, hround⟩ : ∃ v1, Grows g v v1 cs cs ∧
        padded g v1 cs = put (padded g v cs) (k * g.clusterBytes + w) (src.take take) ∧
        (writeLoop g (n + 1) (cs.getD k 0) w src d).run v =
          (if take < src.length ∧ g.clusterBytes ≤ w + take then do
            let m ← nextOrNew g (cs.getD k 0)
            if m = 0 then pure (d + take, true)
            else writeLoop g n m 0 (src.drop take) (d + take)
          else writeLoop g n (cs.getD k 0) (w + take) (src.drop take) (d + take)).run v1 := by
      have hlen : (src.take take).length = take := by rw [length_take]; omega
      rw [writeLoop, if_neg hnil]
      dsimp only
      rw [← htake]
      split
      · refine ⟨_, h.update ok hk hw _, h.padded_update ok hk hw (by omega) ?_, rfl⟩
        exact fun _ _ _ => rfl
      · refine ⟨_, h.update ok hk hw _, h.padded_update ok hk hw (by omega) ?_, rfl⟩
        intro x hx hout
        omega
    have hroom : w + take ≤ g.clusterBytes := by
      have hlast := sector_lt hw (show 512 - w % 512 - 1 < 512 - w % 512 by omega)
      omega
    have hjoin : ∀ m, put (put (padded g v cs) (k * g.clusterBytes + w) (src.take take))
        (k * g.clusterBytes + w + take) ((src.drop take).take m) =
          put (padded g v cs) (k * g.clusterBytes + w) (src.take (take + m)) := by
      intro m
      have hlen : (src.take take).length = take := by rw [length_take]; omega
      rw [List.take_add, ← put_put, hlen]
    have hdrop : (src.drop take).length = src.length - take := List.length_drop
    rw [hround]
    split
    · rename_i hend
      obtain ⟨v2, cs2, hrun, hv2, hpad2, hfull⟩ := hv1.chain.run_nextOrNew ok hk
      rw [Blocks.run_bind_of hrun]
      split
      · rename_i hz
        refine ⟨take, v2, cs2, rfl, by omega, fun _ => by omega, .inr (hfull hz).1, hv1.trans hv2, ?_, ?_⟩
        · have hlen := Nat.mul_le_mul_right g.clusterBytes hv2.pre.length_le
          omega
        · rw [hpad2, hpad1]
      · rename_i hnz
        have hk2 : k + 1 < cs2.length := by
          by_contra hle
          exact hnz (hv2.chain.getD_zero.2 (by omega))
        have hplace : (k + 1) * g.clusterBytes + 0 = k * g.clusterBytes + w + take := by
          rw [add_mul, one_mul]
          omega
        obtain ⟨m, v3, cs3, hrun3, hm, -, hall, hv3, hroom3, hpad3⟩ :=
          @ih (k + 1) 0 (d + take) (src.drop take) v2 cs2 hv2.chain hk2 (clusterBytes_pos ok)
            (by omega)
        rw [hplace] at hroom3 hpad3
        refine ⟨take + m, v3, cs3, by rw [hrun3, add_assoc], by omega, fun _ => by omega, ?_,
          (hv1.trans hv2).trans hv3, by omega, ?_⟩
        · exact hall.imp_left fun h => by omega
        · rw [hpad3, hpad2, hpad1, hjoin]
    · rename_i hgo
      by_cases hlast : take < src.length
      · have hw' : w + take < g.clusterBytes := by omega
        have hplace : k * g.clusterBytes + (w + take) = k * g.clusterBytes + w + take := by omega
        obtain ⟨m, v3, cs3, hrun3, hm, -, hall, hv3, hroom3, hpad3⟩ :=
          @ih k (w + take) (d + take) (src.drop take) v1 cs hv1.chain hk hw' (by omega)
        rw [hplace] at hroom3 hpad3
        refine ⟨take + m, v3, cs3, by rw [hrun3, add_assoc], by omega, fun _ => by omega, ?_, hv1.trans hv3,
          by omega, ?_⟩
        · exact hall.imp_left fun h => by omega
        · rw [hpad3, hpad1, hjoin]
      · -- nothing is left to write
        have hnone : src.drop take = [] := List.drop_eq_nil_of_le (by omega)
        refine ⟨take, v1, cs, ?_, by omega, fun _ => by omega, .inl (by omega), hv1, by omega, hpad1⟩
        rw [hnone]
        cases n <;> rfl

end Growing

end Verkos.Stam.Fat
