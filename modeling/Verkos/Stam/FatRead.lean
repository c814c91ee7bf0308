import Verkos.Stam.FatTable

/-!
# What a file holds

A chain of clusters is read as one run of bytes. `content` is the byte at a place of it, `bytesOf` all
of a file's, and `fat_read` gives back the part of them that was asked for.
-/

namespace Verkos.Stam.Fat

open Verkos.Lib

/-- The clusters of a file or a directory, each linked to the next, the last to none. -/
structure Chain (g : Geo) (v : Volume) (cs : List Nat) : Prop where
  valid : ∀ c ∈ cs, g.Valid c
  nodup : cs.Nodup
  links : ∀ k c, cs[k]? = some c → next g v c = cs.getD (k + 1) 0
  used : ∀ c ∈ cs, entry g v c ≠ 0

/-- The byte at a place of the chain. -/
def content (g : Geo) (v : Volume) (cs : List Nat) (i : Nat) : UInt8 :=
  v (clusSector g (cs.getD (i / g.clusterBytes) 0) + i % g.clusterBytes / 512) (i % 512)

/-- The bytes of a file of that size. -/
def bytesOf (g : Geo) (v : Volume) (cs : List Nat) (size : Nat) : List UInt8 :=
  (List.range size).map (content g v cs)

@[simp] theorem length_bytesOf (g : Geo) (v : Volume) (cs : List Nat) (size : Nat) :
    (bytesOf g v cs size).length = size := by
  rw [bytesOf, List.length_map, List.length_range]

section Places

variable {g : Geo} {k w i : Nat}

theorem clusterBytes_pos (ok : g.Ok) : 0 < g.clusterBytes := by
  have hpos := ok.perClus
  unfold Geo.clusterBytes
  omega

theorem place_div (hw : w < g.clusterBytes) : (k * g.clusterBytes + w) / g.clusterBytes = k := by
  rw [Nat.mul_comm, Nat.mul_add_div (by omega), Nat.div_eq_of_lt hw, Nat.add_zero]

theorem place_mod (hw : w < g.clusterBytes) : (k * g.clusterBytes + w) % g.clusterBytes = w := by
  rw [Nat.mul_comm, Nat.mul_add_mod, Nat.mod_eq_of_lt hw]

theorem place_mod_512 : (k * g.clusterBytes + w) % 512 = w % 512 := by
  unfold Geo.clusterBytes
  rw [← Nat.mul_assoc, Nat.add_comm, Nat.add_mul_mod_self_right]

theorem place_of (ok : g.Ok) (i : Nat) : i = i / g.clusterBytes * g.clusterBytes +
    i % g.clusterBytes ∧ i % g.clusterBytes < g.clusterBytes :=
  ⟨(Nat.div_add_mod' i g.clusterBytes).symm, Nat.mod_lt _ (clusterBytes_pos ok)⟩

section

variable (hw : w < g.clusterBytes)
include hw

theorem sector_lt (hi : i < 512 - w % 512) : w + i < g.clusterBytes := by
  unfold Geo.clusterBytes at *
  have hdiv : w / 512 < g.secPerClus := Nat.div_lt_of_lt_mul (by rwa [Nat.mul_comm] at hw)
  omega

theorem sector_index : w / 512 < g.secPerClus := by
  unfold Geo.clusterBytes at hw
  exact Nat.div_lt_of_lt_mul (by rwa [Nat.mul_comm] at hw)

theorem content_place {v : Volume} {cs : List Nat} : content g v cs (k * g.clusterBytes + w) =
      v (clusSector g (cs.getD k 0) + w / 512) (w % 512) := by
  rw [content, place_div hw, place_mod hw, place_mod_512]

theorem content_sector {v : Volume} {cs : List Nat} (hi : i < 512 - w % 512) :
    content g v cs (k * g.clusterBytes + w + i) =
      v (clusSector g (cs.getD k 0) + w / 512) (w % 512 + i) := by
  have hdiv : (w + i) / 512 = w / 512 := by omega
  have hmod : (w + i) % 512 = w % 512 + i := by omega
  rw [Nat.add_assoc, content_place (sector_lt hw hi), hdiv, hmod]

end

end Places

/-! ## Reading -/

section Reading

variable {g : Geo} {v : Volume} {cs : List Nat} {k c : Nat}

section

variable (h : Chain g v cs)
include h

theorem Chain.getD_zero : cs.getD k 0 = 0 ↔ cs.length ≤ k := by
  rw [List.getD_eq_getElem?_getD]
  cases hk : cs[k]? with
  | none => simpa using List.getElem?_eq_none_iff.1 hk
  | some c =>
    have h2 := (h.valid c (List.mem_of_getElem? hk)).1
    have hlt := (List.getElem?_eq_some_iff.1 hk).1
    rw [Option.getD_some]
    omega

theorem Chain.get_of_ne (hc : cs.getD k 0 ≠ 0) : cs[k]? = some (cs.getD k 0) := by
  have hlt : k < cs.length := by
    by_contra hle
    exact hc (h.getD_zero.2 (by omega))
  rw [List.getD_eq_getElem _ _ hlt, List.getElem?_eq_getElem hlt]

theorem Chain.run_next (hc : cs.getD k 0 ≠ 0) :
    (fatNext g (cs.getD k 0)).run v = some (cs.getD (k + 1) 0, v) := by
  rw [run_fatNext, h.links k _ (h.get_of_ne hc)]

theorem Chain.run_skipClus (n : Nat) :
    (skipClus g n (cs.getD k 0)).run v = some (cs.getD (k + n) 0, v) := by
  induction n generalizing k with
  | zero => rfl
  | succ n ih =>
    rw [skipClus]
    split
    · rename_i hz
      have hlen := h.getD_zero.1 hz
      rw [h.getD_zero.2 (show cs.length ≤ k + (n + 1) by omega)]
      rfl
    · rename_i hnz
      rw [Blocks.run_bind_of (h.run_next hnz), ih, Nat.add_right_comm, Nat.add_assoc]

/-- The bytes from a place on, as many as are wanted and as there are. -/
theorem Chain.run_readLoop (ok : g.Ok) : ∀ (n : Nat) {k w rest : Nat}
    {got : List UInt8}, w < g.clusterBytes → rest ≤ n →
      (readLoop g n (cs.getD k 0) w rest got).run v =
        some ((((got ++ (List.range (min rest (cs.length * g.clusterBytes -
            (k * g.clusterBytes + w)))).map fun i =>
              content g v cs (k * g.clusterBytes + w + i)).length : Int),
          got ++ (List.range (min rest (cs.length * g.clusterBytes -
            (k * g.clusterBytes + w)))).map fun i =>
              content g v cs (k * g.clusterBytes + w + i)), v) := by
  intro n
  induction n with
  | zero =>
    intro k w rest got _ hrest
    obtain rfl : rest = 0 := by omega
    rw [readLoop, Nat.zero_min]
    simp
  | succ n ih =>
    intro k w rest got hw hrest
    rw [readLoop]
    split
    · rename_i hend
      have hzero : min rest (cs.length * g.clusterBytes - (k * g.clusterBytes + w)) = 0 := by
        rcases hend with rfl | hz
        · exact Nat.zero_min _
        · have hmul := Nat.mul_le_mul_right g.clusterBytes (h.getD_zero.1 hz)
          omega
      rw [hzero]
      simp
    · rename_i hgo
      rw [not_or] at hgo
      obtain ⟨hpos, hnz⟩ := hgo
      have hk : k < cs.length := by
        by_contra hle
        exact hnz (h.getD_zero.2 (by omega))
      have hmul := Nat.mul_le_mul_right g.clusterBytes (show k + 1 ≤ cs.length from hk)
      rw [Nat.add_mul, Nat.one_mul] at hmul
      rw [Blocks.run_reading]
      dsimp only
      -- the bytes of this round are those of the chain
      have hround : ((List.range (min (512 - w % 512) rest)).map fun i =>
          v (clusSector g (cs.getD k 0) + w / 512) (w % 512 + i)) =
            (List.range (min (512 - w % 512) rest)).map fun i =>
              content g v cs (k * g.clusterBytes + w + i) := by
        refine List.map_congr_left fun i hi => ?_
        rw [content_sector hw (by have := List.mem_range.1 hi; omega)]
      have htake : w + min (512 - w % 512) rest ≤ g.clusterBytes := by
        have hlast := sector_lt hw (show 512 - w % 512 - 1 < 512 - w % 512 by omega)
        omega
      -- this round and the others together
      have hjoin : ∀ m, min (512 - w % 512) rest + m =
          min rest (cs.length * g.clusterBytes - (k * g.clusterBytes + w)) →
            (List.range (min (512 - w % 512) rest)).map (fun i =>
              content g v cs (k * g.clusterBytes + w + i)) ++
              (List.range m).map (fun i => content g v cs
                (k * g.clusterBytes + w + min (512 - w % 512) rest + i)) =
            (List.range (min rest (cs.length * g.clusterBytes - (k * g.clusterBytes + w)))).map
              fun i => content g v cs (k * g.clusterBytes + w + i) := by
        intro m hm
        rw [← hm, List.range_add, List.map_append, List.map_map]
        simp only [Function.comp_def, Nat.add_assoc]
      rw [hround]
      split
      · rename_i hend
        have hnext : (k + 1) * g.clusterBytes + 0 =
            k * g.clusterBytes + w + min (512 - w % 512) rest := by
          rw [Nat.add_mul, Nat.one_mul]
          omega
        rw [Blocks.run_bind_of (h.run_next hnz), ih (clusterBytes_pos ok) (by omega), hnext,
          List.append_assoc, hjoin _ (by omega)]
      · rename_i hin
        have hplace : k * g.clusterBytes + (w + min (512 - w % 512) rest) =
            k * g.clusterBytes + w + min (512 - w % 512) rest := by omega
        rw [ih (by omega) (by omega), hplace, List.append_assoc, hjoin _ (by omega)]

/-- What `fat_read` gives back of a file that its chain has room for. -/
theorem Chain.run_fatRead (ok : g.Ok) {f : Handle} (hdir : f.isDir = false)
    (hhead : f.cluster = cs.getD 0 0) (hroom : f.size ≤ cs.length * g.clusterBytes) {off len : Nat}
    (hlen : off + len < 2 ^ 64) : (fatRead g f off len).run v =
      some ((((((bytesOf g v cs f.size).drop off).take len).length : Int),
        ((bytesOf g v cs f.size).drop off).take len), v) := by
  have hnodir : ¬f.isDir = true := by rw [hdir]; exact Bool.false_ne_true
  unfold fatRead
  rw [if_neg hnodir]
  split
  · rename_i hend
    rw [List.drop_eq_nil_of_le (by rw [length_bytesOf]; exact hend), List.take_nil]
    rfl
  · rename_i hin
    rw [Nat.mod_eq_of_lt hlen, hhead, Blocks.run_bind_of (h.run_skipClus _), Nat.zero_add,
      h.run_readLoop ok _ (place_of ok off).2 le_rfl, ← (place_of ok off).1, List.nil_append]
    have hbytes : ((List.range (min (if f.size < off + len then f.size - off else len)
        (cs.length * g.clusterBytes - off))).map fun i => content g v cs (off + i)) =
          ((bytesOf g v cs f.size).drop off).take len := by
      apply List.ext_getElem
      · simp only [List.length_map, List.length_range, List.length_take, List.length_drop,
          length_bytesOf]
        split <;> omega
      · intro i h1 h2
        simp [bytesOf]
    rw [hbytes]

end

end Reading

end Verkos.Stam.Fat
