import Mathlib.Data.List.Forall2
import Mathlib.Data.List.TakeWhile
import Verkos.Vzip.Archive

/-!
# What was zipped is unzipped

Every number of a header is read where it was written: a field is found by stepping over the ones in
front of it. The files are followed through `do_zip` one by one, and each is in the archive at its
offset whatever comes behind it; `do_unzip` walks the directory and finds them there.
-/

namespace Verkos.Vzip

open Lib.Bytes
open Vgzip (Chains)
open List

/-! ## The codec -/

theorem insert_below (data : List UInt8) {c : Chains} {i : Nat} (h : c.Below i) :
    (insert data c i).Below (i + 1) := by
  unfold insert
  split
  · refine h.link _ fun p hp => ?_
    unfold asInt at hp
    split_ifs at hp
    obtain rfl := Option.some.inj hp
    exact Nat.mod_le _ _
  · exact h.mono (Nat.le_succ i)

theorem inflate_deflate (data : List UInt8) : Vgzip.inflate (deflate data) = .ok data := by
  have h := Vgzip.inflate_deflateWith (fun h => insert_below data h) data []
  rwa [append_nil] at h

/-! ## Fields -/

section Fields

variable {w v k len : Nat} {l : List (Nat × Nat)} {rest : List UInt8}

theorem part_fields_skip (h : w ≤ k) : part k len (fields ((w, v) :: l) ++ rest) =
    part (k - w) len (fields l ++ rest) := by
  rw [fields, flatMap_cons, append_assoc, part_skip _ _ (by rwa [length_little]),
    length_little]
  rfl

theorem part_fields_here : part 0 w (fields ((w, v) :: l) ++ rest) = little w v := by
  rw [fields, flatMap_cons, append_assoc, part_here _ _ (length_little w v)]

theorem length_fields (l : List (Nat × Nat)) : (fields l).length = (l.map Prod.fst).sum := by
  induction l with
  | nil => rfl
  | cons p l ih =>
    rw [fields, flatMap_cons, length_append, length_little, map_cons, sum_cons]
    exact congrArg _ ih

end Fields

/-! ## An entry of the directory -/

section Entry

variable {z pre rest : List UInt8} {c : CdEnt} {cd : Nat}

theorem length_centralHeader (c : CdEnt) : (centralHeader c).length = 46 := by
  rw [centralHeader, length_fields]
  simp only [map_cons, map_nil, sum_cons, sum_nil,
    Nat.reduceAdd]

theorem length_localHeader (c : CdEnt) : (localHeader c).length = 30 := by
  rw [localHeader, length_fields]
  simp only [map_cons, map_nil, sum_cons, sum_nil,
    Nat.reduceAdd]

/-- What is read of an entry of the directory. -/
structure ReadsCentral (z : List UInt8) (cd : Nat) (c : CdEnt) : Prop where
  signature : rd32 z cd = 0x02014b50
  method : rd16 z (cd + 10) = c.method % 256 ^ 2
  csize : rd32 z (cd + 20) = c.csize % 256 ^ 4
  usize : rd32 z (cd + 24) = c.usize % 256 ^ 4
  nlen : rd16 z (cd + 28) = c.nlen % 256 ^ 2
  elen : rd16 z (cd + 30) = 0
  clen : rd16 z (cd + 32) = 0
  lho : rd32 z (cd + 42) = c.offset % 256 ^ 4

theorem readsCentral (hz : z = pre ++ (centralHeader c ++ rest)) (hcd : pre.length = cd) :
    ReadsCentral z cd c := by
  have hpart : ∀ off len, part (cd + off) len z = part off len (centralHeader c ++ rest) := by
    intro off len
    rw [hz, part_right _ _ hcd]
  have hsig : part cd 4 z = part 0 4 (centralHeader c ++ rest) := hpart 0 4
  constructor <;>
    simp (disch := decide) only [rd16, rd32, hpart, hsig, centralHeader, part_fields_skip,
      part_fields_here, Nat.reduceSub, Nat.sub_self, ofLittle_little] <;> rfl

/-- What is read in front of a file's data. -/
structure ReadsLocal (z : List UInt8) (lho : Nat) (c : CdEnt) : Prop where
  signature : rd32 z lho = 0x04034b50
  nlen : rd16 z (lho + 26) = c.nlen % 256 ^ 2
  elen : rd16 z (lho + 28) = 0

theorem readsLocal (hz : z = pre ++ (localHeader c ++ rest)) (hlho : pre.length = cd) :
    ReadsLocal z cd c := by
  have hpart : ∀ off len, part (cd + off) len z = part off len (localHeader c ++ rest) := by
    intro off len
    rw [hz, part_right _ _ hlho]
  have hsig : part cd 4 z = part 0 4 (localHeader c ++ rest) := hpart 0 4
  constructor <;>
    simp (disch := decide) only [rd16, rd32, hpart, hsig, localHeader, part_fields_skip,
      part_fields_here, Nat.reduceSub, Nat.sub_self, ofLittle_little] <;> rfl

end Entry

/-! ## The files -/

/-- A file is in the archive, at its offset. -/
structure InArchive (z name data : List UInt8) (c : CdEnt) : Prop where
  entry : c = cdEnt name data c.offset
  there : ∃ pre rest, z = pre ++ (localHeader c ++ (name ++ ((pack data).payload ++ rest))) ∧
    pre.length = c.offset

theorem InArchive.append {z name data : List UInt8} {c : CdEnt} (h : InArchive z name data c)
    (more : List UInt8) : InArchive (z ++ more) name data c := by
  obtain ⟨pre, rest, hz, hpre⟩ := h.there
  refine ⟨h.entry, pre, rest ++ more, ?_, hpre⟩
  rw [hz]
  simp only [append_assoc]

/-- What the loop over the files adds: an entry for each, with its data in the archive. -/
theorem foldl_addFile {read : List UInt8 → Option (List UInt8)} {names : List (List UInt8)}
    (h : ∀ name ∈ names, (read name).isSome) (s : List UInt8 × List CdEnt) :
    ∃ tail new, names.foldl (addFile read) s = (s.1 ++ tail, s.2 ++ new) ∧
      List.Forall₂ (fun name c => ∃ data, read name = some data ∧
        InArchive (s.1 ++ tail) name data c) names new := by
  induction names generalizing s with
  | nil => exact ⟨[], [], by simp, .nil⟩
  | cons name names ih =>
    obtain ⟨data, hdata⟩ := Option.isSome_iff_exists.1 (h name mem_cons_self)
    let c := cdEnt name data s.1.length
    let added := localHeader c ++ (name ++ (pack data).payload)
    have hadd : addFile read s name = (s.1 ++ added, s.2 ++ [c]) := by
      rw [addFile, hdata]
    obtain ⟨tail, new, hfold, hall⟩ := ih (fun name' hmem => h name' (mem_cons_of_mem _ hmem))
      (s.1 ++ added, s.2 ++ [c])
    have hfirst : InArchive (s.1 ++ added) name data c :=
      ⟨rfl, s.1, [], by rw [append_nil], rfl⟩
    refine ⟨added ++ tail, c :: new, ?_, .cons ⟨data, hdata, ?_⟩ ?_⟩
    · rw [foldl_cons, hadd, hfold]
      simp only [append_assoc, singleton_append]
    · rw [← append_assoc]
      exact hfirst.append tail
    · rwa [← append_assoc]

theorem pack_spec (data : List UInt8) : (pack data).method = 0 ∧ (pack data).payload = data ∨
      (pack data).method = 8 ∧ Vgzip.inflate (pack data).payload = .ok data := by
  by_cases hgain : data.length ≤ (deflate data).length
  · have hpack : pack data = ⟨0, data⟩ := if_pos hgain
    rw [hpack]
    exact .inl ⟨rfl, rfl⟩
  · have hpack : pack data = ⟨8, deflate data⟩ := if_neg hgain
    have hpayload : (pack data).payload = deflate data := by rw [hpack]
    refine .inr ⟨by rw [hpack], ?_⟩
    rw [hpayload]
    exact inflate_deflate data

/-- A name that `do_unzip` takes for the name of a file, and has room for. -/
structure FileName (name : List UInt8) : Prop where
  nonempty : 1 ≤ name.length
  short : name.length ≤ 1023
  noNul : 0 ∉ name
  noSlash : name.getLast? ≠ some slash

theorem cstr_eq {name : List UInt8} (h : 0 ∉ name) : cstr name = name := by
  rw [cstr, takeWhile_eq_self_iff]
  intro b hb
  exact decide_eq_true fun heq => h (heq ▸ hb)

/-- The actions for a file. -/
def unpacked (name data : List UInt8) : List Action :=
  (parents name).map .mkdir ++ [Action.written name data]

section Walk

variable {z name data : List UInt8} {c : CdEnt} {cd : Nat}

theorem extracted_file (h : FileName name) : extracted {} name data = unpacked name data := by
  rw [extracted, if_neg Bool.false_ne_true, if_neg h.noSlash, unpacked]

theorem extract_file (hz : z.length < 2 ^ 32) (hn : FileName name) (hin : InArchive z name data c)
    (hc : ReadsCentral z cd c) (hname : part (cd + 46) name.length z = name) :
    extract z {} cd = unpacked name data := by
  obtain ⟨hentry, pre, rest, harch, hpre⟩ := hin
  have hlocal := readsLocal harch hpre
  have hshort := hn.short
  have hlen := congrArg List.length harch
  simp only [length_append] at hlen
  have hnlen : c.nlen = name.length := by rw [hentry]; rfl
  have hcsize : c.csize = (pack data).payload.length := by rw [hentry]; rfl
  have hmethod : c.method = (pack data).method := by rw [hentry]; rfl
  have hcd : rd16 z (cd + 28) = name.length := by
    rw [hc.nlen, hnlen, Nat.mod_eq_of_lt (by omega)]
  have hcs : rd32 z (cd + 20) = (pack data).payload.length := by
    rw [hc.csize, hcsize, Nat.mod_eq_of_lt (by omega)]
  have hlho : rd32 z (cd + 42) = c.offset := by
    rw [hc.lho, Nat.mod_eq_of_lt (by omega)]
  have hln : rd16 z (c.offset + 26) = name.length := by
    rw [hlocal.nlen, hnlen, Nat.mod_eq_of_lt (by omega)]
  have hdata : part (c.offset + 30 + name.length + 0) (pack data).payload.length z =
      (pack data).payload := by
    rw [harch, ← hpre, Nat.add_zero, Nat.add_assoc, part_right _ _ rfl,
      part_right _ _ (length_localHeader c)]
    exact part_append _ _ _ rfl rfl
  have hfilt : (!nameWanted name ({} : Options).filt) = false := rfl
  rw [extract, hcd, hcs, hlho, Nat.min_eq_left hshort, hname, cstr_eq hn.noNul, hfilt, hln,
    hlocal.elen, hdata, hc.method, hmethod, if_neg Bool.false_ne_true, if_neg Bool.false_ne_true,
    if_neg (not_not_intro hlocal.signature)]
  dsimp only
  rcases pack_spec data with ⟨hm, hp⟩ | ⟨hm, hp⟩
  · rw [hm, if_pos (by decide), hp, extracted_file hn]
  · rw [hm, if_neg (by decide), if_pos (by decide), hp]
    exact extracted_file hn

/-- The walk through the directory, from an entry on. -/
theorem unzipLoop_files (hz : z.length < 2 ^ 32) {read : List UInt8 → Option (List UInt8)}
    {names : List (List UInt8)} {cds : List CdEnt} (hnames : ∀ name ∈ names, FileName name)
    (hall : List.Forall₂ (fun name c => ∃ data, read name = some data ∧ InArchive z name data c)
      names cds) {pre after : List UInt8}
    (harch : z = pre ++ ((cds.flatMap fun c => centralHeader c ++ c.name) ++ after)) :
    unzipLoop z {} cds.length pre.length =
      names.flatMap fun name => unpacked name ((read name).getD []) := by
  induction hall generalizing pre with
  | nil => rfl
  | @cons name c names cds hhead htail ih =>
    obtain ⟨data, hdata, hin⟩ := hhead
    have hn := hnames name mem_cons_self
    have hshort := hn.short
    have hcname : c.name = name := by
      rw [hin.entry]
      exact take_of_length_le hshort
    have hnlen : c.nlen = name.length := by
      rw [hin.entry]
      rfl
    rw [flatMap_cons, hcname] at harch
    have harch' : z = pre ++ (centralHeader c ++ (name ++
        ((cds.flatMap fun c => centralHeader c ++ c.name) ++ after))) := by
      rw [harch]
      simp only [append_assoc]
    have hlen := congrArg List.length harch'
    simp only [length_append, length_centralHeader] at hlen
    have hc := readsCentral harch' rfl
    have hname : part (pre.length + 46) name.length z = name := by
      rw [harch', part_right _ _ rfl]
      exact part_append _ _ _ (length_centralHeader c) rfl
    have hnext : (pre.length + 46 + rd16 z (pre.length + 28) + rd16 z (pre.length + 30) +
        rd16 z (pre.length + 32)) % 2 ^ 32 = (pre ++ (centralHeader c ++ name)).length := by
      rw [hc.nlen, hc.elen, hc.clen, hnlen, Nat.mod_eq_of_lt (show name.length < 256 ^ 2 by omega),
        length_append, length_append, length_centralHeader]
      omega
    rw [length_cons, unzipLoop, if_neg (by omega), if_neg (not_not_intro hc.signature),
      extract_file hz hn hin hc hname, hnext, flatMap_cons, hdata, Option.getD_some]
    dsimp only
    rw [ih (fun name' hmem => hnames name' (mem_cons_of_mem _ hmem)) (by
      rw [harch']
      simp only [append_assoc])]

end Walk

/-! ## The round trip -/

section RoundTrip

variable {read : List UInt8 → Option (List UInt8)} {names : List (List UInt8)}

/-- What is read of the end record. -/
theorem endRecord_last {z front : List UInt8} {count size start : Nat}
    (hz : z = front ++ fields [(4, 0x06054b50), (2, 0), (2, 0), (2, count), (2, count), (4, size),
      (4, start), (2, 0)]) :
    endRecord z = some front.length ∧ rd16 z (front.length + 10) = count % 256 ^ 2 ∧
      rd32 z (front.length + 16) = start % 256 ^ 4 := by
  have hpart : ∀ off n, part (front.length + off) n z = part off n (fields [(4, 0x06054b50), (2, 0),
      (2, 0), (2, count), (2, count), (4, size), (4, start), (2, 0)] ++ []) := by
    intro off n
    rw [hz, part_right _ _ rfl, append_nil]
  have hsig : rd32 z front.length = 0x06054b50 := by
    rw [rd32, ← Nat.add_zero front.length, hpart, part_fields_here, ofLittle_little,
      Nat.mod_eq_of_lt (by decide)]
  have hlength : z.length = front.length + 22 := by
    rw [hz, length_append, length_fields]
    simp only [map_cons, map_nil, sum_cons, sum_nil, Nat.reduceAdd]
  refine ⟨?_, ?_, ?_⟩
  · obtain ⟨k, hk⟩ : ∃ k, min 65536 (z.length + 1 - 22) = k + 1 :=
      ⟨min 65535 front.length, by omega⟩
    have hfirst : z.length - 22 - 0 = front.length := by omega
    rw [endRecord, hk, range_succ_eq_map, map_cons, hfirst, find?_cons_of_pos]
    exact decide_eq_true hsig
  · simp (disch := decide) only [rd16, hpart, part_fields_skip, part_fields_here, Nat.reduceSub,
      ofLittle_little]
  · simp (disch := decide) only [rd32, hpart, part_fields_skip, part_fields_here, Nat.reduceSub,
      ofLittle_little]

/-- What `do_unzip` does on what `do_zip` has written: every file in its turn. -/
theorem doUnzip_doZip (hcount : names.length ≤ 65535) (hread : ∀ name ∈ names, (read name).isSome)
    (hnames : ∀ name ∈ names, FileName name) (hsize : (doZip read names).length < 2 ^ 32) :
    doUnzip (doZip read names) {} =
      some (names.flatMap fun name => unpacked name ((read name).getD [])) := by
  obtain ⟨front, cds, hfold, hall⟩ := foldl_addFile hread ([], [])
  rw [nil_append, nil_append] at hfold
  have hlen : cds.length = names.length := hall.length_eq.symm
  obtain ⟨dir, hdir⟩ : ∃ dir, dir = cds.flatMap fun c => centralHeader c ++ c.name := ⟨_, rfl⟩
  obtain ⟨last, hlast⟩ : ∃ last, last = fields [(4, 0x06054b50), (2, 0), (2, 0), (2, cds.length),
      (2, cds.length), (4, dir.length), (4, front.length), (2, 0)] := ⟨_, rfl⟩
  have hz : doZip read names = front ++ (dir ++ last) := by
    rw [doZip, hfold, hlast, hdir]
  rw [hz] at hsize ⊢
  have hz' : front ++ (dir ++ last) = (front ++ dir) ++ last := (append_assoc _ _ _).symm
  obtain ⟨hend, hn, hstart⟩ := endRecord_last (hz'.trans (by rw [hlast]))
  have hfront : front.length < 256 ^ 4 := by
    rw [length_append] at hsize
    omega
  rw [doUnzip, hend, Option.map_some, hn, hstart, Nat.mod_eq_of_lt hfront,
    Nat.mod_eq_of_lt (show cds.length < 256 ^ 2 by omega)]
  refine congrArg some (unzipLoop_files hsize hnames ?_ (by rw [hdir]))
  refine hall.imp fun name c h => ?_
  obtain ⟨data, hdata, hin⟩ := h
  exact ⟨data, hdata, hin.append _⟩

/-- What an action leaves in the files. -/
def perform (fs : List UInt8 → Option (List UInt8)) : Action → List UInt8 → Option (List UInt8)
  | .written name data => Function.update fs name (some data)
  | _ => fs

theorem perform_unpacked (fs : List UInt8 → Option (List UInt8)) (name data : List UInt8) :
    (unpacked name data).foldl perform fs = Function.update fs name (some data) := by
  have hmkdir : ∀ l : List (List UInt8), (l.map Action.mkdir).foldl perform fs = fs := by
    intro l
    induction l with
    | nil => rfl
    | cons p l ih =>
      have hone : perform fs (.mkdir p) = fs := rfl
      rw [map_cons, foldl_cons, hone, ih]
  rw [unpacked, foldl_append, hmkdir]
  rfl

/-- Every file that was there is there again, the others are as they were. -/
theorem perform_files (hread : ∀ name ∈ names, (read name).isSome)
    (fs : List UInt8 → Option (List UInt8)) (name : List UInt8) :
    (names.flatMap fun name => unpacked name ((read name).getD [])).foldl perform fs name =
      if name ∈ names then read name else fs name := by
  induction names generalizing fs with
  | nil => rfl
  | cons first names ih =>
    rw [flatMap_cons, foldl_append, perform_unpacked,
      ih fun name hmem => hread name (mem_cons_of_mem _ hmem)]
    obtain ⟨data, hdata⟩ := Option.isSome_iff_exists.1 (hread first mem_cons_self)
    rw [hdata, Option.getD_some]
    by_cases hrest : name ∈ names
    · rw [if_pos hrest, if_pos (mem_cons_of_mem _ hrest)]
    · rw [if_neg hrest]
      by_cases hfirst : name = first
      · rw [hfirst, Function.update_self, if_pos mem_cons_self, hdata]
      · rw [Function.update_of_ne hfirst, if_neg]
        exact fun hmem => (mem_cons.1 hmem).elim hfirst hrest

/-- **The zip round trip.** -/
theorem zip_round_trip (hcount : names.length ≤ 65535)
    (hread : ∀ name ∈ names, (read name).isSome) (hnames : ∀ name ∈ names, FileName name)
    (hsize : (doZip read names).length < 2 ^ 32) :
    ∃ actions, doUnzip (doZip read names) {} = some actions ∧
      (actions = names.flatMap fun name => unpacked name ((read name).getD [])) ∧
      ∀ fs, ∀ name ∈ names, actions.foldl perform fs name = read name := by
  refine ⟨_, doUnzip_doZip hcount hread hnames hsize, rfl, fun fs name hname => ?_⟩
  rw [perform_files hread, if_pos hname]

/-- One file. -/
theorem zip_round_trip_one : ∃ actions,
    doUnzip (doZip (fun _ => some [1, 2, 3]) [[0x61]]) {} = some actions ∧
      (actions = [[0x61]].flatMap fun name => unpacked name ((some [1, 2, 3]).getD [])) ∧
      ∀ fs, ∀ name ∈ [[0x61]], actions.foldl perform fs name = some [1, 2, 3] :=
  zip_round_trip (by decide) (fun _ _ => rfl)
    (fun name hname => by
      rw [mem_singleton.1 hname]
      exact ⟨by decide, by decide, by decide, by decide⟩)
    (by decide +kernel)

end RoundTrip

end Verkos.Vzip
