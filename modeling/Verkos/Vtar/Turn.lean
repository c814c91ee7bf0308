import Verkos.Vtar.Header

/-!
# One entry after the other

Two things are said of a turn of `do_extract`. At a header that `put_header` made it is known exactly
what it does. At any other block there is still this: what it makes of a directory is modified now,
and it makes one file at most, of bytes that it took from the archive.
-/

namespace Verkos.Vtar

open List
open Function

/-! ## Copying -/

section Copy

theorem blocks_succ {n : Nat} (h : 0 < n) : blocks n = blocks (n - 512) + 1 := by
  unfold blocks
  omega

theorem copyOut_copyIn (content rest : List UInt8) :
    copyOut (blocks content.length) content.length (copyIn (blocks content.length) content ++ rest) =
      (content, rest) := by
  induction hn : content.length using Nat.strong_induction_on generalizing content with
  | _ n ih =>
    subst hn
    rcases Nat.eq_zero_or_pos content.length with h0 | hpos
    · obtain rfl := length_eq_zero_iff.1 h0
      rfl
    · have hdrop : (content.drop 512).length = content.length - 512 := length_drop
      have hlen : (text 512 (content.take 512)).length = 512 := length_text (length_take_le _ _)
      have hmore := ih (content.drop 512).length (by omega) (content.drop 512) rfl
      rw [hdrop] at hmore
      rw [blocks_succ hpos, copyIn, copyOut, append_assoc, drop_left' hlen,
        if_neg (by rw [length_append, hlen]; omega), hmore]
      dsimp only
      have htake : (text 512 (content.take 512) ++ (copyIn (blocks (content.length - 512))
          (content.drop 512) ++ rest)).take (min content.length 512) = content.take 512 := by
        rw [text, append_assoc]
        exact take_left' (by rw [length_take, Nat.min_comm])
      rw [htake, take_append_drop]

theorem length_copyIn (k : Nat) (content : List UInt8) : (copyIn k content).length = 512 * k := by
  induction k generalizing content with
  | zero => rfl
  | succ k ih =>
    rw [copyIn, length_append, ih, length_text (length_take_le _ _)]
    omega

theorem copyOut_length (k rem : Nat) (inn : List UInt8) :
    512 * blocks (copyOut k rem inn).1.length + (copyOut k rem inn).2.length ≤ inn.length ∧
      (copyOut k rem inn).1.length ≤ rem := by
  induction k generalizing rem inn with
  | zero => exact ⟨by simp [copyOut, blocks], Nat.zero_le _⟩
  | succ k ih =>
    rw [copyOut]
    split
    · exact ⟨by simp [blocks], Nat.zero_le _⟩
    · rename_i hfull
      obtain ⟨hblocks, hrem⟩ := ih (rem - 512) (inn.drop 512)
      revert hblocks hrem
      generalize copyOut k (rem - 512) (inn.drop 512) = r
      intro hblocks hrem
      dsimp only at hblocks hrem ⊢
      rw [length_drop] at hblocks
      rw [length_append, length_take]
      unfold blocks at hblocks ⊢
      omega

theorem copyOut_full (k rem : Nat) (inn : List UInt8) (hk : rem ≤ 512 * k)
    (hinn : 512 * k ≤ inn.length) :
    (copyOut k rem inn).1.length = rem ∧ (copyOut k rem inn).2.length = inn.length - 512 * k := by
  induction k generalizing rem inn with
  | zero => exact ⟨by simp [copyOut]; omega, by simp [copyOut]⟩
  | succ k ih =>
    obtain ⟨hout, hrest⟩ := ih (rem - 512) (inn.drop 512) (by omega)
      (by rw [length_drop]; omega)
    rw [length_drop] at hrest
    rw [copyOut, if_neg (by omega)]
    dsimp only
    rw [length_append, length_take, hout, hrest]
    omega

end Copy

/-! ## At a header of ours -/

/-- A name as the entries of a directory have them. -/
structure Plain (name : Str) : Prop where
  ne_nil : name ≠ []
  ne_dot : name ≠ dot
  ne_dotdot : name ≠ dotdot
  slash : slash ∉ name
  nul : 0 ∉ name
  length_le : name.length ≤ nameMax

theorem Plain.cut {name : Str} (h : Plain name) : Plain (cut name) := by
  by_cases hlen : name.length ≤ 99
  · rw [Vtar.cut, take_of_length_le hlen]
    exact h
  · have hcut : (Vtar.cut name).length = 99 := length_take_of_le (by omega)
    have hne : ∀ s : Str, s.length ≠ 99 → Vtar.cut name ≠ s := fun s hs hc => hs (hc ▸ hcut)
    exact ⟨hne _ (by decide), hne _ (by decide), hne _ (by decide),
      fun hc => h.slash (mem_of_mem_take hc), fun hc => h.nul (mem_of_mem_take hc),
      by rw [hcut]; decide⟩

section Plain

variable {name : Str} {env : Env} {fs : Fs}

theorem pieces_plain (h : slash ∉ name) : pieces name = [name] := by
  induction name with
  | nil => rfl
  | cons c cs ih =>
    rw [mem_cons, not_or] at h
    rw [pieces, if_neg (Ne.symm h.1), ih h.2]

theorem parents_plain (h : slash ∉ name) (done : Str) : parents done name = [] := by
  induction name generalizing done with
  | nil => rfl
  | cons c cs ih =>
    rw [mem_cons, not_or] at h
    rw [parents, if_neg (Ne.symm h.1), ih h.2]

theorem target_plain (h : Plain name) : fs.target name = some [name] := by
  have hhead : ¬ name.head? = some slash := fun hs => h.slash (mem_of_head? hs)
  have hdrop : (pieces name).reverse.dropWhile (· = []) = [name] := by
    rw [pieces_plain h.slash]
    simp [h.ne_nil]
  have hok : ¬ (name = dot ∨ name = dotdot ∨ nameMax < name.length) := by
    rintro (hd | hd | hl)
    · exact h.ne_dot hd
    · exact h.ne_dotdot hd
    · exact absurd h.length_le (Nat.not_le.2 hl)
  rw [Fs.target, if_neg hhead, hdrop]
  dsimp only
  rw [if_neg hok]
  rfl

theorem fill_file {q : Path} {m : Nat} {now : Time} (hq : fs q = some (.file m now [])) (mode : Nat)
    (data : List UInt8) : (fs.write q data now).chmod q mode =
      update fs q (some (.file mode now data)) := by
  have hwrite : fs.write q data now = update fs q (some (.file m now data)) := by
    rw [Fs.write, hq]
    rfl
  rw [hwrite, Fs.chmod, update_self]
  exact update_idem ..

theorem utimens_file {q : Path} {m : Nat} {now : Time} {data : List UInt8} (mtime : Time) :
    Fs.utimens (update fs q (some (.file m now data))) q mtime =
      update fs q (some (.file m mtime data)) := by
  rw [Fs.utimens, update_self]
  exact update_idem ..

/-- Where there is no directory, a file is made. -/
theorem extractFile_plain (h : Plain name) (hkeep : env.keepMtime = true) (hroot : fs [] = none)
    (hdir : ∀ mode mtime, fs [name] ≠ some (.dir mode mtime)) (now : Time) (mode mtime : Nat)
    (data : List UInt8) :
    extractFile env now fs name mode mtime data = update fs [name]
      (some (.file (mode &&& 0o7777) (if mtime ≠ 0 then ⟨mtime, 0⟩ else now) data)) := by
  have hopen : ∃ m, (mkParents env now fs name).openWrite env.umask now name =
      (some [name], update fs [name] (some (.file m now []))) := by
    rw [mkParents, parents_plain h.slash, foldl_nil, Fs.openWrite, target_plain h]
    dsimp only
    cases hnode : fs [name] with
    | none =>
      refine ⟨Nat.ldiff 0o666 env.umask, ?_⟩
      dsimp only
      rw [Fs.touch, dropLast_singleton, update_of_ne (cons_ne_nil _ _).symm, hroot]
    | some node =>
      cases node with
      | file m t c => exact ⟨m, rfl⟩
      | dir m t => exact absurd hnode (hdir m t)
  obtain ⟨m, hopen⟩ := hopen
  rw [extractFile, hopen]
  dsimp only
  rw [fill_file (update_self ..), update_idem, utimens_file]
  by_cases hm : mtime ≠ 0
  · rw [if_pos ⟨hm, hkeep⟩, if_pos hm]
  · rw [if_neg fun h => hm h.1, if_neg hm]

end Plain

/-- The turn at the header of a file. -/
theorem extractOne_entry {name : Str} (h : Plain name) {env : Env} {s : Reader} {st : Stat}
    {rest : List UInt8} (hinn : s.inn = putHeader name st regType ++ rest) (hp : s.pending = []) :
    extractOne env s = .next
      { inn := (copyOut (blocks (kept 11 st.size)) (kept 11 st.size) rest).2
        pending := []
        count := s.count + 1
        first := false
        fs := extractFile env (env.clock (s.count + 1)) s.fs (cut name) (st.mode &&& 0o7777)
          (kept 11 st.mtime) (copyOut (blocks (kept 11 st.size)) (kept 11 st.size) rest).1 } := by
  obtain ⟨chksum, hc, hput, -⟩ := putHeader_eq name st
  have hlen : (putHeader name st regType).length = 512 := by rw [hput, length_headerBytes hc]
  have htake : s.inn.take 512 = putHeader name st regType := by rw [hinn, take_left' hlen]
  have hdrop : s.inn.drop 512 = rest := by rw [hinn, drop_left' hlen]
  have htype : (putHeader name st regType).getD 156 0 = regType := by
    rw [hput]
    exact getD_back hc 0
  have hprefix : (putHeader name st regType).getD 345 0 = 0 := by
    rw [hput]
    exact getD_back hc 189
  have hname : entryName (putHeader name st regType) s.pending = cut name := by
    rw [entryName, hp, if_neg (fun h => h rfl), hprefix, if_neg (fun h => h.2 rfl), hput,
      name_field h.nul]
  have hlast : (cut name).getLast? ≠ some slash := fun hl =>
    h.cut.slash (mem_of_getLast? hl)
  have hne : putHeader name st regType ≠ [] := fun h0 => by
    rw [h0] at hlen
    exact absurd hlen (by decide)
  have hok := headerOk_putHeader name st
  have hmode : fromOctal (field (putHeader name st regType) 100 8) 0 = st.mode &&& 0o7777 := by
    rw [hput, mode_field]
  have hsize : fromOctal (field (putHeader name st regType) 124 12) 0 = kept 11 st.size := by
    rw [hput, size_field]
  have hmtime : fromOctal (field (putHeader name st regType) 136 12) 0 = kept 11 st.mtime := by
    rw [hput, mtime_field]
  rw [extractOne, htake, if_neg hne, if_neg (not_not.2 hlen), if_neg (not_all_zero name st), hok,
    Bool.not_true, if_neg Bool.false_ne_true]
  dsimp only
  rw [htype, hname, hmode, hsize, hmtime, hdrop, if_neg (by decide), if_neg (by decide),
    if_neg (fun h => h.elim (by decide) hlast)]

/-! ## At any block -/

/-- What the making of directories does: a node stays what it is, or is a directory that is modified
now, and was no file. -/
inductive Made (now : Time) (a b : Option Node) : Prop
  | same (h : b = a)
  | dir (ha : ∀ mode mtime content, a ≠ some (.file mode mtime content)) {mode : Nat}
    (hb : b = some (.dir mode now))

theorem Made.trans {now : Time} {a b c : Option Node} (h : Made now a b) (h' : Made now b c) :
    Made now a c := by
  cases h' with
  | same h' => rwa [h']
  | dir hb hc =>
    cases h with
    | same h => exact .dir (h ▸ hb) hc
    | dir ha _ => exact .dir ha hc

theorem Made.file {now : Time} {a b : Option Node} (h : Made now a b) {mode : Nat} {mtime : Time}
    {content : List UInt8} (ha : a = some (.file mode mtime content)) : b = a := by
  cases h with
  | same h => exact h
  | dir hn _ => exact absurd ha (hn _ _ _)

section Made

variable (env : Env) (now : Time) (fs : Fs)

theorem touch_made (q p : Path) : Made now (fs p) (fs.touch q now p) := by
  have hcases : fs.touch q now = fs ∨ ∃ mode t, fs q = some (.dir mode t) ∧
      fs.touch q now = update fs q (some (.dir mode now)) := by
    unfold Fs.touch
    split
    · rename_i hq
      exact .inr ⟨_, _, hq, rfl⟩
    · exact .inl rfl
  rcases hcases with h | ⟨mode, t, hq, h⟩
  · exact .same (congrFun h p)
  · rw [h]
    by_cases hp : p = q
    · subst hp
      rw [update_self]
      exact .dir (fun _ _ _ => by rw [hq]; exact fun h => by cases h) rfl
    · rw [update_of_ne hp]
      exact .same rfl

theorem mkdir_made (umask : Nat) (name : Str) (mode : Nat) (p : Path) :
    Made now (fs p) (fs.mkdir umask now name mode p) := by
  have hcases : fs.mkdir umask now name mode = fs ∨ ∃ q mode', fs q = none ∧
      fs.mkdir umask now name mode =
        Fs.touch (update fs q (some (.dir mode' now))) q.dropLast now := by
    unfold Fs.mkdir
    split
    · exact .inl rfl
    · split
      · exact .inl rfl
      · rename_i hq
        exact .inr ⟨_, _, hq, rfl⟩
  rcases hcases with h | ⟨q, mode', hq, h⟩
  · exact .same (congrFun h p)
  · rw [h]
    refine Made.trans ?_ (touch_made now _ _ p)
    by_cases hp : p = q
    · subst hp
      rw [update_self]
      exact .dir (fun _ _ _ => by rw [hq]; exact fun h => by cases h) rfl
    · rw [update_of_ne hp]
      exact .same rfl

theorem mkParents_made (name : Str) (p : Path) : Made now (fs p) (mkParents env now fs name p) := by
  rw [mkParents]
  generalize parents [] name = ps
  induction ps generalizing fs with
  | nil => exact .same rfl
  | cons d ps ih => exact (mkdir_made now fs env.umask d 0o755 p).trans (ih _)

theorem extractDir_made (name : Str) (mode : Nat) (p : Path) :
    Made now (fs p) (extractDir env now fs name mode p) :=
  (mkParents_made env now fs name p).trans (mkdir_made now _ _ _ _ p)

theorem openWrite_made (umask : Nat) (name : Str) :
    fs.openWrite umask now name = (none, fs) ∨
      ∃ q mode fs', fs.openWrite umask now name = (some q, fs') ∧
        fs' q = some (.file mode now []) ∧ ∀ p ≠ q, Made now (fs p) (fs' p) := by
  unfold Fs.openWrite
  split
  · exact .inl rfl
  · rename_i q _
    split
    · exact .inl rfl
    · refine .inr ⟨q, _, _, rfl, update_self .., fun p hp => ?_⟩
      rw [update_of_ne hp]
      exact .same rfl
    · refine .inr ⟨q, _, _, rfl, (touch_made now _ _ q).file (update_self ..) |>.trans
        (update_self ..), fun p hp => ?_⟩
      refine Made.trans ?_ (touch_made now _ _ p)
      rw [update_of_ne hp]
      exact .same rfl

theorem extractFile_made (name : Str) (mode mtime : Nat) (data : List UInt8) : ∃ q, ∀ p,
    Made now (fs p) (extractFile env now fs name mode mtime data p) ∨
      p = q ∧ ∃ m t, extractFile env now fs name mode mtime data p = some (.file m t data) := by
  have hparents := mkParents_made env now fs name
  rw [extractFile]
  rcases openWrite_made now (mkParents env now fs name) env.umask name with
    hopen | ⟨q, m, fs', hopen, hq, hrest⟩
  · rw [hopen]
    exact ⟨[], fun p => .inl (hparents p)⟩
  · rw [hopen]
    dsimp only
    rw [fill_file hq, utimens_file, ← apply_ite (update fs' q)]
    refine ⟨q, fun p => ?_⟩
    by_cases hp : p = q
    · refine .inr ⟨hp, ?_⟩
      rw [hp, update_self]
      split <;> exact ⟨_, _, rfl⟩
    · rw [update_of_ne hp]
      exact .inl ((hparents p).trans (hrest p hp))

/-- What a turn does whatever it reads: it makes one file at most, and takes its blocks. -/
structure Turned (s s' : Reader) (q : Path) (data : List UInt8) : Prop where
  node : ∀ p, Made now (s.fs p) (s'.fs p) ∨ p = q ∧ ∃ m t, s'.fs p = some (.file m t data)
  inn : s'.inn.length + 512 + 512 * blocks data.length ≤ s.inn.length

end Made

theorem extractOne_turned {env : Env} {s s' : Reader} (h : extractOne env s = .next s') :
    ∃ i q data, Turned (env.clock i) s s' q data := by
  unfold extractOne at h
  dsimp only at h
  split at h
  · cases h
  split at h
  · cases h
  rename_i hlen
  have hinn : (s.inn.drop 512).length + 512 = s.inn.length := by
    rw [length_take] at hlen
    rw [length_drop]
    omega
  have hskip : ∀ n, (skipExtended n (s.inn.drop 512)).length + 512 + 512 * blocks 0 ≤
      s.inn.length := fun n => by
    rw [skipExtended, length_drop, length_drop]
    simp only [blocks]
    omega
  split at h
  · cases h
  split at h
  · cases h
  split at h
  · cases h
    exact ⟨0, [], [], fun p => .inl (.same rfl), hskip _⟩
  split at h
  · cases h
    exact ⟨0, [], [], fun p => .inl (.same rfl), hskip _⟩
  split at h
  · cases h
    exact ⟨s.count + 1, [], [], fun p => .inl (extractDir_made env _ s.fs _ _ p), by
      simp only [length_nil, blocks]
      omega⟩
  · cases h
    obtain ⟨q, hq⟩ := extractFile_made env (env.clock (s.count + 1)) s.fs
      (entryName (s.inn.take 512) s.pending) (fromOctal (field (s.inn.take 512) 100 8) 0)
      (fromOctal (field (s.inn.take 512) 136 12) 0)
      (copyOut (blocks (fromOctal (field (s.inn.take 512) 124 12) 0))
        (fromOctal (field (s.inn.take 512) 124 12) 0) (s.inn.drop 512)).1
    refine ⟨s.count + 1, q, _, hq, ?_⟩
    have hcopy := (copyOut_length (blocks (fromOctal (field (s.inn.take 512) 124 12) 0))
      (fromOctal (field (s.inn.take 512) 124 12) 0) (s.inn.drop 512)).1
    dsimp only
    omega

end Verkos.Vtar
