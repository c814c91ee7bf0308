import Verkos.Vlogin.Sheets
import Verkos.Vlogin.WellFormed
import Mathlib.Data.List.Induction
import Mathlib.Data.List.Nodup

/-!
# Members of groups

A list of members that fits its buffer is read back as it is. `Regrouped` is what `useradd -G` and
`usermod -G` may do to the groups: one user leaves some of them and joins some, and nothing else
changes.
-/

namespace Verkos.Vlogin

open Lib
open List

variable {S : Files} {d : Records} {name u : Text} {mem mem' : List Text} {drops : Prop}
  {grs grs' : List Group} {gr gr' : Group}

/-! ## Lists of members -/

/-- Names that a list with commas between them keeps apart. -/
def Listed (mem : List Text) : Prop := ∀ u ∈ mem, u ≠ [] ∧ ',' ∉ u

theorem listed_tokens (t : Text) : Listed (tokens t) := by
  intro u hu
  obtain ⟨hmem, hne⟩ := mem_filter.1 hu
  exact ⟨by simpa using hne, not_mem_field hmem⟩

theorem tokens_intercalate (h : Listed mem) : tokens ([','].intercalate mem) = mem := by
  unfold tokens
  cases mem with
  | nil => rfl
  | cons v mem =>
    rw [splitOn_intercalate ',' (fun u hu => (h u hu).2) (cons_ne_nil _ _)]
    exact filter_eq_self.2 fun u hu => by simpa using (h u hu).1

theorem intercalate_concat {v : Text} (u : Text) (mem : List Text) :
    [','].intercalate ((v :: mem) ++ [u]) = [','].intercalate (v :: mem) ++ ',' :: u := by
  induction mem generalizing v with
  | nil => simp [List.intercalate]
  | cons w mem ih =>
    have hcons : ∀ rest : List Text, [','].intercalate (v :: w :: rest) =
        v ++ ',' :: [','].intercalate (w :: rest) := by
      intro rest
      simp [List.intercalate]
    rw [cons_append, cons_append, hcons, hcons, ← cons_append, ih,
      append_assoc, cons_append]

theorem foldl_addMember (h : Listed mem) (hlen : ([','].intercalate mem).length < 2048) :
    mem.foldl addMember [] = [','].intercalate mem := by
  induction mem using List.reverseRec with
  | nil => rfl
  | append_singleton mem u ih =>
    rw [foldl_append, foldl_cons, foldl_nil]
    cases mem with
    | nil =>
      have hsingle : [','].intercalate ([] ++ [u]) = u := by simp [List.intercalate]
      rw [hsingle] at hlen ⊢
      rw [foldl_nil, addMember, if_pos rfl, strncat, nil_append]
      exact take_of_length_le (by rw [length_nil]; omega)
    | cons v mem =>
      rw [intercalate_concat] at hlen ⊢
      rw [length_append, length_cons] at hlen
      rw [ih (fun w hw => h w (mem_append_left _ hw)) (by omega)]
      have hne : [','].intercalate (v :: mem) ≠ [] := by
        have hv := (h v (.head _)).1
        cases mem with
        | nil => simpa [List.intercalate] using hv
        | cons w mem => simp [List.intercalate]
      have hcomma : strncat 2048 ([','].intercalate (v :: mem)) [','] =
          [','].intercalate (v :: mem) ++ [','] := by
        rw [strncat, take_of_length_le]
        rw [length_singleton]
        omega
      rw [addMember, if_neg hne, hcomma, strncat, take_of_length_le, append_assoc,
        singleton_append]
      rw [length_append, length_singleton]
      omega

theorem parseGroup_groupLine {gid : Nat} {members : Text} (hname : ':' ∉ name)
    (hgid : gid < 2 ^ 32) (hmem : ':' ∉ members) :
    parseGroup (groupLine name gid members) = some ⟨name, gid, tokens members⟩ := by
  have hfields : (groupLine name gid members).splitOn ':' = [name, inShadow, dec gid, members] := by
    apply splitOn_join _ (cons_ne_nil _ _)
    simp only [forall_mem_cons, not_mem_nil, false_implies, implies_true, and_true]
    exact ⟨hname, by decide, (field_dec gid).1, hmem⟩
  rw [parseGroup, hfields]
  dsimp only
  rw [idNumber_dec hgid]
  rfl

theorem field_intercalate (h : ∀ u ∈ mem, Field u) : Field ([','].intercalate mem) := by
  constructor
  · intro hc
    rcases mem_intercalate hc with hc | ⟨u, hu, hc⟩
    · cases hc
    · exact (h u hu).1 hc
  · intro hc
    rcases mem_intercalate hc with hc | ⟨u, hu, hc⟩
    · cases hc
    · exact (h u hu).2 hc

theorem mem_of_mem_tokens {t : Text} {c : Char} (hu : u ∈ tokens t) (hc : c ∈ u) : c ∈ t :=
  mem_of_mem_field (mem_filter.1 hu).1 hc

theorem Holds.clean_gr (h : Holds S d) (hgr : gr ∈ d.grs) :
    Field gr.name ∧ gr.gid < 2 ^ 32 ∧ Listed gr.mem ∧ ∀ u ∈ gr.mem, Field u := by
  obtain ⟨line, hline, hparse⟩ := h.group.line_of_mem hgr
  obtain ⟨passwd, gid, mem, hfields, hgid, hmem⟩ := parseGroup_eq_some hparse
  have hmemField : Field mem := field_of_mem hline (by rw [hfields]; simp)
  refine ⟨field_of_mem hline (by rw [hfields]; simp), idNumber_lt hgid, ?_, fun u hu => ?_⟩
  · rw [hmem]
    exact listed_tokens mem
  · rw [hmem] at hu
    exact ⟨fun hc => hmemField.1 (mem_of_mem_tokens hu hc),
      fun hc => hmemField.2 (mem_of_mem_tokens hu hc)⟩

/-! ## One user leaves and joins -/

/-- What may become of a list of members: the user leaves it if `drops`, and may join it if not a
member then. -/
inductive Joins (drops : Prop) (u : Text) (mem : List Text) : List Text → Prop
  | same : Joins drops u mem mem
  | left : drops → Joins drops u mem (mem.filter (· ≠ u))
  | joined : drops ∨ u ∉ mem → Joins drops u mem (mem.filter (· ≠ u) ++ [u])

/-- The groups, with other lists of members. -/
def Regrouped (drops : Prop) (u : Text) : List Group → List Group → Prop :=
  List.Forall₂ fun gr gr' => gr'.name = gr.name ∧ gr'.gid = gr.gid ∧ Joins drops u gr.mem gr'.mem

theorem Regrouped.refl (drops : Prop) (u : Text) (grs : List Group) : Regrouped drops u grs grs := by
  induction grs with
  | nil => exact .nil
  | cons gr grs ih => exact .cons ⟨rfl, rfl, .same⟩ ih

section

variable (h : Regrouped drops u grs grs')
include h

theorem Regrouped.of_mem (hgr : gr' ∈ grs') :
    ∃ gr ∈ grs, gr'.name = gr.name ∧ gr'.gid = gr.gid ∧ Joins drops u gr.mem gr'.mem := by
  induction h with
  | nil => cases hgr
  | cons hhead _ ih =>
    rcases mem_cons.1 hgr with rfl | hgr
    · exact ⟨_, .head _, hhead⟩
    · obtain ⟨gr, hmem, h⟩ := ih hgr
      exact ⟨gr, .tail _ hmem, h⟩

theorem Regrouped.mem_of (hgr : gr ∈ grs) :
    ∃ gr' ∈ grs', gr'.name = gr.name ∧ gr'.gid = gr.gid ∧ Joins drops u gr.mem gr'.mem := by
  induction h with
  | nil => cases hgr
  | cons hhead _ ih =>
    rcases mem_cons.1 hgr with rfl | hgr
    · exact ⟨_, .head _, hhead⟩
    · obtain ⟨gr', hmem, h⟩ := ih hgr
      exact ⟨gr', .tail _ hmem, h⟩

theorem Regrouped.names : grs'.map (·.name) = grs.map (·.name) := by
  induction h with
  | nil => rfl
  | cons hhead _ ih => rw [map_cons, map_cons, hhead.1, ih]

theorem Regrouped.replace {new : Group}
    (hnew : ∀ gr ∈ grs, gr.name = new.name → new.gid = gr.gid ∧ Joins drops u gr.mem new.mem) :
    Regrouped drops u grs (replaceEntry Group.name new grs') := by
  induction h with
  | nil => exact .nil
  | @cons gr gr' _ _ hhead _ ih =>
    refine .cons ?_ (ih fun e he => hnew e (.tail _ he))
    dsimp only
    split_ifs with hname
    · have hsame : gr.name = new.name := hhead.1.symm.trans hname
      obtain ⟨hgid, hjoins⟩ := hnew gr (.head _) hsame
      exact ⟨hsame.symm, hgid, hjoins⟩
    · exact hhead

end

theorem Joins.mem_or_eq (h : Joins drops u mem mem') {v : Text} (hv : v ∈ mem') : v ∈ mem ∨ v = u := by
  cases h with
  | same => exact .inl hv
  | left _ => exact .inl (mem_of_mem_filter hv)
  | joined _ =>
    rcases mem_append.1 hv with hv | hv
    · exact .inl (mem_of_mem_filter hv)
    · exact .inr (mem_singleton.1 hv)

theorem Joins.kept (h : Joins drops u mem mem') {v : Text} (hv : v ∈ mem) (hkeep : v = u → ¬drops) :
    v ∈ mem' := by
  have hfilter : drops ∨ u ∉ mem → v ∈ mem.filter (· ≠ u) := by
    intro hor
    refine mem_filter.2 ⟨hv, decide_eq_true fun hvu => ?_⟩
    rcases hor with hdrops | hnot
    · exact hkeep hvu hdrops
    · exact hnot (hvu ▸ hv)
  cases h with
  | same => exact hv
  | left hdrops => exact hfilter (.inl hdrops)
  | joined hor => exact mem_append_left _ (hfilter hor)

/-- The line of a group with another list of members, when it fits. -/
theorem Holds.rewrite_group (h : Holds S d) (hgr : gr ∈ d.grs) (hlisted : Listed mem)
    (hfield : ∀ v ∈ mem, Field v) (hfits : GroupFits gr mem) : Holds (replacedIn S .group gr.name
      (some (snprintf 4096 (groupLine gr.name gr.gid (mem.foldl addMember [])))))
      { d with grs := replaceEntry Group.name ⟨gr.name, gr.gid, mem⟩ d.grs } := by
  obtain ⟨hname, hgid, -, -⟩ := h.clean_gr hgr
  have hmembers := field_intercalate hfield
  have hlen := hfits.line
  rw [foldl_addMember hlisted hfits.members, snprintf_eq (by omega)]
  have hparse := parseGroup_groupLine hname.1 hgid hmembers.1
  rw [tokens_intercalate hlisted] at hparse
  refine h.replace_group ⟨newline_join fun f hf => ?_, hlen⟩ hparse
  simp only [mem_cons, not_mem_nil, or_false] at hf
  rcases hf with rfl | rfl | rfl | rfl
  · exact hname
  · exact ⟨by decide, by decide⟩
  · exact field_dec _
  · exact hmembers

theorem Joins.filter_eq (h : Joins drops u mem mem') :
    mem'.filter (· ≠ u) = mem.filter (· ≠ u) := by
  cases h with
  | same => rfl
  | left _ => rw [filter_filter]; simp only [Bool.and_self]
  | joined _ =>
    rw [filter_append, filter_filter]
    simp

theorem Joins.eq_filter (h : Joins drops u mem mem') (hu : u ∉ mem') :
    mem' = mem.filter (· ≠ u) ∧ (drops ∨ u ∉ mem) := by
  cases h with
  | same =>
    refine ⟨(filter_eq_self.2 fun v hv => decide_eq_true ?_).symm, .inr hu⟩
    rintro rfl
    exact hu hv
  | left hdrops => exact ⟨rfl, .inl hdrops⟩
  | joined _ => exact absurd (mem_append_right _ (mem_singleton_self u)) hu

/-! ## The loops over groups -/

/-- The files have these entries, but for the members of the groups. -/
def GroupedAs (d : Records) (drops : Prop) (u : Text) (S : Files) : Prop :=
  ∃ grs, Holds S { d with grs := grs } ∧ Regrouped drops u d.grs grs

theorem GroupedAs.rewrite {new : List Text} (hrec : Holds S { d with grs := grs' })
    (hre : Regrouped drops u d.grs grs') (hgr' : gr' ∈ grs') (hgr : gr ∈ d.grs)
    (hname : gr'.name = gr.name) (hgid : gr'.gid = gr.gid) (hlisted : Listed new)
    (hfield : ∀ v ∈ new, Field v) (hfits : GroupFits gr new) (hjoins : Joins drops u gr.mem new) :
    GroupedAs d drops u (replacedIn S .group gr'.name
      (some (snprintf 4096 (groupLine gr'.name gr'.gid (new.foldl addMember []))))) := by
  have hfits' : GroupFits gr' new := ⟨hfits.members, by rw [hname, hgid]; exact hfits.line⟩
  refine ⟨_, hrec.rewrite_group hgr' hlisted hfield hfits', hre.replace fun e he hsame => ?_⟩
  -- names are unique, so the group is the one that was found
  have hnodup : (d.grs.map (·.name)).Nodup := by
    rw [← hre.names]
    exact hrec.group.nodup
  obtain rfl := inj_on_of_nodup_map hnodup he hgr (hsame.trans hname)
  exact ⟨hgid, hjoins⟩

theorem addToGroup_yields {group : Text} (hu : Field u) (h : GroupedAs d drops u S)
    (hjoin : ∀ gr ∈ d.grs, gr.name = group → drops ∨ u ∉ gr.mem → Joinable u gr) :
    Prog.Yields (addToGroup group u) S fun _ => GroupedAs d drops u := by
  have hkeep := h
  obtain ⟨grs', hrec, hre⟩ := h
  unfold addToGroup
  refine Prog.yields_bind (yields_getgrnam ?_)
  rw [hrec.grOf]
  cases hfind : grs'.find? (·.name = group) with
  | none => exact Prog.yields_fail
  | some gr' =>
    obtain ⟨hgr', hgroup⟩ := of_find hfind
    obtain ⟨gr, hgr, hname, hgid, hjoins⟩ := hre.of_mem hgr'
    refine Prog.yields_ite (fun _ => Prog.yields_pure hkeep) fun hnot => ?_
    obtain ⟨heq, hor⟩ := hjoins.eq_filter hnot
    obtain ⟨hne, hcomma, hfits⟩ := hjoin gr hgr (hname.symm.trans hgroup) hor
    obtain ⟨-, -, hlisted, hfield⟩ := hrec.clean_gr hgr'
    refine Prog.yields_bind (yields_replace (Prog.yields_pure ?_))
    have hmembers : addMember (gr'.mem.foldl addMember []) u =
        (gr'.mem ++ [u]).foldl addMember [] := by
      rw [foldl_append, foldl_cons, foldl_nil]
    rw [hmembers]
    refine GroupedAs.rewrite hrec hre hgr' hgr hname hgid ?_ ?_ (heq ▸ hfits) (heq ▸ .joined hor)
    · intro v hv
      rcases mem_append.1 hv with hv | hv
      · exact hlisted v hv
      · rw [mem_singleton.1 hv]
        exact ⟨hne, hcomma⟩
    · intro v hv
      rcases mem_append.1 hv with hv | hv
      · exact hfield v hv
      · rw [mem_singleton.1 hv]
        exact hu

theorem addToGroups_yields {list : Text} (hu : Field u) (h : GroupedAs d drops u S)
    (hjoin : ∀ gr ∈ d.grs, gr.name ∈ tokens (snprintf 512 list) → drops ∨ u ∉ gr.mem →
      Joinable u gr) : Prog.Yields (addToGroups list u) S fun _ => GroupedAs d drops u := by
  refine Prog.yields_each (fun group hgroup σ hσ => ?_) h
  refine Prog.yields_bind (Prog.yields_take (Prog.yields_bind ?_))
  refine Prog.yields_mono (addToGroup_yields hu hσ fun gr hgr hname => ?_)
    fun _ _ hgrouped => Prog.yields_give hgrouped
  exact hjoin gr hgr (hname ▸ hgroup)

theorem dropFromGroup_yields {group : Text} (hdrops : drops) (h : GroupedAs d drops u S)
    (hleave : ∀ gr ∈ d.grs, gr.name = group → GroupFits gr (gr.mem.filter (· ≠ u))) :
    Prog.Yields (dropFromGroup u group) S fun _ => GroupedAs d drops u := by
  have hkeep := h
  obtain ⟨grs', hrec, hre⟩ := h
  unfold dropFromGroup
  refine Prog.yields_bind (yields_getgrnam ?_)
  rw [hrec.grOf]
  cases hfind : grs'.find? (·.name = group) with
  | none => exact Prog.yields_pure hkeep
  | some gr' =>
    obtain ⟨hgr', hgroup⟩ := of_find hfind
    obtain ⟨gr, hgr, hname, hgid, hjoins⟩ := hre.of_mem hgr'
    obtain ⟨-, -, hlisted, hfield⟩ := hrec.clean_gr hgr'
    have hfits := hleave gr hgr (hname.symm.trans hgroup)
    refine Prog.yields_bind (Prog.yields_take (Prog.yields_bind (yields_replace
      (Prog.yields_give ?_))))
    have hsame := hjoins.filter_eq
    exact GroupedAs.rewrite hrec hre hgr' hgr hname hgid
      (fun v hv => hlisted v (mem_of_mem_filter hv))
      (fun v hv => hfield v (mem_of_mem_filter hv)) (hsame ▸ hfits) (hsame ▸ .left hdrops)

end Verkos.Vlogin
