import Verkos.Vpk.Remove
import Mathlib.Data.List.Nodup

/-!
# What merging a package does

Making directories adds no link, and a file is written and a link made where its path says, as long
as there is no link at the directories and files of what is merged. So what is recorded of a package
is what is in it, and what has been put in place is what is recorded.
-/

namespace Verkos.Vpk

open Lib Vlogin
open List
open Option (some.inj bind_eq_some_iff)

variable {fs fs' : Fs} {p q : Path} {target t : Text} {content : List UInt8}

/-! ## Calls -/

theorem isLink_mkdir (h : fs.mkdir t = some fs') (hq : IsLink fs' q) : IsLink fs q := by
  obtain ⟨p, -, h⟩ := bind_eq_some_iff.1 h
  split_ifs at h
  · rw [some.inj h]
    exact hq
  · obtain ⟨t, ht⟩ := hq
    rw [← some.inj h, Fs.node_insert] at ht
    split_ifs at ht
    · cases ht
    · exact ⟨t, ht⟩

theorem isLink_mkdirs {ts : List Text} (hq : IsLink (mkdirs ts fs) q) : IsLink fs q := by
  induction ts generalizing fs with
  | nil => exact hq
  | cons t ts ih =>
    rw [mkdirs] at hq
    cases hmk : fs.mkdir t with
    | none =>
      rw [hmk] at hq
      exact hq
    | some fs' =>
      rw [hmk] at hq
      exact isLink_mkdir hmk (ih hq)

theorem isLink_mkpath (hq : IsLink (mkpath fs t) q) : IsLink fs q := by
  rw [mkpath] at hq
  split at hq
  · exact hq
  · exact isLink_mkdirs hq

theorem behind_self {links : Nat} (h : ¬IsLink fs p) : fs.behind (links + 1) p = some p := by
  rw [Fs.behind]
  split
  · rename_i t ht
    exact absurd ⟨t, ht⟩ h
  · rfl
  · rfl
  · rfl

theorem openWrite_plain (hp : Proper p) (hs : Straight fs p) (hlink : ¬IsLink fs p)
    (h : fs.openWrite ('/' :: relText p) content = some (q, fs')) :
    q = p ∧ ∀ r, IsLink fs' r → IsLink fs r := by
  obtain ⟨p2, hp2, h⟩ := bind_eq_some_iff.1 h
  obtain ⟨p1, hlocate, hbehind⟩ := bind_eq_some_iff.1 hp2
  obtain rfl : p1 = p := by
    rcases locate_plain hp hs with hsome | ⟨hnone, -⟩
    · exact some.inj (hlocate.symm.trans hsome)
    · rw [hnone] at hlocate
      cases hlocate
  rw [behind_self hlink] at hbehind
  obtain rfl := some.inj hbehind
  split_ifs at h
  obtain ⟨rfl, rfl⟩ := Prod.mk.inj (some.inj h)
  refine ⟨rfl, fun r hr => ?_⟩
  obtain ⟨t, ht⟩ := hr
  rw [Fs.node_insert] at ht
  split_ifs at ht
  · cases ht
  · exact ⟨t, ht⟩

/-- A link is made where its path says, and nowhere else. -/
theorem symlink_plain (hp : Proper p) (hs : Straight fs p)
    (h : (fs.unlink ('/' :: relText p)).symlink target ('/' :: relText p) = some (q, fs')) :
    q = p ∧ ∀ r, IsLink fs' r → IsLink fs r ∨ r = p := by
  have hlinks : ∀ r, IsLink (fs.unlink ('/' :: relText p)) r → IsLink fs r := by
    rintro r ⟨t, ht⟩
    rw [node_unlink hp hs] at ht
    split_ifs at ht
    exact ⟨t, ht⟩
  obtain ⟨p', hlocate, h⟩ := bind_eq_some_iff.1 h
  obtain rfl : p' = p := by
    rcases locate_plain hp (hs.mono hlinks) with hsome | ⟨hnone, -⟩
    · exact some.inj (hlocate.symm.trans hsome)
    · rw [hnone] at hlocate
      cases hlocate
  split_ifs at h
  obtain ⟨rfl, rfl⟩ := Prod.mk.inj (some.inj h)
  refine ⟨rfl, fun r hr => ?_⟩
  obtain ⟨t, ht⟩ := hr
  rw [Fs.node_insert] at ht
  split_ifs at ht with hrp
  · exact .inr hrp
  · exact .inl (hlinks r ⟨t, ht⟩)

/-! ## The paths of a package -/

theorem Proper.concat (hp : ∀ c ∈ p, c ≠ [] ∧ '/' ∉ c ∧ c ≠ ['.'] ∧ c ≠ ['.', '.'])
    (name : FileName) : Proper (p ++ [name.text]) := by
  refine ⟨by simp, fun c hc => ?_⟩
  rcases mem_append.1 hc with hc | hc
  · exact hp c hc
  · rw [mem_singleton.1 hc]
    exact name.ok

theorem relText_concat (hp : p ≠ []) (name : Text) :
    relText (p ++ [name]) = relText p ++ '/' :: name := by
  induction p with
  | nil => exact absurd rfl hp
  | cons c p ih =>
    cases p with
    | nil => simp [relText, List.intercalate]
    | cons d p =>
      have hrest := ih nofun
      rw [relText, cons_append, intercalate_cons_of_ne_nil (by simp), ← relText, hrest,
        relText, relText, intercalate_cons_cons]
      simp

theorem under_relText (hp : ∀ c ∈ p, c ≠ [] ∧ '/' ∉ c ∧ c ≠ ['.'] ∧ c ≠ ['.', '.'])
    (name : Text) : under (relText p) name = relText (p ++ [name]) := by
  by_cases hnil : p = []
  · rw [hnil]
    simp [under, relText, List.intercalate]
  · have hne : relText p ≠ [] := by
      intro heq
      have hsame := comps_relText ⟨hnil, hp⟩
      rw [heq] at hsame
      exact hnil hsame.symm
    rw [under, if_neg hne, relText_concat hnil]

variable {es : Entries} {D : Path → Prop}

theorem Entries.paths_proper (hp : ∀ c ∈ p, c ≠ [] ∧ '/' ∉ c ∧ c ≠ ['.'] ∧ c ≠ ['.', '.']) :
    ∀ e ∈ es.paths p, Proper e.2 := by
  induction es generalizing p with
  | nil => exact nofun
  | dir name inside rest ihInside ihRest =>
    intro e he
    rcases mem_cons.1 he with rfl | he
    · exact .concat hp name
    · rcases mem_append.1 he with he | he
      · exact ihInside (Proper.concat hp name).2 e he
      · exact ihRest hp e he
  | file name content rest ih | link name target rest ih =>
    intro e he
    rcases mem_cons.1 he with rfl | he
    · exact .concat hp name
    · exact ih hp e he
  | other name rest ih => exact ih hp

theorem prefix_concat_self (p : Path) (c : Text) : p <+: p ++ [c] ∧ p ≠ p ++ [c] ∧
    ∀ q, p <+: q → q <+: p ++ [c] → q ≠ p → q = p ++ [c] := by
  refine ⟨prefix_append _ _, by simp, fun q hpq hq hne => ?_⟩
  rcases prefix_concat_iff.1 hq with hq | hq
  · exact hq
  · exact absurd (hq.eq_of_length_le hpq.length_le) hne

theorem Entries.paths_prefix : ∀ e ∈ es.paths p, p <+: e.2 ∧ p ≠ e.2 ∧
    ∀ q, p <+: q → q <+: e.2 → q ≠ p → q ≠ e.2 → (Kind.dir, q) ∈ es.paths p := by
  induction es generalizing p with
  | nil => exact nofun
  | dir name inside rest ihInside ihRest =>
    obtain ⟨hpre, hne, hnext⟩ := prefix_concat_self p name.text
    intro e he
    rcases mem_cons.1 he with rfl | he
    · exact ⟨hpre, hne, fun q hpq hqe hqp hqne => absurd (hnext q hpq hqe hqp) hqne⟩
    · rcases mem_append.1 he with he | he
      · obtain ⟨hdir, hdirne, hbetween⟩ := ihInside e he
        refine ⟨hpre.trans hdir, fun heq => ?_, fun q hpq hqe hqp hqne => ?_⟩
        · exact hne (hpre.eq_of_length_le (heq ▸ hdir.length_le))
        · by_cases hq : q = p ++ [name.text]
          · rw [hq]
            exact .head _
          · refine .tail _ (mem_append_left _ (hbetween q ?_ hqe hq hqne))
            rcases prefix_or_prefix_of_prefix hqe hdir with hup | hdown
            · exact absurd (hnext q hpq hup hqp) hq
            · exact hdown
      · obtain ⟨hpe, hpne, hbetween⟩ := ihRest e he
        refine ⟨hpe, hpne, fun q hpq hqe hqp hqne => ?_⟩
        exact .tail _ (mem_append_right _ (hbetween q hpq hqe hqp hqne))
  | file name content rest ih | link name target rest ih =>
    obtain ⟨hpre, hne, hnext⟩ := prefix_concat_self p name.text
    intro e he
    rcases mem_cons.1 he with rfl | he
    · exact ⟨hpre, hne, fun q hpq hqe hqp hqne => absurd (hnext q hpq hqe hqp) hqne⟩
    · obtain ⟨hpe, hpne, hbetween⟩ := ih e he
      exact ⟨hpe, hpne, fun q hpq hqe hqp hqne => .tail _ (hbetween q hpq hqe hqp hqne)⟩
  | other name rest ih => exact ih

/-! ## `copy_and_record` -/

/-- The letter of an entry in `files`. -/
def Kind.letter : Kind → Char
  | .dir => 'd'
  | .file | .link => 'f'

/-- What is recorded of entries, and what of them is put in place as a file or link. -/
def recorded (es : List (Kind × Path)) : List (Char × Path) := es.map fun e => (e.1.letter, e.2)

def putInPlace (es : List (Kind × Path)) : List Path := (es.filter (·.1 ≠ .dir)).map (·.2)

/-- The directories on the way to entries, and the directories and files among them, are in `D`,
the links are not. -/
structure Covers (D : Path → Prop) (es : List (Kind × Path)) : Prop where
  way : ∀ e ∈ es, ∀ q, q <+: e.2 → q ≠ e.2 → q ≠ [] → D q
  solid : ∀ e ∈ es, e.1 ≠ .link → D e.2
  link : ∀ e ∈ es, e.1 = .link → ¬D e.2

theorem Covers.mono {es es' : List (Kind × Path)} (h : Covers D es)
    (hsub : ∀ e ∈ es', e ∈ es) : Covers D es' :=
  ⟨fun e he => h.way e (hsub e he), fun e he => h.solid e (hsub e he),
    fun e he => h.link e (hsub e he)⟩

theorem not_isLink_root : ¬IsLink fs [] := by
  rintro ⟨t, ht⟩
  refine (fs.closed [] ?_).1 rfl
  rw [← Fs.node, ht]
  rintro ⟨⟩

theorem Covers.straight {es : List (Kind × Path)} (h : Covers D es)
    (hD : ∀ q, D q → ¬IsLink fs q) {e : Kind × Path} (he : e ∈ es) : Straight fs e.2 := by
  intro q hq hne
  by_cases hroot : q = []
  · rw [hroot]
    exact not_isLink_root
  · exact hD q (h.way e he q hq hne hroot)

/-- What is recorded of a package is what is in it, and what is put in place is just that. -/
theorem copyAndRecord_spec {s s' : Copy}
    (hp : ∀ c ∈ p, c ≠ [] ∧ '/' ∉ c ∧ c ≠ ['.'] ∧ c ≠ ['.', '.'])
    (hcovers : Covers D (es.paths p)) (hD : ∀ q, D q → ¬IsLink s.fs q)
    (h : copyAndRecord es (relText p) s = some s') :
    s'.db = s.db ++ unlines ((recorded (es.paths p)).map fun l => fileLine l.1 (relText l.2)) ∧
      s'.put = s.put ++ putInPlace (es.paths p) ∧ ∀ q, D q → ¬IsLink s'.fs q := by
  induction es generalizing p s s' with
  | nil =>
    obtain rfl := some.inj h
    exact ⟨by simp [Entries.paths, recorded, unlines], by simp [Entries.paths, putInPlace], hD⟩
  | dir name inside rest ihInside ihRest =>
    rw [copyAndRecord] at h
    obtain ⟨s1, h1, h2⟩ := bind_eq_some_iff.1 h
    rw [under_relText hp] at h1
    have hin : Covers D (inside.paths (p ++ [name.text])) :=
      hcovers.mono fun e he => .tail _ (mem_append_left _ he)
    have hout : Covers D (rest.paths p) :=
      hcovers.mono fun e he => .tail _ (mem_append_right _ he)
    obtain ⟨hdb1, hput1, hD1⟩ := ihInside (Proper.concat hp name).2 hin
      (fun q hq hlink => hD q hq (isLink_mkpath hlink)) h1
    obtain ⟨hdb2, hput2, hD2⟩ := ihRest hp hout hD1 h2
    refine ⟨?_, ?_, hD2⟩
    · rw [hdb2, hdb1]
      simp [Entries.paths, recorded, unlines, Kind.letter]
    · rw [hput2, hput1]
      simp [Entries.paths, putInPlace]
  | link name target rest ih =>
    rw [copyAndRecord] at h
    obtain ⟨⟨p1, fs1⟩, h1, h2⟩ := bind_eq_some_iff.1 h
    rw [under_relText hp] at h1 h2
    have hhead : (Kind.link, p ++ [name.text]) ∈ (Entries.link name target rest).paths p := .head _
    obtain ⟨rfl, hlinks⟩ :=
      symlink_plain (Proper.concat hp name) (hcovers.straight hD hhead) h1
    have hD1 : ∀ q, D q → ¬IsLink fs1 q := by
      intro q hq hlink
      rcases hlinks q hlink with hold | rfl
      · exact hD q hq hold
      · exact hcovers.link _ hhead rfl hq
    obtain ⟨hdb2, hput2, hD2⟩ := ih hp (hcovers.mono fun e he => .tail _ he) hD1 h2
    refine ⟨?_, ?_, hD2⟩
    · rw [hdb2]
      simp [Entries.paths, recorded, unlines, Kind.letter]
    · rw [hput2]
      simp [Entries.paths, putInPlace]
  | file name content rest ih =>
    rw [copyAndRecord] at h
    obtain ⟨⟨p1, fs1⟩, h1, h2⟩ := bind_eq_some_iff.1 h
    rw [under_relText hp] at h1 h2
    have hhead : (Kind.file, p ++ [name.text]) ∈ (Entries.file name content rest).paths p := .head _
    obtain ⟨rfl, hlinks⟩ := openWrite_plain (Proper.concat hp name) (hcovers.straight hD hhead)
      (hD _ (hcovers.solid _ hhead Kind.noConfusion)) h1
    obtain ⟨hdb2, hput2, hD2⟩ := ih hp (hcovers.mono fun e he => .tail _ he)
      (fun q hq hlink => hD q hq (hlinks q hlink)) h2
    refine ⟨?_, ?_, hD2⟩
    · rw [hdb2]
      simp [Entries.paths, recorded, unlines, Kind.letter]
    · rw [hput2]
      simp [Entries.paths, putInPlace]
  | other name rest ih =>
    rw [copyAndRecord] at h
    exact ih hp hcovers hD h

/-! ## `record_and_merge` -/

variable {r : Recipe} {σ σ' : Sys} {n : PkgName} {put : List Path}

theorem recordAndMerge_db (h : recordAndMerge σ n r = some (σ', put)) :
    ∃ files, σ'.db = setPkg n ⟨files, r.version, (σ.pkg n).any (·.base)⟩ σ.db := by
  obtain ⟨s, -, hs⟩ := Option.map_eq_some_iff.1 h
  obtain ⟨rfl, -⟩ := Prod.mk.inj hs
  exact ⟨_, rfl⟩

theorem Mergeable.mono (h : Mergeable fs r) (hlinks : ∀ q, IsLink fs' q → IsLink fs q) :
    Mergeable fs' r :=
  { h with noLink := fun e he hk hlink => h.noLink e he hk (hlinks _ hlink) }

theorem Mergeable.covers (h : Mergeable fs r) :
    Covers (fun q => ∃ e ∈ r.entries.paths [], e.1 ≠ .link ∧ e.2 = q) (r.entries.paths []) := by
  constructor
  · intro e he q hq hne hroot
    obtain ⟨-, -, hbetween⟩ := Entries.paths_prefix e he
    exact ⟨_, hbetween q nil_prefix hq hroot hne, nofun, rfl⟩
  · exact fun e he hk => ⟨e, he, hk, rfl⟩
  · rintro e he hk ⟨e', he', hk', heq⟩
    have hsame := inj_on_of_nodup_map h.distinct he' he heq
    exact hk' (hsame ▸ hk)

/-- What has been merged is in the database with a list of what is in the package, and files and
links have got to where that says. -/
theorem recordAndMerge_spec (hok : Mergeable σ.fs r) (h : recordAndMerge σ n r = some (σ', put)) :
    ∃ pkg, σ'.db = setPkg n pkg σ.db ∧ Listing pkg.files (recorded (r.entries.paths [])) ∧
      put = putInPlace (r.entries.paths []) := by
  obtain ⟨s, hcopy, hs⟩ := Option.map_eq_some_iff.1 h
  obtain ⟨rfl, rfl⟩ := Prod.mk.inj hs
  have hD : ∀ q, (∃ e ∈ r.entries.paths [], e.1 ≠ .link ∧ e.2 = q) → ¬IsLink σ.fs q := by
    rintro q ⟨e, he, hk, rfl⟩
    exact hok.noLink e he hk
  have hroot : ∀ c ∈ ([] : Path), c ≠ [] ∧ '/' ∉ c ∧ c ≠ ['.'] ∧ c ≠ ['.', '.'] :=
    fun c hc => absurd hc not_mem_nil
  obtain ⟨hdb, hput, -⟩ := copyAndRecord_spec hroot hok.covers hD hcopy
  refine ⟨_, rfl, ⟨hdb, ?_, ?_, ?_⟩, hput⟩
  · intro l hl
    obtain ⟨e, -, rfl⟩ := mem_map.1 hl
    cases e.1
    · exact .inl rfl
    · exact .inr rfl
    · exact .inr rfl
  · intro l hl
    obtain ⟨e, he, rfl⟩ := mem_map.1 hl
    exact Entries.paths_proper hroot e he
  · intro l hl
    obtain ⟨e, he, rfl⟩ := mem_map.1 hl
    exact hok.recordable e he

theorem mem_putInPlace {es : List (Kind × Path)} : p ∈ putInPlace es ↔ ('f', p) ∈ recorded es := by
  rw [putInPlace, recorded, mem_map, mem_map]
  constructor
  · rintro ⟨e, he, rfl⟩
    obtain ⟨he, hk⟩ := mem_filter.1 he
    refine ⟨e, he, ?_⟩
    obtain ⟨k, q⟩ := e
    cases k with
    | dir => exact absurd rfl (of_decide_eq_true hk)
    | file | link => rfl
  · rintro ⟨⟨k, q⟩, he, heq⟩
    obtain ⟨hk, rfl⟩ := Prod.mk.inj heq
    refine ⟨_, mem_filter.2 ⟨he, decide_eq_true ?_⟩, rfl⟩
    rintro rfl
    exact absurd (show 'd' = 'f' from hk) (by decide)

end Verkos.Vpk
