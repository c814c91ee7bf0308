import Mathlib.Data.List.TakeWhile
import Verkos.Vtar.Pax
import Verkos.Vtar.Requests

/-!
# Long names

An entry is a header, with its data behind it if it is no directory, and may have extended headers
in front of it that say what its path is. `do_extract` asks for exactly the entries of an archive as
long as it sees their paths. Two things are in its way: `name` has 512 bytes, whatever `pending` has
room for, and of a pax header it sees 8191 bytes.
-/

namespace Verkos.Vtar

open List

/-! ## Entries -/

/-- A header with a right checksum. -/
structure Header where
  bytes : List UInt8
  length_bytes : bytes.length = 512
  sound : headerOk bytes = true

namespace Header

def type (h : Header) : UInt8 := h.bytes.getD 156 0

def size (h : Header) : Nat := fromOctal (field h.bytes 124 12) 0

/-- The path that is in the header itself: the name, behind the prefix if there is one. -/
def ownPath (h : Header) : Str :=
  if field h.bytes 257 5 = ustar.take 5 ∧ h.bytes.getD 345 0 ≠ 0 then
    cstr (field h.bytes 345 155) ++ slash :: cstr (field h.bytes 0 100)
  else cstr (field h.bytes 0 100)

end Header

/-- How many bytes a block is filled up with. -/
def padding (n : Nat) : Nat := (512 - n % 512) % 512

/-- What an extended header says. A long name may have its NUL with it. -/
inductive Content
  | pax (records : List PaxRecord)
  | global (records : List PaxRecord)
  | longName (name : Str) (nul : Bool)
  | longLink (link : List UInt8)

namespace Content

def bytes : Content → List UInt8
  | .pax records => records.flatMap PaxRecord.text
  | .global records => records.flatMap PaxRecord.text
  | .longName name nul => name ++ if nul then [0] else []
  | .longLink link => link

def type : Content → UInt8
  | .pax _ => 120
  | .global _ => 103
  | .longName .. => 76
  | .longLink _ => 75

/-- The path that is given. -/
def path? : Content → Option Str
  | .pax records => (records.find? (·.key = PaxRecord.pathName)).map PaxRecord.value
  | .longName name _ => some name
  | _ => none

/-- A path is given once at most, and is a path; a global header gives none. -/
def Sound : Content → Prop
  | .pax records => (records.filter (·.key = PaxRecord.pathName)).length ≤ 1 ∧
      ∀ r ∈ records, r.key = PaxRecord.pathName → r.value ≠ [] ∧ 0 ∉ r.value
  | .global records => ∀ r ∈ records, r.key ≠ PaxRecord.pathName
  | .longName name _ => name ≠ [] ∧ 0 ∉ name
  | .longLink _ => True

end Content

/-- An extended header. -/
structure Ext where
  header : Header
  content : Content
  pad : List UInt8
  type_eq : header.type = content.type
  size_eq : header.size = content.bytes.length
  length_pad : pad.length = padding content.bytes.length
  sound : content.Sound

def Ext.bytes (x : Ext) : List UInt8 := x.header.bytes ++ (x.content.bytes ++ x.pad)

/-- The parts of an entry, with what is in front of it. -/
structure Parts where
  before : List Ext
  header : Header
  data : List UInt8
  pad : List UInt8
  once : (before.filterMap fun x => x.content.path?).length ≤ 1
  type_ne : header.type ≠ 120 ∧ header.type ≠ 103 ∧ header.type ≠ 76 ∧ header.type ≠ 75

namespace Parts

def bytes (e : Parts) : List UInt8 :=
  e.before.flatMap Ext.bytes ++ (e.header.bytes ++ (e.data ++ e.pad))

/-- The full path: the one that is given in front, or the header's own. -/
def path (e : Parts) : Str :=
  (e.before.filterMap fun x => x.content.path?).head?.getD e.header.ownPath

def isDir (e : Parts) : Bool := e.header.type = dirType || e.path.getLast? = some slash

end Parts

/-- An entry: a directory has no data, and a file has as much as its header says. -/
structure Entry extends Parts where
  dir : toParts.isDir = true → data = [] ∧ pad = []
  file : toParts.isDir = false → header.size = data.length ∧ pad.length = padding data.length

/-- What the entry is. -/
def Entry.request (e : Entry) : Request where
  dir := e.isDir
  name := e.path
  mode := fromOctal (field e.header.bytes 100 8) 0
  mtime := fromOctal (field e.header.bytes 136 12) 0
  data := e.data

/-! ## What stands in the way -/

/-- A path is seen if the header's own is the same, or if it is one of at most 511 bytes and the
record that gives it ends within 8191 bytes. -/
def Content.InReach (own : Str) : Content → Prop
  | .pax records => ∀ front r behind, records = front ++ r :: behind →
      r.key = PaxRecord.pathName →
        if (front.flatMap PaxRecord.text).length + r.text.length ≤ 8191 then r.value.length ≤ 511
        else own = r.value
  | .longName name _ => name.length ≤ 511
  | _ => True

def Entry.InReach (e : Entry) : Prop := ∀ x ∈ e.before, x.content.InReach e.header.ownPath

/-! ## Extended headers -/

/-- What an extended header leaves in `pending`. -/
def Content.pending (pending : Str) : Content → Str
  | .pax records => paxPending records 0 pending
  | .longName name _ => name.take 4095
  | _ => pending

section Pax

variable {rs front behind : List PaxRecord} {r : PaxRecord} {start : Nat} {pending : Str}

theorem paxPending_none (h : ∀ r ∈ rs, r.key ≠ PaxRecord.pathName) (start : Nat) (pending : Str) :
    paxPending rs start pending = pending := by
  induction rs generalizing start with
  | nil => rfl
  | cons r rs ih =>
    have hskip : (if r.key = PaxRecord.pathName ∧ 0 < r.value.length ∧ r.value.length < 4096 then
        cstr r.value else pending) = pending := if_neg fun hc => h r mem_cons_self hc.1
    rw [paxPending, hskip, ih fun r hr => h r (mem_cons_of_mem _ hr)]
    exact ite_self pending

section

variable (hfront : ∀ r ∈ front, r.key ≠ PaxRecord.pathName)
  (hbehind : ∀ r ∈ behind, r.key ≠ PaxRecord.pathName)
include hfront hbehind

/-- The one record that gives a path. -/
theorem paxPending_one (hr : r.key = PaxRecord.pathName) (hval : r.value ≠ []) (start : Nat)
    (pending : Str) : paxPending (front ++ r :: behind) start pending =
      if start + (front.flatMap PaxRecord.text).length + r.text.length ≤ 8191 ∧
        r.value.length < 4096 then cstr r.value else pending := by
  induction front generalizing start with
  | nil =>
    have hpos := length_pos_iff.2 hval
    rw [nil_append, paxPending, flatMap_nil, length_nil, Nat.add_zero]
    by_cases hroom : start + r.text.length ≤ 8191
    · rw [if_pos hroom, paxPending_none hbehind]
      simp only [hr, hpos, hroom, true_and]
    · rw [if_neg hroom, if_neg fun hc => hroom hc.1]
  | cons x front ih =>
    have hskip : (if x.key = PaxRecord.pathName ∧ 0 < x.value.length ∧ x.value.length < 4096 then
        cstr x.value else pending) = pending := if_neg fun hc => hfront x mem_cons_self hc.1
    rw [cons_append, paxPending, hskip, ih fun r hr => hfront r (mem_cons_of_mem _ hr), flatMap_cons, length_append,
      ← Nat.add_assoc]
    split_ifs <;> first | rfl | omega

theorem split_unique {front' behind' : List PaxRecord} {r' : PaxRecord}
    (h : front ++ r :: behind = front' ++ r' :: behind') (hr' : r'.key = PaxRecord.pathName) :
    front' = front ∧ r' = r := by
  rcases append_eq_append_iff.1 h with ⟨l, rfl, htail⟩ | ⟨l, rfl, htail⟩
  · cases l with
    | nil => exact ⟨append_nil front, (List.cons.inj htail).1.symm⟩
    | cons x l =>
      rw [cons_append, List.cons.injEq] at htail
      exact absurd hr' (hbehind r' (htail.2 ▸ mem_append_right _ mem_cons_self))
  · cases l with
    | nil => exact ⟨(append_nil front').symm, (List.cons.inj htail).1⟩
    | cons x l =>
      rw [cons_append, List.cons.injEq] at htail
      refine absurd hr' (hfront r' (mem_append_right _ ?_))
      rw [htail.1]
      exact mem_cons_self

end

end Pax

variable {n k : Nat} {payload : List UInt8} {l : List Entry}

section Seen

variable {c : Content} {own p : Str} {h : Header}

theorem Content.pending_of_none (hs : c.Sound) (hp : c.path? = none) (pending : Str) :
    c.pending pending = pending := by
  cases c with
  | pax records =>
    rw [Content.path?, Option.map_eq_none_iff, find?_eq_none] at hp
    exact paxPending_none (fun r hr => by simpa using hp r hr) 0 pending
  | global records | longLink link => rfl
  | longName name nul => cases hp

theorem Content.inReach_of_none (hp : c.path? = none) : c.InReach own := by
  cases c with
  | pax records =>
    rintro front r behind rfl hr
    rw [Content.path?, Option.map_eq_none_iff, find?_eq_none] at hp
    exact absurd (decide_eq_true hr) (hp r (mem_append_right _ mem_cons_self))
  | global records | longLink link => trivial
  | longName name nul => cases hp

theorem cstr_eq {s : Str} (h : 0 ∉ s) : cstr s = s := by
  rw [cstr, takeWhile_eq_self_iff]
  intro b hb
  exact decide_eq_true fun heq => h (heq ▸ hb)

theorem length_cstr_le (s : List UInt8) : (cstr s).length ≤ s.length :=
  ( takeWhile_prefix _).length_le

theorem Header.length_ownPath (h : Header) : h.ownPath.length ≤ 256 := by
  have hname : (cstr (field h.bytes 0 100)).length ≤ 100 :=
    (length_cstr_le _).trans (length_take_le _ _)
  have hprefix : (cstr (field h.bytes 345 155)).length ≤ 155 :=
    (length_cstr_le _).trans (length_take_le _ _)
  unfold Header.ownPath
  split_ifs
  · rw [length_append, length_cons]
    omega
  · omega

theorem Header.entryName_own (h : Header) : entryName h.bytes [] = h.ownPath := by
  have hlen := h.length_ownPath
  unfold Header.ownPath at hlen ⊢
  unfold entryName
  rw [if_neg (not_not_intro rfl)]
  split_ifs at hlen ⊢
  · rw [append_assoc, singleton_append, take_of_length_le (by omega)]
  · rfl

theorem entryName_pending {b : List UInt8} (hp : p ≠ []) : entryName b p = p.take 511 := if_pos hp

theorem take_eq_iff : p.take n = p ↔ p.length ≤ n :=
  ⟨fun h => h ▸ length_take_le n p, take_of_length_le⟩

theorem Content.entryName_iff (hs : c.Sound) (hp : c.path? = some p) (h : Header) :
    entryName h.bytes (c.pending []) = p ↔ c.InReach h.ownPath := by
  cases c with
  | global records | longLink link => cases hp
  | longName name nul =>
    obtain rfl := Option.some.inj hp
    have hne : name.take 4095 ≠ [] := by
      rw [Ne, take_eq_nil_iff]
      exact fun hc => hc.elim (by decide) hs.1
    rw [Content.pending, entryName_pending hne, take_take, take_eq_iff]
    rfl
  | pax records =>
    rw [Content.path?, Option.map_eq_some_iff] at hp
    obtain ⟨r, hfind, rfl⟩ := hp
    obtain ⟨hr, front, behind, rfl, hfront⟩ := find?_eq_some_iff_append.1 hfind
    rw [decide_eq_true_eq] at hr
    have hfront' : ∀ x ∈ front, x.key ≠ PaxRecord.pathName := fun x hx => by
      simpa using hfront x hx
    obtain ⟨honce, hvalues⟩ := hs
    have hbehind : ∀ x ∈ behind, x.key ≠ PaxRecord.pathName := by
      intro x hx hkey
      have hpos : decide (r.key = PaxRecord.pathName) = true := decide_eq_true hr
      rw [filter_append, filter_cons, if_pos hpos, length_append,
        length_cons] at honce
      have hmem : x ∈ behind.filter fun x => decide (x.key = PaxRecord.pathName) :=
        mem_filter.2 ⟨hx, decide_eq_true hkey⟩
      have hmany := length_pos_of_mem hmem
      omega
    obtain ⟨hne, hnul⟩ := hvalues r (mem_append_right _ mem_cons_self) hr
    have hreach : Content.InReach h.ownPath (.pax (front ++ r :: behind)) ↔
        if (front.flatMap PaxRecord.text).length + r.text.length ≤ 8191 then r.value.length ≤ 511
        else h.ownPath = r.value := by
      refine ⟨fun hin => hin front r behind rfl hr, fun hin front' r' behind' hsplit hr' => ?_⟩
      obtain ⟨rfl, rfl⟩ := split_unique hfront' hbehind hsplit hr'
      exact hin
    have hown := h.length_ownPath
    rw [hreach, Content.pending, paxPending_one hfront' hbehind hr hne, Nat.zero_add, cstr_eq hnul]
    by_cases hend : (front.flatMap PaxRecord.text).length + r.text.length ≤ 8191
    · rw [if_pos hend]
      by_cases hlong : r.value.length < 4096
      · rw [if_pos ⟨hend, hlong⟩, entryName_pending hne, take_eq_iff]
      · rw [if_neg fun hc => hlong hc.2, h.entryName_own]
        refine iff_of_false (fun heq => ?_) (by omega)
        rw [heq] at hown
        omega
    · rw [if_neg hend, if_neg fun hc => hend hc.1, h.entryName_own]

end Seen

/-- The name that is seen of an entry. -/
def Parts.seen (e : Parts) : Str :=
  entryName e.header.bytes (e.before.foldl (fun p x => x.content.pending p) [])

theorem foldl_pending_none {xs : List Ext} (h : ∀ x ∈ xs, x.content.path? = none) (pending : Str) :
    xs.foldl (fun p x => x.content.pending p) pending = pending := by
  induction xs generalizing pending with
  | nil => rfl
  | cons x xs ih =>
    rw [foldl_cons, Content.pending_of_none x.sound (h x mem_cons_self)]
    exact ih (fun y hy => h y (mem_cons_of_mem _ hy)) pending

theorem Entry.seen_iff (e : Entry) : e.seen = e.path ↔ e.InReach := by
  have honce := e.once
  rw [Parts.seen, Parts.path]
  cases hpaths : e.before.filterMap fun x => x.content.path? with
  | nil =>
    have hnone : ∀ x ∈ e.before, x.content.path? = none := filterMap_eq_nil_iff.1 hpaths
    rw [foldl_pending_none hnone, e.header.entryName_own]
    exact iff_of_true rfl fun x hx => Content.inReach_of_none (hnone x hx)
  | cons p ps =>
    rw [hpaths, length_cons] at honce
    obtain rfl : ps = [] := length_eq_zero_iff.1 (by omega)
    obtain ⟨front, x, behind, hsplit, hfront, hx, hbehind⟩ := filterMap_eq_cons_iff.1 hpaths
    have hbehind' := filterMap_eq_nil_iff.1 hbehind
    have hall : e.InReach ↔ x.content.InReach e.header.ownPath := by
      refine ⟨fun hin => hin x (hsplit ▸ mem_append_right _ mem_cons_self),
        fun hin y hy => ?_⟩
      rw [hsplit, mem_append, mem_cons] at hy
      rcases hy with hy | rfl | hy
      · exact Content.inReach_of_none (hfront y hy)
      · exact hin
      · exact Content.inReach_of_none (hbehind' y hy)
    rw [hall, hsplit, foldl_append, foldl_cons, foldl_pending_none hfront,
      foldl_pending_none hbehind', head?_cons, Option.getD_some]
    exact Content.entryName_iff x.sound hx e.header

/-! ## Reading -/

theorem Header.used (h : Header) : h.bytes.all (· = 0) = false := by
  by_contra hall
  rw [Bool.not_eq_false, all_eq_true] at hall
  have hzero : h.bytes = List.replicate 512 0 :=
    eq_replicate_iff.2 ⟨h.length_bytes, fun b hb => of_decide_eq_true (hall b hb)⟩
  have hsound := h.sound
  rw [hzero] at hsound
  exact absurd hsound (by decide +kernel)

/-- A turn at a header. -/
theorem readOne_header (h : Header) (first : Bool) (inn : List UInt8) (pending : Str) :
    readOne first (h.bytes ++ inn) pending =
      if h.type = 120 ∨ h.type = 103 then .skipped (skipExtended h.size inn)
          (paxLoop (inn.take (min h.size 8191)) (inn.take (min h.size 8191)).length 0 pending)
      else if h.type = 76 ∨ h.type = 75 then .skipped (skipExtended h.size inn)
          (if h.type = 76 then cstr (inn.take (min h.size 4095)) else pending)
      else if h.type = dirType ∨ (entryName h.bytes pending).getLast? = some slash then
        .entry ⟨true, entryName h.bytes pending, fromOctal (field h.bytes 100 8) 0,
          fromOctal (field h.bytes 136 12) 0, []⟩ inn
      else .entry ⟨false, entryName h.bytes pending, fromOctal (field h.bytes 100 8) 0,
          fromOctal (field h.bytes 136 12) 0, (copyOut (blocks h.size) h.size inn).1⟩
          (copyOut (blocks h.size) h.size inn).2 := by
  have htake : (h.bytes ++ inn).take 512 = h.bytes := take_left' h.length_bytes
  have hdrop : (h.bytes ++ inn).drop 512 = inn := drop_left' h.length_bytes
  have hne : h.bytes ≠ [] := fun hnil => by
    have hlen := h.length_bytes
    rw [hnil] at hlen
    cases hlen
  have hused : ¬ h.bytes.all (· = 0) = true := by
    rw [h.used]
    exact Bool.false_ne_true
  have hsound : ¬ (!headerOk h.bytes) = true := by
    rw [h.sound]
    exact Bool.false_ne_true
  unfold readOne
  rw [htake, hdrop]
  dsimp only
  rw [if_neg hne, if_neg (not_not_intro h.length_bytes), if_neg hused, if_neg hsound]
  rfl

section Ext

variable {rest : List UInt8}

theorem skipExtended_eq {pad : List UInt8} (hn : n = payload.length)
    (hpad : pad.length = padding payload.length) :
    skipExtended n (payload ++ (pad ++ rest)) = rest := by
  subst hn
  rw [skipExtended, drop_left]
  exact drop_left' hpad

theorem take_payload {tail : List UInt8} (hn : n = payload.length) :
    (payload ++ tail).take (min n k) = payload.take k := by
  subst hn
  rw [take_append_of_le_length (Nat.min_le_left _ _), Nat.min_comm, ← take_take,
    take_length]

theorem paxLoop_all (records : List PaxRecord) (pending : Str) :
    paxLoop ((records.flatMap PaxRecord.text).take 8191)
      ((records.flatMap PaxRecord.text).take 8191).length 0 pending =
      paxPending records 0 pending := by
  have h := @paxLoop_records records [] _ (Nat.zero_add _).ge pending
  rwa [nil_append] at h

theorem cstr_take {name : Str} (h : 0 ∉ name) (nul : Bool) (k : Nat) :
    cstr ((name ++ if nul then [0] else []).take k) = name.take k := by
  have hname : cstr (name.take k) = name.take k := cstr_eq fun hmem => h (mem_of_mem_take hmem)
  cases nul with
  | false => rw [if_neg Bool.false_ne_true, append_nil, hname]
  | true =>
    rw [if_pos rfl]
    rcases Nat.lt_or_ge name.length k with hlt | hge
    · rw [take_of_length_le (by rw [length_append]; exact hlt),
        take_of_length_le hlt.le, cstr, takeWhile_append_of_pos]
      · simp
      · exact fun b hb => decide_eq_true fun heq => h (heq ▸ hb)
    · rw [take_append_of_le_length hge, hname]

theorem readOne_ext (x : Ext) (first : Bool) (pending : Str) :
    readOne first (x.bytes ++ rest) pending = .skipped rest (x.content.pending pending) := by
  obtain ⟨header, content, pad, htype, hsize, hpad, hsound⟩ := x
  have hskip : skipExtended header.size (content.bytes ++ (pad ++ rest)) = rest :=
    skipExtended_eq hsize hpad
  rw [Ext.bytes, append_assoc, append_assoc, readOne_header, hskip, take_payload hsize,
    take_payload hsize]
  rw [htype]
  cases content with
  | pax records =>
    rw [if_pos (.inl rfl), Content.bytes, paxLoop_all]
    rfl
  | global records =>
    rw [if_pos (.inr rfl), Content.bytes, paxLoop_all, paxPending_none hsound]
    rfl
  | longName name nul =>
    rw [if_neg (by simp [Content.type]), if_pos (.inl rfl),
      if_pos (show (Content.longName name nul).type = 76 from rfl), Content.bytes,
      cstr_take hsound.2]
    rfl
  | longLink link =>
    rw [if_neg (by simp [Content.type]), if_pos (.inr rfl), if_neg (by simp [Content.type])]
    rfl

theorem copyOut_data (data pad : List UInt8) (hpad : pad.length = padding data.length) :
    copyOut (blocks data.length) data.length (data ++ (pad ++ rest)) = (data, rest) := by
  induction hn : data.length using Nat.strong_induction_on generalizing data with
  | _ n ih =>
    subst hn
    rcases Nat.eq_zero_or_pos data.length with h0 | hpos
    · obtain rfl := length_eq_zero_iff.1 h0
      obtain rfl := length_eq_zero_iff.1 hpad
      rfl
    · rw [blocks_succ hpos, copyOut]
      unfold padding at hpad
      rw [if_neg (by rw [length_append, length_append]; omega)]
      rcases Nat.lt_or_ge data.length 512 with hlt | hge
      · have hblocks : blocks (data.length - 512) = 0 := by
          unfold blocks
          omega
        have hdrop : (data ++ (pad ++ rest)).drop 512 = rest := by
          rw [← append_assoc]
          exact drop_left' (by rw [length_append]; omega)
        rw [hblocks, hdrop, Nat.min_eq_left hlt.le, take_left, copyOut]
        dsimp only
        rw [append_nil]
      · have hdrop : (data ++ (pad ++ rest)).drop 512 = data.drop 512 ++ (pad ++ rest) :=
          drop_append_of_le_length hge
        have hlen : (data.drop 512).length = data.length - 512 := length_drop
        have hmore := ih (data.drop 512).length (by omega) (data.drop 512)
          (by unfold padding; omega) rfl
        rw [hlen] at hmore
        rw [hdrop, hmore, Nat.min_eq_right hge, take_append_of_le_length hge]
        dsimp only
        rw [take_append_drop]

variable (rest) in
/-- A turn at an entry's own header: the name is what is seen, and if that is the path it is read
as what it is. -/
theorem readOne_entry (e : Entry) (first : Bool) (pending : Str) :
    ∃ r inn, readOne first (e.header.bytes ++ (e.data ++ (e.pad ++ rest))) pending = .entry r inn ∧
      r.name = entryName e.header.bytes pending ∧
      (entryName e.header.bytes pending = e.path → r = e.request ∧ inn = rest) := by
  obtain ⟨h1, h2, h3, h4⟩ := e.type_ne
  rw [readOne_header, if_neg (not_or.2 ⟨h1, h2⟩), if_neg (not_or.2 ⟨h3, h4⟩)]
  split_ifs with hdir
  · refine ⟨_, _, rfl, rfl, fun hname => ?_⟩
    rw [hname] at hdir
    have hisDir : e.isDir = true := by
      rw [Parts.isDir, Bool.or_eq_true, decide_eq_true_eq, decide_eq_true_eq]
      exact hdir
    obtain ⟨hdata, hpad⟩ := e.dir hisDir
    rw [hdata, hpad, Entry.request, hisDir, hdata, hname]
    exact ⟨rfl, rfl⟩
  · refine ⟨_, _, rfl, rfl, fun hname => ?_⟩
    rw [hname] at hdir
    have hisDir : e.isDir = false := by
      rw [Parts.isDir, Bool.or_eq_false_iff, decide_eq_false_iff_not, decide_eq_false_iff_not]
      exact not_or.1 hdir
    obtain ⟨hsize, hpad⟩ := e.file hisDir
    rw [hsize, copyOut_data _ _ hpad, Entry.request, hisDir, hname]
    exact ⟨rfl, rfl⟩

end Ext

/-! ## An archive -/

section Archive

variable {fuel count : Nat} {first : Bool} {rest : List UInt8}

/-- The extended headers in front of an entry. -/
theorem requests_before (fuel count : Nat) (rest : List UInt8) (xs : List Ext) (first : Bool)
    (pending : Str) : ∃ first', requests (fuel + xs.length) count first (xs.flatMap Ext.bytes ++ rest) pending =
      requests fuel (count + xs.length) first' rest
        (xs.foldl (fun p x => x.content.pending p) pending) := by
  induction xs generalizing count first pending with
  | nil => exact ⟨first, rfl⟩
  | cons x xs ih =>
    obtain ⟨first', h⟩ := ih (count + 1) false (x.content.pending pending)
    refine ⟨first', ?_⟩
    rw [length_cons, ← Nat.add_assoc, requests, flatMap_cons, append_assoc,
      readOne_ext]
    dsimp only
    rw [h, foldl_cons, Nat.add_assoc, Nat.add_comm 1]

/-- The headers of an entry. -/
def Entry.headers (e : Entry) : Nat := e.before.length + 1

/-- What is asked for at an entry. -/
theorem requests_entry (fuel count : Nat) (rest : List UInt8) (e : Entry) (first : Bool) : ∃ r inn,
    requests (fuel + e.headers) count first (e.bytes ++ rest) [] =
      (requests fuel (count + e.headers) false inn []).map
        (fun p => ((count + e.headers, r) :: p.1, p.2)) ∧
      r.name = e.seen ∧ (e.InReach → r = e.request ∧ inn = rest) := by
  obtain ⟨first', hbefore⟩ := requests_before (fuel + 1) count
    (e.header.bytes ++ (e.data ++ (e.pad ++ rest))) e.before first []
  obtain ⟨r, inn, hread, hname, hreq⟩ := readOne_entry rest e first'
    (e.before.foldl (fun p x => x.content.pending p) [])
  refine ⟨r, inn, ?_, hname, fun hin => hreq (e.seen_iff.2 hin)⟩
  have hbytes : e.bytes ++ rest = e.before.flatMap Ext.bytes ++
      (e.header.bytes ++ (e.data ++ (e.pad ++ rest))) := by
    simp only [Parts.bytes, append_assoc]
  have hfuel : fuel + e.headers = fuel + 1 + e.before.length := by
    rw [Entry.headers]
    omega
  rw [hbytes, hfuel, hbefore, requests, hread]
  rfl

theorem requests_zeros (k : Nat) : requests (fuel + 1) count first (List.replicate (512 * k) 0) [] =
    some ([], none) := by
  have hread : readOne first (List.replicate (512 * k) 0) [] = .done := by
    unfold readOne
    cases k with
    | zero => rfl
    | succ k =>
      have htake : (List.replicate (512 * (k + 1)) (0 : UInt8)).take 512 = List.replicate 512 0 := by
        rw [take_replicate, Nat.min_eq_left (by omega)]
      have hlen : (List.replicate 512 (0 : UInt8)).length = 512 := length_replicate
      have hall : (List.replicate 512 (0 : UInt8)).all (· = 0) = true :=
        all_eq_true.2 fun b hb => decide_eq_true (eq_of_mem_replicate hb)
      rw [htake]
      dsimp only
      rw [if_neg (ne_nil_of_length_pos (by omega)), if_neg (not_not_intro hlen), if_pos hall]
  rw [requests, hread]

/-- How many headers there are. -/
def headers (l : List Entry) : Nat := (l.map Entry.headers).sum

theorem headers_le (l : List Entry) : 512 * headers l ≤ (l.flatMap fun e => e.bytes).length := by
  have hbefore : ∀ xs : List Ext, 512 * xs.length ≤ (xs.flatMap Ext.bytes).length := by
    intro xs
    induction xs with
    | nil => exact Nat.zero_le _
    | cons x xs ih =>
      have hx := x.header.length_bytes
      rw [flatMap_cons, length_append, Ext.bytes, length_append, length_cons]
      omega
  induction l with
  | nil => exact Nat.zero_le _
  | cons e l ih =>
    have he := e.header.length_bytes
    have hb := hbefore e.before
    rw [headers, map_cons, sum_cons, flatMap_cons, length_append, Parts.bytes,
      length_append, length_append, Entry.headers]
    rw [headers] at ih
    omega

/-- Entries in reach are asked for as they are, up to the end. -/
theorem requests_inReach (k : Nat) (h : ∀ e ∈ l, e.InReach) (hfuel : headers l < fuel) : ∃ reqs,
      requests fuel count first ((l.flatMap fun e => e.bytes) ++ List.replicate (512 * k) 0) [] =
        some (reqs, none) ∧ reqs.map Prod.snd = l.map Entry.request := by
  induction l generalizing fuel count first with
  | nil =>
    obtain ⟨n, rfl⟩ := Nat.exists_eq_add_of_lt hfuel
    exact ⟨[], requests_zeros k, rfl⟩
  | cons e l ih =>
    rw [headers, map_cons, sum_cons] at hfuel
    obtain ⟨n, rfl⟩ := Nat.exists_eq_add_of_le (show e.headers ≤ fuel by omega)
    rw [Nat.add_comm e.headers, flatMap_cons, append_assoc]
    obtain ⟨r, inn, hreq, -, hgood⟩ := requests_entry n count
      ((l.flatMap fun e => e.bytes) ++ List.replicate (512 * k) 0) e first
    obtain ⟨rfl, rfl⟩ := hgood (h e mem_cons_self)
    obtain ⟨reqs, hrest, hmap⟩ := ih (fun e he => h e (mem_cons_of_mem _ he))
      (show headers l < n by rw [headers]; omega)
    refine ⟨(count + e.headers, e.request) :: reqs, ?_, ?_⟩
    · rw [hreq, hrest]
      rfl
    · rw [map_cons, map_cons, hmap]

/-- Where nothing wrong is asked for, all paths are in reach. -/
theorem inReach_of_requests (rest : List UInt8) (hfuel : headers l < fuel)
    {reqs : List (Nat × Request)} {bad : Option Bad}
    (h : requests fuel count first ((l.flatMap fun e => e.bytes) ++ rest) [] = some (reqs, bad))
    (hpre : reqs.map Prod.snd <+: l.map Entry.request) : ∀ e ∈ l, e.InReach := by
  induction l generalizing fuel count first reqs with
  | nil => exact fun e he => absurd he not_mem_nil
  | cons e l ih =>
    rw [headers, map_cons, sum_cons] at hfuel
    obtain ⟨n, rfl⟩ := Nat.exists_eq_add_of_le (show e.headers ≤ fuel by omega)
    rw [Nat.add_comm e.headers, flatMap_cons, append_assoc] at h
    obtain ⟨r, inn, hreq, hname, hgood⟩ := requests_entry n count
      ((l.flatMap fun e => e.bytes) ++ rest) e first
    rw [hreq, Option.map_eq_some_iff] at h
    obtain ⟨⟨reqs', bad'⟩, hrest, heq⟩ := h
    obtain ⟨rfl, rfl⟩ := Prod.mk.inj heq
    rw [map_cons, map_cons, cons_prefix_cons] at hpre
    have hr : r = e.request := hpre.1
    have hin : e.InReach := by
      rw [← e.seen_iff, ← hname, hr]
      rfl
    obtain ⟨-, rfl⟩ := hgood hin
    intro e' he'
    rcases mem_cons.1 he' with rfl | he'
    · exact hin
    · exact ih (by rw [headers]; omega) hrest hpre.2 e' he'

end Archive

/-- What `do_extract` makes of an archive with these entries: as long as it does not fail, each
entry in its turn, by its full path and with its own data; and all of them if it does not fail at
all. The files are what these leave. -/
def Lands (env : Env) (archive : List UInt8) (l : List Entry) : Prop :=
  ∃ reqs bad, archiveRequests archive = some (reqs, bad) ∧
    (doExtract env archive).map Prod.snd =
      some (reqs.foldl (fun fs r => r.2.perform env (env.clock r.1) fs) fun _ => none) ∧
    (doExtract env archive).map (fun p => p.1.toOption.isSome) = some bad.isNone ∧
    reqs.map Prod.snd <+: l.map Entry.request ∧
    (bad = none → reqs.map Prod.snd = l.map Entry.request)

theorem headers_lt (l : List Entry) (k : Nat) : headers l <
    ((l.flatMap fun e => e.bytes) ++ List.replicate (512 * k) (0 : UInt8)).length + 1 := by
  have hle := headers_le l
  rw [length_append]
  omega

theorem Lands.inReach {env : Env}
    (h : Lands env ((l.flatMap fun e => e.bytes) ++ List.replicate (512 * k) 0) l) :
    ∀ e ∈ l, e.InReach := by
  obtain ⟨reqs, bad, hreq, -, -, hpre, -⟩ := h
  exact inReach_of_requests _ (headers_lt l k) hreq hpre

/-- A header with the least in it. -/
def smallHeader (size : Nat) (type : UInt8) : List UInt8 :=
  putHeader [120] ⟨0o644, 0, 0, size, 0⟩ type

/-- A file with a name of 512 bytes. -/
def longEntry : Entry where
  before := [{
    header := ⟨smallHeader 512 76, by decide +kernel, by decide +kernel⟩
    content := .longName (List.replicate 512 97) false
    pad := []
    type_eq := by decide +kernel
    size_eq := by decide +kernel
    length_pad := by decide +kernel
    sound := ⟨by decide +kernel, by decide +kernel⟩ }]
  header := ⟨smallHeader 0 48, by decide +kernel, by decide +kernel⟩
  data := []
  pad := []
  once := by decide +kernel
  type_ne := by decide +kernel
  dir := by decide +kernel
  file := by decide +kernel

end Verkos.Vtar
