import Verkos.Vpart.Gpt

/-!
# The partitions have the size that was asked for

The sizes are multiplied and added in 64 bits and checked afterwards. A size below 2^53 MiB does
not wrap when it is multiplied; where the end of its partition wraps, the partition ends before it
starts, and that is checked. A larger size becomes a smaller one before anything looks at it.
-/

namespace Verkos.Vpart

open List

/-- Within the usable area, the right way round. -/
structure Placed (lastUsable : Nat) (p : Part) : Prop where
  first : 34 ≤ p.first.toNat
  order : p.first.toNat ≤ p.last.toNat
  last : p.last.toNat ≤ lastUsable

/-- How many sectors a partition has. -/
def Part.size (p : Part) : Nat := p.last.toNat + 1 - p.first.toNat

/-- The sizes asked for behind the root, in sectors. -/
def askedTail (o : Opts) : List Nat :=
  (if o.homeMb ≠ 0 then [o.homeMb.toNat * 2048] else []) ++
    (if o.swapMb ≠ 0 then [o.swapMb.toNat * 2048] else [])

/-- The sectors from the first MiB to the last that is usable. -/
def room (sectors : Nat) : Nat := sectors - 34 + 1 - 2048

def askedEsp (o : Opts) (sectors : Nat) : Nat :=
  if o.espOnly then room sectors else o.espMb.toNat * 2048

/-- What was asked for: the root without a size is to have what the others leave. -/
def asked (o : Opts) (sectors : Nat) : List Nat :=
  askedEsp o sectors ::
    ((if o.wantRoot then
      [if o.rootMb ≠ 0 then o.rootMb.toNat * 2048
        else room sectors - (askedEsp o sectors + (askedTail o).sum)] else []) ++ askedTail o)

/-- The sizes that are used are below 2^53 MiB. -/
structure Fits (o : Opts) : Prop where
  esp : o.espOnly = false → o.espMb.toNat < 2 ^ 53
  root : o.wantRoot = true → o.rootMb.toNat < 2 ^ 53
  home : o.homeMb.toNat < 2 ^ 53
  swap : o.swapMb.toNat < 2 ^ 53

/-! ## The checks -/

theorem check_placed {lu : UInt64} : ∀ {ps : List Part} {prev : Option Part},
    check lu prev ps = .ok () → ∀ p ∈ ps, Placed lu.toNat p
  | [], _, _, p, hp => nomatch hp
  | q :: ps, prev, h, p, hp => by
    unfold check at h
    split_ifs at h with hout hends hover
    rw [not_or, UInt64.not_lt, UInt64.not_lt] at hout
    rw [UInt64.not_lt] at hends
    rcases mem_cons.1 hp with rfl | hp
    · exact ⟨hout.1, hends, hout.2⟩
    · exact check_placed h p hp

theorem check_behind {lu : UInt64} : ∀ {ps : List Part} {p : Part},
    check lu (some p) ps = .ok () → ∀ q ∈ ps, p.last.toNat < q.first.toNat
  | [], _, _, q, hq => nomatch hq
  | r :: ps, p, h, q, hq => by
    unfold check at h
    split_ifs at h with hout hends hover
    have hlt : p.last.toNat < r.first.toNat := by
      simpa [UInt64.not_le, UInt64.lt_iff_toNat_lt] using hover
    rcases mem_cons.1 hq with rfl | hq
    · exact hlt
    · have hord : r.first.toNat ≤ r.last.toNat := UInt64.not_lt.1 hends
      exact lt_of_lt_of_le hlt (hord.trans (check_behind h q hq).le)

theorem check_pairwise {lu : UInt64} : ∀ {ps : List Part} {prev : Option Part},
    check lu prev ps = .ok () → ps.Pairwise fun p q => p.last.toNat < q.first.toNat
  | [], _, _ => .nil
  | p :: ps, prev, h => by
    unfold check at h
    split_ifs at h
    exact .cons (check_behind h) (check_pairwise h)

/-! ## The sizes -/

variable {o : Opts} {lu : Nat}

variable {p : Part} {lastUsable : UInt64} {sectors : Nat}

theorem size_of_last {mb : UInt64} (h : Placed lu p) (hmb : mb.toNat < 2 ^ 53)
    (hlast : p.last = p.first + mb * 2048 - 1) : p.size = mb.toNat * 2048 := by
  have hf := p.first.toNat_lt
  have horder := h.order
  have hfirst := h.first
  have h2048 : (2048 : UInt64).toNat = 2048 := rfl
  have h1 : (1 : UInt64).toNat = 1 := rfl
  have hl : p.last.toNat = (2 ^ 64 - 1 + (p.first.toNat + mb.toNat * 2048 % 2 ^ 64) % 2 ^ 64) % 2 ^ 64 := by
    rw [hlast, UInt64.toNat_sub, UInt64.toNat_add, UInt64.toNat_mul, h2048, h1]
  unfold Part.size
  rw [hl] at horder ⊢
  omega

theorem next_toNat (h : Placed lu p) (hlu : lu < 2 ^ 54) :
    (p.last + 1).toNat = p.last.toNat + 1 := by
  have hl := h.last
  have h1 : (1 : UInt64).toNat = 1 := rfl
  rw [UInt64.toNat_add, h1]
  omega

theorem swapParts_sizes {next : UInt64} (hs : o.swapMb.toNat < 2 ^ 53)
    (hnext : next.toNat ≤ lu + 1) (h : ∀ p ∈ swapParts o next, Placed lu p) :
    (swapParts o next).map Part.size = (if o.swapMb ≠ 0 then [o.swapMb.toNat * 2048] else []) ∧
      next.toNat + o.swapMb.toNat * 2048 ≤ lu + 1 := by
  unfold swapParts at h ⊢
  split_ifs at h ⊢ with h0
  · have hp := h _ (mem_singleton_self _)
    have hsize := size_of_last hp hs rfl
    rw [map_singleton, hsize]
    refine ⟨rfl, ?_⟩
    have hl := hp.last
    have ho := hp.order
    unfold Part.size at hsize
    change _ + 1 - next.toNat = _ at hsize
    change next.toNat ≤ _ at ho
    omega
  · refine ⟨rfl, ?_⟩
    rw [not_not] at h0
    rw [h0]
    exact hnext

theorem homeParts_sizes {next : UInt64} (hh : o.homeMb.toNat < 2 ^ 53)
    (hs : o.swapMb.toNat < 2 ^ 53) (hlu : lu < 2 ^ 54) (hnext : next.toNat ≤ lu + 1)
    (h : ∀ p ∈ homeParts o next, Placed lu p) : (homeParts o next).map Part.size = askedTail o ∧
      next.toNat + (o.homeMb.toNat + o.swapMb.toNat) * 2048 ≤ lu + 1 := by
  by_cases h0 : o.homeMb = 0
  · have hparts : homeParts o next = swapParts o next := if_neg (not_not.2 h0)
    rw [hparts] at h ⊢
    have hz : o.homeMb.toNat = 0 := by rw [h0]; rfl
    obtain ⟨hsizes, hle⟩ := swapParts_sizes hs hnext h
    rw [hsizes, askedTail, if_neg (not_not.2 h0), nil_append, hz, Nat.zero_add]
    exact ⟨rfl, hle⟩
  · have hparts : homeParts o next = sized homeType "home" next o.homeMb ::
        swapParts o ((sized homeType "home" next o.homeMb).last + 1) := if_pos h0
    rw [hparts] at h ⊢
    have hp := h _ mem_cons_self
    have hsize := size_of_last hp hh rfl
    have hafter := next_toNat hp hlu
    have hl := hp.last
    have ho := hp.order
    obtain ⟨hsizes, hle⟩ := swapParts_sizes hs (by omega) fun p hp' => h p (mem_cons_of_mem _ hp')
    constructor
    · rw [map_cons, hsizes, hsize, askedTail, if_pos h0]
      rfl
    · unfold Part.size at hsize
      change _ + 1 - next.toNat = _ at hsize
      change next.toNat ≤ _ at ho
      omega

theorem askedTail_sum (o : Opts) :
    (askedTail o).sum = (o.homeMb.toNat + o.swapMb.toNat) * 2048 := by
  have hz : ∀ mb : UInt64, (if mb ≠ 0 then [mb.toNat * 2048] else []).sum = mb.toNat * 2048 := by
    intro mb
    split_ifs with h
    · exact sum_singleton
    · rw [not_not.1 h]
      rfl
  rw [askedTail, sum_append, hz, hz, Nat.add_mul]

/-- The root, with what the later partitions need known to be there. -/
theorem root_size (hp : Placed lastUsable.toNat p)
    (hlu : lastUsable.toNat < 2 ^ 54) (hroot : o.rootMb.toNat < 2 ^ 53)
    (hlast : p.last = rootEnd o lastUsable p.first)
    (htail : p.last.toNat + 1 + (o.homeMb.toNat + o.swapMb.toNat) * 2048 ≤ lastUsable.toNat + 1) :
    p.size = if o.rootMb ≠ 0 then o.rootMb.toNat * 2048
      else lastUsable.toNat + 1 - p.first.toNat - (askedTail o).sum := by
  unfold rootEnd at hlast
  split_ifs at hlast ⊢ with h0
  · exact size_of_last hp hroot hlast
  · have h2048 : (2048 : UInt64).toNat = 2048 := rfl
    have hl : p.last.toNat = (2 ^ 64 - (o.homeMb.toNat + o.swapMb.toNat) % 2 ^ 64 * 2048 % 2 ^ 64 +
        lastUsable.toNat) % 2 ^ 64 := by
      rw [hlast, UInt64.toNat_sub, UInt64.toNat_mul, UInt64.toNat_add, h2048]
    rw [askedTail_sum]
    unfold Part.size
    omega

/-- A partition before there is another. -/
theorem esp_size (h : Placed lastUsable.toNat (espPart o lastUsable))
    (hfits : o.espOnly = false → o.espMb.toNat < 2 ^ 53) (hlu : lastUsable.toNat = sectors - 34) :
    (espPart o lastUsable).size = askedEsp o sectors := by
  unfold askedEsp
  by_cases honly : o.espOnly = true
  · have hlast : (espPart o lastUsable).last = lastUsable := by
      unfold espPart
      dsimp only
      rw [if_pos honly]
    have hfirst : (espPart o lastUsable).first.toNat = 2048 := rfl
    rw [if_pos honly]
    unfold Part.size room
    rw [hlast, hfirst, hlu]
  · have hlast : (espPart o lastUsable).last = (espPart o lastUsable).first + o.espMb * 2048 - 1 := by
      unfold espPart
      dsimp only
      rw [if_neg honly]
    rw [if_neg honly]
    exact size_of_last h (hfits (by simpa using honly)) hlast

/-- Sizes below 2^53 MiB come out as they were asked for. -/
theorem layout_sizes {ps : List Part} (hfits : Fits o)
    (hlu : lastUsable.toNat = sectors - 34) (hsec : sectors < 2 ^ 54)
    (hlay : layout o lastUsable = .ok ps) (hcheck : check lastUsable none ps = .ok ()) :
    ps.map Part.size = asked o sectors := by
  have hplaced := check_placed hcheck
  have hlu54 : lastUsable.toNat < 2 ^ 54 := by omega
  unfold layout at hlay
  dsimp only at hlay
  split_ifs at hlay with hroot hno
  · obtain rfl := Except.ok.inj hlay
    set esp := espPart o lastUsable with hespdef
    set root : Part := ⟨linuxType, esp.last + 1, rootEnd o lastUsable (esp.last + 1), ascii "VerkOS"⟩
      with hrootdef
    have hesp := hplaced esp mem_cons_self
    have hr := hplaced root (mem_cons_of_mem _ mem_cons_self)
    have hafter : (root.last + 1).toNat = root.last.toNat + 1 := next_toNat hr hlu54
    have hl := hr.last
    have hbehind : (root.last + 1).toNat ≤ lastUsable.toNat + 1 := by omega
    obtain ⟨hsizes, hle⟩ := homeParts_sizes hfits.home hfits.swap hlu54 hbehind fun p hp =>
      hplaced p (mem_cons_of_mem _ (mem_cons_of_mem _ hp))
    have hespsize := esp_size hesp hfits.esp hlu
    have hrootsize := root_size hr hlu54 (hfits.root hroot) rfl (hafter ▸ hle)
    have hfirst : root.first.toNat = esp.last.toNat + 1 := next_toNat hesp hlu54
    have he : esp.last.toNat + 1 - 2048 = askedEsp o sectors := hespsize
    have heord : 2048 ≤ esp.last.toNat := hesp.order
    have hrest : lastUsable.toNat + 1 - root.first.toNat - (askedTail o).sum =
        room sectors - (askedEsp o sectors + (askedTail o).sum) := by
      unfold room
      omega
    rw [map_cons, map_cons, hsizes, hespsize, hrootsize, hrest, asked, if_pos hroot]
    rfl
  · obtain rfl := Except.ok.inj hlay
    have hesp := hplaced _ mem_cons_self
    have hafter := next_toNat hesp hlu54
    have hl := hesp.last
    obtain ⟨hsizes, -⟩ := homeParts_sizes hfits.home hfits.swap hlu54 (by omega) fun p hp =>
      hplaced p (mem_cons_of_mem _ hp)
    rw [map_cons, hsizes, esp_size hesp hfits.esp hlu, asked, if_neg hroot]
    rfl

theorem fits_of_sizes {ps : List Part}
    (hsizes : ps.map Part.size = asked o sectors) (hcheck : check lastUsable none ps = .ok ()) :
    Fits o := by
  have hsmall : ∀ n ∈ asked o sectors, n < 2 ^ 64 := by
    intro n hn
    rw [← hsizes] at hn
    obtain ⟨p, hp, rfl⟩ := mem_map.1 hn
    have hf := (check_placed hcheck p hp).first
    have hl := p.last.toNat_lt
    unfold Part.size
    omega
  have hmem : ∀ mb : UInt64, mb.toNat * 2048 ∈ asked o sectors ∨ mb = 0 → mb.toNat < 2 ^ 53 := by
    rintro mb (h | rfl)
    · have := hsmall _ h
      omega
    · decide
  constructor
  · intro honly
    apply hmem
    left
    simp [asked, askedEsp, honly]
  · intro hroot
    apply hmem
    by_cases h0 : o.rootMb = 0
    · exact .inr h0
    · left
      simp [asked, hroot, h0]
  · apply hmem
    by_cases h0 : o.homeMb = 0
    · exact .inr h0
    · left
      simp [asked, askedTail, h0]
  · apply hmem
    by_cases h0 : o.swapMb = 0
    · exact .inr h0
    · left
      simp [asked, askedTail, h0]

end Verkos.Vpart
