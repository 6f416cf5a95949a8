import Kithara.HlsOffsets

/-! The published frame tiles the byte space. The offsets of a table that fits are the boundaries
of its lengths, and the lookup is the binary search over them, so every byte past the prefix lies
in exactly one served segment and the totals are those of the sizes as they are. -/
namespace OffsetTiling

open HlsPlanQueue TilingSearch HlsOffsets

variable {t : MediaTable}

/-- The boundaries the table's lengths have. -/
def edge (t : MediaTable) (i : ℕ) : ℕ := boundary t.initRouteSize t.lengths i

theorem edge_mono (t : MediaTable) : Monotone (edge t) := boundary_mono _ _

theorem edge_le (t : MediaTable) (i : ℕ) : edge t i ≤ t.bytes := boundary_le _ _ i

theorem length_at {i : ℕ} (hi : i < t.segments.length) :
    ∃ s, t.segments[i]? = some s ∧ t.lengths[i]? = some s.get ∧
      edge t (i + 1) = edge t i + s.get := by
  have hlen : t.lengths[i]? = some (t.segments[i]).get := by
    rw [MediaTable.lengths, List.getElem?_map, List.getElem?_eq_getElem hi, Option.map_some]
  exact ⟨t.segments[i], List.getElem?_eq_getElem hi, hlen, boundary_succ hlen⟩

@[simp] theorem cumulative_length (cum : ℕ) (segments : List SegmentSize) :
    (cumulative cum segments).length = segments.length := by
  induction segments generalizing cum with
  | nil => rfl
  | cons s rest ih => rw [cumulative, List.length_cons, ih, List.length_cons]

theorem cumulative_getElem? {segments : List SegmentSize} {cum i : ℕ}
    (hfits : cum + (segments.map SegmentSize.get).sum < 2 ^ 64) (hi : i < segments.length) :
    (cumulative cum segments)[i]? = some (boundary cum (segments.map SegmentSize.get) i) := by
  induction segments generalizing cum i with
  | nil => cases hi
  | cons s rest ih =>
    rw [List.map_cons, List.sum_cons] at hfits
    have hwrap : wrap (cum + s.get) = cum + s.get := Nat.mod_eq_of_lt (by omega)
    rw [cumulative, hwrap, List.map_cons]
    cases i with
    | zero => rw [List.getElem?_cons_zero, boundary_zero]
    | succ i =>
      rw [List.getElem?_cons_succ, boundary_cons]
      exact ih (by omega) (Nat.lt_of_succ_lt_succ hi)

theorem offset_eq (hfits : t.bytes < 2 ^ 63) {i : ℕ} (hi : i < t.segments.length) :
    (canonicalFrame t).offsets[i]? = some (edge t i) := by
  refine cumulative_getElem? ?_ hi
  have hbytes : t.initRouteSize + (t.segments.map SegmentSize.get).sum = t.bytes := rfl
  omega

theorem findLoop_step {offsets lengths : List ℕ} {byte lo hi mid : ℕ} (hlt : lo < hi)
    (hmid : lo + (hi - lo) / 2 = mid) :
    Frame.findLoop offsets lengths byte lo hi =
      if byte < offsets.getD mid 0 then Frame.findLoop offsets lengths byte lo mid
      else if byte ≥ wrap (offsets.getD mid 0 + lengths.getD mid 0) then
        Frame.findLoop offsets lengths byte (mid + 1) hi
      else some (mid, offsets.getD mid 0, lengths.getD mid 0) := by
  subst hmid
  rw [Frame.findLoop, dif_pos hlt]

theorem offset_getD (hfits : t.bytes < 2 ^ 63) {i : ℕ} (hi : i < t.segments.length) :
    (canonicalFrame t).offsets.getD i 0 = edge t i ∧
      wrap (edge t i + t.lengths.getD i 0) = edge t (i + 1) := by
  obtain ⟨s, _, hlen, hedge⟩ := length_at hi
  have hle := edge_le t (i + 1)
  refine ⟨?_, ?_⟩
  · rw [List.getD_eq_getElem?_getD, offset_eq hfits hi, Option.getD_some]
  · rw [List.getD_eq_getElem?_getD, hlen, Option.getD_some, ← hedge]
    exact Nat.mod_eq_of_lt (by omega)

/-- The loop over the frame and the sizes is the search over the boundaries. -/
theorem findLoop_eq (hfits : t.bytes < 2 ^ 63) (byte lo hi : ℕ) (hhi : hi ≤ t.segments.length) :
    Frame.findLoop (canonicalFrame t).offsets t.lengths byte lo hi =
      (bisect (edge t) byte lo hi).map fun i => (i, edge t i, t.lengths.getD i 0) := by
  induction lo, hi using bisect.induct (edge t) byte with
  | case1 lo hi hlt hbelow ih =>
    obtain ⟨hoff, hend⟩ := offset_getD hfits (show lo + (hi - lo) / 2 < t.segments.length by omega)
    rw [findLoop_step hlt rfl, hoff, hend, bisect, dif_pos hlt, if_pos hbelow, if_pos hbelow]
    exact ih (by omega)
  | case2 lo hi hlt hbelow habove ih =>
    obtain ⟨hoff, hend⟩ := offset_getD hfits (show lo + (hi - lo) / 2 < t.segments.length by omega)
    rw [findLoop_step hlt rfl, hoff, hend, bisect, dif_pos hlt, if_neg hbelow, if_neg hbelow,
      if_pos habove, if_pos habove]
    exact ih hhi
  | case3 lo hi hlt hbelow habove =>
    obtain ⟨hoff, hend⟩ := offset_getD hfits (show lo + (hi - lo) / 2 < t.segments.length by omega)
    rw [findLoop_step hlt rfl, hoff, hend, bisect, dif_pos hlt, if_neg hbelow, if_neg hbelow,
      if_neg habove, if_neg habove]
    rfl
  | case4 lo hi hge =>
    rw [Frame.findLoop, bisect, dif_neg hge, dif_neg hge, Option.map_none]

theorem findNatural_eq_some (hfits : t.bytes < 2 ^ 63) (byte : ℕ) {i off size : ℕ} :
    (canonicalFrame t).findNatural byte t.segments = some (i, off, size) ↔
      i < t.segments.length ∧ i ≤ greatestU32 ∧ edge t i ≤ byte ∧ byte < edge t (i + 1) ∧
        off = edge t i ∧ size = t.lengths.getD i 0 := by
  have hcount : (canonicalFrame t).offsets.length = t.segments.length := cumulative_length _ _
  have hloop := findLoop_eq hfits byte 0 t.segments.length le_rfl
  rw [← hcount] at hloop
  unfold Frame.findNatural
  rw [show t.segments.map SegmentSize.get = t.lengths from rfl, hloop, hcount]
  constructor
  · intro h
    simp only [Option.bind_eq_bind, Option.bind_eq_some_iff, Option.map_eq_some_iff] at h
    obtain ⟨_, ⟨j, hj, rfl⟩, h⟩ := h
    dsimp only at h
    obtain ⟨hlt, hfrom, hto⟩ := (bisect_eq_some (edge_mono t)).mp hj
    split at h
    · next hnarrow =>
      cases h
      exact ⟨hlt, hnarrow, hfrom, hto, rfl, rfl⟩
    · cases h
  · rintro ⟨hlt, hnarrow, hfrom, hto, rfl, rfl⟩
    rw [(bisect_eq_some (edge_mono t)).mpr ⟨hlt, hfrom, hto⟩]
    exact if_pos hnarrow

theorem i64TryFrom_of_lt {n : ℕ} (h : n < 2 ^ 63) : i64TryFrom n = some (n : ℤ) := if_pos h

theorem checkedI64_natCast {n : ℕ} (h : n < 2 ^ 63) : checkedI64 (n : ℤ) = some (n : ℤ) := by
  refine if_pos ⟨by omega, by omega⟩

theorem u64TryFrom_natCast (n : ℕ) : u64TryFrom (n : ℤ) = some n := by
  rw [u64TryFrom, if_pos (Int.natCast_nonneg n), Int.toNat_natCast]

theorem unshifted {n : ℕ} (h : n < 2 ^ 63) :
    (do
      let signed ← i64TryFrom n
      let shifted ← checkedI64 (signed + 0)
      u64TryFrom shifted) = some n := by
  simp only [Option.bind_eq_bind, Option.bind_eq_some_iff]
  refine ⟨n, i64TryFrom_of_lt h, n, ?_, u64TryFrom_natCast n⟩
  rw [add_zero]
  exact checkedI64_natCast h

theorem findVirtual_eq_some (hfits : t.bytes < 2 ^ 63) {byte i off size : ℕ} :
    (canonicalFrame t).findVirtual byte t.segments = some (i, off, size) ↔
      i < u32Count t.segments.length ∧ edge t i ≤ byte ∧ byte < edge t (i + 1) ∧
        off = edge t i ∧ size = t.lengths.getD i 0 := by
  have hshift : (canonicalFrame t).byteShift = 0 := rfl
  have hfrom0 : (canonicalFrame t).servedFrom = 0 := rfl
  have huntil : (canonicalFrame t).servedUntil = u32Count t.segments.length := rfl
  have hcount : u32Count t.segments.length ≤ t.segments.length := Nat.min_le_left _ _
  have hnarrow : u32Count t.segments.length ≤ greatestU32 := Nat.min_le_right _ _
  unfold Frame.findVirtual
  rw [hshift, hfrom0, huntil]
  constructor
  · intro h
    simp only [Option.bind_eq_bind, Option.bind_eq_some_iff] at h
    obtain ⟨signed, hsigned, natural, hnatural, byteNatural, hbyte, ⟨j, o, z⟩, hfind, h⟩ := h
    have hwide : byte < 2 ^ 63 := by
      by_contra hover
      rw [i64TryFrom, if_neg hover] at hsigned
      cases hsigned
    rw [i64TryFrom_of_lt hwide] at hsigned
    cases hsigned
    rw [sub_zero, checkedI64_natCast hwide] at hnatural
    cases hnatural
    rw [u64TryFrom_natCast] at hbyte
    cases hbyte
    obtain ⟨hlt, _, hfrom, hto, rfl, rfl⟩ := (findNatural_eq_some hfits _).mp hfind
    have hoff : edge t j < 2 ^ 63 := lt_of_le_of_lt (edge_le t j) hfits
    split at h
    · cases h
    · next hserved =>
      simp only [Option.bind_eq_some_iff] at h
      obtain ⟨signed, hsigned, shifted, hshifted, virtual, hvirtual, h⟩ := h
      have hback := unshifted hoff
      simp only [Option.bind_eq_bind, hsigned, hshifted, hvirtual, Option.bind_some] at hback
      cases hback
      cases h
      exact ⟨by omega, hfrom, hto, rfl, rfl⟩
  · rintro ⟨hserved, hfrom, hto, rfl, rfl⟩
    have hle := edge_le t (i + 1)
    have hwide : byte < 2 ^ 63 := by omega
    have hoff : edge t i < 2 ^ 63 := by omega
    have hfind := (findNatural_eq_some (t := t) hfits byte).mpr
      ⟨by omega, by omega, hfrom, hto, rfl, rfl⟩
    have hgate : ¬ (i < 0 ∨ i ≥ u32Count t.segments.length) := by omega
    simp only [Option.bind_eq_bind, Option.bind_eq_some_iff]
    refine ⟨_, i64TryFrom_of_lt hwide, byte, ?_, byte, u64TryFrom_natCast byte, _, hfind, ?_⟩
    · rw [sub_zero]
      exact checkedI64_natCast hwide
    · simp only [if_neg hgate, Option.bind_eq_some_iff]
      refine ⟨_, i64TryFrom_of_lt hoff, _, ?_, _, u64TryFrom_natCast _, rfl⟩
      rw [add_zero]
      exact checkedI64_natCast hoff

/-- The lengths of the served segments. -/
def servedLengths (t : MediaTable) : List ℕ := t.lengths.take (u32Count t.segments.length)

theorem endOf_eq (hfits : t.bytes < 2 ^ 63) {i : ℕ} (hi : i < t.segments.length) :
    (canonicalFrame t).endOf t.segments i = some (edge t (i + 1)) := by
  obtain ⟨s, hs, _, hedge⟩ := length_at hi
  have hle := edge_le t (i + 1)
  have hwrap : wrap (edge t i + s.get) = edge t (i + 1) := by
    rw [hedge]
    exact Nat.mod_eq_of_lt (by omega)
  unfold Frame.endOf
  rw [offset_eq hfits hi, hs, Option.bind_eq_bind, Option.bind_some, Option.bind_eq_bind,
    Option.bind_some, hwrap]

theorem naturalTotal_eq (hfits : t.bytes < 2 ^ 63) :
    (canonicalFrame t).naturalTotal t.segments t.initRouteSize =
      edge t (u32Count t.segments.length) := by
  have huntil : (canonicalFrame t).servedUntil = u32Count t.segments.length := rfl
  unfold Frame.naturalTotal
  rw [huntil]
  by_cases hempty : t.segments = []
  · have hnone : (canonicalFrame t).endOf t.segments (u32Count t.segments.length - 1) = none := by
      unfold Frame.endOf
      rw [hempty, List.getElem?_nil]
      cases (canonicalFrame t).offsets[u32Count ([] : List SegmentSize).length - 1]? <;> rfl
    have hzero : u32Count t.segments.length = 0 := by
      rw [hempty]
      rfl
    simp only [hnone, if_pos hempty]
    rw [hzero]
    exact (boundary_zero _ _).symm
  · have hpositive : 0 < t.segments.length := List.length_pos_iff.mpr hempty
    have hcount : 0 < u32Count t.segments.length := Nat.lt_min.mpr ⟨hpositive, by decide⟩
    have hle : u32Count t.segments.length ≤ t.segments.length := Nat.min_le_left _ _
    have hend := endOf_eq hfits (show u32Count t.segments.length - 1 < t.segments.length by omega)
    rw [Nat.sub_add_cancel hcount] at hend
    simp only [hend]

theorem totalBytes_eq (hfits : t.bytes < 2 ^ 63) :
    (canonicalFrame t).totalBytes t.segments t.initRouteSize =
      t.initRouteSize + (servedLengths t).sum := by
  have hshift : (canonicalFrame t).byteShift = 0 := rfl
  have hlt : edge t (u32Count t.segments.length) < 2 ^ 63 := lt_of_le_of_lt (edge_le t _) hfits
  unfold Frame.totalBytes
  rw [naturalTotal_eq hfits, hshift]
  exact congrArg (fun total : Option ℕ => total.getD 0) (unshifted hlt)

theorem sizesComplete_iff : (canonicalFrame t).sizesComplete t.segments = true ↔
    ∀ i s, i < u32Count t.segments.length → t.segments[i]? = some s → s.isExact = true := by
  have hserved : (canonicalFrame t).served t.segments =
      t.segments.take (u32Count t.segments.length) := List.drop_zero
  unfold Frame.sizesComplete
  rw [hserved, List.all_eq_true]
  constructor
  · intro h i s hi hs
    refine h s (List.mem_of_getElem? (i := i) ?_)
    rw [List.getElem?_take_of_lt hi, hs]
  · intro h s hs
    obtain ⟨i, hi⟩ := List.mem_iff_getElem?.mp hs
    rw [List.getElem?_take] at hi
    split at hi
    · next hlt => exact h i s hlt hi
    · cases hi

/-- What a published layout says of the sizes. -/
structure Tiles (l : Layout) (t : MediaTable) : Prop where
  count : l.frame.offsets.length = t.segments.length
  first : t.segments ≠ [] → l.frame.offsets[0]? = some t.initRouteSize
  next : ∀ i off s, l.frame.offsets[i]? = some off → t.segments[i]? = some s →
    i + 1 < t.segments.length → l.frame.offsets[i + 1]? = some (off + s.get)
  total : l.total = t.initRouteSize + (servedLengths t).sum
  complete : l.sizesComplete = true ↔
    ∀ i s, i < u32Count t.segments.length → t.segments[i]? = some s → s.isExact = true
  found : ∀ byte i off size, l.findAtOffset byte t.segments = some (i, off, size) ↔
    i < u32Count t.segments.length ∧ l.frame.offsets[i]? = some off ∧
      (∃ s, t.segments[i]? = some s ∧ size = s.get) ∧ off ≤ byte ∧ byte < off + size
  inside : ∀ byte, t.initRouteSize ≤ byte → byte < l.total →
    ∃ i off size, l.findAtOffset byte t.segments = some (i, off, size) ∧
      ∀ j off' s, j < u32Count t.segments.length → l.frame.offsets[j]? = some off' →
        t.segments[j]? = some s → off' ≤ byte → byte < off' + s.get → j = i
  outside : ∀ byte, byte < t.initRouteSize ∨ l.total ≤ byte →
    l.findAtOffset byte t.segments = none

theorem found_iff (hfits : t.bytes < 2 ^ 63) {byte i off size : ℕ} :
    (canonicalFrame t).findVirtual byte t.segments = some (i, off, size) ↔
      i < u32Count t.segments.length ∧ (canonicalFrame t).offsets[i]? = some off ∧
      (∃ s, t.segments[i]? = some s ∧ size = s.get) ∧ off ≤ byte ∧ byte < off + size := by
  have hcount : u32Count t.segments.length ≤ t.segments.length := Nat.min_le_left _ _
  rw [findVirtual_eq_some hfits]
  constructor
  · rintro ⟨hi, hfrom, hto, rfl, rfl⟩
    obtain ⟨s, hs, hlen, hedge⟩ := length_at (show i < t.segments.length by omega)
    rw [List.getD_eq_getElem?_getD, hlen, Option.getD_some]
    exact ⟨hi, offset_eq hfits (by omega), ⟨s, hs, rfl⟩, hfrom, by omega⟩
  · rintro ⟨hi, hoff, ⟨s, hs, rfl⟩, hfrom, hto⟩
    obtain ⟨s', hs', hlen, hedge⟩ := length_at (show i < t.segments.length by omega)
    rw [offset_eq hfits (by omega)] at hoff
    obtain rfl := Option.some.inj hoff
    obtain rfl : s' = s := Option.some.inj (hs'.symm.trans hs)
    rw [List.getD_eq_getElem?_getD, hlen, Option.getD_some]
    exact ⟨hi, hfrom, by omega, rfl, rfl⟩

theorem canonical_tiles {l : Layout} (h : Canonical l t) (hfits : t.bytes < 2 ^ 63) :
    Tiles l t := by
  obtain ⟨seq, rfl⟩ := h
  have hcount : u32Count t.segments.length ≤ t.segments.length := Nat.min_le_left _ _
  have htotal : (Layout.publish (canonicalFrame t) seq t).total =
      edge t (u32Count t.segments.length) := totalBytes_eq hfits
  refine ⟨cumulative_length _ _, ?_, ?_, totalBytes_eq hfits, sizesComplete_iff,
    fun byte i off size => found_iff hfits, ?_, ?_⟩
  · intro hne
    have hfirst := offset_eq hfits (List.length_pos_iff.mpr hne)
    rwa [edge, boundary_zero] at hfirst
  · intro i off s hoff hs hi
    obtain ⟨s', hs', _, hedge⟩ := length_at (show i < t.segments.length by omega)
    obtain rfl : s' = s := Option.some.inj (hs'.symm.trans hs)
    have hcurrent := (offset_eq hfits (show i < t.segments.length by omega)).symm.trans hoff
    rw [← Option.some.inj hcurrent, ← hedge]
    exact offset_eq hfits hi
  · intro byte hfrom hto
    rw [htotal] at hto
    have hzero : edge t 0 ≤ byte := by rwa [edge, boundary_zero]
    obtain ⟨i, hi, htile⟩ := tile_exists hzero hto
    refine ⟨i, _, _, (findVirtual_eq_some hfits).mpr ⟨hi, htile.1, htile.2, rfl, rfl⟩, ?_⟩
    intro j off s hj hoff hs hfrom' hto'
    obtain ⟨s', hs', _, hedge⟩ := length_at (show j < t.segments.length by omega)
    obtain rfl : s' = s := Option.some.inj (hs'.symm.trans hs)
    have hcurrent := (offset_eq hfits (show j < t.segments.length by omega)).symm.trans hoff
    have heq := Option.some.inj hcurrent
    exact tile_unique (edge_mono t) ⟨by omega, by omega⟩ htile
  · intro byte hout
    rw [htotal] at hout
    have hnone : ∀ found, (canonicalFrame t).findVirtual byte t.segments ≠ some found := by
      rintro ⟨i, off, size⟩ hfound
      obtain ⟨hi, hfrom, hto, _, _⟩ := (findVirtual_eq_some hfits).mp hfound
      have hzero := edge_mono t (Nat.zero_le i)
      have hlast := edge_mono t (show i + 1 ≤ u32Count t.segments.length by omega)
      rw [edge, boundary_zero] at hzero
      omega
    exact Option.eq_none_iff_forall_ne_some.mpr hnone

/-- After any settles and resets the published frame tiles the byte space of a table that fits. -/
theorem published_tiles (table : MediaTable) (mutations : List Mutation)
    (hfits : (run table mutations).2.bytes < 2 ^ 63) :
    Tiles (run table mutations).1 (run table mutations).2 :=
  canonical_tiles (run_canonical table mutations) hfits

/-- Three segments, the middle one empty, the first settled to another length. -/
def shortTable : MediaTable :=
  ⟨some (.seed 10), [.placeholder 5, .placeholder 0, .seed 7]⟩

theorem published_tiles_short :
    (run shortTable [.applyCommit [⟨.segment 0, 4, true⟩]]).1.total =
      (run shortTable [.applyCommit [⟨.segment 0, 4, true⟩]]).2.initRouteSize +
        (servedLengths (run shortTable [.applyCommit [⟨.segment 0, 4, true⟩]]).2).sum :=
  (published_tiles shortTable [.applyCommit [⟨.segment 0, 4, true⟩]] (by decide)).total

end OffsetTiling
