import Kithara.PortableComponents
import Mathlib.Data.Set.Function

/-! What the components of a URL say of it: a segment its bytes up to the case of its percent
triplets, and the last one the query too. Where a component was cut, the fingerprint says it. -/
namespace CachePaths

open PrefixCodes

variable {digest : Bytes → Digest}

theorem cut_unique {α : Type} {c : α} {a b s t : List α} (ha : c ∉ a) (hb : c ∉ b)
    (h : a ++ c :: s = b ++ c :: t) : a = b ∧ s = t := by
  rcases List.append_eq_append_iff.mp h with ⟨u, rfl, hu⟩ | ⟨u, rfl, hu⟩
  · cases u with
    | nil => exact ⟨by simp, (List.cons.inj hu).2⟩
    | cons d u =>
      obtain ⟨rfl, -⟩ := List.cons.inj hu
      exact absurd (List.mem_append_right a List.mem_cons_self) hb
  · cases u with
    | nil => exact ⟨by simp, (List.cons.inj hu).2.symm⟩
    | cons d u =>
      obtain ⟨rfl, -⟩ := List.cons.inj hu
      exact absurd (List.mem_append_right b List.mem_cons_self) ha

theorem lowerTriplets_cons {b : UInt8} {rest : Bytes}
    (h : ∀ x y tail, rest = x :: y :: tail → isTriplet b x y = false) :
    lowerTriplets (b :: rest) = b :: lowerTriplets rest := by
  match rest, h with
  | [], _ => rfl
  | [x], _ => rfl
  | x :: y :: tail, h => rw [lowerTriplets, h x y tail rfl, if_neg Bool.false_ne_true]

/-- No triplet goes past a sign that is no part of one. -/
theorem lowerTriplets_cut {c : UInt8} (hc : isHexdigit c = false) (hp : c ≠ percent)
    (a b : Bytes) : lowerTriplets (a ++ c :: b) = lowerTriplets a ++ c :: lowerTriplets b := by
  have hfirst (x y : UInt8) : isTriplet c x y = false := by simp [isTriplet, hp]
  have hsecond (b y : UInt8) : isTriplet b c y = false := by simp [isTriplet, hc]
  have hthird (b x : UInt8) : isTriplet b x c = false := by simp [isTriplet, hc]
  have hhead : lowerTriplets (c :: b) = c :: lowerTriplets b :=
    lowerTriplets_cons fun x y tail _ => hfirst x y
  fun_induction lowerTriplets a with
  | case1 => exact hhead
  | case2 x =>
    have hstep : lowerTriplets (x :: c :: b) = x :: lowerTriplets (c :: b) := by
      refine lowerTriplets_cons fun y z tail heq => ?_
      rw [← (List.cons.inj heq).1]
      exact hsecond x z
    exact hstep.trans (congrArg _ hhead)
  | case3 x y =>
    have hstep : lowerTriplets (y :: c :: b) = y :: lowerTriplets (c :: b) := by
      refine lowerTriplets_cons fun z w tail heq => ?_
      rw [← (List.cons.inj heq).1]
      exact hsecond y w
    have hstep' : lowerTriplets (x :: y :: c :: b) = x :: lowerTriplets (y :: c :: b) := by
      refine lowerTriplets_cons fun z w tail heq => ?_
      obtain ⟨rfl, hrest⟩ := List.cons.inj heq
      obtain ⟨rfl, -⟩ := List.cons.inj hrest
      exact hthird x y
    exact hstep'.trans (by rw [hstep, hhead]; rfl)
  | case4 x y z rest h ih =>
    rw [List.cons_append, List.cons_append, List.cons_append, lowerTriplets, if_pos h, ih]
    rfl
  | case5 x y z rest h ih =>
    rw [List.cons_append, List.cons_append, List.cons_append, lowerTriplets, if_neg h]
    rw [List.cons_append, List.cons_append] at ih
    rw [ih]
    rfl

theorem hexByte_code : PrefixCode hexByte where
  nonempty _ := List.cons_ne_nil _ _
  cancel h := hexByte_injective (List.append_inj_left h rfl)

theorem hexText_injective : Function.Injective hexText := fun _ _ h =>
  Vector.toList_inj.mp (hexByte_code.flatMap_injective h)

theorem of_hexText {texts : Set Bytes} (hinj : Set.InjOn digest texts) {v w : Bytes}
    (hv : v ∈ texts) (hw : w ∈ texts) (h : hexText (digest v) = hexText (digest w)) : v = w :=
  hinj hv hw (hexText_injective h)

def hexPieces (d : Digest) : List Piece := (hexText d).map piece

theorem write_hexPieces (d : Digest) : write (hexPieces d) = hexText d := by
  have hwrite (l : Bytes) (h : ∀ b ∈ l, isLowerHex b = true) : write (l.map piece) = l := by
    induction l with
    | nil => rfl
    | cons b l ih =>
      have hb := isPlain_of_isLowerHex (h b List.mem_cons_self)
      rw [List.map_cons, write_cons, text_piece, encodeByte, if_pos hb,
        ih fun c hc => h c (List.mem_cons_of_mem b hc)]
      rfl
  exact hwrite _ (hexText_isLowerHex d)

theorem reading_map_piece (l : Bytes) : reading (l.map piece) = l.map .inl := by
  induction l with
  | nil => rfl
  | cons b l ih => rw [List.map_cons, reading_cons, reading_piece, ih]; rfl

theorem mark_not_read (m : Mark) (l : Bytes) : (.inr m : UInt8 ⊕ Mark) ∉ l.map .inl := by
  simp

theorem map_inl_injective : Function.Injective (List.map (Sum.inl : UInt8 → UInt8 ⊕ Mark)) :=
  List.map_injective_iff.mpr Sum.inl_injective

/-- The sign of an empty text begins no other component. -/
theorem write_ne_emptyMark {ps : List Piece} {t : Bytes}
    (ht : ∀ b, t.head? = some b → isLowerHex b = false) : write ps ≠ tilde :: 101 :: t := by
  intro h
  cases ps with
  | nil => cases h
  | cons p ps =>
    rw [write_cons] at h
    cases p with
    | plain b => exact tilde_not_plain b.2 (List.cons.inj h).1
    | escaped b =>
      have hlow := (List.cons.inj (List.cons.inj h).2).2
      rw [← hlow] at ht
      have hdigit := ht (hexDigit (low b)) rfl
      rw [hexDigit_isLowerHex] at hdigit
      cases hdigit
    | triplet x y => exact absurd (List.cons.inj (List.cons.inj h).2).1 (by decide)
    | marked m =>
      have hletter := (List.cons.inj (List.cons.inj h).2).1
      cases m <;> exact absurd hletter (by decide)

/-- The forms a segment's component has. -/
theorem segment_cases (digest : Bytes → Digest) (value : Bytes) :
    (value = [] ∧ encodeUrlComponent digest value = [tilde, 101]) ∨
      (∃ qs, reading qs = (lowerTriplets value).map .inl ∧
        encodeUrlComponent digest value = write qs) ∨
      ∃ kept, encodeUrlComponent digest value =
        kept ++ tilde :: Mark.hashed.letter :: hexText (digest value) ∧ kept.length = 62 := by
  rw [encodeUrlComponent]
  split
  · rename_i h
    exact .inl ⟨h, rfl⟩
  · rw [← write_pieces]
    rcases finish_cases (pieces true value) (digest value) with ⟨qs, hread, h⟩ | h
    · exact .inr (.inl ⟨qs, hread.trans (reading_pieces_url value), h⟩)
    · exact .inr (.inr h)

/-- A mark with a digest behind it stands in a segment's component only where it was cut. -/
theorem segment_mark {value s t : Bytes} {m : Mark} (hm : m ≠ .device) (ht : t.length = 32)
    (h : encodeUrlComponent digest value = s ++ tilde :: m.letter :: t) :
    t = hexText (digest value) := by
  rcases segment_cases digest value with ⟨-, hempty⟩ | ⟨qs, hread, hspelled⟩ |
      ⟨kept, hcut, -⟩
  · have hlength := congrArg List.length (hempty.symm.trans h)
    simp [ht] at hlength
  · have hmem := mark_of_reading hm (Eq.refl (reading qs)) (hspelled.symm.trans h)
    rw [hread] at hmem
    exact absurd hmem (mark_not_read m _)
  · have hend := (List.append_inj' (hcut.symm.trans h) (by simp [ht, hexText_length])).2
    exact (List.cons.inj (List.cons.inj hend).2).2.symm

theorem finish_ne_emptyMark {ps : List Piece} {d : Digest} {t : Bytes} (hlength : t.length ≤ 34)
    (ht : ∀ b, t.head? = some b → isLowerHex b = false) :
    finishComponent (write ps) (hexText d) ≠ tilde :: 101 :: t := by
  intro h
  rcases finish_cases ps d with ⟨qs, -, hspelled⟩ | ⟨kept, hcut, hkept⟩
  · exact write_ne_emptyMark ht (hspelled.symm.trans h)
  · have hlong := congrArg List.length (hcut.symm.trans h)
    simp [hkept, hexText_length] at hlong
    omega

theorem segment_injective {texts : Set Bytes} (hinj : Set.InjOn digest texts) {v w : Bytes}
    (hv : v ∈ texts) (hw : w ∈ texts)
    (h : encodeUrlComponent digest v = encodeUrlComponent digest w) :
    lowerTriplets v = lowerTriplets w := by
  have hnil : ∀ b, ([] : Bytes).head? = some b → isLowerHex b = false := by simp
  by_cases hve : v = []
  · by_cases hwe : w = []
    · rw [hve, hwe]
    · rw [encodeUrlComponent, if_pos hve, encodeUrlComponent, if_neg hwe, ← write_pieces] at h
      exact absurd h.symm (finish_ne_emptyMark (Nat.zero_le _) hnil)
  · by_cases hwe : w = []
    · rw [encodeUrlComponent, if_neg hve, encodeUrlComponent, if_pos hwe, ← write_pieces] at h
      exact absurd h (finish_ne_emptyMark (Nat.zero_le _) hnil)
    · rw [encodeUrlComponent, if_neg hve, encodeUrlComponent, if_neg hwe, ← write_pieces,
        ← write_pieces] at h
      have hfree (l : Bytes) : .inr .hashed ∉ reading (pieces true l) := by
        rw [reading_pieces_url]
        exact mark_not_read _ _
      rcases finish_injective (hfree v) (hfree w) h with hread | hhash
      · rw [reading_pieces_url, reading_pieces_url] at hread
        exact map_inl_injective hread
      · rw [of_hexText hinj hv hw hhash]

theorem segment_portable (digest : Bytes → Digest) (value : Bytes) :
    Portable (encodeUrlComponent digest value) := by
  rw [encodeUrlComponent]
  split
  · exact ⟨by decide, by decide, List.all_eq_true.mp (by decide), by decide, by decide, by decide⟩
  · rename_i hne
    rw [← write_pieces]
    refine finish_portable (fun hnil => hne ?_) (write_safe _) _
    exact pieces_eq_nil.mp (write_injective hnil)

theorem usableExtension_spec {leaf stem extension : Bytes}
    (h : usableExtension leaf = some (stem, extension)) : leaf = stem ++ dot :: extension := by
  simp only [usableExtension] at h
  split at h
  · rename_i hcond
    obtain ⟨rfl, rfl⟩ := Prod.mk.inj (Option.some.inj h)
    have hparts := List.rdropWhile_append_rtakeWhile (p := (· != dot)) (l := leaf)
    have hne : leaf.rdropWhile (· != dot) ≠ [] := fun hnil => by
      have hall := List.rdropWhile_eq_nil_iff.mp hnil dot hcond.1
      simp at hall
    have hlast := List.rdropWhile_last_not (· != dot) leaf hne
    have hdot : (leaf.rdropWhile (· != dot)).getLast hne = dot := by simpa using hlast
    have hstem := List.dropLast_append_getLast hne
    rw [hdot] at hstem
    rw [← List.singleton_append, ← List.append_assoc, hstem, hparts]
  · cases h

def queryPieces (digest : Bytes → Digest) : Option Bytes → List Piece
  | none => []
  | some query => .marked .query :: hexPieces (digest query)

def leafPieces (digest : Bytes → Digest) (leaf : Bytes) (query : Option Bytes) : List Piece :=
  match usableExtension leaf with
  | some (stem, extension) =>
    pieces true stem ++ queryPieces digest query ++ dotPiece :: pieces true extension
  | none => pieces true leaf ++ queryPieces digest query

theorem write_queryPieces (query : Option Bytes) :
    write (queryPieces digest query) = querySuffix digest query := by
  cases query with
  | none => rfl
  | some query => rw [queryPieces, write_cons, write_hexPieces]; rfl

def queryReading (digest : Bytes → Digest) : Option Bytes → List (UInt8 ⊕ Mark)
  | none => []
  | some query => .inr .query :: (hexText (digest query)).map .inl

theorem reading_queryPieces (query : Option Bytes) :
    reading (queryPieces digest query) = queryReading digest query := by
  cases query with
  | none => rfl
  | some query => rw [queryPieces, reading_cons, hexPieces, reading_map_piece]; rfl

/-- The leaf is read around its query. -/
theorem reading_leafPieces (digest : Bytes → Digest) (leaf : Bytes) (query : Option Bytes) :
    ∃ a b, reading (leafPieces digest leaf query) =
      a.map .inl ++ queryReading digest query ++ b.map .inl ∧ a ++ b = lowerTriplets leaf := by
  rw [leafPieces]
  split
  · rename_i stem extension hext
    refine ⟨lowerTriplets stem, dot :: lowerTriplets extension, ?_, ?_⟩
    · rw [reading_append, reading_append, reading_cons, reading_pieces_url, reading_pieces_url,
        reading_queryPieces]
      rfl
    · rw [usableExtension_spec hext, lowerTriplets_cut (by decide) (by decide)]
  · refine ⟨lowerTriplets leaf, [], ?_, List.append_nil _⟩
    rw [reading_append, reading_pieces_url, reading_queryPieces]
    exact (List.append_nil _).symm

/-- One reading around a query is of one text and one query. -/
theorem around_query {a b c d : Bytes} {q r : Option Bytes} {texts : Set Bytes}
    (hinj : Set.InjOn digest texts) (hq : ∀ v ∈ q, v ∈ texts) (hr : ∀ v ∈ r, v ∈ texts)
    (h : a.map .inl ++ queryReading digest q ++ b.map .inl =
      c.map .inl ++ queryReading digest r ++ d.map .inl) : a ++ b = c ++ d ∧ q = r := by
  have habsent (l : Bytes) : (.inr .query : UInt8 ⊕ Mark) ∉ l.map .inl := mark_not_read _ l
  cases q with
  | none =>
    cases r with
    | none =>
      simp only [queryReading, List.append_nil, ← List.map_append] at h
      exact ⟨map_inl_injective h, rfl⟩
    | some w =>
      have hmem : (.inr .query : UInt8 ⊕ Mark) ∈
          a.map .inl ++ queryReading digest none ++ b.map .inl := by
        rw [h]
        simp [queryReading]
      simp [queryReading] at hmem
  | some v =>
    cases r with
    | none =>
      have hmem : (.inr .query : UInt8 ⊕ Mark) ∈
          c.map .inl ++ queryReading digest none ++ d.map .inl := by
        rw [← h]
        simp [queryReading]
      simp [queryReading] at hmem
    | some w =>
      simp only [queryReading, List.append_assoc, List.cons_append] at h
      obtain ⟨hbefore, hafter⟩ := cut_unique (habsent a) (habsent c) h
      obtain ⟨hhex, hbehind⟩ := List.append_inj hafter (by simp [hexText_length])
      have hvw := of_hexText hinj (hq v rfl) (hr w rfl) (map_inl_injective hhex)
      rw [map_inl_injective hbefore, map_inl_injective hbehind, hvw]
      exact ⟨rfl, rfl⟩

theorem leafIdentity_injective {leaf leaf' : Bytes} {q r : Option Bytes} (hl : 0 ∉ leaf)
    (hl' : 0 ∉ leaf') (h : leafIdentity leaf q = leafIdentity leaf' r) : leaf = leaf' ∧ q = r := by
  cases q with
  | none =>
    cases r with
    | none => exact ⟨h, rfl⟩
    | some w =>
      have hleaf : leaf = leaf' ++ 0 :: w := h
      exact absurd (hleaf ▸ List.mem_append_right leaf' List.mem_cons_self) hl
  | some v =>
    cases r with
    | none =>
      have hleaf : leaf ++ 0 :: v = leaf' := h
      exact absurd (hleaf ▸ List.mem_append_right leaf List.mem_cons_self) hl'
    | some w =>
      obtain ⟨rfl, rfl⟩ := cut_unique hl hl' h
      exact ⟨rfl, rfl⟩

def nonemptyQuery (query : Option Bytes) : Option Bytes := query.filter (· != [])

theorem querySuffix_safe (query : Option Bytes) :
    ∀ b ∈ querySuffix digest query, isSafe b = true := by
  rw [← write_queryPieces]
  exact write_safe _

theorem querySuffix_head (query : Option Bytes) (b : UInt8)
    (h : (querySuffix digest query).head? = some b) : isLowerHex b = false := by
  cases query with
  | none => cases h
  | some query =>
    obtain rfl := Option.some.inj h
    decide

theorem querySuffix_length (digest : Bytes → Digest) (query : Option Bytes) :
    (querySuffix digest query).length ≤ 34 := by
  cases query with
  | none => exact Nat.zero_le _
  | some query =>
    rw [querySuffix, List.length_append, fingerprint, hexText_length]
    decide

theorem querySuffix_injective {texts : Set Bytes} (hinj : Set.InjOn digest texts)
    {q r : Option Bytes} (hq : ∀ v ∈ q, v ∈ texts) (hr : ∀ v ∈ r, v ∈ texts)
    (h : querySuffix digest q = querySuffix digest r) : q = r := by
  cases q with
  | none =>
    cases r with
    | none => rfl
    | some w => cases h
  | some v =>
    cases r with
    | none => cases h
    | some w =>
      have hhex := List.append_cancel_left h
      rw [of_hexText hinj (hq v rfl) (hr w rfl) hhex]

/-- A text that no rewrite touches. -/
theorem rewritten_self {text : Bytes} {b : UInt8} (hlast : text.getLast? = some b)
    (hb : isLowerHex b = true) : rewritten text = escapeDeviceName text := by
  obtain ⟨body, k, hwhole, -, hescaped⟩ := dots_cut text
  have hkept : escapeTrailingDots text = text := by
    cases k with
    | zero => rw [hescaped, hwhole]; rfl
    | succ k =>
      rw [hwhole, List.replicate_succ', ← List.append_assoc, List.getLast?_concat] at hlast
      obtain rfl := Option.some.inj hlast
      exact absurd hb (by decide)
  rw [rewritten, hkept, escapeTempSuffix, not_temp_of_last hlast hb, if_neg Bool.false_ne_true]

theorem emptyLeaf_last (digest : Bytes → Digest) (query : Option Bytes) :
    ∃ b, (tilde :: 101 :: querySuffix digest query).getLast? = some b ∧ isLowerHex b = true := by
  cases query with
  | none => exact ⟨101, rfl, by decide⟩
  | some query =>
    obtain ⟨b, hlast, hb⟩ := hexText_last (digest query)
    exact ⟨b, hlast [tilde, 101, tilde, 113], hb⟩

theorem emptyLeaf_finished (query : Option Bytes) (d : Digest) :
    finishComponent (tilde :: 101 :: querySuffix digest query) (hexText d) =
      tilde :: 101 :: querySuffix digest query := by
  obtain ⟨b, hlast, hb⟩ := emptyLeaf_last digest query
  have hlength := querySuffix_length digest query
  rw [finishComponent_eq, rewritten_self hlast hb, escapeDeviceName,
    marked_undeviced (101 :: querySuffix digest query), if_neg Bool.false_ne_true, boundLength,
    if_pos]
  simp only [maxComponentLen, List.length_cons]
  omega

theorem encodeUrlLeaf_nil (query : Option Bytes) :
    encodeUrlLeaf digest [] query = tilde :: 101 :: querySuffix digest (nonemptyQuery query) :=
  emptyLeaf_finished (nonemptyQuery query) _

theorem encodeUrlLeaf_of_ne {leaf : Bytes} (h : leaf ≠ []) (query : Option Bytes) :
    encodeUrlLeaf digest leaf query =
      finishComponent (write (leafPieces digest leaf (nonemptyQuery query)))
        (hexText (digest (leafIdentity leaf (nonemptyQuery query)))) := by
  have hwritten : write (leafPieces digest leaf (nonemptyQuery query)) =
      match usableExtension leaf with
      | some (stem, extension) =>
        encodeBytes true stem ++ querySuffix digest (nonemptyQuery query) ++
          dot :: encodeBytes true extension
      | none => encodeBytes true leaf ++ querySuffix digest (nonemptyQuery query) := by
    rw [leafPieces]
    cases usableExtension leaf with
    | none => exact (write_append _ _).trans (by rw [write_pieces, write_queryPieces])
    | some parts =>
      refine (write_append _ _).trans ?_
      rw [write_append, write_cons, write_pieces, write_pieces, write_queryPieces]
      rfl
  rw [hwritten, encodeUrlLeaf]
  simp only [h, if_false]
  rfl

theorem leaf_hashed_free (leaf : Bytes) (query : Option Bytes) :
    .inr .hashed ∉ reading (leafPieces digest leaf query) := by
  obtain ⟨a, b, hread, -⟩ := reading_leafPieces digest leaf query
  rw [hread]
  cases query with
  | none => simp [queryReading]
  | some query => simp [queryReading]

theorem leaf_injective {texts : Set Bytes} (hinj : Set.InjOn digest texts)
    {leaf leaf' : Bytes} {q r : Option Bytes} (hl : 0 ∉ leaf) (hl' : 0 ∉ leaf')
    (hq : ∀ v ∈ nonemptyQuery q, v ∈ texts) (hr : ∀ v ∈ nonemptyQuery r, v ∈ texts)
    (hid : leafIdentity leaf (nonemptyQuery q) ∈ texts)
    (hid' : leafIdentity leaf' (nonemptyQuery r) ∈ texts)
    (h : encodeUrlLeaf digest leaf q = encodeUrlLeaf digest leaf' r) :
    lowerTriplets leaf = lowerTriplets leaf' ∧ nonemptyQuery q = nonemptyQuery r := by
  by_cases hle : leaf = []
  · subst hle
    by_cases hle' : leaf' = []
    · subst hle'
      rw [encodeUrlLeaf_nil, encodeUrlLeaf_nil] at h
      exact ⟨rfl, querySuffix_injective hinj hq hr (List.cons.inj (List.cons.inj h).2).2⟩
    · rw [encodeUrlLeaf_nil, encodeUrlLeaf_of_ne hle'] at h
      exact absurd h.symm (finish_ne_emptyMark (querySuffix_length digest _) (querySuffix_head _))
  · by_cases hle' : leaf' = []
    · subst hle'
      rw [encodeUrlLeaf_nil, encodeUrlLeaf_of_ne hle] at h
      exact absurd h (finish_ne_emptyMark (querySuffix_length digest _) (querySuffix_head _))
    · rw [encodeUrlLeaf_of_ne hle, encodeUrlLeaf_of_ne hle'] at h
      rcases finish_injective (leaf_hashed_free _ _) (leaf_hashed_free _ _) h with hread | hhash
      · obtain ⟨a, b, hleaf, hab⟩ := reading_leafPieces digest leaf (nonemptyQuery q)
        obtain ⟨c, d, hleaf', hcd⟩ := reading_leafPieces digest leaf' (nonemptyQuery r)
        rw [hleaf, hleaf'] at hread
        obtain ⟨htext, hquery⟩ := around_query hinj hq hr hread
        exact ⟨by rw [← hab, ← hcd, htext], hquery⟩
      · obtain ⟨rfl, hquery⟩ := leafIdentity_injective hl hl' (of_hexText hinj hid hid' hhash)
        exact ⟨rfl, hquery⟩

theorem leaf_portable (leaf : Bytes) (query : Option Bytes) :
    Portable (encodeUrlLeaf digest leaf query) := by
  by_cases hle : leaf = []
  · subst hle
    rw [encodeUrlLeaf_nil, ← emptyLeaf_finished (nonemptyQuery query) (digest [])]
    refine finish_portable (List.cons_ne_nil _ _) ?_ _
    intro b hb
    simp only [List.mem_cons] at hb
    rcases hb with rfl | rfl | hquery
    · decide
    · decide
    · exact querySuffix_safe _ b hquery
  · rw [encodeUrlLeaf_of_ne hle]
    refine finish_portable (fun hnil => hle ?_) (write_safe _) _
    have hpieces : leafPieces digest leaf (nonemptyQuery query) = [] := write_injective hnil
    rw [leafPieces] at hpieces
    split at hpieces
    · simp at hpieces
    · exact pieces_eq_nil.mp (List.append_eq_nil_iff.mp hpieces).1

end CachePaths
