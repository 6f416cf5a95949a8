import Kithara.HlsKeys
import Mathlib.Algebra.Group.Nat.Defs
import Mathlib.Data.List.Forall2

/-! The two walks over the playlists: the keys fetched in advance and the contexts resolved from
them meet on every AES-128 segment, and on an init segment where its own key is among them. -/
namespace HlsKeyCoverage

open HlsKeys UnicodeText

variable {Url : Type*} [DecidableEq Url] {join : Url → Text → Option Url}
  {parse : Text → Option Url} {ks ks' : KeyStore Url} {url base : Url} {uri : Text}
  {sequence : UInt64}

def bigEndian (block : AesBlock) : ℕ := block.1.foldl (fun acc byte => acc * 256 + byte.toNat) 0

/-- What the session can answer for a URL without the network. -/
def known (ks : KeyStore Url) (url : Url) : Option (List UInt8) :=
  (ks.keys url).or ((ks.stored url).filter fun bytes => bytes.length = aesKeyLen)

def OwnKeyUrl (join : Url → Text → Option Url) (parse : Text → Option Url) (base : Url) (uri : Text)
    (keyInfo : KeyInfo) (keyUrl : Url) : Prop :=
  ∃ entryUrl, join base uri = some entryUrl ∧ resolveKeyUrl join parse keyInfo entryUrl = .ok keyUrl

def keyInfoOf (tag : HlsDecryptionKey) : KeyInfo :=
  { method := tag.method, iv := tag.iv, uri := some (trim tag.uri) }

def NamesAes128 (tag : HlsDecryptionKey) : Prop := tag.method = .aes128 ∧ trim tag.uri ≠ []

/-- The entry's first key tag, which is the one that counts, names an AES-128 key. -/
def KeyTag (keys : List HlsDecryptionKey) (tag : HlsDecryptionKey) : Prop :=
  keys.head? = some tag ∧ NamesAes128 tag

/-- A map without a key of its own has the first key tag of the segments. -/
def InitTag (hls : HlsMediaPlaylist) (map : HlsMap) (tag : HlsDecryptionKey) : Prop :=
  KeyTag map.keys tag ∨ (∀ own, map.keys.head? = some own → trim own.uri = []) ∧
    hls.segments.findSome? (·.keys.head?) = some tag ∧ NamesAes128 tag

/-- The context an AES-128 entry is owed: its own key, and its explicit IV or the big-endian
sequence number. -/
structure Owed (join : Url → Text → Option Url) (parse : Text → Option Url) (ks : KeyStore Url)
    (base : Url) (uri : Text) (tag : HlsDecryptionKey) (sequence : ℕ) (ctx : DecryptContext) :
    Prop where
  key : ∃ keyUrl, OwnKeyUrl join parse base uri (keyInfoOf tag) keyUrl ∧
    known ks keyUrl = some ctx.key.1
  explicit : ∀ iv, tag.iv = some iv → ctx.iv = iv
  derived : tag.iv = none → bigEndian ctx.iv = sequence

/-- Every AES-128 entry of a playlist is owed a context, resolves to it, and is built with it. -/
structure Covered (join : Url → Text → Option Url) (parse : Text → Option Url) (ks : KeyStore Url)
    (source : Url × HlsMediaPlaylist) (variant : Variant Url) : Prop where
  segments : ∀ (i : ℕ) segment, source.2.segments[i]? = some segment →
    ∀ tag, KeyTag segment.keys tag → ∃ ctx,
      Owed join parse ks source.1 segment.uri tag
        ((source.2.mediaSequence.toNat + i) % 2 ^ 64) ctx ∧
      variant.contexts[i]? = some (some ctx) ∧
      variant.segments[i]?.map SegmentEntry.content = some (.encrypted ctx)
  init : ∀ map, source.2.segments.findSome? HlsSegment.map = some map →
    ∀ tag, InitTag source.2 map tag → ∃ ctx,
      Owed join parse ks source.1 map.uri tag source.2.mediaSequence.toNat ctx ∧
      variant.initCtx = some ctx ∧
      variant.init.map SegmentEntry.content = some (.encrypted ctx)

/-- The key URL of an AES-128 segment of some playlist. -/
def SegmentKeyUrl (join : Url → Text → Option Url) (parse : Text → Option Url)
    (sources : List (Url × HlsMediaPlaylist)) (keyUrl : Url) : Prop :=
  ∃ source ∈ sources, ∃ segment ∈ source.2.segments, ∃ tag, KeyTag segment.keys tag ∧
    OwnKeyUrl join parse source.1 segment.uri (keyInfoOf tag) keyUrl

/-- The references of a playlist's AES-128 entries resolve, and the init segment's own key is that
of some segment or known before, its IV explicit or its media sequence number zero. -/
structure Reached (join : Url → Text → Option Url) (parse : Text → Option Url) (ks : KeyStore Url)
    (sources : List (Url × HlsMediaPlaylist)) (source : Url × HlsMediaPlaylist) : Prop where
  segments : ∀ segment ∈ source.2.segments, ∀ tag, KeyTag segment.keys tag →
    ∃ keyUrl, OwnKeyUrl join parse source.1 segment.uri (keyInfoOf tag) keyUrl
  init : ∀ map, source.2.segments.findSome? HlsSegment.map = some map →
    ∀ tag, InitTag source.2 map tag →
      (∃ keyUrl, OwnKeyUrl join parse source.1 map.uri (keyInfoOf tag) keyUrl ∧
        (SegmentKeyUrl join parse sources keyUrl ∨ (known ks keyUrl).isSome)) ∧
      (tag.iv.isSome ∨ source.2.mediaSequence = 0)

theorem effectiveKey_eq_some {keys : List HlsDecryptionKey} {info : KeyInfo} :
    effectiveKey keys = some info ↔
      ∃ tag, keys.head? = some tag ∧ trim tag.uri ≠ [] ∧ info = keyInfoOf tag := by
  rw [effectiveKey, Option.bind_eq_some_iff]
  apply exists_congr
  intro tag
  rw [and_congr_right_iff]
  intro _
  rw [keyinfoFromDecryptionKey]
  split
  · rename_i hnil
    refine iff_of_false ?_ fun h => h.1 hnil
    rintro ⟨⟩
  · rename_i hne
    rw [Option.some.injEq]
    exact ⟨fun h => ⟨hne, h.symm⟩, fun h => h.2.symm⟩

theorem segmentKey_of_tag {keys : List HlsDecryptionKey} {tag : HlsDecryptionKey}
    (h : KeyTag keys tag) :
    (effectiveKey keys).map segmentKey = some ⟨.aes128, some (keyInfoOf tag)⟩ := by
  obtain ⟨hhead, hmethod, huri⟩ := h
  rw [effectiveKey_eq_some.mpr ⟨tag, hhead, huri, rfl⟩, Option.map_some, segmentKey, ← hmethod]
  rfl

theorem tag_of_segmentKey {keys : List HlsDecryptionKey} {info : KeyInfo}
    (h : (effectiveKey keys).map segmentKey = some ⟨.aes128, some info⟩) :
    ∃ tag, KeyTag keys tag ∧ info = keyInfoOf tag := by
  obtain ⟨info', hinfo, hkey⟩ := Option.map_eq_some_iff.mp h
  obtain ⟨tag, hhead, huri, rfl⟩ := effectiveKey_eq_some.mp hinfo
  rw [segmentKey, SegmentKey.mk.injEq, Option.some.injEq] at hkey
  exact ⟨tag, ⟨hhead, hkey.1, huri⟩, hkey.2.symm⟩

theorem segmentKey_of_initTag {hls : HlsMediaPlaylist} {map : HlsMap} {tag : HlsDecryptionKey}
    (h : InitTag hls map tag) :
    ((effectiveKey map.keys).or (initKeyFallback hls)).map segmentKey =
      some ⟨.aes128, some (keyInfoOf tag)⟩ := by
  rcases h with h | ⟨hown, hfirst, hmethod, huri⟩
  · have hkey := effectiveKey_eq_some.mpr ⟨tag, h.1, h.2.2, rfl⟩
    rw [← segmentKey_of_tag h, hkey, Option.some_or]
  · have hnone : effectiveKey map.keys = none := by
      by_contra hsome
      obtain ⟨info, hinfo⟩ := Option.ne_none_iff_exists'.mp hsome
      obtain ⟨own, hhead, hne, -⟩ := effectiveKey_eq_some.mp hinfo
      exact hne (hown own hhead)
    have hfallback : initKeyFallback hls = some (keyInfoOf tag) := by
      rw [initKeyFallback, hfirst, Option.bind_some, keyinfoFromDecryptionKey, if_neg huri]
      rfl
    rw [hnone, Option.none_or, hfallback, Option.map_some, segmentKey, ← hmethod]
    rfl

omit [DecidableEq Url] in
theorem parsed_segment {hls : HlsMediaPlaylist} {i : ℕ} {segment : HlsSegment}
    (h : hls.segments[i]? = some segment) :
    (parseMediaPlaylist url hls).segments[i]? =
      some ⟨segment.duration, (effectiveKey segment.keys).map segmentKey, segment.uri,
        hls.mediaSequence + UInt64.ofNat i⟩ := by
  rw [parseMediaPlaylist, List.getElem?_mapIdx, h]
  rfl

omit [DecidableEq Url] in
theorem parsed_init {hls : HlsMediaPlaylist} {map : HlsMap}
    (h : hls.segments.findSome? HlsSegment.map = some map) :
    (parseMediaPlaylist url hls).initSegment =
      some ⟨((effectiveKey map.keys).or (initKeyFallback hls)).map segmentKey, map.uri⟩ := by
  have hfirst : ∀ segments : List HlsSegment, ∀ f : HlsMap → InitSegment,
      (segments.findSome? fun seg => seg.map.map f) =
        (segments.findSome? HlsSegment.map).map f := by
    intro segments f
    induction segments with
    | nil => rfl
    | cons seg segments ih =>
      rw [List.findSome?_cons, List.findSome?_cons]
      cases seg.map with
      | none => exact ih
      | some map => rfl
  rw [parseMediaPlaylist, hfirst, h]
  rfl

/-- A byte carried onto the bytes above it. -/
theorem carry (n d : ℕ) : n / (d * 256) * 256 + n / d % 256 = n / d := by
  rw [← Nat.div_div_eq_div_mul, Nat.div_add_mod']

theorem bigEndian_deriveIv {keyInfo : KeyInfo} (h : keyInfo.iv = none) (sequence : UInt64) :
    bigEndian (deriveIv keyInfo sequence) = sequence.toNat := by
  have hlt := sequence.toNat_lt
  rw [deriveIv, h, Option.getD_none]
  simp only [bigEndian, beBytes, List.replicate, List.map_cons, List.map_nil, List.cons_append,
    List.nil_append, List.foldl_cons, List.foldl_nil, UInt64.toNat_toUInt8,
    UInt64.toNat_shiftRight, Nat.shiftRight_eq_div_pow, UInt64.reduceToNat, UInt8.reduceToNat,
    Nat.reduceMod, Nat.reducePow, Nat.zero_mul, Nat.zero_add]
  generalize sequence.toNat = n at hlt
  have hfirst : n / 72057594037927936 % 256 = n / 72057594037927936 :=
    Nat.mod_eq_of_lt (by omega)
  rw [hfirst, carry n 281474976710656, carry n 1099511627776, carry n 4294967296,
    carry n 16777216, carry n 65536, carry n 256, carry n 1, Nat.div_one]

omit [DecidableEq Url] in
theorem known_length {key : List UInt8} (h : known ks url = some key) : key.length = aesKeyLen := by
  rw [known] at h
  cases hkey : ks.keys url with
  | some key' =>
    rw [hkey, Option.some_or] at h
    exact Option.some_inj.mp h ▸ ks.validated url key' hkey
  | none =>
    rw [hkey, Option.none_or] at h
    exact of_decide_eq_true (Option.filter_eq_some_iff.mp h).2

theorem known_insert_stored {bytes : List UInt8} (hkey : ks.keys url = none)
    (hstored : ks.stored url = some bytes) (hlength : bytes.length = aesKeyLen) :
    known (ks.insert url ⟨bytes, hlength⟩) = known ks := by
  funext url'
  by_cases hurl : url' = url
  · subst hurl
    simp only [known, KeyStore.insert, Function.update_self, hkey, hstored, Option.some_or,
      Option.none_or, Option.filter_some, hlength, decide_true, if_true]
  · simp only [known, KeyStore.insert, Function.update_of_ne hurl]

theorem getCachedKey_spec (ks : KeyStore Url) (url : Url) :
    known (getCachedKey ks url).1 = known ks ∧ (getCachedKey ks url).2.toOption = known ks url := by
  rw [getCachedKey]
  cases hkey : ks.keys url with
  | some key => exact ⟨rfl, by rw [known, hkey]; rfl⟩
  | none =>
    have hknown : known ks url =
        (ks.stored url).filter fun bytes => bytes.length = aesKeyLen := by
      rw [known, hkey, Option.none_or]
    rw [hknown]
    cases hstored : ks.stored url with
    | none => exact ⟨rfl, rfl⟩
    | some bytes =>
      simp only [Option.filter_some]
      split
      · rename_i hnil
        subst hnil
        exact ⟨rfl, rfl⟩
      · split
        · rename_i hlength
          rw [if_pos (decide_eq_true hlength)]
          exact ⟨known_insert_stored hkey hstored hlength, rfl⟩
        · rename_i hlength
          rw [if_neg (by simpa using hlength)]
          exact ⟨rfl, rfl⟩

def contextOf (join : Url → Text → Option Url) (parse : Text → Option Url) (ks : KeyStore Url)
    (base : Url) (uri : Text) (keyInfo : KeyInfo) (sequence : UInt64) (ctx : DecryptContext) : Prop :=
  ∃ keyUrl, OwnKeyUrl join parse base uri keyInfo keyUrl ∧ known ks keyUrl = some ctx.key.1 ∧
    ctx.iv = deriveIv keyInfo sequence

theorem resolveDecryptCtx_spec (ks : KeyStore Url) (keyInfo : KeyInfo) (entryUrl : Url)
    (sequence : UInt64) :
    known (resolveDecryptCtx join parse ks keyInfo entryUrl sequence).1 = known ks ∧
      ∀ ctx, (resolveDecryptCtx join parse ks keyInfo entryUrl sequence).2.toOption = some ctx ↔
        ∃ keyUrl, resolveKeyUrl join parse keyInfo entryUrl = .ok keyUrl ∧
          known ks keyUrl = some ctx.key.1 ∧ ctx.iv = deriveIv keyInfo sequence := by
  rw [resolveDecryptCtx]
  cases hkeyUrl : resolveKeyUrl join parse keyInfo entryUrl with
  | error e =>
    refine ⟨rfl, fun ctx => ⟨by rintro ⟨⟩, ?_⟩⟩
    rintro ⟨keyUrl, ⟨⟩, _⟩
  | ok keyUrl =>
    obtain ⟨hknown, hcached⟩ := getCachedKey_spec ks keyUrl
    have hone {ctx : DecryptContext} : (∃ keyUrl', Except.ok (ε := HlsError) keyUrl = .ok keyUrl' ∧
        known ks keyUrl' = some ctx.key.1 ∧ ctx.iv = deriveIv keyInfo sequence) ↔
        known ks keyUrl = some ctx.key.1 ∧ ctx.iv = deriveIv keyInfo sequence := by
      constructor
      · rintro ⟨_, ⟨⟩, h⟩
        exact h
      · exact fun h => ⟨keyUrl, rfl, h⟩
    simp only [hone]
    rcases hget : getCachedKey ks keyUrl with ⟨ks', e | bytes⟩
    · rw [hget] at hknown hcached
      refine ⟨hknown, fun ctx => ⟨by rintro ⟨⟩, ?_⟩⟩
      rintro ⟨hkey, _⟩
      rw [← hcached] at hkey
      cases hkey
    · rw [hget] at hknown hcached
      have hlength := known_length hcached.symm
      simp only [dif_pos hlength]
      refine ⟨hknown, fun ctx => ?_⟩
      rw [← hcached]
      constructor
      · rintro ⟨⟩
        exact ⟨rfl, rfl⟩
      · rintro ⟨hkey, hiv⟩
        obtain ⟨⟨key, hkeyLength⟩, iv⟩ := ctx
        cases hkey
        cases hiv
        rfl

theorem resolveEntryCtx_known (ks : KeyStore Url) (base : Url) (uri : Text)
    (key : Option SegmentKey) (sequence : UInt64) :
    known (resolveEntryCtx join parse ks base uri key sequence).1 = known ks := by
  unfold resolveEntryCtx
  split
  · rfl
  · split
    · rfl
    · split
      · exact (resolveDecryptCtx_spec ks _ _ sequence).1
      · rfl

theorem resolveEntryCtx_some {info : KeyInfo} (ks : KeyStore Url) (base : Url) (uri : Text)
    (sequence : UInt64) (ctx : DecryptContext) :
    (resolveEntryCtx join parse ks base uri (some ⟨.aes128, some info⟩) sequence).2 = some ctx ↔
      contextOf join parse ks base uri info sequence ctx := by
  simp only [resolveEntryCtx, ne_eq, not_true_eq_false, if_false]
  cases hjoin : join base uri with
  | none =>
    refine ⟨by rintro ⟨⟩, ?_⟩
    rintro ⟨keyUrl, ⟨entryUrl, hentry, _⟩, _⟩
    rw [hjoin] at hentry
    cases hentry
  | some entryUrl =>
    rw [(resolveDecryptCtx_spec ks info entryUrl sequence).2 ctx]
    constructor
    · rintro ⟨keyUrl, hkeyUrl, hrest⟩
      exact ⟨keyUrl, ⟨entryUrl, hjoin, hkeyUrl⟩, hrest⟩
    · rintro ⟨keyUrl, ⟨entryUrl', hentry, hkeyUrl⟩, hrest⟩
      rw [hjoin] at hentry
      cases hentry
      exact ⟨keyUrl, hkeyUrl, hrest⟩

omit [DecidableEq Url] in
theorem contextOf_congr {info : KeyInfo} {ctx : DecryptContext} (h : known ks' = known ks) :
    contextOf join parse ks' base uri info sequence ctx ↔
      contextOf join parse ks base uri info sequence ctx := by
  simp only [contextOf, h]

omit [DecidableEq Url] in
theorem owed_iff {tag : HlsDecryptionKey} {ctx : DecryptContext} {n : ℕ}
    (hctx : contextOf join parse ks base uri (keyInfoOf tag) sequence ctx) :
    Owed join parse ks base uri tag n ctx ↔ (tag.iv.isSome ∨ sequence.toNat = n) := by
  obtain ⟨keyUrl, hown, hkey, hiv⟩ := hctx
  constructor
  · intro h
    cases htag : tag.iv with
    | some iv => exact .inl rfl
    | none =>
      refine .inr ?_
      rw [← h.derived htag, hiv, bigEndian_deriveIv htag]
  · intro h
    refine ⟨⟨keyUrl, hown, hkey⟩, fun iv htag => ?_, fun htag => ?_⟩
    · rw [hiv, deriveIv, keyInfoOf, htag, Option.getD_some]
    · rw [hiv, bigEndian_deriveIv htag]
      rw [htag] at h
      exact h.resolve_left Bool.false_ne_true

theorem getRawKey_spec {fetch : Url → Except HlsError (List UInt8)} {key : List UInt8}
    (h : getRawKey fetch ks url = (ks', .ok key)) :
    ks'.stored = ks.stored ∧ (ks'.keys url).isSome ∧ ∀ url', url' ≠ url → ks'.keys url' = ks.keys url' := by
  rw [getRawKey] at h
  cases hkey : ks.keys url with
  | some key' =>
    rw [hkey] at h
    cases h
    exact ⟨rfl, by rw [hkey]; rfl, fun _ _ => rfl⟩
  | none =>
    rw [hkey] at h
    simp only at h
    split at h
    · cases h
    · split at h
      · cases h
        exact ⟨rfl, by simp only [KeyStore.insert, Function.update_self, Option.isSome_some],
          fun url' hne => Function.update_of_ne hne _ _⟩
      · cases h

theorem fetchAll_spec {fetch : Url → Except HlsError (List UInt8)} (urls : List Url)
    (h : fetchAll fetch ks urls = .ok ks') : ks'.stored = ks.stored ∧
      (∀ url, url ∈ urls → (ks'.keys url).isSome) ∧
        ∀ url, url ∉ urls → ks'.keys url = ks.keys url := by
  induction urls generalizing ks with
  | nil =>
    cases h
    exact ⟨rfl, fun _ hurl => absurd hurl List.not_mem_nil, fun _ _ => rfl⟩
  | cons first rest ih =>
    rw [fetchAll] at h
    split at h
    · cases h
    · rename_i ks₁ key hget
      obtain ⟨hstored, hfirst, helse⟩ := getRawKey_spec hget
      obtain ⟨hstored', hin, hout⟩ := ih h
      refine ⟨hstored'.trans hstored, fun url hurl => ?_, fun url hurl => ?_⟩
      · by_cases hrest : url ∈ rest
        · exact hin url hrest
        · rw [hout url hrest]
          cases (List.mem_cons.mp hurl).resolve_right hrest
          exact hfirst
      · obtain ⟨hne, hrest⟩ := not_or.mp (mt List.mem_cons.mpr hurl)
        exact (hout url hrest).trans (helse url hne)

theorem known_fetched {fetch : Url → Except HlsError (List UInt8)} {urls : List Url}
    (h : fetchAll fetch ks urls = .ok ks') (url : Url) :
    (known ks' url).isSome ↔ url ∈ urls ∨ (known ks url).isSome := by
  obtain ⟨hstored, hin, hout⟩ := fetchAll_spec urls h
  by_cases hurl : url ∈ urls
  · refine iff_of_true ?_ (.inl hurl)
    obtain ⟨key, hkey⟩ := Option.isSome_iff_exists.mp (hin url hurl)
    rw [known, hkey]
    rfl
  · rw [or_iff_right hurl, known, known, hout url hurl, hstored]

theorem resolveSegments_spec (mediaUrl : Url) (segments : List MediaSegment) (ks : KeyStore Url) :
    known (resolveSegments join parse mediaUrl ks segments).1 = known ks ∧
      ∀ (i : ℕ) segment, segments[i]? = some segment → ∃ ks', known ks' = known ks ∧
        (resolveSegments join parse mediaUrl ks segments).2[i]? =
          some (resolveSegmentDecryptCtx join parse ks' mediaUrl segment).2 := by
  induction segments generalizing ks with
  | nil => exact ⟨rfl, fun i segment h => absurd h (by simp)⟩
  | cons first rest ih =>
    have hfirst : known (resolveSegmentDecryptCtx join parse ks mediaUrl first).1 = known ks :=
      resolveEntryCtx_known ks mediaUrl first.uri first.key first.sequence
    obtain ⟨hknown, hrest⟩ := ih (resolveSegmentDecryptCtx join parse ks mediaUrl first).1
    refine ⟨hknown.trans hfirst, fun i segment h => ?_⟩
    cases i with
    | zero =>
      cases h
      exact ⟨ks, rfl, rfl⟩
    | succ i =>
      obtain ⟨ks', hks', hctx⟩ := hrest i segment h
      exact ⟨ks', hks'.trans hfirst, hctx⟩

omit [DecidableEq Url] in
theorem buildEntries_content (playlist : MediaPlaylist Url) (contexts : List (Option DecryptContext))
    (segments : List MediaSegment) (segIdx decodeTime i : ℕ) (hi : i < segments.length) :
    (buildEntries join playlist contexts segIdx decodeTime segments)[i]?.map SegmentEntry.content =
      some (.ofContext (contexts[segIdx + i]?.getD none)) := by
  induction segments generalizing segIdx decodeTime i with
  | nil => exact absurd hi (Nat.not_lt_zero i)
  | cons segment rest ih =>
    cases i with
    | zero => rfl
    | succ i =>
      rw [buildEntries, List.getElem?_cons_succ, ih _ _ i (Nat.lt_of_succ_lt_succ hi)]
      rw [Nat.add_assoc, Nat.add_comm 1 i]

theorem content_encrypted {ctx : Option DecryptContext} {c : DecryptContext} :
    SegmentContent.ofContext ctx = .encrypted c ↔ ctx = some c := by
  cases ctx with
  | none => exact ⟨by rintro ⟨⟩, by rintro ⟨⟩⟩
  | some c' =>
    constructor
    · rintro ⟨⟩
      rfl
    · rintro ⟨⟩
      rfl

/-- The keys fetched in advance are those of the AES-128 segments. -/
theorem mem_aes128KeyUrls (sources : List (Url × HlsMediaPlaylist)) :
    url ∈ aes128KeyUrls join parse (sources.map fun s => parseMediaPlaylist s.1 s.2) ↔
      SegmentKeyUrl join parse sources url := by
  rw [aes128KeyUrls, List.mem_dedup, List.mem_flatMap]
  constructor
  · rintro ⟨playlist, hplaylist, hurl⟩
    obtain ⟨source, hsource, rfl⟩ := List.mem_map.mp hplaylist
    obtain ⟨segment, hsegment, hurl⟩ := List.mem_filterMap.mp hurl
    obtain ⟨i, hi, rfl⟩ := List.mem_mapIdx.mp hsegment
    rw [aes128KeyUrl, Option.bind_eq_some_iff] at hurl
    obtain ⟨⟨method, keyInfo⟩, hkey, hurl⟩ := hurl
    dsimp only at hurl
    split at hurl
    · rename_i hmethod
      subst hmethod
      obtain ⟨info, rfl, hresolve⟩ := Option.bind_eq_some_iff.mp hurl
      obtain ⟨entryUrl, hjoin, hkeyUrl⟩ := Option.bind_eq_some_iff.mp hresolve
      obtain ⟨tag, htag, rfl⟩ := tag_of_segmentKey hkey
      refine ⟨source, hsource, _, List.getElem_mem hi, tag, htag, entryUrl, hjoin, ?_⟩
      cases hresolved : resolveKeyUrl join parse (keyInfoOf tag) entryUrl with
      | error e =>
        rw [hresolved] at hkeyUrl
        cases hkeyUrl
      | ok keyUrl =>
        rw [hresolved] at hkeyUrl
        cases hkeyUrl
        rfl
    · cases hurl
  · rintro ⟨source, hsource, segment, hsegment, tag, htag, entryUrl, hjoin, hkeyUrl⟩
    obtain ⟨i, hi⟩ := List.getElem?_of_mem hsegment
    refine ⟨_, List.mem_map.mpr ⟨source, hsource, rfl⟩, List.mem_filterMap.mpr
      ⟨_, List.mem_of_getElem? (parsed_segment hi), ?_⟩⟩
    rw [aes128KeyUrl, segmentKey_of_tag htag]
    dsimp only [Option.bind_some, parseMediaPlaylist]
    rw [if_pos rfl, hjoin, Option.bind_some, hkeyUrl]
    rfl

omit [DecidableEq Url] in
theorem contextOf_exists {info : KeyInfo} (hown : OwnKeyUrl join parse base uri info url)
    (hknown : (known ks url).isSome) (sequence : UInt64) :
    ∃ ctx, contextOf join parse ks base uri info sequence ctx := by
  obtain ⟨key, hkey⟩ := Option.isSome_iff_exists.mp hknown
  exact ⟨⟨⟨key, known_length hkey⟩, deriveIv info sequence⟩, url, hown, hkey, rfl⟩

section Built

variable {fetch : Url → Except HlsError (List UInt8)} {sources : List (Url × HlsMediaPlaylist)}
  {source : Url × HlsMediaPlaylist}

theorem segments_covered (hfetch : prefetchAes128Keys join parse fetch ks
      (sources.map fun s => parseMediaPlaylist s.1 s.2) = .ok ks')
    (hin : source ∈ sources) {segment : HlsSegment} (hsegment : segment ∈ source.2.segments)
    {tag : HlsDecryptionKey} (htag : KeyTag segment.keys tag)
    (hown : OwnKeyUrl join parse source.1 segment.uri (keyInfoOf tag) url) (i : ℕ) :
    ∃ ctx, contextOf join parse ks' source.1 segment.uri (keyInfoOf tag)
        (source.2.mediaSequence + UInt64.ofNat i) ctx ∧
      Owed join parse ks' source.1 segment.uri tag
        ((source.2.mediaSequence.toNat + i) % 2 ^ 64) ctx := by
  have hurl := (mem_aes128KeyUrls sources).mpr ⟨source, hin, segment, hsegment, tag, htag, hown⟩
  obtain ⟨ctx, hctx⟩ := contextOf_exists hown ((known_fetched hfetch url).mpr (.inl hurl))
    (source.2.mediaSequence + UInt64.ofNat i)
  refine ⟨ctx, hctx, (owed_iff hctx).mpr (.inr ?_)⟩
  rw [UInt64.toNat_add, UInt64.toNat_ofNat', Nat.add_mod_mod]

theorem covered_iff (hfetch : prefetchAes128Keys join parse fetch ks
      (sources.map fun s => parseMediaPlaylist s.1 s.2) = .ok ks')
    (hin : source ∈ sources) {ks₁ : KeyStore Url} (hknown : known ks₁ = known ks') :
    Covered join parse ks' source
        (tryBuild join parse ks₁ (parseMediaPlaylist source.1 source.2)).2 ↔
      Reached join parse ks sources source := by
  have hinit₁ : known (resolveInitDecryptCtx join parse ks₁
      (parseMediaPlaylist source.1 source.2)).1 = known ks' := by
    rw [resolveInitDecryptCtx]
    split
    · exact hknown
    · exact (resolveEntryCtx_known ..).trans hknown
  obtain ⟨_, hsegments⟩ := @resolveSegments_spec Url _ join parse source.1
    (parseMediaPlaylist source.1 source.2).segments
    (resolveInitDecryptCtx join parse ks₁ (parseMediaPlaylist source.1 source.2)).1
  have hinit {map : HlsMap} {tag : HlsDecryptionKey}
      (hmap : source.2.segments.findSome? HlsSegment.map = some map)
      (htag : InitTag source.2 map tag) (ctx : DecryptContext) :
      (tryBuild join parse ks₁ (parseMediaPlaylist source.1 source.2)).2.initCtx = some ctx ↔
        contextOf join parse ks' source.1 map.uri (keyInfoOf tag) 0 ctx := by
    rw [← contextOf_congr hknown, ← resolveEntryCtx_some, ← segmentKey_of_initTag htag]
    simp only [tryBuild, resolveInitDecryptCtx, parsed_init hmap]
    rfl
  constructor
  · intro h
    refine ⟨fun segment hsegment tag htag => ?_, fun map hmap tag htag => ?_⟩
    · obtain ⟨i, hi⟩ := List.mem_iff_getElem?.mp hsegment
      obtain ⟨ctx, howed, _⟩ := h.segments i segment hi tag htag
      obtain ⟨keyUrl, hown, _⟩ := howed.key
      exact ⟨keyUrl, hown⟩
    · obtain ⟨ctx, howed, hctx, _⟩ := h.init map hmap tag htag
      have hcontext := (hinit hmap htag ctx).mp hctx
      have hiv := (owed_iff hcontext).mp howed
      obtain ⟨keyUrl, hown, hkey, _⟩ := hcontext
      have hreach := (known_fetched hfetch keyUrl).mp (by rw [hkey]; rfl)
      rw [mem_aes128KeyUrls] at hreach
      exact ⟨⟨keyUrl, hown, hreach⟩, hiv.imp_right fun hzero => UInt64.toNat_inj.mp hzero.symm⟩
  · intro h
    refine ⟨fun i segment hi tag htag => ?_, fun map hmap tag htag => ?_⟩
    · obtain ⟨keyUrl, hown⟩ := h.segments segment (List.mem_of_getElem? hi) tag htag
      obtain ⟨ctx, hctx, howed⟩ :=
        segments_covered hfetch hin (List.mem_of_getElem? hi) htag hown i
      have hparsed := @parsed_segment _ source.1 _ _ _ hi
      obtain ⟨ks₂, hks₂, hresolved⟩ := hsegments i _ hparsed
      have hsome : (tryBuild join parse ks₁ (parseMediaPlaylist source.1 source.2)).2.contexts[i]? =
          some (some ctx) := by
        refine hresolved.trans (congrArg some ?_)
        rw [resolveSegmentDecryptCtx]
        dsimp only
        rw [segmentKey_of_tag htag, resolveEntryCtx_some]
        exact (contextOf_congr (hks₂.trans hinit₁)).mpr hctx
      refine ⟨ctx, howed, hsome, ?_⟩
      obtain ⟨hlt, _⟩ := List.getElem?_eq_some_iff.mp hparsed
      refine (buildEntries_content _ _ _ 0 0 i hlt).trans ?_
      rw [Nat.zero_add]
      exact congrArg some (content_encrypted.mpr (congrArg (fun found => found.getD none) hsome))
    · obtain ⟨⟨keyUrl, hown, hreach⟩, hiv⟩ := h.init map hmap tag htag
      rw [← mem_aes128KeyUrls] at hreach
      obtain ⟨ctx, hctx⟩ := contextOf_exists hown ((known_fetched hfetch keyUrl).mpr hreach) 0
      have hresolved := (hinit hmap htag ctx).mpr hctx
      refine ⟨ctx, (owed_iff hctx).mpr (hiv.imp_right fun hzero => ?_), hresolved, ?_⟩
      · rw [hzero]
      · obtain ⟨entryUrl, hjoin, _⟩ := hown
        have hentry : (tryBuild join parse ks₁ (parseMediaPlaylist source.1 source.2)).2.init =
            buildInitEntry join (parseMediaPlaylist source.1 source.2)
              (tryBuild join parse ks₁ (parseMediaPlaylist source.1 source.2)).2.initCtx := rfl
        rw [hentry, hresolved, buildInitEntry, parsed_init hmap, Option.bind_some]
        dsimp only [parseMediaPlaylist]
        rw [hjoin]
        rfl

theorem tryBuild_known (ks : KeyStore Url) (playlist : MediaPlaylist Url) :
    known (tryBuild join parse ks playlist).1 = known ks := by
  have hinit : known (resolveInitDecryptCtx join parse ks playlist).1 = known ks := by
    rw [resolveInitDecryptCtx]
    split
    · rfl
    · exact resolveEntryCtx_known ..
  exact (resolveSegments_spec playlist.url playlist.segments _).1.trans hinit

theorem variants_covered (hfetch : prefetchAes128Keys join parse fetch ks
      (sources.map fun s => parseMediaPlaylist s.1 s.2) = .ok ks')
    (built : List (Url × HlsMediaPlaylist)) (hin : ∀ source ∈ built, source ∈ sources)
    {ks₁ : KeyStore Url} (hknown : known ks₁ = known ks') :
    List.Forall₂ (Covered join parse ks') built
        (buildVariants join parse ks₁ (built.map fun s => parseMediaPlaylist s.1 s.2)) ↔
      ∀ source ∈ built, Reached join parse ks sources source := by
  induction built generalizing ks₁ with
  | nil => exact iff_of_true .nil (fun _ h => absurd h List.not_mem_nil)
  | cons source rest ih =>
    have hfirst := covered_iff hfetch (hin source List.mem_cons_self) hknown
    have hrest := ih (fun s hs => hin s (List.mem_cons_of_mem source hs))
      ((@tryBuild_known Url _ join parse ks₁
        (parseMediaPlaylist source.1 source.2)).trans hknown)
    rw [List.map_cons, buildVariants, List.forall₂_cons, hfirst, hrest, List.forall_mem_cons]

end Built

/-- After a fetch that succeeded, every AES-128 entry of every playlist is built with the context
it is owed exactly when its references resolve and each init segment's key is reached. -/
theorem keys_covered_iff_reached (join : Url → Text → Option Url) (parse : Text → Option Url)
    (fetch : Url → Except HlsError (List UInt8)) (ks ks' : KeyStore Url)
    (sources : List (Url × HlsMediaPlaylist))
    (hfetch : prefetchAes128Keys join parse fetch ks
      (sources.map fun s => parseMediaPlaylist s.1 s.2) = .ok ks') :
    List.Forall₂ (Covered join parse ks') sources
        (buildVariants join parse ks' (sources.map fun s => parseMediaPlaylist s.1 s.2)) ↔
      ∀ source ∈ sources, Reached join parse ks sources source :=
  variants_covered hfetch sources (fun _ => id) rfl

/-- A relative reference without dot segments, resolved beside its base. -/
def beside (base uri : Text) : Option Text :=
  some ((base.reverse.dropWhile fun c => c ≠ '/').reverse ++ uri)

def noKeys : KeyStore Text := { keys := fun _ => none, stored := fun _ => none, validated := by simp }

def sevens (_ : Text) : Except HlsError (List UInt8) := .ok (List.replicate 16 7)

/-- A playlist of one encrypted segment, its key beside it, and an init segment under `init`. -/
def withInit (init : String) : Text × HlsMediaPlaylist :=
  ("http://h/v.m3u8".toList,
    { mediaSequence := 3
      segments := [
        { keys := [⟨.aes128, ['k'], none⟩], uri := ['s'], duration := 4
          map := some
            { keys := [⟨.aes128, ['k'], some ⟨List.replicate 16 1, rfl⟩⟩], uri := init.toList } }] })

theorem init_beside_segments_covered : ∃ ks', prefetchAes128Keys beside some sevens noKeys
    ([withInit "i"].map fun s => parseMediaPlaylist s.1 s.2) = .ok ks' ∧
    List.Forall₂ (Covered beside some ks') [withInit "i"]
      (buildVariants beside some ks' ([withInit "i"].map fun s => parseMediaPlaylist s.1 s.2)) := by
  refine ⟨_, rfl, (keys_covered_iff_reached beside some sevens noKeys _ [withInit "i"] rfl).mpr ?_⟩
  intro source hsource
  cases List.mem_singleton.mp hsource
  refine ⟨fun segment hsegment tag htag => ?_, fun map hmap tag htag => ?_⟩
  · cases List.mem_singleton.mp hsegment
    cases htag.1
    exact ⟨"http://h/k".toList, "http://h/s".toList, rfl, rfl⟩
  · cases hmap
    rcases htag with ⟨hhead, -⟩ | ⟨hown, -⟩
    · cases hhead
      refine ⟨⟨"http://h/k".toList, ⟨"http://h/i".toList, rfl, rfl⟩, .inl ?_⟩, .inl rfl⟩
      exact ⟨_, List.mem_singleton_self _, _, List.mem_singleton_self _, ⟨.aes128, ['k'], none⟩,
        ⟨rfl, rfl, by decide⟩, "http://h/s".toList, rfl, rfl⟩
    · exact absurd (hown _ rfl) (by decide)

/-- With the init segment in a directory of its own its key is not fetched, and it is built as
cleartext. -/
theorem init_apart_uncovered : ∃ ks', prefetchAes128Keys beside some sevens noKeys
    ([withInit "d/i"].map fun s => parseMediaPlaylist s.1 s.2) = .ok ks' ∧
    ¬ List.Forall₂ (Covered beside some ks') [withInit "d/i"]
      (buildVariants beside some ks' ([withInit "d/i"].map fun s => parseMediaPlaylist s.1 s.2)) := by
  refine ⟨_, rfl, fun h => ?_⟩
  obtain ⟨hcovered, _⟩ := List.forall₂_cons.mp h
  obtain ⟨ctx, _, hctx, _⟩ := hcovered.init _ rfl _ (.inl ⟨rfl, rfl, by decide⟩)
  cases hctx

end HlsKeyCoverage
