import Kithara.DecryptChunks
import Kithara.HlsKeys
import Kithara.HlsOffsets

/-! The slots of a variant, from the playlist to the store: what a byte range becomes, which
resource backs a slot, and what a fetch commits there. The URL library resolves references, the
asset layout names resources, the cipher library decrypts a block: all three are parameters. -/
namespace ByteRangeSlots

open HlsKeys HlsOffsets UnicodeText
open CheckedArithmetic (divCeil)
open DecryptOnCommit (Aes128 Backing ProcessedWriter ResourceProcessor aesBlockSize
  decryptProcessor)
open DecryptChunks (ReadsWhole wholePlaintext)

structure ByteRange where
  length : ℕ
  offset : Option ℕ

structure RangedSegment extends HlsSegment where
  byteRange : Option ByteRange
  mapRange : Option ByteRange

structure RangedPlaylist where
  mediaSequence : UInt64
  segments : List RangedSegment

structure ParsedSegment extends HlsKeys.MediaSegment where
  byteRangeLen : Option ℕ

def parseSegments (hls : RangedPlaylist) : List ParsedSegment :=
  hls.segments.mapIdx fun index seg =>
    { sequence := hls.mediaSequence + UInt64.ofNat index
      uri := seg.uri
      duration := seg.duration
      key := (effectiveKey seg.keys).map segmentKey
      byteRangeLen := seg.byteRange.map ByteRange.length }

variable {Url Key : Type}

def parseInitSegment (mediaUrl : Url) (hls : RangedPlaylist) : Option InitSegment :=
  (parseMediaPlaylist mediaUrl
    { mediaSequence := hls.mediaSequence
      segments := hls.segments.map (·.toHlsSegment) }).initSegment

structure SegmentState (Url : Type) where
  duration : ℕ
  byteRangeLen : Option ℕ
  url : Url

/-- A reference that does not resolve falls back to the playlist's own URL. -/
def resolve (join : Url → Text → Option Url) (mediaUrl : Url) (uri : Text) : Url :=
  (join mediaUrl uri).getD mediaUrl

def buildState (join : Url → Text → Option Url) (mediaUrl : Url)
    (segments : List ParsedSegment) : List (SegmentState Url) :=
  segments.map fun seg =>
    { url := resolve join mediaUrl seg.uri
      duration := seg.duration
      byteRangeLen := seg.byteRangeLen }

def minBytes : ℕ := 4 * 1024

def maxPrecommitBytes : ℕ := 256 * 1024

def placeholderBytesPerSec : ℕ := 4 * 1024

def nanosPerSec : ℕ := 1000000000

def bitsPerByte : ℕ := 8

def initPlaceholderBytes : ℕ := 16 * 1024

def saturatingMul128 (a b : ℕ) : ℕ := min (a * b) (2 ^ 128 - 1)

def segmentPlaceholderSize (duration : ℕ) (bandwidthBps : Option ℕ) : ℕ :=
  if duration = 0 then minBytes
  else
    let durationBytes := divCeil (saturatingMul128 duration placeholderBytesPerSec) nanosPerSec
    let estimatedBytes :=
      match bandwidthBps.filter (0 < ·) with
      | none => durationBytes
      | some bps =>
        min durationBytes (divCeil (saturatingMul128 bps duration) (bitsPerByte * nanosPerSec))
    max minBytes (min (min estimatedBytes (2 ^ 64 - 1)) maxPrecommitBytes)

structure Slot (Url Key : Type) where
  resourceId : Key
  url : Url
  size : SegmentSize
  content : SegmentContent

structure MediaSlot (Url Key : Type) extends Slot Url Key where
  decodeTime : ℕ
  duration : ℕ

def buildInitEntry (key : Url → Except HlsError Key) (needsExact : Bool) (initUrl : Option Url)
    (decryptCtx : Option DecryptContext) : Except HlsError (Option (Slot Url Key)) :=
  match initUrl with
  | none => .ok none
  | some url => do
    let resourceId ← key url
    let size := if needsExact then .empty else .placeholder initPlaceholderBytes
    return some { resourceId, url, size, content := .ofContext decryptCtx }

def maxDuration : ℕ := 2 ^ 64 * 10 ^ 9 - 1

/-- The size a slot is seeded with: the length of its byte range is taken as exact. -/
def seededSize (byteRangeLen : Option ℕ) (duration : ℕ) (bandwidthBps : Option ℕ) : SegmentSize :=
  match byteRangeLen with
  | some length => .seed length
  | none => .placeholder (segmentPlaceholderSize duration bandwidthBps)

def buildSegmentEntries (key : Url → Except HlsError Key) (bandwidthBps : Option ℕ)
    (decryptContexts : List (Option DecryptContext)) : (segIdx decodeTime : ℕ) →
    List (SegmentState Url) → Except HlsError (List (MediaSlot Url Key))
  | _, _, [] => .ok []
  | segIdx, decodeTime, seg :: segments => do
    let finish := min (decodeTime + seg.duration) maxDuration
    let duration := finish - decodeTime
    let resourceId ← key seg.url
    let size := seededSize seg.byteRangeLen duration bandwidthBps
    let content := SegmentContent.ofContext (decryptContexts[segIdx]?.getD none)
    let slots ← buildSegmentEntries key bandwidthBps decryptContexts (segIdx + 1) finish segments
    return { resourceId, url := seg.url, size, content, decodeTime, duration } :: slots

structure Rendition (Url Key : Type) where
  join : Url → Text → Option Url
  key : Url → Except HlsError Key
  /-- The body that a request for a URL is answered with. -/
  origin : Url → List UInt8
  aes : Aes128
  mediaUrl : Url
  hls : RangedPlaylist
  decryptContexts : List (Option DecryptContext)
  initDecryptCtx : Option DecryptContext
  bandwidthBps : Option ℕ
  needsExact : Bool

structure VariantParts (Url Key : Type) where
  init : Option (Slot Url Key)
  segments : List (MediaSlot Url Key)

def VariantParts.slots (parts : VariantParts Url Key) : List (Slot Url Key) :=
  parts.init.toList ++ parts.segments.map (·.toSlot)

namespace Rendition

variable (v : Rendition Url Key)

def initUrl : Option Url :=
  (parseInitSegment v.mediaUrl v.hls).bind fun init => v.join v.mediaUrl init.uri

def segmentStates : List (SegmentState Url) :=
  buildState v.join v.mediaUrl (parseSegments v.hls)

def tryBuild : Except HlsError (VariantParts Url Key) := do
  let init ← buildInitEntry v.key v.needsExact v.initUrl v.initDecryptCtx
  let segments ← buildSegmentEntries v.key v.bandwidthBps v.decryptContexts 0 0 v.segmentStates
  return { init, segments }

end Rendition

def processContext (ctx : DecryptContext) : DecryptOnCommit.DecryptContext where
  key := BlockChaining.firstBlock aesBlockSize ctx.key.1
  iv := BlockChaining.firstBlock aesBlockSize ctx.iv.1

def processor (aes : Aes128) :
    SegmentContent → Option (ResourceProcessor DecryptOnCommit.DecryptContext)
  | .plain => none
  | .encrypted ctx => some (decryptProcessor aes (processContext ctx))

/-- What the commit of a body leaves in its resource; a body that cannot be decrypted leaves
nothing. -/
def committed (aes : Aes128) : SegmentContent → List UInt8 → Option (List UInt8)
  | .plain, body => some body
  | .encrypted ctx, body =>
    if body = [] then some [] else wholePlaintext aes (processContext ctx) body

section Fetch

variable [DecidableEq Key]

abbrev Store (Key : Type) := Key → Option (List UInt8)

/-- A fetch of a slot: a resource that is there already is taken as it is, and otherwise the
body of the slot's URL, of which no range is asked, is written into it and committed. -/
def Rendition.fetchSlot (v : Rendition Url Key) (store : Store Key) (slot : Slot Url Key) :
    Store Key :=
  match store slot.resourceId with
  | some _ => store
  | none =>
    Function.update store slot.resourceId (committed v.aes slot.content (v.origin slot.url))

def Rendition.fetchAll (v : Rendition Url Key) (order : List (Slot Url Key)) : Store Key :=
  order.foldl v.fetchSlot fun _ => none

end Fetch

/-- What the playlist declares of a segment: its URL, how its content is kept, and its sub-range
as offset and length. -/
structure Declared (Url : Type) where
  url : Url
  content : SegmentContent
  range : Option (ℕ × ℕ)
  deriving DecidableEq

def declaredBytes (body : List UInt8) : Option (ℕ × ℕ) → List UInt8
  | none => body
  | some (offset, length) => (body.drop offset).take length

namespace Rendition

variable (v : Rendition Url Key)

/-- The declarations from a segment on. A range without an offset follows the range before it of
the same URI; `stops` is where those end. -/
def declaredFrom (segIdx : ℕ) (stops : Text → ℕ) : List RangedSegment → List (Declared Url)
  | [] => []
  | seg :: segments =>
    let range := seg.byteRange.map fun range =>
      (range.offset.getD (stops seg.uri), range.length)
    let stops := range.elim stops fun range =>
      Function.update stops seg.uri (range.1 + range.2)
    { url := resolve v.join v.mediaUrl seg.uri
      content := .ofContext (v.decryptContexts[segIdx]?.getD none)
      range } :: declaredFrom (segIdx + 1) stops segments

def declared : List (Declared Url) := v.declaredFrom 0 (fun _ => 0) v.hls.segments

def initRange : Option (ℕ × ℕ) :=
  (v.hls.segments.find? (·.map.isSome)).bind fun seg =>
    seg.mapRange.map fun range => (range.offset.getD 0, range.length)

def initDeclared : Option (Declared Url) :=
  v.initUrl.map fun url => ⟨url, .ofContext v.initDecryptCtx, v.initRange⟩

/-- The content a segment declares: its sub-range, decrypted where it is encrypted. -/
def contentOf (d : Declared Url) : Option (List UInt8) :=
  committed v.aes d.content (declaredBytes (v.origin d.url) d.range)

def fetched (d : Declared Url) : Option (List UInt8) := committed v.aes d.content (v.origin d.url)

/-- The declared range is the whole resource, and its length is that of the content. Padding makes
the content of an encrypted range shorter than the range. -/
def IsWhole (d : Declared Url) : Prop :=
  match d.content, d.range with
  | _, none => True
  | .plain, some (offset, length) =>
    length = (v.origin d.url).length ∧ (offset = 0 ∨ v.origin d.url = [])
  | .encrypted _, some (_, 0) => v.fetched d = some []
  | .encrypted _, some (_, _ + 1) => v.fetched d = none ∧ v.contentOf d = none

/-- Every byte range is its whole resource, and segments of one key leave one content. -/
structure WholeResources : Prop where
  whole : ∀ d ∈ v.declared, v.IsWhole d
  shared : ∀ d ∈ v.declared, ∀ e ∈ v.declared, v.key d.url = v.key e.url →
    v.fetched d = v.fetched e
  /-- An init segment that shares a media segment's key declares that segment's content, and
  leaves it or nothing. -/
  init : ∀ d ∈ v.declared, ∀ e ∈ v.initDeclared, v.key d.url = v.key e.url →
    v.contentOf e = v.fetched d ∧ (v.fetched e = none ∨ v.fetched e = v.fetched d)

variable [DecidableEq Key]

/-- Every media slot keeps to the content its segment declares, whatever slots are fetched in
whatever order. -/
structure OwnContent (parts : VariantParts Url Key) : Prop where
  /-- Media slots that share a resource declare the same content. -/
  apart : ∀ (i j : ℕ) a b d e, parts.segments[i]? = some a → parts.segments[j]? = some b →
    v.declared[i]? = some d → v.declared[j]? = some e → a.resourceId = b.resourceId →
    v.contentOf d = v.contentOf e
  /-- So does the init slot, where it shares the resource of a media slot. -/
  apart_init : ∀ (i : ℕ) a init d e, parts.segments[i]? = some a → parts.init = some init →
    v.declared[i]? = some d → v.initDeclared = some e → a.resourceId = init.resourceId →
    v.contentOf d = v.contentOf e
  /-- A length seeded as exact is the length of what is fetched into the resource. -/
  seeded : ∀ order : List (Slot Url Key), (∀ s ∈ order, s ∈ parts.slots) →
    ∀ a ∈ parts.segments, a.toSlot ∈ order → a.size.isExact →
    ∀ content, v.fetchAll order a.resourceId = some content → a.size.readLen = content.length
  /-- The bytes behind a fetched slot are those its segment declares. -/
  stored : ∀ order : List (Slot Url Key), (∀ s ∈ order, s ∈ parts.slots) →
    ∀ (i : ℕ) a d, parts.segments[i]? = some a → v.declared[i]? = some d → a.toSlot ∈ order →
    v.fetchAll order a.resourceId = v.contentOf d

end Rendition

variable {v : Rendition Url Key} {parts : VariantParts Url Key} {d : Declared Url}
  {ctx : DecryptContext} {body content : List UInt8} {aes : Aes128}

theorem committed_of_commit (aes : Aes128) (content : SegmentContent) (body : List UInt8)
    {backing : Backing} {chunkSize : ℕ} (hchunk : 0 < chunkSize)
    (hreads : ReadsWhole backing body.length body.length chunkSize)
    (h : ((ProcessedWriter.new ⟨body, none⟩ (processor aes content) chunkSize).commit backing
      (some body.length)).result = .ok ()) :
    ((ProcessedWriter.new ⟨body, none⟩ (processor aes content) chunkSize).commit backing
      (some body.length)).committed = committed aes content body := by
  by_cases hencrypted : ∃ ctx, content = .encrypted ctx ∧ body ≠ []
  · obtain ⟨ctx, rfl, hne⟩ := hencrypted
    have hlen : 0 < body.length := List.length_pos_iff.mpr hne
    have hwhole := ((DecryptChunks.commit_iff aes (processContext ctx) ⟨body, none⟩ hlen).mpr
      ((DecryptChunks.runs_iff aes (processContext ctx) hlen hchunk).mpr hreads)).whole h
    obtain ⟨-, plain, hplain, hcommitted⟩ := hwhole
    rw [List.take_length] at hplain
    rw [committed, if_neg hne, hplain]
    exact hcommitted
  · -- nothing is processed: the body is committed as it was written
    have hraw : (ProcessedWriter.new ⟨body, none⟩ (processor aes content) chunkSize).commit backing
        (some body.length) =
        (ProcessedWriter.new ⟨body, none⟩ (processor aes content) chunkSize).finish backing
          (processor aes content).isSome ([], .ok (body, some body.length)) := by
      cases content with
      | plain => rfl
      | encrypted ctx =>
        have hnil : body = [] := by_contra fun hne => hencrypted ⟨ctx, rfl, hne⟩
        rw [hnil]
        rfl
    have hbody : committed aes content body = some body := by
      cases content with
      | plain => rfl
      | encrypted ctx =>
        have hnil : body = [] := by_contra fun hne => hencrypted ⟨ctx, rfl, hne⟩
        rw [committed, hnil, if_pos rfl]
    rw [hraw, ProcessedWriter.finish] at h ⊢
    cases hcommit : backing.commit with
    | error error =>
      rw [hcommit] at h
      cases h
    | ok _ =>
      rw [hbody]
      exact congrArg some List.take_length

theorem committed_shorter (h : committed aes (.encrypted ctx) body = some content) :
    content = [] ∨ content.length < body.length := by
  rw [committed] at h
  split at h
  · exact .inl (Option.some.inj h).symm
  · rw [wholePlaintext] at h
    split at h
    · rename_i hblocks
      have hlt := BlockChaining.unpad_shorter h
      rw [BlockChaining.cbcDecrypt_length hblocks] at hlt
      exact .inr hlt
    · cases h

theorem length_declaredBytes_le {offset length : ℕ} :
    (declaredBytes body (some (offset, length))).length ≤ length :=
  List.length_take_le ..

theorem isWhole_plain {offset length : ℕ} (hd : d.content = .plain)
    (hr : d.range = some (offset, length)) : v.IsWhole d ↔ v.contentOf d = v.fetched d ∧
      (0 < length → length = (v.origin d.url).length) := by
  rw [Rendition.IsWhole, Rendition.contentOf, Rendition.fetched, hd, hr]
  dsimp only [committed, declaredBytes]
  rw [Option.some.injEq]
  generalize v.origin d.url = body
  constructor
  · rintro ⟨rfl, rfl | rfl⟩
    · exact ⟨by rw [List.drop_zero, List.take_length], fun _ => rfl⟩
    · exact ⟨by rw [List.drop_nil, List.take_nil], fun _ => rfl⟩
  · rintro ⟨hcut, hlength⟩
    have hlen := congrArg List.length hcut
    rw [List.length_take, List.length_drop] at hlen
    constructor
    · rcases Nat.eq_zero_or_pos length with rfl | hpos
      · omega
      · exact hlength hpos
    · rcases Nat.eq_zero_or_pos body.length with hzero | hpos
      · exact .inr (List.length_eq_zero_iff.mp hzero)
      · left
        omega

theorem isWhole_iff : v.IsWhole d ↔ v.contentOf d = v.fetched d ∧
    ∀ offset length, d.range = some (offset, length) → 0 < length →
      ∀ content, v.fetched d = some content → length = content.length := by
  cases hr : d.range with
  | none =>
    rw [Rendition.IsWhole, Rendition.contentOf, hr]
    exact iff_of_true trivial ⟨rfl, fun _ _ hnone => nomatch hnone⟩
  | some range =>
    obtain ⟨offset, length⟩ := range
    cases hd : d.content with
    | plain =>
      have hfetched : v.fetched d = some (v.origin d.url) := by rw [Rendition.fetched, hd, committed]
      rw [isWhole_plain hd hr, and_congr_right_iff]
      intro _
      constructor
      · intro hlength _ _ hrange hpos content hcontent
        cases hrange
        cases hfetched.symm.trans hcontent
        exact hlength hpos
      · exact fun hlength hpos => hlength offset length rfl hpos _ hfetched
    | encrypted ctx =>
      cases length with
      | zero =>
        have hnil : v.contentOf d = some [] := by
          rw [Rendition.contentOf, hd, hr, declaredBytes, List.take_zero, committed, if_pos rfl]
        rw [Rendition.IsWhole, hd, hr, hnil]
        constructor
        · intro hfetched
          refine ⟨hfetched.symm, ?_⟩
          intro _ _ hrange hpos
          cases hrange
          exact absurd hpos (Nat.lt_irrefl 0)
        · exact fun h => h.1.symm
      | succ length =>
        rw [Rendition.IsWhole, hd, hr]
        constructor
        · rintro ⟨hfetched, hcontent⟩
          refine ⟨hcontent.trans hfetched.symm, ?_⟩
          intro _ _ _ _ content hsome
          cases hfetched.symm.trans hsome
        · rintro ⟨hsame, hlength⟩
          cases hfetched : v.fetched d with
          | none => exact ⟨rfl, hsame.trans hfetched⟩
          | some content =>
            exfalso
            have hlen := hlength offset (length + 1) rfl (Nat.succ_pos length) content hfetched
            have hcontent := hsame.trans hfetched
            rw [Rendition.contentOf, hd, hr] at hcontent
            have hle : (declaredBytes (v.origin d.url) (some (offset, length + 1))).length ≤
                length + 1 := length_declaredBytes_le
            rcases committed_shorter hcontent with rfl | hlt
            · cases hlen
            · omega

structure Backs (v : Rendition Url Key) (d : Declared Url) (slot : Slot Url Key) : Prop where
  url : slot.url = d.url
  content : slot.content = d.content
  keyed : v.key d.url = .ok slot.resourceId

structure MediaBacks (v : Rendition Url Key) (d : Declared Url) (slot : MediaSlot Url Key) :
    Prop extends Backs v d slot.toSlot where
  sized : ∃ duration, slot.size = seededSize (d.range.map Prod.snd) duration v.bandwidthBps

theorem MediaBacks.exact_of_range {slot : MediaSlot Url Key} (h : MediaBacks v d slot)
    {offset length : ℕ} (hrange : d.range = some (offset, length)) :
    (slot.size.isExact ↔ 0 < length) ∧ slot.size.readLen = length := by
  obtain ⟨duration, hsize⟩ := h.sized
  rw [hsize, hrange]
  exact ⟨decide_eq_true_iff, ite_self length⟩

theorem MediaBacks.range_of_exact {slot : MediaSlot Url Key} (h : MediaBacks v d slot)
    (hexact : slot.size.isExact) :
    ∃ offset, d.range = some (offset, slot.size.readLen) ∧ 0 < slot.size.readLen := by
  cases hrange : d.range with
  | none =>
    obtain ⟨duration, hsize⟩ := h.sized
    rw [hsize, hrange] at hexact
    cases hexact
  | some range =>
    obtain ⟨hpos, hread⟩ := h.exact_of_range hrange
    rw [hread]
    exact ⟨range.1, rfl, hpos.mp hexact⟩

theorem segmentStates_eq (v : Rendition Url Key) :
    v.segmentStates = v.hls.segments.map fun seg =>
      { url := resolve v.join v.mediaUrl seg.uri
        duration := seg.duration
        byteRangeLen := seg.byteRange.map ByteRange.length } := by
  rw [Rendition.segmentStates, buildState, parseSegments]
  apply List.ext_getElem
  · rw [List.length_map, List.length_mapIdx, List.length_map]
  · intro i hi hi'
    rw [List.getElem_map, List.getElem_mapIdx, List.getElem_map]

theorem entries_back {segments : List RangedSegment} {segIdx decodeTime : ℕ} {stops : Text → ℕ}
    {slots : List (MediaSlot Url Key)}
    (h : buildSegmentEntries v.key v.bandwidthBps v.decryptContexts segIdx decodeTime
      (segments.map fun seg =>
        { url := resolve v.join v.mediaUrl seg.uri
          duration := seg.duration
          byteRangeLen := seg.byteRange.map ByteRange.length }) = .ok slots) :
    List.Forall₂ (MediaBacks v) (v.declaredFrom segIdx stops segments) slots := by
  induction segments generalizing segIdx decodeTime stops slots with
  | nil =>
    cases h
    exact .nil
  | cons seg segments ih =>
    rw [List.map_cons, buildSegmentEntries] at h
    cases hkey : v.key (resolve v.join v.mediaUrl seg.uri) with
    | error error =>
      rw [hkey] at h
      cases h
    | ok resourceId =>
      rw [hkey] at h
      dsimp only [bind, Except.bind] at h
      split at h
      · cases h
      · rename_i rest hrest
        cases h
        rw [Rendition.declaredFrom]
        refine .cons ⟨⟨rfl, rfl, hkey⟩,
          min (decodeTime + seg.duration) maxDuration - decodeTime, ?_⟩ (ih hrest)
        rw [Option.map_map]
        rfl

theorem tryBuild_backs (h : v.tryBuild = .ok parts) :
    List.Forall₂ (MediaBacks v) v.declared parts.segments ∧
      Option.Rel (Backs v) v.initDeclared parts.init := by
  rw [Rendition.tryBuild, segmentStates_eq] at h
  cases hinit : buildInitEntry v.key v.needsExact v.initUrl v.initDecryptCtx with
  | error error =>
    rw [hinit] at h
    cases h
  | ok init =>
    rw [hinit] at h
    dsimp only [bind, Except.bind] at h
    split at h
    · cases h
    · rename_i slots hslots
      cases h
      refine ⟨entries_back hslots, ?_⟩
      rw [Rendition.initDeclared]
      cases hurl : v.initUrl with
      | none =>
        rw [hurl, buildInitEntry] at hinit
        cases hinit
        exact .none
      | some url =>
        rw [hurl, buildInitEntry] at hinit
        cases hkey : v.key url with
        | error error =>
          rw [hkey] at hinit
          cases hinit
        | ok resourceId =>
          rw [hkey] at hinit
          cases hinit
          exact .some ⟨rfl, rfl, hkey⟩

theorem Backs.committed {slot : Slot Url Key} (h : Backs v d slot) :
    committed v.aes slot.content (v.origin slot.url) = v.fetched d := by
  rw [h.url, h.content, Rendition.fetched]

section

variable [DecidableEq Key] {order : List (Slot Url Key)} {store : Store Key}
  {slot : Slot Url Key} {resource : Key}

theorem fetchSlot_own (h : slot.resourceId = resource) : v.fetchSlot store slot resource =
    (store resource).or (committed v.aes slot.content (v.origin slot.url)) := by
  subst h
  rw [Rendition.fetchSlot]
  cases hstore : store slot.resourceId with
  | none =>
    rw [Option.none_or]
    exact Function.update_self ..
  | some held =>
    rw [Option.some_or]
    exact hstore

theorem fetchSlot_other (h : slot.resourceId ≠ resource) :
    v.fetchSlot store slot resource = store resource := by
  rw [Rendition.fetchSlot]
  cases store slot.resourceId with
  | none => exact Function.update_of_ne h.symm ..
  | some held => rfl

omit [DecidableEq Key] in
theorem or_left {left x y : Option (List UInt8)} (hx : x = none ∨ x = left)
    (hy : y = none ∨ y = left) :
    (x.or y = none ∨ x.or y = left) ∧ (x = left ∨ y = left → x.or y = left) := by
  rcases hx with rfl | rfl
  · rw [Option.none_or]
    refine ⟨hy, ?_⟩
    rintro (rfl | hleft)
    · exact hy.elim id id
    · exact hleft
  · rcases hy with rfl | rfl
    · rw [Option.or_none]
      exact ⟨.inr rfl, fun _ => rfl⟩
    · rw [Option.or_self]
      exact ⟨.inr rfl, fun _ => rfl⟩

theorem content_of_fetched {left : Option (List UInt8)}
    (hstore : store resource = none ∨ store resource = left)
    (hall : ∀ s ∈ order, s.resourceId = resource →
      committed v.aes s.content (v.origin s.url) = none ∨
        committed v.aes s.content (v.origin s.url) = left)
    (hone : store resource = left ∨ ∃ s ∈ order, s.resourceId = resource ∧
      committed v.aes s.content (v.origin s.url) = left) :
    order.foldl v.fetchSlot store resource = left := by
  induction order generalizing store with
  | nil =>
    rcases hone with hone | ⟨s, hs, -⟩
    · exact hone
    · exact absurd hs List.not_mem_nil
  | cons slot order ih =>
    rw [List.forall_mem_cons] at hall
    rw [List.exists_mem_cons_iff] at hone
    by_cases hkey : slot.resourceId = resource
    · obtain ⟨hkept, hleft⟩ := or_left hstore (hall.1 hkey)
      rw [← fetchSlot_own hkey] at hkept hleft
      apply ih hkept hall.2
      rcases hone with hone | ⟨-, hslot⟩ | hrest
      · exact .inl (hleft (.inl hone))
      · exact .inl (hleft (.inr hslot))
      · exact .inr hrest
    · have hother : v.fetchSlot store slot resource = store resource := fetchSlot_other hkey
      rw [← hother] at hstore hone
      apply ih hstore hall.2
      rcases hone with hone | ⟨hsame, -⟩ | hrest
      · exact .inl hone
      · exact absurd hsame hkey
      · exact .inr hrest

theorem fetchAll_eq {left : Option (List UInt8)}
    (hall : ∀ s ∈ order, s.resourceId = resource →
      committed v.aes s.content (v.origin s.url) = none ∨
        committed v.aes s.content (v.origin s.url) = left)
    (hone : ∃ s ∈ order, s.resourceId = resource ∧
      committed v.aes s.content (v.origin s.url) = left) :
    v.fetchAll order resource = left :=
  content_of_fetched (.inl rfl) hall (.inr hone)

theorem fetchAll_singleton (h : Backs v d slot) :
    v.fetchAll [slot] slot.resourceId = v.fetched d := by
  refine fetchAll_eq ?_ ⟨slot, List.mem_singleton_self slot, rfl, h.committed⟩
  exact List.forall_mem_singleton.mpr fun _ => .inr h.committed

theorem whole_of_ownContent (hmedia : List.Forall₂ (MediaBacks v) v.declared parts.segments)
    (hinit : Option.Rel (Backs v) v.initDeclared parts.init) (h : v.OwnContent parts) :
    v.WholeResources := by
  have hslot : ∀ (i : ℕ) d, v.declared[i]? = some d →
      ∃ a, parts.segments[i]? = some a ∧ MediaBacks v d a ∧ a.toSlot ∈ parts.slots := by
    intro i d hd
    obtain ⟨hi, rfl⟩ := List.getElem?_eq_some_iff.mp hd
    have hi' : i < parts.segments.length := hmedia.length_eq ▸ hi
    refine ⟨parts.segments[i], List.getElem?_eq_getElem hi', hmedia.get hi hi', ?_⟩
    exact List.mem_append_right _ (List.mem_map_of_mem (List.getElem_mem hi'))
  have hsame : ∀ {d e a b}, Backs v d a → Backs v e b → v.key d.url = v.key e.url →
      a.resourceId = b.resourceId := by
    intro d e a b hback hback' hkey
    rw [hback.keyed, hback'.keyed] at hkey
    exact Except.ok.inj hkey
  have hwhole : ∀ (i : ℕ) d, v.declared[i]? = some d → v.IsWhole d := by
    intro i d hd
    obtain ⟨a, ha, hback, hmem⟩ := hslot i d hd
    have horder : ∀ s ∈ [a.toSlot], s ∈ parts.slots := List.forall_mem_singleton.mpr hmem
    have hstored := h.stored _ horder i a d ha hd (List.mem_singleton_self _)
    rw [fetchAll_singleton hback.toBacks] at hstored
    refine isWhole_iff.mpr ⟨hstored.symm, ?_⟩
    intro offset length hrange hpos content hcontent
    obtain ⟨hexact, hread⟩ := hback.exact_of_range hrange
    rw [← hread]
    exact h.seeded _ horder a (List.mem_of_getElem? ha) (List.mem_singleton_self _)
      (hexact.mpr hpos) content ((fetchAll_singleton hback.toBacks).trans hcontent)
  have hequal : ∀ (i : ℕ) d, v.declared[i]? = some d → v.contentOf d = v.fetched d :=
    fun i d hd => (isWhole_iff.mp (hwhole i d hd)).1
  constructor
  case whole =>
    intro d hd
    obtain ⟨i, hd⟩ := List.getElem?_of_mem hd
    exact hwhole i d hd
  case shared =>
    intro d hd e he hkey
    obtain ⟨i, hd⟩ := List.getElem?_of_mem hd
    obtain ⟨j, he⟩ := List.getElem?_of_mem he
    obtain ⟨a, ha, hback, -⟩ := hslot i d hd
    obtain ⟨b, hb, hback', -⟩ := hslot j e he
    rw [← hequal i d hd, ← hequal j e he]
    exact h.apart i j a b d e ha hb hd he (hsame hback.toBacks hback'.toBacks hkey)
  case init =>
    intro d hd e he hkey
    obtain ⟨i, hd⟩ := List.getElem?_of_mem hd
    obtain ⟨a, ha, hback, hmem⟩ := hslot i d hd
    rw [he] at hinit
    obtain ⟨init, hparts, hback'⟩ : ∃ init, parts.init = some init ∧ Backs v e init := by
      cases hinit' : parts.init with
      | none =>
        rw [hinit'] at hinit
        cases hinit
      | some init =>
        rw [hinit'] at hinit
        cases hinit with
        | some hback' => exact ⟨init, rfl, hback'⟩
    have hid := hsame hback.toBacks hback' hkey
    have hcontent := h.apart_init i a init d e ha hparts hd he hid
    refine ⟨hcontent.symm.trans (hequal i d hd), ?_⟩
    by_cases hnone : v.fetched e = none
    · exact .inl hnone
    · -- the init is fetched first, and the segment finds what it left
      right
      have horder : ∀ s ∈ [init, a.toSlot], s ∈ parts.slots := by
        rw [List.forall_mem_cons, List.forall_mem_singleton]
        refine ⟨?_, hmem⟩
        rw [VariantParts.slots, hparts]
        exact List.mem_cons_self
      have hstored := h.stored _ horder i a d ha hd (List.mem_cons_of_mem _ List.mem_cons_self)
      obtain ⟨content, hleft⟩ := Option.ne_none_iff_exists'.mp hnone
      have hfirst : v.fetchAll [init, a.toSlot] a.resourceId = some content := by
        have hinitial : v.fetchSlot (fun _ => none) init a.resourceId = some content := by
          rw [fetchSlot_own hid.symm, Option.none_or, hback'.committed, hleft]
        rw [Rendition.fetchAll, List.foldl_cons, List.foldl_cons, List.foldl_nil,
          fetchSlot_own rfl, hinitial, Option.some_or]
      rw [hleft, ← hfirst, hstored]
      exact hequal i d hd

theorem ownContent_of_whole (hmedia : List.Forall₂ (MediaBacks v) v.declared parts.segments)
    (hinit : Option.Rel (Backs v) v.initDeclared parts.init) (h : v.WholeResources) :
    v.OwnContent parts := by
  have hsegment : ∀ a ∈ parts.segments, ∃ d ∈ v.declared, MediaBacks v d a := by
    intro a ha
    obtain ⟨i, hi, rfl⟩ := List.getElem_of_mem ha
    have hi' : i < v.declared.length := hmedia.length_eq.symm ▸ hi
    exact ⟨v.declared[i], List.getElem_mem hi', hmedia.get hi' hi⟩
  have hboth : ∀ (i : ℕ) a d, parts.segments[i]? = some a → v.declared[i]? = some d →
      d ∈ v.declared ∧ MediaBacks v d a := by
    intro i a d ha hd
    obtain ⟨hi, rfl⟩ := List.getElem?_eq_some_iff.mp ha
    obtain ⟨hi', rfl⟩ := List.getElem?_eq_some_iff.mp hd
    exact ⟨List.getElem_mem hi', hmedia.get hi' hi⟩
  have hequal : ∀ d ∈ v.declared, v.contentOf d = v.fetched d := fun d hd =>
    (isWhole_iff.mp (h.whole d hd)).1
  have hkeys : ∀ {d e a b}, Backs v d a → Backs v e b → a.resourceId = b.resourceId →
      v.key d.url = v.key e.url := by
    intro d e a b hback hback' hsame
    rw [hback.keyed, hback'.keyed, hsame]
  have hinitial : ∀ init, parts.init = some init → ∃ e ∈ v.initDeclared, Backs v e init := by
    intro init hparts
    rw [hparts] at hinit
    cases hdeclared : v.initDeclared with
    | none =>
      rw [hdeclared] at hinit
      cases hinit
    | some e =>
      rw [hdeclared] at hinit
      cases hinit with
      | some hback => exact ⟨e, rfl, hback⟩
  have hfetched : ∀ order : List (Slot Url Key), (∀ s ∈ order, s ∈ parts.slots) →
      ∀ d ∈ v.declared, ∀ a, MediaBacks v d a → a.toSlot ∈ order →
      v.fetchAll order a.resourceId = v.fetched d := by
    intro order horder d hd a hback ha
    refine fetchAll_eq ?_ ⟨a.toSlot, ha, rfl, hback.committed⟩
    intro s hs hsame
    rcases List.mem_append.mp (horder s hs) with hs | hs
    · obtain ⟨e, he, hback'⟩ := hinitial s (Option.mem_toList.mp hs)
      rw [hback'.committed]
      exact (h.init d hd e he (hkeys hback.toBacks hback' hsame.symm)).2
    · obtain ⟨b, hb, rfl⟩ := List.mem_map.mp hs
      obtain ⟨e, he, hback'⟩ := hsegment b hb
      rw [hback'.committed]
      exact .inr (h.shared e he d hd (hkeys hback'.toBacks hback.toBacks hsame))
  constructor
  case apart =>
    intro i j a b d e ha hb hd he hsame
    obtain ⟨hd, hback⟩ := hboth i a d ha hd
    obtain ⟨he, hback'⟩ := hboth j b e hb he
    rw [hequal d hd, hequal e he]
    exact h.shared d hd e he (hkeys hback.toBacks hback'.toBacks hsame)
  case apart_init =>
    intro i a init d e ha hparts hd he hsame
    obtain ⟨hd, hback⟩ := hboth i a d ha hd
    obtain ⟨e', he', hback'⟩ := hinitial init hparts
    cases he.symm.trans he'
    rw [hequal d hd]
    exact (h.init d hd e he (hkeys hback.toBacks hback' hsame)).1.symm
  case seeded =>
    intro order horder a ha hmem hexact content hcontent
    obtain ⟨d, hd, hback⟩ := hsegment a ha
    obtain ⟨offset, hrange, hpos⟩ := hback.range_of_exact hexact
    rw [hfetched order horder d hd a hback hmem] at hcontent
    exact (isWhole_iff.mp (h.whole d hd)).2 offset _ hrange hpos content hcontent
  case stored =>
    intro order horder i a d ha hd hmem
    obtain ⟨hd, hback⟩ := hboth i a d ha hd
    rw [hfetched order horder d hd a hback hmem, hequal d hd]

/-- The slots keep to the content of their segments exactly when every byte range is its whole
resource, unpadded, and no key stands for two contents. -/
theorem slots_own_content_iff (v : Rendition Url Key) (parts : VariantParts Url Key)
    (h : v.tryBuild = .ok parts) : v.OwnContent parts ↔ v.WholeResources := by
  obtain ⟨hmedia, hinit⟩ := tryBuild_backs h
  exact ⟨whole_of_ownContent hmedia hinit, ownContent_of_whole hmedia hinit⟩

end

def plainSegment (uri : Text) (byteRange : Option ByteRange) : RangedSegment where
  keys := []
  map := none
  uri := uri
  duration := 0
  byteRange := byteRange
  mapRange := none

/-- References are URLs already and URLs are keys; the file `a` has four bytes, and any other is
one block that decrypts to fifteen. -/
def rendition (segments : List RangedSegment) (decryptContexts : List (Option DecryptContext)) :
    Rendition Text Text where
  join _ uri := some uri
  key := .ok
  origin url := if url = ['a'] then [1, 2, 3, 4] else List.replicate 16 1
  aes := DecryptChunks.mirror.1
  mediaUrl := []
  hls := ⟨0, segments⟩
  decryptContexts := decryptContexts
  initDecryptCtx := decryptContexts.head?.getD none
  bandwidthBps := none
  needsExact := true

/-- A rendition in one file: two sub-ranges of one URI, the second after the first. -/
def oneFile : Rendition Text Text :=
  rendition [plainSegment ['a'] (some ⟨2, some 0⟩), plainSegment ['a'] (some ⟨2, none⟩)] []

def zeroBlock : AesBlock := ⟨List.replicate 16 0, rfl⟩

/-- An encrypted init segment, a range that is the whole of its file, and an encrypted segment. -/
def wholeFiles : Rendition Text Text :=
  rendition
    [{ plainSegment ['b'] none with map := some ⟨[], ['c']⟩ },
      plainSegment ['a'] (some ⟨4, some 0⟩)] [some ⟨zeroBlock, zeroBlock⟩]

/-- Both slots are backed by the resource `a`, and stand for different bytes of it. -/
theorem oneFile_shares :
    ∃ parts, oneFile.tryBuild = .ok parts ∧ ¬ oneFile.OwnContent parts := by
  refine ⟨_, rfl, ?_⟩
  intro h
  have hapart := h.apart 0 1 _ _ ⟨['a'], .plain, some (0, 2)⟩ ⟨['a'], .plain, some (2, 2)⟩
    rfl rfl rfl rfl rfl
  exact absurd hapart (by decide)

theorem wholeFiles_own_content :
    ∃ parts, wholeFiles.tryBuild = .ok parts ∧ wholeFiles.OwnContent parts := by
  refine ⟨_, rfl, (slots_own_content_iff wholeFiles _ rfl).mpr ?_⟩
  have hdeclared : wholeFiles.declared = [⟨['b'], .encrypted ⟨zeroBlock, zeroBlock⟩, none⟩,
      ⟨['a'], .plain, some (0, 4)⟩] := rfl
  have hinit : wholeFiles.initDeclared =
      some ⟨['c'], .encrypted ⟨zeroBlock, zeroBlock⟩, none⟩ := rfl
  constructor
  case whole =>
    rw [hdeclared, List.forall_mem_cons, List.forall_mem_singleton]
    exact ⟨trivial, rfl, .inl rfl⟩
  case shared =>
    have hurls : ∀ d ∈ wholeFiles.declared, ∀ e ∈ wholeFiles.declared, d.url = e.url → d = e := by
      rw [hdeclared]
      decide
    intro d hd e he hkey
    rw [hurls d hd e he (Except.ok.inj hkey)]
  case init =>
    have hurls : ∀ d ∈ wholeFiles.declared, ∀ e ∈ wholeFiles.initDeclared, d.url ≠ e.url := by
      rw [hdeclared, hinit]
      decide
    intro d hd e he hkey
    exact absurd (Except.ok.inj hkey) (hurls d hd e he)

end ByteRangeSlots
