import Kithara.UnicodeText
import Mathlib.Data.List.Basic
import Mathlib.Data.List.Dedup
import Mathlib.Data.Nat.Notation
import Mathlib.Logic.Function.Basic

/-! AES-128 keys of an HLS stream: the key of each segment and of the init segment as a media
playlist gives them, the keys fetched before any variant is built, and the decryption context
each entry is built with. Resolving a reference against a base and parsing an absolute URL are the
URL library's; a fetch is known by its outcome. -/
namespace HlsKeys

open UnicodeText

/-- AES key and initialization vector length in bytes. -/
def aesKeyLen : ℕ := 16

abbrev AesBlock := { bytes : List UInt8 // bytes.length = aesKeyLen }

inductive EncryptionMethod where
  | aes128
  | sampleAes
  | other (name : Text)
  deriving DecidableEq

structure HlsDecryptionKey where
  method : EncryptionMethod
  uri : Text
  iv : Option AesBlock

structure HlsMap where
  keys : List HlsDecryptionKey
  uri : Text

structure HlsSegment where
  keys : List HlsDecryptionKey
  map : Option HlsMap
  uri : Text
  duration : ℕ

structure HlsMediaPlaylist where
  mediaSequence : UInt64
  segments : List HlsSegment

structure KeyInfo where
  method : EncryptionMethod
  iv : Option AesBlock
  uri : Option Text
  deriving DecidableEq

structure SegmentKey where
  method : EncryptionMethod
  keyInfo : Option KeyInfo
  deriving DecidableEq

structure InitSegment where
  key : Option SegmentKey
  uri : Text

structure MediaSegment where
  duration : ℕ
  key : Option SegmentKey
  uri : Text
  /-- Media sequence plus the index in the playlist. -/
  sequence : UInt64

structure MediaPlaylist (Url : Type*) where
  initSegment : Option InitSegment
  url : Url
  segments : List MediaSegment

inductive HlsError where
  | invalidUrl (message : String)
  | keyProcessing (message : String)

structure DecryptContext where
  key : AesBlock
  iv : AesBlock
  deriving DecidableEq

def keyinfoFromDecryptionKey (k : HlsDecryptionKey) : Option KeyInfo :=
  let uri := trim k.uri
  if uri = [] then none else some { method := k.method, iv := k.iv, uri := some uri }

/-- The first key tag in force, where it names a key. -/
def effectiveKey (keys : List HlsDecryptionKey) : Option KeyInfo :=
  keys.head?.bind keyinfoFromDecryptionKey

def segmentKey (ki : KeyInfo) : SegmentKey := { method := ki.method, keyInfo := some ki }

def initKeyFallback (hls : HlsMediaPlaylist) : Option KeyInfo :=
  (hls.segments.findSome? fun seg => seg.keys.head?).bind keyinfoFromDecryptionKey

/-- The playlist as the rest of the stream reads it, from what the library parsed. -/
def parseMediaPlaylist {Url : Type*} (url : Url) (hls : HlsMediaPlaylist) : MediaPlaylist Url :=
  { url := url
    segments := hls.segments.mapIdx fun index seg =>
      { sequence := hls.mediaSequence + UInt64.ofNat index
        uri := seg.uri
        duration := seg.duration
        key := (effectiveKey seg.keys).map segmentKey }
    initSegment := hls.segments.findSome? fun seg => seg.map.map fun m =>
      { uri := m.uri
        key := ((effectiveKey m.keys).or (initKeyFallback hls)).map segmentKey } }

section Url

variable {Url : Type*} (join : Url → Text → Option Url) (parse : Text → Option Url)

def resolveKeyUrl (keyInfo : KeyInfo) (segmentUrl : Url) : Except HlsError Url :=
  match keyInfo.uri with
  | none => .error (.invalidUrl "missing key URI")
  | some keyUri =>
    if "http://".toList <+: keyUri ∨ "https://".toList <+: keyUri then
      (parse keyUri).elim (.error (.invalidUrl "Invalid key URL")) .ok
    else (join segmentUrl keyUri).elim (.error (.invalidUrl "Failed to resolve key URL")) .ok

/-- The key URL that one segment contributes to the set fetched in advance. -/
def aes128KeyUrl (playlistUrl : Url) (segment : MediaSegment) : Option Url :=
  segment.key.bind fun segKey =>
    if segKey.method = .aes128 then
      segKey.keyInfo.bind fun keyInfo => (join playlistUrl segment.uri).bind fun segUrl =>
        (resolveKeyUrl join parse keyInfo segUrl).toOption
    else none

def aes128KeyUrls [DecidableEq Url] (mediaPlaylists : List (MediaPlaylist Url)) : List Url :=
  (mediaPlaylists.flatMap fun playlist =>
    playlist.segments.filterMap (aes128KeyUrl join parse playlist.url)).dedup

/-- The keys of the session, each validated, and the bodies in the persistent store. -/
structure KeyStore (Url : Type*) where
  keys : Url → Option (List UInt8)
  stored : Url → Option (List UInt8)
  validated : ∀ url key, keys url = some key → key.length = aesKeyLen

def invalidKeyLength : HlsError := .keyProcessing "AES-128 key must be 16 bytes"

variable [DecidableEq Url]

def KeyStore.insert (ks : KeyStore Url) (url : Url) (key : AesBlock) : KeyStore Url :=
  { ks with
    keys := Function.update ks.keys url (some key.1)
    validated := fun url' key' h => by
      by_cases hurl : url' = url
      · subst hurl
        rw [Function.update_self] at h
        exact Option.some_inj.mp h ▸ key.2
      · rw [Function.update_of_ne hurl] at h
        exact ks.validated url' key' h }

/-- No network: the session's key, or a stored body that is one. -/
def getCachedKey (ks : KeyStore Url) (url : Url) : KeyStore Url × Except HlsError (List UInt8) :=
  match ks.keys url with
  | some key => (ks, .ok key)
  | none => match ks.stored url with
    | none => (ks, .error (.keyProcessing "key not in cache"))
    | some bytes =>
      if bytes = [] then (ks, .error (.keyProcessing "cached key is empty"))
      else if h : bytes.length = aesKeyLen then (ks.insert url ⟨bytes, h⟩, .ok bytes)
      else (ks, .error invalidKeyLength)

/-- Cache first, then the network and the processor of the key, of which `fetch` is the outcome. -/
def getRawKey (fetch : Url → Except HlsError (List UInt8)) (ks : KeyStore Url) (url : Url) :
    KeyStore Url × Except HlsError (List UInt8) := match ks.keys url with
  | some key => (ks, .ok key)
  | none => match fetch url with
    | .error e => (ks, .error e)
    | .ok bytes =>
      if h : bytes.length = aesKeyLen then (ks.insert url ⟨bytes, h⟩, .ok bytes)
      else (ks, .error invalidKeyLength)

def fetchAll (fetch : Url → Except HlsError (List UInt8)) :
    KeyStore Url → List Url → Except HlsError (KeyStore Url)
  | ks, [] => .ok ks
  | ks, url :: rest => match getRawKey fetch ks url with
    | (_, .error e) => .error e
    | (ks, .ok _) => fetchAll fetch ks rest

def prefetchAes128Keys (fetch : Url → Except HlsError (List UInt8)) (ks : KeyStore Url)
    (mediaPlaylists : List (MediaPlaylist Url)) : Except HlsError (KeyStore Url) :=
  fetchAll fetch ks (aes128KeyUrls join parse mediaPlaylists)

def beBytes (n : UInt64) : List UInt8 :=
  ([56, 48, 40, 32, 24, 16, 8, 0] : List UInt64).map fun shift => (n >>> shift).toUInt8

def deriveIv (keyInfo : KeyInfo) (sequence : UInt64) : AesBlock :=
  keyInfo.iv.getD ⟨List.replicate 8 0 ++ beBytes sequence, rfl⟩

def resolveDecryptCtx (ks : KeyStore Url) (keyInfo : KeyInfo) (segmentUrl : Url)
    (sequence : UInt64) : KeyStore Url × Except HlsError DecryptContext :=
  match resolveKeyUrl join parse keyInfo segmentUrl with
  | .error e => (ks, .error e)
  | .ok keyUrl => match getCachedKey ks keyUrl with
    | (ks, .error e) => (ks, .error e)
    | (ks, .ok bytes) =>
      if h : bytes.length = aesKeyLen then (ks, .ok ⟨⟨bytes, h⟩, deriveIv keyInfo sequence⟩)
      else (ks, .error invalidKeyLength)

/-- The context of one entry of a playlist: none for cleartext, and none where it cannot be
resolved. -/
def resolveEntryCtx (ks : KeyStore Url) (base : Url) (uri : Text) (key : Option SegmentKey)
    (sequence : UInt64) : KeyStore Url × Option DecryptContext := match key with
  | none => (ks, none)
  | some key =>
    if key.method ≠ .aes128 then (ks, none)
    else match key.keyInfo, join base uri with
      | some keyInfo, some url =>
        let resolved := resolveDecryptCtx join parse ks keyInfo url sequence
        (resolved.1, resolved.2.toOption)
      | _, _ => (ks, none)

def resolveInitDecryptCtx (ks : KeyStore Url) (playlist : MediaPlaylist Url) :
    KeyStore Url × Option DecryptContext := match playlist.initSegment with
  | none => (ks, none)
  | some init => resolveEntryCtx join parse ks playlist.url init.uri init.key 0

def resolveSegmentDecryptCtx (ks : KeyStore Url) (mediaUrl : Url) (segment : MediaSegment) :
    KeyStore Url × Option DecryptContext :=
  resolveEntryCtx join parse ks mediaUrl segment.uri segment.key segment.sequence

def resolveSegments (mediaUrl : Url) : KeyStore Url → List MediaSegment →
    KeyStore Url × List (Option DecryptContext)
  | ks, [] => (ks, [])
  | ks, segment :: rest =>
    let first := resolveSegmentDecryptCtx join parse ks mediaUrl segment
    let others := resolveSegments mediaUrl first.1 rest
    (others.1, first.2 :: others.2)

def resolveVariantDecryptContexts (ks : KeyStore Url) (playlist : MediaPlaylist Url) :
    KeyStore Url × List (Option DecryptContext) :=
  resolveSegments join parse playlist.url ks playlist.segments

inductive SegmentContent where
  | plain
  | encrypted (ctx : DecryptContext)
  deriving DecidableEq

def SegmentContent.ofContext (ctx : Option DecryptContext) : SegmentContent :=
  ctx.elim .plain .encrypted

structure SegmentEntry (Url : Type*) where
  url : Url
  content : SegmentContent
  decodeTime : ℕ
  duration : ℕ

/-- A segment whose URL cannot be resolved is fetched from the playlist's own. -/
def segmentUrl (playlist : MediaPlaylist Url) (segment : MediaSegment) : Url :=
  (join playlist.url segment.uri).getD playlist.url

def buildEntries (playlist : MediaPlaylist Url) (decryptContexts : List (Option DecryptContext)) :
    ℕ → ℕ → List MediaSegment → List (SegmentEntry Url)
  | _, _, [] => []
  | segIdx, decodeTime, segment :: rest =>
    { url := segmentUrl join playlist segment
      content := .ofContext (decryptContexts[segIdx]?.getD none)
      decodeTime := decodeTime
      duration := segment.duration } ::
      buildEntries playlist decryptContexts (segIdx + 1) (decodeTime + segment.duration) rest

def buildSegmentEntries (playlist : MediaPlaylist Url)
    (decryptContexts : List (Option DecryptContext)) : List (SegmentEntry Url) :=
  buildEntries join playlist decryptContexts 0 0 playlist.segments

def buildInitEntry (playlist : MediaPlaylist Url) (decryptCtx : Option DecryptContext) :
    Option (SegmentEntry Url) :=
  (playlist.initSegment.bind fun init => join playlist.url init.uri).map fun url =>
    { url := url, content := .ofContext decryptCtx, decodeTime := 0, duration := 0 }

structure Variant (Url : Type*) where
  initCtx : Option DecryptContext
  contexts : List (Option DecryptContext)
  init : Option (SegmentEntry Url)
  segments : List (SegmentEntry Url)

def tryBuild (ks : KeyStore Url) (playlist : MediaPlaylist Url) : KeyStore Url × Variant Url :=
  let init := resolveInitDecryptCtx join parse ks playlist
  let contexts := resolveVariantDecryptContexts join parse init.1 playlist
  (contexts.1,
    { initCtx := init.2
      contexts := contexts.2
      init := buildInitEntry join playlist init.2
      segments := buildSegmentEntries join playlist contexts.2 })

def buildVariants : KeyStore Url → List (MediaPlaylist Url) → List (Variant Url)
  | _, [] => []
  | ks, playlist :: rest =>
    let built := tryBuild join parse ks playlist
    built.2 :: buildVariants built.1 rest

end Url

end HlsKeys
