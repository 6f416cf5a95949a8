import Kithara.UrlComponents

/-! The default cache layout. A resource's path is accepted, stays below the asset's root, and is
shared, even where a file system does not tell the case of letters, only with what is the same
resource up to its fragment, an empty query and the case of the digits of percent triplets. -/
namespace CachePaths

/-- A parsed URL, by its parts. The parser keeps the separators out of the host and escapes the
control characters of the path. -/
structure Url where
  scheme : Bytes
  username : Bytes
  password : Option Bytes
  host : Option Bytes
  port : Option Bytes
  path : Bytes
  query : Option Bytes
  fragment : Option Bytes
  host_slashless : ∀ h ∈ host, slash ∉ h
  port_slashless : ∀ p ∈ port, slash ∉ p
  path_escaped : 0 ∉ path

namespace Url

def authority (url : Url) : Bytes :=
  url.host.getD [] ++ url.port.elim [] (58 :: ·)

def credentials (url : Url) : Bytes :=
  if url.username = [] ∧ url.password = none then []
  else url.username ++ url.password.elim [] (58 :: ·) ++ ascii ['@']

def origin (url : Url) : Bytes :=
  url.scheme ++ ascii [':', '/', '/'] ++ url.credentials ++ url.authority

def pathSegments (url : Url) : Option (List Bytes) :=
  if url.path.head? = some slash then some (url.path.tail.splitOn slash) else none

end Url

inductive AssetResource where
  | source (extension : Bytes)
  | url (url : Url)
  | named (namespace_ name : Bytes)

variable (digest : Bytes → Digest)

def namedNamespace (namespace_ : Bytes) : Bytes :=
  if namespace_ = ascii ['t', 'r', 'a', 'c', 'k'] then ascii ['~', 'n', 't', 'r', 'a', 'c', 'k']
  else encodeComponent digest namespace_

def plainTransport (url : Url) : Prop :=
  url.scheme = ascii ['h', 't', 't', 'p', 's'] ∧ url.username = [] ∧ url.password = none

instance (url : Url) : Decidable (plainTransport url) := inferInstanceAs (Decidable (_ ∧ _))

def authorityComponent (url : Url) : Bytes :=
  let encoded := encodeUrlComponent digest url.authority
  if plainTransport url then encoded
  else
    appendComponentSuffix digest encoded (ascii ['~', 'o'] ++ fingerprint digest url.origin)
      url.origin

def selectedExtension (extension : Bytes) : Bytes :=
  if extension ≠ [] ∧ extension.length ≤ maxExtensionLen ∧ extension.all isAlphanumeric ∧
      ¬ eqIgnoreCase extension (ascii ['t', 'm', 'p']) then lowercase extension
  else defaultExtension

def track : Bytes := ascii ['t', 'r', 'a', 'c', 'k']

def sourcePath (extension : Bytes) : Bytes :=
  track ++ slash :: encodeComponent digest (track ++ dot :: selectedExtension extension)

def mirrorSegments (query : Option Bytes) : List Bytes → List Bytes
  | [] => []
  | [leaf] => [encodeUrlLeaf digest leaf query]
  | segment :: segments => encodeUrlComponent digest segment :: mirrorSegments query segments

def urlMirror (url : Url) : Bytes :=
  if url.host = none ∨ url.pathSegments = none then []
  else
    let path := if url.path.head? = some slash then url.path.tail else url.path
    [slash].intercalate (track :: authorityComponent digest url ::
      mirrorSegments digest url.query (path.splitOn slash))

def path : AssetResource → Bytes
  | .source extension => sourcePath digest extension
  | .url url => urlMirror digest url
  | .named namespace_ name =>
    namedNamespace digest namespace_ ++ slash :: encodeComponent digest name

/-- What the disk store does to a path before it joins it to its root. -/
def sanitizeRel (input : Bytes) : Option Bytes :=
  let s := input.map fun b => if b = backslash then slash else b
  if s = [] ∨ s.head? = some slash ∨ (s.splitOn slash).any fun seg => seg = [] || seg = [dot, dot]
  then none else some s

/-- The directories a relative path leads to, from the ones of a root. -/
def resolve (root : List Bytes) (relative : Bytes) : List Bytes :=
  (relative.splitOn slash).foldl (fun directories component =>
      if component = [] ∨ component = [dot] then directories
      else if component = [dot, dot] then directories.dropLast
      else directories ++ [component])
    (if relative.head? = some slash then [] else root)

/-- A URL with a host and a path of segments, or names that are not empty. -/
def AssetResource.Valid : AssetResource → Prop
  | .source _ => True
  | .url u => u.host.isSome = true ∧ u.pathSegments.isSome = true
  | .named namespace_ name => namespace_ ≠ [] ∧ name ≠ []

/-- The texts the layout may take the fingerprint of, for a resource. -/
def AssetResource.identities : AssetResource → Set Bytes
  | .source extension => {track ++ dot :: selectedExtension extension}
  | .url u => { text | text = u.authority ∨ text = u.origin ∨
      (∃ segment ∈ u.path.tail.splitOn slash,
        text = segment ∨ text = leafIdentity segment (nonemptyQuery u.query)) ∨
      text ∈ nonemptyQuery u.query }
  | .named namespace_ name => {namespace_, name}

/-- The same resource: fragments do not count, an empty query is none, and neither does the case
of the digits of percent triplets. A source is its extension as the cache spells it. -/
def AssetResource.Same : AssetResource → AssetResource → Prop
  | .source extension, .source other => selectedExtension extension = selectedExtension other
  | .url u, .url v =>
    lowerTriplets u.origin = lowerTriplets v.origin ∧ lowerTriplets u.path = lowerTriplets v.path ∧
      nonemptyQuery u.query = nonemptyQuery v.query
  | .named namespace_ name, .named otherNamespace other =>
    namespace_ = otherNamespace ∧ name = other
  | _, _ => False

variable {digest}

theorem component_portable {value : Bytes} (h : value ≠ []) :
    Portable (encodeComponent digest value) := by
  rw [encodeComponent, ← write_pieces]
  refine finish_portable (fun hnil => h ?_) (write_safe _) _
  exact pieces_eq_nil.mp (write_injective hnil)

theorem name_hashed_free (value : Bytes) : .inr .hashed ∉ reading (pieces false value) := by
  rw [reading_pieces_name]
  exact mark_not_read _ _

theorem component_injective {texts : Set Bytes} (hinj : Set.InjOn digest texts) {v w : Bytes}
    (hv : v ∈ texts) (hw : w ∈ texts) (h : encodeComponent digest v = encodeComponent digest w) :
    v = w := by
  rw [encodeComponent, encodeComponent, ← write_pieces, ← write_pieces] at h
  rcases finish_injective (name_hashed_free v) (name_hashed_free w) h with hread | hhash
  · rw [reading_pieces_name, reading_pieces_name] at hread
    exact map_inl_injective hread
  · exact of_hexText hinj hv hw hhash

theorem component_short {v w : Bytes} (h : encodeComponent digest v = encodeBytes false w)
    (hshort : (encodeBytes false w).length < maxComponentLen) : v = w := by
  rw [encodeComponent, ← write_pieces, ← write_pieces] at h
  rcases finish_cases (pieces false v) (digest v) with ⟨qs, hread, hspelled⟩ | ⟨kept, hcut, hkept⟩
  · rw [reading_pieces_name, write_injective (hspelled.symm.trans h), reading_pieces_name] at hread
    exact (map_inl_injective hread).symm
  · have hlength := congrArg List.length (hcut.symm.trans h)
    rw [write_pieces] at hlength
    simp only [maxComponentLen] at hshort
    simp [hkept, hexText_length] at hlength
    omega

theorem component_mark (digest : Bytes → Digest) {v t : Bytes} {m : Mark} (hm : m ≠ .device)
    (ht : t.length < 32) :
    encodeComponent digest v ≠ tilde :: m.letter :: t := by
  intro h
  rw [encodeComponent, ← write_pieces] at h
  rcases finish_cases (pieces false v) (digest v) with ⟨qs, hread, hspelled⟩ | ⟨kept, hcut, hkept⟩
  · have hmem := mark_of_reading (s := []) hm hread (hspelled.symm.trans h)
    rw [reading_pieces_name] at hmem
    exact absurd hmem (mark_not_read _ _)
  · have hlength := congrArg List.length (hcut.symm.trans h)
    simp [hkept, hexText_length] at hlength
    omega

theorem namespace_portable {namespace_ : Bytes} (h : namespace_ ≠ []) :
    Portable (namedNamespace digest namespace_) := by
  rw [namedNamespace]
  split
  · exact ⟨by decide, by decide, List.all_eq_true.mp (by decide), by decide, by decide, by decide⟩
  · exact component_portable h

theorem track_portable : Portable track :=
  ⟨by decide, by decide, List.all_eq_true.mp (by decide), by decide, by decide, by decide⟩

theorem namespace_ne_track (namespace_ : Bytes) : namedNamespace digest namespace_ ≠ track := by
  rw [namedNamespace]
  split
  · decide
  · rename_i hne
    exact fun h => hne (component_short (w := track) h (by decide))

theorem namespace_injective {texts : Set Bytes} (hinj : Set.InjOn digest texts) {v w : Bytes}
    (hv : v ∈ texts) (hw : w ∈ texts)
    (h : namedNamespace digest v = namedNamespace digest w) : v = w := by
  rw [namedNamespace, namedNamespace] at h
  have hmark (v : Bytes) := component_mark digest (v := v) (m := .named) (t := track)
    (by decide) (by decide)
  split at h <;> split at h
  · rename_i hv hw
    rw [hv, hw]
  · exact absurd h.symm (hmark w)
  · exact absurd h (hmark v)
  · exact component_injective hinj hv hw h

end CachePaths
