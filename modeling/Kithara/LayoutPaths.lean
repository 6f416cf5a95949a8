import Kithara.DefaultLayout

/-! The paths of the default layout are accepted, lead below any root, and tell their resources
apart. -/
namespace CachePaths

variable {digest : Bytes → Digest}

theorem authority_slashless (url : Url) : slash ∉ url.authority := by
  intro hmem
  rcases List.mem_append.mp hmem with hhost | hport
  · cases h : url.host with
    | none => simp [h] at hhost
    | some host =>
      rw [h] at hhost
      exact url.host_slashless host h hhost
  · cases h : url.port with
    | none => simp [h] at hport
    | some port =>
      rw [h] at hport
      rcases List.mem_cons.mp hport with hcolon | hport
      · exact absurd hcolon (by decide)
      · exact url.port_slashless port h hport

theorem origin_slashed (url : Url) : slash ∈ url.origin := by
  rw [Url.origin]
  simp [ascii]

theorem authority_ne_origin (url other : Url) : url.authority ≠ other.origin := by
  intro h
  exact authority_slashless url (h ▸ origin_slashed other)

/-- Outside of plain HTTPS the origin's fingerprint ends the component, behind a mark. -/
theorem authority_tagged (digest : Bytes → Digest) {url : Url} (h : ¬ plainTransport url) :
    ∃ s m, m ≠ Mark.device ∧ authorityComponent digest url =
      s ++ tilde :: m.letter :: hexText (digest url.origin) := by
  obtain ⟨b, hhex, hb⟩ := hexText_last (digest url.origin)
  set text := encodeUrlComponent digest url.authority ++
    (ascii ['~', 'o'] ++ hexText (digest url.origin)) with htext
  have hlast : text.getLast? = some b := by
    rw [htext, ← List.append_assoc]
    exact hhex _
  have hcomponent : authorityComponent digest url =
      boundLength (escapeDeviceName text) (hexText (digest url.origin)) := by
    rw [← rewritten_self hlast hb, ← finishComponent_eq]
    simp only [authorityComponent, h, if_false]
    rfl
  rw [hcomponent]
  rcases bound_cases (escapeDeviceName text) (digest url.origin) with ⟨-, hkept⟩ | ⟨-, hcut⟩
  · rw [hkept, escapeDeviceName]
    split
    · exact ⟨ascii ['~', 'r'] ++ encodeUrlComponent digest url.authority, .origin, by decide, by
        rw [htext, List.append_assoc]
        rfl⟩
    · exact ⟨encodeUrlComponent digest url.authority, .origin, by decide, rfl⟩
  · exact ⟨_, .hashed, by decide, hcut⟩

theorem authority_injective {texts : Set Bytes} (hinj : Set.InjOn digest texts) {u v : Url}
    (hu : u.authority ∈ texts ∧ u.origin ∈ texts) (hv : v.authority ∈ texts ∧ v.origin ∈ texts)
    (h : authorityComponent digest u = authorityComponent digest v) :
    lowerTriplets u.origin = lowerTriplets v.origin := by
  have hmixed {u v : Url} (hu : u.authority ∈ texts) (hv : v.origin ∈ texts)
      (hp : plainTransport u) (hq : ¬ plainTransport v) :
      authorityComponent digest u ≠ authorityComponent digest v := by
    intro h
    obtain ⟨s, m, hm, htagged⟩ := authority_tagged digest hq
    rw [htagged, authorityComponent, if_pos hp] at h
    have hhash := segment_mark hm (hexText_length _) h
    exact authority_ne_origin u v (of_hexText hinj hu hv hhash.symm)
  by_cases hp : plainTransport u <;> by_cases hq : plainTransport v
  · have hhttps (w : Url) (hw : plainTransport w) : lowerTriplets w.origin =
        ascii ['h', 't', 't', 'p', 's', ':', '/', '/'] ++ lowerTriplets w.authority := by
      obtain ⟨hs, hn, hpw⟩ := hw
      have horigin : w.origin =
          ascii ['h', 't', 't', 'p', 's', ':', '/'] ++ slash :: w.authority := by
        rw [Url.origin, Url.credentials, if_pos ⟨hn, hpw⟩, hs]
        rfl
      rw [horigin, lowerTriplets_cut (by decide) (by decide)]
      rfl
    rw [authorityComponent, authorityComponent, if_pos hp, if_pos hq] at h
    rw [hhttps u hp, hhttps v hq, segment_injective hinj hu.1 hv.1 h]
  · exact absurd h (hmixed hu.1 hv.2 hp hq)
  · exact absurd h.symm (hmixed hv.1 hu.2 hq hp)
  · obtain ⟨s, m, -, hs⟩ := authority_tagged digest hp
    obtain ⟨t, n, -, ht⟩ := authority_tagged digest hq
    rw [hs, ht] at h
    have htail := (List.append_inj' h (by simp [hexText_length])).2
    have hhash := (List.cons.inj (List.cons.inj htail).2).2
    rw [of_hexText hinj hu.2 hv.2 hhash]

theorem authority_portable (url : Url) : Portable (authorityComponent digest url) := by
  have hsegment := segment_portable digest url.authority
  by_cases hp : plainTransport url
  · rw [authorityComponent, if_pos hp]
    exact hsegment
  · have hcomponent : authorityComponent digest url = finishComponent
        (encodeUrlComponent digest url.authority ++
          (ascii ['~', 'o'] ++ hexText (digest url.origin))) (hexText (digest url.origin)) := by
      simp only [authorityComponent, hp, if_false]
      rfl
    rw [hcomponent]
    refine finish_portable (List.append_ne_nil_of_left_ne_nil hsegment.nonempty _) ?_ _
    intro b hb
    rcases List.mem_append.mp hb with hb | hb
    · exact hsegment.safe b hb
    · rcases List.mem_append.mp hb with hmark | hhex
      · exact List.all_eq_true.mp (by decide) b hmark
      · exact safe_of_isLowerHex (hexText_isLowerHex _ b hhex)

theorem mirror_portable (query : Option Bytes) (segments : List Bytes) :
    ∀ c ∈ mirrorSegments digest query segments, Portable c := by
  fun_induction mirrorSegments digest query segments with
  | case1 => exact fun c hc => absurd hc List.not_mem_nil
  | case2 leaf =>
    intro c hc
    rw [List.mem_singleton.mp hc]
    exact leaf_portable leaf query
  | case3 segment segments _ ih =>
    intro c hc
    rcases List.mem_cons.mp hc with rfl | hc
    · exact segment_portable digest segment
    · exact ih c hc

theorem mirror_ne_nil {query : Option Bytes} {segments : List Bytes} (h : segments ≠ []) :
    mirrorSegments digest query segments ≠ [] := by
  match segments, h with
  | [_], _ => exact List.cons_ne_nil _ _
  | _ :: _ :: _, _ => exact List.cons_ne_nil _ _

/-- Equal components come from segments that are equal, up to their triplets, and from one query. -/
theorem mirror_injective {texts : Set Bytes} (hinj : Set.InjOn digest texts) {q r : Option Bytes}
    (hq : ∀ v ∈ nonemptyQuery q, v ∈ texts) (hr : ∀ v ∈ nonemptyQuery r, v ∈ texts)
    {segments others : List Bytes} (hne : segments ≠ [])
    (hs : ∀ s ∈ segments, s ∈ texts ∧ leafIdentity s (nonemptyQuery q) ∈ texts ∧ 0 ∉ s)
    (ho : ∀ s ∈ others, s ∈ texts ∧ leafIdentity s (nonemptyQuery r) ∈ texts ∧ 0 ∉ s)
    (h : mirrorSegments digest q segments = mirrorSegments digest r others) :
    segments.map lowerTriplets = others.map lowerTriplets ∧ nonemptyQuery q = nonemptyQuery r := by
  induction segments generalizing others with
  | nil => exact absurd rfl hne
  | cons s segments ih =>
    obtain ⟨hsegment, hrest⟩ := List.forall_mem_cons.mp hs
    cases others with
    | nil => exact absurd h (mirror_ne_nil (List.cons_ne_nil _ _))
    | cons o others =>
      obtain ⟨hother, horest⟩ := List.forall_mem_cons.mp ho
      cases segments with
      | nil =>
        cases others with
        | nil =>
          obtain ⟨htext, hquery⟩ := leaf_injective hinj hsegment.2.2 hother.2.2 hq hr
            hsegment.2.1 hother.2.1 (List.cons.inj h).1
          exact ⟨congrArg (fun t => [t]) htext, hquery⟩
        | cons o' others =>
          exact absurd (List.cons.inj h).2.symm (mirror_ne_nil (List.cons_ne_nil _ _))
      | cons s' segments =>
        cases others with
        | nil => exact absurd (List.cons.inj h).2 (mirror_ne_nil (List.cons_ne_nil _ _))
        | cons o' others =>
          obtain ⟨hhead, htail⟩ := List.cons.inj h
          obtain ⟨htexts, hquery⟩ := ih (List.cons_ne_nil _ _) hrest horest htail
          have htext := segment_injective hinj hsegment.1 hother.1 hhead
          refine ⟨?_, hquery⟩
          rw [List.map_cons, htext, htexts]
          rfl

def join (parts : List Bytes) : Bytes := [slash].intercalate parts

theorem portable_slashless {c : Bytes} (h : Portable c) : slash ∉ c := fun hmem =>
  not_safe (h.safe slash hmem) (by decide) rfl

theorem splitOn_join {parts : List Bytes} (hne : parts ≠ []) (h : ∀ c ∈ parts, Portable c) :
    (join parts).splitOn slash = parts :=
  List.splitOn_intercalate slash (fun c hc => portable_slashless (h c hc)) hne

theorem join_head {parts : List Bytes} (hne : parts ≠ []) (h : ∀ c ∈ parts, Portable c) :
    ∃ b rest, join parts = b :: rest ∧ isSafe b = true := by
  cases parts with
  | nil => exact absurd rfl hne
  | cons c parts =>
    have hc := h c List.mem_cons_self
    cases c with
    | nil => exact absurd rfl hc.nonempty
    | cons b c =>
      have hb := hc.safe b List.mem_cons_self
      cases parts with
      | nil => exact ⟨b, c, by rw [join, List.intercalate_singleton], hb⟩
      | cons d parts => exact ⟨b, _, by rw [join, List.intercalate_cons_cons]; rfl, hb⟩

theorem mem_join {parts : List Bytes} (h : ∀ c ∈ parts, Portable c) :
    ∀ b ∈ join parts, isSafe b = true ∨ b = slash := by
  induction parts with
  | nil => exact fun b hb => absurd hb List.not_mem_nil
  | cons c parts ih =>
    obtain ⟨hc, hparts⟩ := List.forall_mem_cons.mp h
    intro b hb
    cases parts with
    | nil =>
      rw [join, List.intercalate_singleton] at hb
      exact .inl (hc.safe b hb)
    | cons d parts =>
      rw [join, List.intercalate_cons_cons] at hb
      rcases List.mem_append.mp hb with hb | hb
      · rcases List.mem_append.mp hb with hb | hb
        · exact .inl (hc.safe b hb)
        · exact .inr (List.mem_singleton.mp hb)
      · exact ih hparts b hb

theorem lowercase_join {parts : List Bytes} (h : ∀ c ∈ parts, Portable c) :
    lowercase (join parts) = join parts := by
  refine (List.map_congr_left fun b hb => ?_).trans (List.map_id _)
  rcases mem_join h b hb with hb | rfl
  · rw [toLowercase, (safe_bounds hb).2.2]
    rfl
  · rfl

theorem validatePath_join {parts : List Bytes} (hne : parts ≠ []) (h : ∀ c ∈ parts, Portable c) :
    validatePath (join parts) = .ok () := by
  have hall : parts.forM validatePathComponent = .ok () := by
    clear hne
    induction parts with
    | nil => rfl
    | cons c parts ih =>
      obtain ⟨hc, hparts⟩ := List.forall_mem_cons.mp h
      change (validatePathComponent c >>= fun _ => parts.forM validatePathComponent) = .ok ()
      rw [hc.valid]
      exact ih hparts
  obtain ⟨b, rest, hjoin, hb⟩ := join_head hne h
  rw [validatePath, splitOn_join hne h, if_neg, hall]
  rw [hjoin]
  rintro (hnil | hslash | hback)
  · cases hnil
  · exact not_safe hb (by decide) (Option.some.inj hslash)
  · exact not_safe hb (by decide) (Option.some.inj hback)

theorem sanitizeRel_join {parts : List Bytes} (hne : parts ≠ []) (h : ∀ c ∈ parts, Portable c) :
    sanitizeRel (join parts) = some (join parts) := by
  have hmap : (join parts).map (fun b => if b = backslash then slash else b) = join parts := by
    refine (List.map_congr_left fun b hb => ?_).trans (List.map_id _)
    rcases mem_join h b hb with hb | rfl
    · exact if_neg (not_safe hb (by decide))
    · rfl
  obtain ⟨b, rest, hjoin, hb⟩ := join_head hne h
  have hnames : ∀ c ∈ parts, c ≠ [] ∧ c ≠ [dot, dot] := fun c hc =>
    ⟨(h c hc).nonempty, fun heq => (h c hc).undotted (by rw [heq]; rfl)⟩
  simp only [sanitizeRel, hmap]
  rw [splitOn_join hne h, if_neg]
  rintro (hnil | hslash | hany)
  · rw [hjoin] at hnil
    cases hnil
  · rw [hjoin] at hslash
    exact not_safe hb (by decide) (Option.some.inj hslash)
  · obtain ⟨c, hc, hbad⟩ := List.any_eq_true.mp hany
    simp [hnames c hc] at hbad

theorem resolve_join {parts : List Bytes} (hne : parts ≠ []) (h : ∀ c ∈ parts, Portable c)
    (root : List Bytes) : resolve root (join parts) = root ++ parts := by
  obtain ⟨b, rest, hjoin, hb⟩ := join_head hne h
  have hhead : (join parts).head? ≠ some slash := by
    rw [hjoin]
    exact fun hslash => not_safe hb (by decide) (Option.some.inj hslash)
  rw [resolve, splitOn_join hne h, if_neg hhead]
  clear hne hhead hjoin
  induction parts generalizing root with
  | nil => simp
  | cons c parts ih =>
    obtain ⟨hc, hparts⟩ := List.forall_mem_cons.mp h
    have hdot : ¬ (c = [] ∨ c = [dot]) := by
      rintro (rfl | rfl)
      · exact hc.nonempty rfl
      · exact hc.undotted rfl
    have hdots : c ≠ [dot, dot] := fun heq => hc.undotted (by rw [heq]; rfl)
    rw [List.foldl_cons, if_neg hdot, if_neg hdots, ih hparts]
    simp

/-- The components of a resource's path. -/
def parts (digest : Bytes → Digest) : AssetResource → List Bytes
  | .source extension =>
    [track, encodeComponent digest (track ++ dot :: selectedExtension extension)]
  | .url u => track :: authorityComponent digest u ::
      mirrorSegments digest u.query (u.path.tail.splitOn slash)
  | .named namespace_ name =>
    [namedNamespace digest namespace_, encodeComponent digest name]

theorem path_eq {r : AssetResource} (h : r.Valid) : path digest r = join (parts digest r) := by
  cases r with
  | source extension => exact (by simp [path, sourcePath, join, parts, List.intercalate])
  | url u =>
    obtain ⟨hhost, hpath⟩ := h
    have hslash : u.path.head? = some slash := by
      by_contra hno
      simp [Url.pathSegments, hno] at hpath
    have hnone : ¬ (u.host = none ∨ u.pathSegments = none) := by
      rintro (hbad | hbad)
      · simp [hbad] at hhost
      · simp [hbad] at hpath
    simp only [path, urlMirror, hnone, hslash, if_false, if_true]
    rfl
  | named namespace_ name => exact (by simp [path, join, parts, List.intercalate])

theorem parts_portable (digest : Bytes → Digest) {r : AssetResource} (h : r.Valid) :
    ∀ c ∈ parts digest r, Portable c := by
  cases r with
  | source extension =>
    intro c hc
    simp only [parts, List.mem_cons, List.not_mem_nil, or_false] at hc
    have hne : track ++ dot :: selectedExtension extension ≠ [] :=
      List.append_ne_nil_of_left_ne_nil track_portable.nonempty _
    rcases hc with hc | hc <;> rw [hc]
    · exact track_portable
    · exact component_portable hne
  | url u =>
    intro c hc
    simp only [parts, List.mem_cons] at hc
    rcases hc with rfl | rfl | hc
    · exact track_portable
    · exact authority_portable u
    · exact mirror_portable _ _ c hc
  | named namespace_ name =>
    intro c hc
    simp only [parts, List.mem_cons, List.not_mem_nil, or_false] at hc
    rcases hc with rfl | rfl
    · exact namespace_portable h.1
    · exact component_portable h.2

theorem parts_ne_nil (r : AssetResource) : parts digest r ≠ [] := by
  cases r <;> exact List.cons_ne_nil _ _

theorem lowerTriplets_join (segments : List Bytes) :
    lowerTriplets (join segments) = join (segments.map lowerTriplets) := by
  induction segments with
  | nil => rfl
  | cons s segments ih =>
    cases segments with
    | nil => simp only [join, List.map_cons, List.map_nil, List.intercalate_singleton]
    | cons t segments =>
      have hcut := lowerTriplets_cut (c := slash) (by decide) (by decide) s (join (t :: segments))
      rw [ih] at hcut
      simp only [join, List.map_cons, List.intercalate_cons_cons, List.append_assoc,
        List.singleton_append] at hcut ⊢
      exact hcut

theorem segment_mem {segments : List Bytes} {s : Bytes} {b : UInt8} (hs : s ∈ segments)
    (hb : b ∈ s) : b ∈ join segments := by
  induction segments with
  | nil => exact absurd hs List.not_mem_nil
  | cons t segments ih =>
    cases segments with
    | nil =>
      rw [List.mem_singleton.mp hs] at hb
      rwa [join, List.intercalate_singleton]
    | cons u segments =>
      rw [join, List.intercalate_cons_cons]
      rcases List.mem_cons.mp hs with rfl | hs
      · exact List.mem_append_left _ (List.mem_append_left _ hb)
      · exact List.mem_append_right _ (ih hs)

theorem path_cons {u : Url} (h : (AssetResource.url u).Valid) :
    u.path = slash :: join (u.path.tail.splitOn slash) := by
  have hslash : u.path.head? = some slash := by
    by_contra hno
    simp [AssetResource.Valid, Url.pathSegments, hno] at h
  rw [join, List.intercalate_splitOn]
  exact (List.cons_head?_tail hslash).symm

theorem segment_escaped {u : Url} {s : Bytes} (hs : s ∈ u.path.tail.splitOn slash) : 0 ∉ s := by
  intro hmem
  have htail := segment_mem hs hmem
  rw [join, List.intercalate_splitOn] at htail
  exact u.path_escaped (List.mem_of_mem_tail htail)

theorem same_of_urls {u v : Url} (hu : (AssetResource.url u).Valid)
    (hv : (AssetResource.url v).Valid)
    (hinj : Set.InjOn digest ((AssetResource.url u).identities ∪ (AssetResource.url v).identities))
    (h : parts digest (.url u) = parts digest (.url v)) :
    (AssetResource.url u).Same (.url v) := by
  obtain ⟨hauthority, hmirror⟩ := List.cons.inj (List.cons.inj h).2
  have horigin := authority_injective hinj ⟨.inl (.inl rfl), .inl (.inr (.inl rfl))⟩
    ⟨.inr (.inl rfl), .inr (.inr (.inl rfl))⟩ hauthority
  obtain ⟨hsegments, hquery⟩ := mirror_injective hinj (fun w hw => .inl (.inr (.inr (.inr hw))))
    (fun w hw => .inr (.inr (.inr (.inr hw)))) (List.splitOn_ne_nil slash u.path.tail)
    (fun s hs => ⟨.inl (.inr (.inr (.inl ⟨s, hs, .inl rfl⟩))),
      .inl (.inr (.inr (.inl ⟨s, hs, .inr rfl⟩))), segment_escaped hs⟩)
    (fun s hs => ⟨.inr (.inr (.inr (.inl ⟨s, hs, .inl rfl⟩))),
      .inr (.inr (.inr (.inl ⟨s, hs, .inr rfl⟩))), segment_escaped hs⟩) hmirror
  refine ⟨horigin, ?_, hquery⟩
  have hpath {w : Url} (hw : (AssetResource.url w).Valid) : lowerTriplets w.path =
      slash :: join ((w.path.tail.splitOn slash).map lowerTriplets) := by
    rw [← lowerTriplets_join]
    conv_lhs => rw [path_cons hw]
    exact lowerTriplets_cut (by decide) (by decide) [] _
  rw [hpath hu, hpath hv, hsegments]

theorem same_of_parts {a b : AssetResource} (ha : a.Valid) (hb : b.Valid)
    (hinj : Set.InjOn digest (a.identities ∪ b.identities))
    (h : parts digest a = parts digest b) : a.Same b := by
  have hmirror (u : Url) : mirrorSegments digest u.query (u.path.tail.splitOn slash) ≠ [] :=
    mirror_ne_nil (List.splitOn_ne_nil slash u.path.tail)
  cases a with
  | source extension =>
    cases b with
    | source other =>
      have hcomponent := (List.cons.inj (List.cons.inj h).2).1
      have htext := component_injective hinj (.inl rfl) (.inr rfl) hcomponent
      exact (List.cons.inj (List.append_cancel_left htext)).2
    | url v => exact absurd (List.cons.inj (List.cons.inj h).2).2.symm (hmirror v)
    | named namespace_ name => exact absurd (List.cons.inj h).1.symm (namespace_ne_track namespace_)
  | url u =>
    cases b with
    | source other => exact absurd (List.cons.inj (List.cons.inj h).2).2 (hmirror u)
    | url v => exact same_of_urls ha hb hinj h
    | named namespace_ name => exact absurd (List.cons.inj h).1.symm (namespace_ne_track namespace_)
  | named namespace_ name =>
    cases b with
    | source other => exact absurd (List.cons.inj h).1 (namespace_ne_track namespace_)
    | url v => exact absurd (List.cons.inj h).1 (namespace_ne_track namespace_)
    | named otherNamespace other =>
      obtain ⟨hnamespace, hname⟩ := List.cons.inj h
      exact ⟨namespace_injective hinj (.inl (.inl rfl)) (.inr (.inl rfl)) hnamespace,
        component_injective hinj (.inl (.inr rfl)) (.inr (.inr rfl)) (List.cons.inj hname).1⟩

/-- The layout keeps its promises: a resource's path is accepted as it stands and leads below any
root, and two resources share one, even with its letters in lower case, only if they are the same.
So do the names it encodes. The fingerprint need only tell the texts of the two apart. -/
theorem paths_tell_resources {a b : AssetResource} (ha : a.Valid) (hb : b.Valid)
    (hinj : Set.InjOn digest (a.identities ∪ b.identities)) :
    (validatePath (path digest a) = .ok () ∧
        sanitizeRel (path digest a) = some (path digest a) ∧
        ∀ root, ∃ below ≠ [], resolve root (path digest a) = root ++ below) ∧
      (lowercase (path digest a) = lowercase (path digest b) → a.Same b) ∧
      ∀ v w : Bytes, v ≠ [] → w ≠ [] → Set.InjOn digest {v, w} →
        lowercase (encodeComponent digest v) = lowercase (encodeComponent digest w) → v = w := by
  have hparts := parts_portable digest ha
  have hparts' := parts_portable digest hb
  rw [path_eq ha, path_eq hb]
  refine ⟨⟨validatePath_join (parts_ne_nil a) hparts, sanitizeRel_join (parts_ne_nil a) hparts,
    fun root => ⟨_, parts_ne_nil a, resolve_join (parts_ne_nil a) hparts root⟩⟩, ?_, ?_⟩
  · intro h
    rw [lowercase_join hparts, lowercase_join hparts'] at h
    refine same_of_parts ha hb hinj ?_
    rw [← splitOn_join (parts_ne_nil a) hparts, h, splitOn_join (parts_ne_nil b) hparts']
  · intro v w hv hw hinj h
    rw [lowercase_safe (component_portable hv).safe,
      lowercase_safe (component_portable hw).safe] at h
    exact component_injective hinj (.inl rfl) (.inr rfl) h

/-- A segment of `cdn.example.com`, asked for with a query and a fragment. -/
def segmentUrl (query fragment : List Char) : AssetResource :=
  .url {
    scheme := ascii ['h', 't', 't', 'p', 's'], username := [], password := none
    host := some (ascii "cdn.example.com".toList), port := none
    path := ascii "/seg.m4s".toList
    query := some (ascii query), fragment := some (ascii fragment)
    host_slashless := by decide +kernel
    port_slashless := by decide
    path_escaped := by decide +kernel }

/-- The digests of the texts those URLs have, as numbers. -/
def digests : List (Bytes × ℕ) :=
  [(ascii "cdn.example.com".toList, 0x86d4f6f3a1c7d8c871432512aaa93c29),
    (ascii "https://cdn.example.com".toList, 0x25c99c0fceebec41f3694f0ce0a59c7c),
    (ascii "seg.m4s".toList, 0x3762c5e4b66c7bf3b97076c63a5816af),
    (ascii "seg.m4s".toList ++ 0 :: ascii "a=1&b=2".toList, 0x3848dbd30dba2b2c5016a44611c84d58),
    (ascii "seg.m4s".toList ++ 0 :: ascii "b=2&a=1".toList, 0x59c830afaf51e3ffad8b517b803c8c7a),
    (ascii "a=1&b=2".toList, 0x8e85be58c1c372ac29fe7bfa80d8ddcb),
    (ascii "b=2&a=1".toList, 0xa746b90cddac3e075db2f0c7b65aa5d0)]

def digestOf (text : Bytes) : Digest :=
  Vector.ofFn fun i => (((digests.lookup text).getD 0) >>> (8 * (15 - i.val))).toUInt8

example : path digestOf (segmentUrl "a=1&b=2".toList "first".toList) =
    ascii "track/cdn.example.com/seg~q8e85be58c1c372ac29fe7bfa80d8ddcb.m4s".toList := by
  decide +kernel

theorem digestOf_injOn : Set.InjOn digestOf { text | text ∈ digests.map Prod.fst } := by
  have h : ∀ v ∈ digests.map Prod.fst, ∀ w ∈ digests.map Prod.fst,
      digestOf v = digestOf w → v = w := by
    decide +kernel
  exact fun v hv w hw => h v hv w hw

theorem segmentUrl_identities {query : List Char} (fragment : List Char)
    (h : query = "a=1&b=2".toList ∨ query = "b=2&a=1".toList) :
    (segmentUrl query fragment).identities ⊆ { text | text ∈ digests.map Prod.fst } := by
  have hsegments : ∀ query ∈ ["a=1&b=2".toList, "b=2&a=1".toList],
      ascii query ∈ digests.map Prod.fst ∧ ∀ segment ∈ (ascii "seg.m4s".toList).splitOn slash,
        segment ∈ digests.map Prod.fst ∧
          leafIdentity segment (nonemptyQuery (some (ascii query))) ∈ digests.map Prod.fst := by
    decide +kernel
  have hquery : query ∈ ["a=1&b=2".toList, "b=2&a=1".toList] := by
    rcases h with rfl | rfl
    · exact List.mem_cons_self
    · exact List.mem_cons_of_mem _ List.mem_cons_self
  obtain ⟨hkey, hleaf⟩ := hsegments query hquery
  rintro text (rfl | rfl | ⟨segment, hsegment, rfl | rfl⟩ | hmem)
  · exact (by decide +kernel : ascii "cdn.example.com".toList ∈ digests.map Prod.fst)
  · exact (by decide +kernel : ascii "https://cdn.example.com".toList ∈ digests.map Prod.fst)
  · exact (hleaf text hsegment).1
  · exact (hleaf segment hsegment).2
  · have hsome : nonemptyQuery (some (ascii query)) = some (ascii query) := by
      rcases h with rfl | rfl <;> decide +kernel
    have htext : some (ascii query) = some text := hsome.symm.trans hmem
    exact Option.some.inj htext ▸ hkey

theorem paths_tell_queries :
    validatePath (path digestOf (segmentUrl "a=1&b=2".toList "first".toList)) = .ok () ∧
      lowercase (path digestOf (segmentUrl "a=1&b=2".toList "first".toList)) ≠
        lowercase (path digestOf (segmentUrl "b=2&a=1".toList "second".toList)) := by
  have hinj := digestOf_injOn.mono (Set.union_subset
    (segmentUrl_identities "first".toList (.inl rfl))
    (segmentUrl_identities "second".toList (.inr rfl)))
  have hslash : (ascii "/seg.m4s".toList).head? = some slash := by decide +kernel
  have hvalid (query fragment : List Char) : (segmentUrl query fragment).Valid :=
    ⟨rfl, by rw [Url.pathSegments, if_pos hslash]; rfl⟩
  have hpaths := paths_tell_resources (hvalid _ _) (hvalid _ _) hinj
  refine ⟨hpaths.1.1, fun h => ?_⟩
  exact absurd (hpaths.2.1 h).2.2 (by decide +kernel)

end CachePaths
