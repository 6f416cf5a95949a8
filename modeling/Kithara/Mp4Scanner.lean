import Kithara.Mp4Boxes

/-! The scan of an MP4 file: it walks the boxes of `moov` and hands what it finds to a visitor,
which may end it. A visitor that ends the scan only at a tag or the end of a track sees the events
of the file one after the other, and these come in tracks with the movie's own between them. -/
namespace Mp4Scan

inductive Mp4Event where
  | itunSmpb (info : ItunSmpb)
  | movieTimescale (timescale : ℕ)
  | trackBegin
  | trackId (id : ℕ)
  | trackCodec (fourcc : Bytes)
  | trackEditList (entries : List Mp4EditListEntry)
  | trackEnd
  | trackMediaTiming (timing : Mp4MediaTiming)
  | trackSampleRate (rate : ℕ)
  deriving DecidableEq, Repr

inductive ControlFlow where
  | «continue»
  | «break»
  deriving DecidableEq, Repr

abbrev Visitor (σ : Type) := Mp4Event → σ → ControlFlow × σ

abbrev Scanned (σ : Type) := Except Mp4MetadataError (ControlFlow × σ)

section

variable {σ : Type} (data : Bytes)

def walkChildren (visit : BoxRef → σ → Scanned σ) (stop pos : ℕ) (s : σ) : Scanned σ :=
  match h : nextBox data pos (some stop) with
  | .error e => .error e
  | .ok none => .ok (.continue, s)
  | .ok (some header) =>
    have : stop - header.stop < stop - pos := by
      have hspec := nextBox_some h
      have := hspec.2.2 stop rfl
      omega
    match visit header s with
    | .error e => .error e
    | .ok (.break, s) => .ok (.break, s)
    | .ok (.continue, s) => walkChildren visit stop header.stop s
termination_by stop - pos

def walkMatchingChild (targetKind : Bytes) (visit : BoxRef → σ → Scanned σ) (stop pos : ℕ) (s : σ) :
    Scanned σ :=
  walkChildren data (fun header s =>
    if header.kind = targetKind then visit header s else .ok (.continue, s)) stop pos s

def walkPayloadChild (targetKind : Bytes) (label : String) (visit : Bytes → σ → Scanned σ)
    (stop pos : ℕ) (s : σ) : Scanned σ :=
  walkMatchingChild data targetKind (fun header s =>
    (readPayload data header.start header.stop label).bind fun payload => visit payload s)
    stop pos s

variable (visitor : Visitor σ)

/-- Hands over an event, if there is one. -/
def visitSome (event : Option Mp4Event) (s : σ) : Scanned σ :=
  match event with
  | some event => .ok (visitor event s)
  | none => .ok (.continue, s)

def parseEdts (stop pos : ℕ) (s : σ) : Scanned σ :=
  walkPayloadChild data boxElst "elst" (fun payload s =>
    (parseElst payload).bind fun entries => .ok (visitor (.trackEditList entries) s)) stop pos s

def parseIlst (stop pos : ℕ) (s : σ) : Scanned σ :=
  walkMatchingChild data boxFreeform (fun header s =>
    (readItunsmpb data header.start header.stop).bind fun info =>
      visitSome visitor (info.map Mp4Event.itunSmpb) s) stop pos s

def parseMeta (stop pos : ℕ) (s : σ) : Scanned σ :=
  if 4 ≤ stop - pos then
    match readExact data pos 4 with
    | none => .error .io
    | some probe =>
      walkMatchingChild data boxIlst
        (fun header s => parseIlst data visitor header.stop header.start s)
        stop (if probe = [0, 0, 0, 0] then pos + 4 else pos) s
  else
    walkMatchingChild data boxIlst
      (fun header s => parseIlst data visitor header.stop header.start s) stop pos s

def parseUdta (stop pos : ℕ) (s : σ) : Scanned σ :=
  walkMatchingChild data boxMeta (fun header s => parseMeta data visitor header.stop header.start s)
    stop pos s

def parseStbl (stop pos : ℕ) (s : σ) : Scanned σ :=
  walkPayloadChild data boxStsd "stsd" (fun payload s =>
    match visitSome visitor ((parseStsdCodec payload).map Mp4Event.trackCodec) s with
    | .error e => .error e
    | .ok (.break, s) => .ok (.break, s)
    | .ok (.continue, s) =>
      visitSome visitor ((parseStsdSampleRate payload).map Mp4Event.trackSampleRate) s) stop pos s

def parseMinf (stop pos : ℕ) (s : σ) : Scanned σ :=
  walkMatchingChild data boxStbl (fun header s => parseStbl data visitor header.stop header.start s)
    stop pos s

/-- Reads a payload and hands over what is in it. -/
def visitPayload (label : String) (event : Bytes → Option Mp4Event) (header : BoxRef) (s : σ) :
    Scanned σ :=
  (readPayload data header.start header.stop label).bind fun payload =>
    visitSome visitor (event payload) s

def parseMdia (stop pos : ℕ) (s : σ) : Scanned σ :=
  walkChildren data (fun header s =>
    if header.kind = boxMdhd then
      visitPayload data visitor "mdhd"
        (fun payload => (parseMdhd payload).map Mp4Event.trackMediaTiming) header s
    else if header.kind = boxMinf then parseMinf data visitor header.stop header.start s
    else .ok (.continue, s)) stop pos s

def parseTrak (stop pos : ℕ) (s : σ) : Scanned σ :=
  match visitor .trackBegin s with
  | (.break, s) => .ok (.break, s)
  | (.continue, s) =>
    match walkChildren data (fun header s =>
        if header.kind = boxTkhd then
          visitPayload data visitor "tkhd"
            (fun payload => (parseTkhdTrackId payload).map Mp4Event.trackId) header s
        else if header.kind = boxMdia then parseMdia data visitor header.stop header.start s
        else if header.kind = boxEdts then parseEdts data visitor header.stop header.start s
        else .ok (.continue, s)) stop pos s with
    | .error e => .error e
    | .ok (walk, s) =>
      let (close, s) := visitor .trackEnd s
      .ok (if walk = .break ∨ close = .break then .break else .continue, s)

def visitMoovChild (header : BoxRef) (s : σ) : Scanned σ :=
  if header.kind = boxMvhd then
    visitPayload data visitor "mvhd"
      (fun payload => (parseMvhdTimescale payload).map Mp4Event.movieTimescale) header s
  else if header.kind = boxTrak then parseTrak data visitor header.stop header.start s
  else if header.kind = boxMeta then parseMeta data visitor header.stop header.start s
  else if header.kind = boxUdta then parseUdta data visitor header.stop header.start s
  else .ok (.continue, s)

def parseMoov (stop pos : ℕ) (s : σ) : Scanned σ :=
  walkChildren data (visitMoovChild data visitor) stop pos s

/-- The first `moov` from a place on is walked; what the visitor made of it is the answer. -/
def scanMp4 (pos : ℕ) (s : σ) : Except Mp4MetadataError σ :=
  match h : nextBox data pos none with
  | .error e => .error e
  | .ok none => .ok s
  | .ok (some header) =>
    have : data.length - header.stop < data.length - pos := by
      have hspec := nextBox_some h
      omega
    if header.kind = boxMoov then (parseMoov data visitor header.stop header.start s).map Prod.snd
    else scanMp4 header.stop s
termination_by data.length - pos

end

section

variable {σ : Type} {data : Bytes} {visit : BoxRef → σ → Scanned σ} {stop pos : ℕ} {s : σ}

theorem walkChildren_error {e : Mp4MetadataError} (h : nextBox data pos (some stop) = .error e) :
    walkChildren data visit stop pos s = .error e := by
  rw [walkChildren]
  split <;> simp_all

theorem walkChildren_end (h : nextBox data pos (some stop) = .ok none) :
    walkChildren data visit stop pos s = .ok (.continue, s) := by
  rw [walkChildren]
  split <;> simp_all

theorem walkChildren_box {header : BoxRef} (h : nextBox data pos (some stop) = .ok (some header)) :
    walkChildren data visit stop pos s =
      match visit header s with
      | .error e => .error e
      | .ok (.break, s) => .ok (.break, s)
      | .ok (.continue, s) => walkChildren data visit stop header.stop s := by
  rw [walkChildren]
  split <;> simp_all

end

section

variable {σ : Type} {data : Bytes} {visitor : Visitor σ} {pos : ℕ} {s : σ}

theorem scanMp4_error {e : Mp4MetadataError} (h : nextBox data pos none = .error e) :
    scanMp4 data visitor pos s = .error e := by
  rw [scanMp4]
  split <;> simp_all

theorem scanMp4_end (h : nextBox data pos none = .ok none) :
    scanMp4 data visitor pos s = .ok s := by
  rw [scanMp4]
  split <;> simp_all

theorem scanMp4_box {header : BoxRef} (h : nextBox data pos none = .ok (some header)) :
    scanMp4 data visitor pos s =
      if header.kind = boxMoov
      then (parseMoov data visitor header.stop header.start s).map Prod.snd
      else scanMp4 data visitor header.stop s := by
  rw [scanMp4]
  split <;> simp_all

end

/-- Every event is kept and none ends the scan. -/
def collect : Visitor (List Mp4Event) := fun event events => (.continue, events ++ [event])

def scannedEvents (data : Bytes) (pos : ℕ) : Except Mp4MetadataError (List Mp4Event) :=
  scanMp4 data collect pos []

/-- The visitor gets the events one after the other, until one ends the scan. -/
def feed {σ : Type} (visitor : Visitor σ) : List Mp4Event → σ → ControlFlow × σ
  | [], s => (.continue, s)
  | event :: events, s =>
    match visitor event s with
    | (.break, s) => (.break, s)
    | (.continue, s) => feed visitor events s

/-- An event of a track, between its begin and its end. -/
def Mp4Event.ofTrack : Mp4Event → Bool
  | .trackId _ | .trackCodec _ | .trackEditList _ | .trackMediaTiming _ | .trackSampleRate _ => true
  | .itunSmpb _ | .movieTimescale _ | .trackBegin | .trackEnd => false

/-- The visitor ends the scan at no event of a track but its end. -/
def Steady {σ : Type} (visitor : Visitor σ) : Prop :=
  ∀ event s, event.ofTrack = true ∨ event = .trackBegin → (visitor event s).1 = .continue

/-- What a `moov` gives: the movie's events, and whole tracks. -/
inductive Movie : List Mp4Event → Prop
  | nil : Movie []
  | timescale {events : List Mp4Event} (timescale : ℕ) (h : Movie events) :
      Movie (.movieTimescale timescale :: events)
  | tag {events : List Mp4Event} (info : ItunSmpb) (h : Movie events) :
      Movie (.itunSmpb info :: events)
  | track {inner events : List Mp4Event} (hinner : ∀ event ∈ inner, event.ofTrack = true)
      (h : Movie events) : Movie (.trackBegin :: inner ++ .trackEnd :: events)

theorem feed_append {σ : Type} (visitor : Visitor σ) (xs ys : List Mp4Event) (s : σ) :
    feed visitor (xs ++ ys) s =
      match feed visitor xs s with
      | (.break, s) => (.break, s)
      | (.continue, s) => feed visitor ys s := by
  induction xs generalizing s with
  | nil => rfl
  | cons event xs ih =>
    simp only [List.cons_append, feed]
    cases visitor event s with
    | mk flow s' =>
      cases flow with
      | «continue» => exact ih s'
      | «break» => rfl

theorem Movie.append {xs ys : List Mp4Event} (h : Movie xs) (h' : Movie ys) : Movie (xs ++ ys) := by
  induction h with
  | nil => exact h'
  | timescale timescale _ ih => exact .timescale timescale ih
  | tag info _ ih => exact .tag info ih
  | @track inner events hinner _ ih =>
    have := Movie.track hinner ih
    simpa [List.append_assoc] using this

/-- A part of the scan that collects the events of a kind `p`, and gives them to any visitor that
is steady. -/
def Traced (p : List Mp4Event → Prop) (scan : ∀ σ : Type, Visitor σ → σ → Scanned σ) : Prop :=
  ∀ acc result, scan _ collect acc = .ok result →
    ∃ events, p events ∧ result = (.continue, acc ++ events) ∧
      ∀ σ (visitor : Visitor σ) s, Steady visitor →
        scan σ visitor s = .ok (feed visitor events s)

/-- A kind of events that parts of a walk make together. -/
structure Joins (p : List Mp4Event → Prop) : Prop where
  nil : p []
  append : ∀ {xs ys}, p xs → p ys → p (xs ++ ys)

theorem joins_movie : Joins Movie := ⟨.nil, Movie.append⟩

theorem joins_all (q : Mp4Event → Prop) : Joins fun events => ∀ event ∈ events, q event :=
  ⟨by simp, fun h h' event hevent => (List.mem_append.mp hevent).elim (h event) (h' event)⟩

section

variable {p : List Mp4Event → Prop} {data : Bytes}

theorem traced_skip (hp : Joins p) : Traced p fun _ _ s => .ok (.continue, s) := by
  intro acc result h
  cases h
  exact ⟨[], hp.nil, by simp, fun _ _ _ _ => rfl⟩

theorem traced_event {event : Mp4Event} (h : p [event]) :
    Traced p fun _ visitor s => .ok (visitor event s) := by
  intro acc result hok
  cases hok
  refine ⟨[event], h, rfl, fun σ visitor s _ => ?_⟩
  simp only [feed]
  cases visitor event s with
  | mk flow s' => cases flow <;> rfl

theorem traced_visitSome (hp : Joins p) {event : Option Mp4Event} (h : ∀ e ∈ event, p [e]) :
    Traced p fun _ visitor s => visitSome visitor event s := by
  cases event with
  | none => exact traced_skip hp
  | some event => exact traced_event (h event rfl)

theorem traced_bind {α : Type} (found : Except Mp4MetadataError α)
    {scan : α → ∀ σ : Type, Visitor σ → σ → Scanned σ}
    (h : ∀ a, Traced p fun σ visitor s => scan a σ visitor s) :
    Traced p fun σ visitor s => found.bind fun a => scan a σ visitor s := by
  cases found with
  | error e =>
    intro acc result hok
    cases hok
  | ok a => exact h a

theorem traced_if {c : Prop} [Decidable c] {scan scan' : ∀ σ : Type, Visitor σ → σ → Scanned σ}
    (h : Traced p scan) (h' : Traced p scan') :
    Traced p fun σ visitor s => if c then scan σ visitor s else scan' σ visitor s := by
  by_cases hc : c
  · simpa only [if_pos hc] using h
  · simpa only [if_neg hc] using h'

theorem traced_seq (hp : Joins p) {scan scan' : ∀ σ : Type, Visitor σ → σ → Scanned σ}
    (h : Traced p scan) (h' : Traced p scan') :
    Traced p fun σ visitor s =>
      match scan σ visitor s with
      | .error e => .error e
      | .ok (.break, s) => .ok (.break, s)
      | .ok (.continue, s) => scan' σ visitor s := by
  intro acc result hok
  dsimp only at hok ⊢
  cases hfirst : scan _ collect acc with
  | error e =>
    rw [hfirst] at hok
    cases hok
  | ok first =>
    obtain ⟨xs, hxs, rfl, hfeed⟩ := h acc first hfirst
    rw [hfirst] at hok
    obtain ⟨ys, hys, rfl, hfeed'⟩ := h' _ _ hok
    refine ⟨xs ++ ys, hp.append hxs hys, by rw [List.append_assoc], fun σ visitor s hsteady => ?_⟩
    simp only [hfeed σ visitor s hsteady, feed_append]
    cases feed visitor xs s with
    | mk flow s' =>
      cases flow with
      | «continue» => exact hfeed' σ visitor s' hsteady
      | «break» => rfl

theorem Traced.congr {scan scan' : ∀ σ : Type, Visitor σ → σ → Scanned σ} (h : Traced p scan)
    (heq : ∀ σ visitor s, scan' σ visitor s = scan σ visitor s) : Traced p scan' := by
  intro acc result hok
  obtain ⟨events, hevents, hresult, hfeed⟩ := h acc result ((heq _ _ _).symm.trans hok)
  exact ⟨events, hevents, hresult, fun σ visitor s hs => (heq _ _ _).trans (hfeed σ visitor s hs)⟩

theorem Traced.mono {q : List Mp4Event → Prop} {scan : ∀ σ : Type, Visitor σ → σ → Scanned σ}
    (h : Traced p scan) (hpq : ∀ {events}, p events → q events) : Traced q scan := by
  intro acc result hok
  obtain ⟨events, hevents, hresult, hfeed⟩ := h acc result hok
  exact ⟨events, hpq hevents, hresult, hfeed⟩

theorem traced_failed {e : Mp4MetadataError} : Traced p fun _ _ _ => .error e := by
  intro acc result hok
  cases hok

theorem traced_walk (hp : Joins p)
    {visit : ∀ σ : Type, Visitor σ → BoxRef → σ → Scanned σ}
    (h : ∀ header, Traced p fun σ visitor s => visit σ visitor header s) (stop pos : ℕ) :
    Traced p fun σ visitor s => walkChildren data (visit σ visitor) stop pos s := by
  induction hleft : stop - pos using Nat.strong_induction_on generalizing pos with
  | _ left ih =>
    cases hnext : nextBox data pos (some stop) with
    | error e => exact traced_failed.congr fun _ _ _ => walkChildren_error hnext
    | ok found =>
      cases found with
      | none => exact (traced_skip hp).congr fun _ _ _ => walkChildren_end hnext
      | some header =>
        have hspec := nextBox_some hnext
        have hlimit := hspec.2.2 stop rfl
        exact (traced_seq hp (h header) (ih (stop - header.stop) (by omega) header.stop rfl)).congr
          fun _ _ _ => walkChildren_box hnext

theorem traced_matching (hp : Joins p) (kind : Bytes)
    {visit : ∀ σ : Type, Visitor σ → BoxRef → σ → Scanned σ}
    (h : ∀ header, Traced p fun σ visitor s => visit σ visitor header s) (stop pos : ℕ) :
    Traced p fun σ visitor s => walkMatchingChild data kind (visit σ visitor) stop pos s :=
  traced_walk hp (fun header => traced_if (h header) (traced_skip hp)) stop pos

theorem traced_payload (hp : Joins p) (kind : Bytes) (label : String)
    {visit : ∀ σ : Type, Visitor σ → Bytes → σ → Scanned σ}
    (h : ∀ payload, Traced p fun σ visitor s => visit σ visitor payload s) (stop pos : ℕ) :
    Traced p fun σ visitor s => walkPayloadChild data kind label (visit σ visitor) stop pos s := by
  refine traced_matching hp kind (fun header => ?_) stop pos
  exact traced_bind _ h

theorem traced_visitPayload (hp : Joins p) (label : String) {event : Bytes → Option Mp4Event}
    (h : ∀ payload, ∀ e ∈ event payload, p [e]) (header : BoxRef) :
    Traced p fun _ visitor s => visitPayload data visitor label event header s :=
  traced_bind _ fun payload => traced_visitSome hp (h payload)

end

section

variable {data : Bytes}

abbrev TrackEvents (events : List Mp4Event) : Prop := ∀ event ∈ events, event.ofTrack = true

abbrev TagEvents (events : List Mp4Event) : Prop := ∀ event ∈ events, ∃ info, event = .itunSmpb info

abbrev TimescaleEvents (events : List Mp4Event) : Prop :=
  ∀ event ∈ events, ∃ timescale, event = .movieTimescale timescale

def WholeTrack (events : List Mp4Event) : Prop :=
  ∃ inner, TrackEvents inner ∧ events = .trackBegin :: inner ++ [.trackEnd]

/-- What a child box of `moov` gives. -/
def Gives (box : BoxRef) (events : List Mp4Event) : Prop :=
  if box.kind = boxMvhd then TimescaleEvents events
  else if box.kind = boxTrak then WholeTrack events
  else if box.kind = boxMeta ∨ box.kind = boxUdta then TagEvents events
  else events = []

/-- The child boxes from a place to a limit, each with the events it gives. -/
inductive Walked (data : Bytes) (stop : ℕ) : ℕ → List (BoxRef × List Mp4Event) → Prop
  | nil {pos : ℕ} (h : nextBox data pos (some stop) = .ok none) : Walked data stop pos []
  | box {pos : ℕ} {box : BoxRef} {events : List Mp4Event} {rest : List (BoxRef × List Mp4Event)}
      (h : nextBox data pos (some stop) = .ok (some box)) (hgives : Gives box events)
      (hrest : Walked data stop box.stop rest) : Walked data stop pos ((box, events) :: rest)

theorem joins_track : Joins fun events => ∀ event ∈ events, event.ofTrack = true := joins_all _

theorem joins_tag : Joins TagEvents := joins_all _

theorem joins_timescale : Joins TimescaleEvents := joins_all _

theorem movie_of_tags {events : List Mp4Event} (h : TagEvents events) : Movie events := by
  induction events with
  | nil => exact .nil
  | cons event events ih =>
    obtain ⟨⟨info, rfl⟩, hrest⟩ := List.forall_mem_cons.mp h
    exact .tag info (ih hrest)

theorem movie_of_timescales {events : List Mp4Event} (h : TimescaleEvents events) :
    Movie events := by
  induction events with
  | nil => exact .nil
  | cons event events ih =>
    obtain ⟨⟨timescale, rfl⟩, hrest⟩ := List.forall_mem_cons.mp h
    exact .timescale timescale (ih hrest)

theorem movie_of_gives {box : BoxRef} {events : List Mp4Event} (h : Gives box events) :
    Movie events := by
  unfold Gives at h
  split at h
  · exact movie_of_timescales h
  · split at h
    · obtain ⟨inner, hinner, rfl⟩ := h
      exact .track hinner .nil
    · split at h
      · exact movie_of_tags h
      · exact h ▸ .nil

theorem traced_parseEdts (stop pos : ℕ) :
    Traced TrackEvents fun _ visitor s => parseEdts data visitor stop pos s := by
  refine traced_payload joins_track boxElst "elst" (fun payload => ?_) stop pos
  exact traced_bind _ fun entries => traced_event (by simp [Mp4Event.ofTrack])

theorem traced_parseStbl (stop pos : ℕ) :
    Traced TrackEvents fun _ visitor s => parseStbl data visitor stop pos s := by
  refine traced_payload joins_track boxStsd "stsd" (fun payload => ?_) stop pos
  refine traced_seq joins_track (traced_visitSome joins_track ?_) (traced_visitSome joins_track ?_)
  · intro e he
    obtain ⟨fourcc, _, rfl⟩ := Option.map_eq_some_iff.mp he
    simp [Mp4Event.ofTrack]
  · intro e he
    obtain ⟨rate, _, rfl⟩ := Option.map_eq_some_iff.mp he
    simp [Mp4Event.ofTrack]

theorem traced_parseMinf (stop pos : ℕ) :
    Traced TrackEvents fun _ visitor s => parseMinf data visitor stop pos s :=
  traced_matching joins_track boxStbl (fun header => traced_parseStbl header.stop header.start)
    stop pos

theorem traced_parseMdia (stop pos : ℕ) :
    Traced TrackEvents fun _ visitor s => parseMdia data visitor stop pos s := by
  refine traced_walk joins_track (fun header => ?_) stop pos
  refine traced_if (traced_visitPayload joins_track "mdhd" (fun payload e he => ?_) header)
    (traced_if (traced_parseMinf header.stop header.start) (traced_skip joins_track))
  obtain ⟨timing, _, rfl⟩ := Option.map_eq_some_iff.mp he
  simp [Mp4Event.ofTrack]

theorem Steady.feed_track {σ : Type} {visitor : Visitor σ} (h : Steady visitor)
    {events : List Mp4Event} (hevents : TrackEvents events) (s : σ) :
    (feed visitor events s).1 = .continue := by
  induction events generalizing s with
  | nil => rfl
  | cons event events ih =>
    have hfirst := h event s (Or.inl (hevents event List.mem_cons_self))
    simp only [feed]
    cases hvisit : visitor event s with
    | mk flow s' =>
      rw [hvisit] at hfirst
      obtain rfl : flow = .continue := hfirst
      exact ih (fun e he => hevents e (List.mem_cons_of_mem _ he)) s'

/-- The children of a track, between its begin and its end. -/
theorem traced_track {scan : ∀ σ : Type, Visitor σ → σ → Scanned σ} (h : Traced TrackEvents scan) :
    Traced WholeTrack fun σ visitor s =>
      match visitor .trackBegin s with
      | (.break, s) => .ok (.break, s)
      | (.continue, s) =>
        match scan σ visitor s with
        | .error e => .error e
        | .ok (walk, s) =>
          let (close, s) := visitor .trackEnd s
          .ok (if walk = .break ∨ close = .break then .break else .continue, s) := by
  intro acc result hok
  simp only [collect] at hok
  cases hscan : scan _ collect (acc ++ [.trackBegin]) with
  | error e =>
    rw [hscan] at hok
    cases hok
  | ok walked =>
    obtain ⟨inner, hinner, rfl, hfeed⟩ := h _ walked hscan
    rw [hscan] at hok
    cases hok
    refine ⟨.trackBegin :: inner ++ [.trackEnd], ⟨inner, hinner, rfl⟩, by simp, ?_⟩
    intro σ visitor s hsteady
    have hbegin := hsteady .trackBegin s (Or.inr rfl)
    simp only [List.cons_append, feed]
    cases hvisit : visitor .trackBegin s with
    | mk flow s₁ =>
      rw [hvisit] at hbegin
      obtain rfl : flow = .continue := hbegin
      have hflow := hsteady.feed_track hinner s₁
      simp only [hfeed σ visitor s₁ hsteady, feed_append]
      cases hwalk : feed visitor inner s₁ with
      | mk flow s₂ =>
        rw [hwalk] at hflow
        obtain rfl : flow = .continue := hflow
        simp only [feed]
        cases visitor .trackEnd s₂ with
        | mk close s₃ => cases close <;> rfl

theorem traced_parseTrak (stop pos : ℕ) :
    Traced WholeTrack fun _ visitor s => parseTrak data visitor stop pos s := by
  refine traced_track (traced_walk joins_track (fun header => ?_) stop pos)
  refine traced_if (traced_visitPayload joins_track "tkhd" (fun payload e he => ?_) header)
    (traced_if (traced_parseMdia header.stop header.start)
      (traced_if (traced_parseEdts header.stop header.start) (traced_skip joins_track)))
  obtain ⟨id, _, rfl⟩ := Option.map_eq_some_iff.mp he
  simp [Mp4Event.ofTrack]

theorem traced_parseIlst (stop pos : ℕ) :
    Traced TagEvents fun _ visitor s => parseIlst data visitor stop pos s := by
  refine traced_matching joins_tag boxFreeform (fun header => ?_) stop pos
  refine traced_bind _ fun info => traced_visitSome joins_tag fun e he => ?_
  obtain ⟨info, _, rfl⟩ := Option.map_eq_some_iff.mp he
  exact List.forall_mem_singleton.mpr ⟨info, rfl⟩

theorem traced_parseMeta (stop pos : ℕ) :
    Traced TagEvents fun _ visitor s => parseMeta data visitor stop pos s := by
  have hwalk : ∀ first, Traced TagEvents fun _ visitor s =>
      walkMatchingChild data boxIlst
        (fun header s => parseIlst data visitor header.stop header.start s) stop first s :=
    traced_matching joins_tag boxIlst
      (fun header => traced_parseIlst header.stop header.start) stop
  refine traced_if ?_ (hwalk pos)
  cases readExact data pos 4 with
  | none => exact traced_failed
  | some probe => exact hwalk _

theorem traced_parseUdta (stop pos : ℕ) :
    Traced TagEvents fun _ visitor s => parseUdta data visitor stop pos s :=
  traced_matching joins_tag boxMeta (fun header => traced_parseMeta header.stop header.start)
    stop pos

theorem traced_visitMoovChild (header : BoxRef) :
    Traced (Gives header) fun _ visitor s => visitMoovChild data visitor header s := by
  unfold Gives visitMoovChild
  by_cases hmvhd : header.kind = boxMvhd
  · simp only [if_pos hmvhd]
    refine traced_visitPayload joins_timescale "mvhd" (fun payload e he => ?_) header
    obtain ⟨timescale, _, rfl⟩ := Option.map_eq_some_iff.mp he
    exact List.forall_mem_singleton.mpr ⟨timescale, rfl⟩
  by_cases htrak : header.kind = boxTrak
  · simp only [if_neg hmvhd, if_pos htrak]
    exact traced_parseTrak header.stop header.start
  by_cases hmeta : header.kind = boxMeta
  · simp only [if_neg hmvhd, if_neg htrak, if_pos hmeta, if_pos (Or.inl hmeta)]
    exact traced_parseMeta header.stop header.start
  by_cases hudta : header.kind = boxUdta
  · simp only [if_neg hmvhd, if_neg htrak, if_neg hmeta, if_pos hudta, if_pos (Or.inr hudta)]
    exact traced_parseUdta header.stop header.start
  · simp only [if_neg hmvhd, if_neg htrak, if_neg hmeta, if_neg hudta,
      if_neg (not_or.mpr ⟨hmeta, hudta⟩)]
    exact traced_skip ⟨rfl, fun hxs hys => by rw [hxs, hys, List.append_nil]⟩

theorem traced_parseMoov (stop pos : ℕ) :
    Traced Movie fun _ visitor s => parseMoov data visitor stop pos s :=
  traced_walk joins_movie (fun header => (traced_visitMoovChild header).mono movie_of_gives)
    stop pos

/-- The events of a `moov` are those of its child boxes, in the order the boxes stand in. -/
theorem parseMoov_walked {stop pos : ℕ} {acc : List Mp4Event}
    {result : ControlFlow × List Mp4Event}
    (h : parseMoov data collect stop pos acc = .ok result) :
    ∃ pieces, Walked data stop pos pieces ∧
      result = (.continue, acc ++ pieces.flatMap Prod.snd) := by
  induction hleft : stop - pos using Nat.strong_induction_on generalizing pos acc with
  | _ left ih =>
    unfold parseMoov at h
    cases hnext : nextBox data pos (some stop) with
    | error e =>
      rw [walkChildren_error hnext] at h
      cases h
    | ok found =>
      cases found with
      | none =>
        rw [walkChildren_end hnext] at h
        cases h
        exact ⟨[], .nil hnext, by simp⟩
      | some header =>
        have hspec := nextBox_some hnext
        have hlimit := hspec.2.2 stop rfl
        rw [walkChildren_box hnext] at h
        cases hvisit : visitMoovChild data collect header acc with
        | error e =>
          rw [hvisit] at h
          cases h
        | ok visited =>
          obtain ⟨events, hgives, rfl, -⟩ := traced_visitMoovChild header acc visited hvisit
          rw [hvisit] at h
          obtain ⟨pieces, hwalked, rfl⟩ := ih (stop - header.stop) (by omega) h rfl
          refine ⟨(header, events) :: pieces, .box hnext hgives hwalked, ?_⟩
          rw [List.flatMap_cons, List.append_assoc]

/-- A file that is scanned to its end gives the movie's events and whole tracks, and any steady
visitor gets them one after the other. -/
theorem scanMp4_feed {pos : ℕ} {events : List Mp4Event}
    (h : scannedEvents data pos = .ok events) :
    Movie events ∧ ∀ (σ : Type) (visitor : Visitor σ) (s : σ), Steady visitor →
      scanMp4 data visitor pos s = .ok (feed visitor events s).2 := by
  unfold scannedEvents at h
  induction hleft : data.length - pos using Nat.strong_induction_on generalizing pos with
  | _ left ih =>
    cases hnext : nextBox data pos none with
    | error e =>
      rw [scanMp4_error hnext] at h
      cases h
    | ok found =>
      cases found with
      | none =>
        rw [scanMp4_end hnext] at h
        cases h
        exact ⟨.nil, fun σ visitor s _ => scanMp4_end hnext⟩
      | some header =>
        have hspec := nextBox_some hnext
        rw [scanMp4_box hnext] at h
        by_cases hmoov : header.kind = boxMoov
        · rw [if_pos hmoov] at h
          cases hparse : parseMoov data collect header.stop header.start [] with
          | error e =>
            rw [hparse] at h
            cases h
          | ok result =>
            obtain ⟨all, hmovie, rfl, hfeed⟩ := traced_parseMoov _ _ _ _ hparse
            rw [hparse] at h
            cases h
            refine ⟨hmovie, fun σ visitor s hsteady => ?_⟩
            have hparsed : parseMoov data visitor header.stop header.start s =
                .ok (feed visitor all s) := hfeed σ visitor s hsteady
            rw [scanMp4_box hnext, if_pos hmoov, hparsed]
            rfl
        · rw [if_neg hmoov] at h
          obtain ⟨hmovie, hfeed⟩ := ih (data.length - header.stop) (by omega) h rfl
          refine ⟨hmovie, fun σ visitor s hsteady => ?_⟩
          rw [scanMp4_box hnext, if_neg hmoov]
          exact hfeed σ visitor s hsteady

/-- The first `moov` from a place on, if there is one. -/
inductive FirstMoov (data : Bytes) : ℕ → Option BoxRef → Prop
  | none {pos : ℕ} (h : nextBox data pos none = .ok none) : FirstMoov data pos none
  | here {pos : ℕ} {moov : BoxRef} (h : nextBox data pos none = .ok (some moov))
      (hkind : moov.kind = boxMoov) : FirstMoov data pos moov
  | after {pos : ℕ} {box : BoxRef} {moov : Option BoxRef}
      (h : nextBox data pos none = .ok (some box)) (hkind : box.kind ≠ boxMoov)
      (hafter : FirstMoov data box.stop moov) : FirstMoov data pos moov

/-- The events of a file are those of the child boxes of its first `moov`. -/
theorem scannedEvents_walked {pos : ℕ} {events : List Mp4Event}
    (h : scannedEvents data pos = .ok events) :
    ∃ moov pieces, FirstMoov data pos moov ∧ events = pieces.flatMap Prod.snd ∧
      match moov with
      | none => pieces = []
      | some moov => Walked data moov.stop moov.start pieces := by
  unfold scannedEvents at h
  induction hleft : data.length - pos using Nat.strong_induction_on generalizing pos with
  | _ left ih =>
    cases hnext : nextBox data pos none with
    | error e =>
      rw [scanMp4_error hnext] at h
      cases h
    | ok found =>
      cases found with
      | none =>
        rw [scanMp4_end hnext] at h
        cases h
        exact ⟨none, [], .none hnext, rfl, rfl⟩
      | some header =>
        have hspec := nextBox_some hnext
        rw [scanMp4_box hnext] at h
        by_cases hmoov : header.kind = boxMoov
        · rw [if_pos hmoov] at h
          cases hparse : parseMoov data collect header.stop header.start [] with
          | error e =>
            rw [hparse] at h
            cases h
          | ok result =>
            obtain ⟨pieces, hwalked, rfl⟩ := parseMoov_walked hparse
            rw [hparse] at h
            cases h
            exact ⟨some header, pieces, .here hnext hmoov, rfl, hwalked⟩
        · rw [if_neg hmoov] at h
          obtain ⟨moov, pieces, hfirst, hevents, hwalked⟩ :=
            ih (data.length - header.stop) (by omega) h rfl
          exact ⟨moov, pieces, .after hnext hmoov hfirst, hevents, hwalked⟩

end

end Mp4Scan
