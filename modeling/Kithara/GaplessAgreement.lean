import Kithara.GaplessProbes

/-! When the two readings agree. A file of one track says what to trim by the one entry of its edit
list, else by its tag. Reading to the end finds this whenever the movie's timescale stands before
the track; stopping early finds it when, besides, no tag does. -/
namespace Mp4Scan

namespace Mp4Event

def timescale? : Mp4Event → Option ℕ
  | .movieTimescale timescale => some timescale
  | _ => none

def id? : Mp4Event → Option ℕ
  | .trackId id => some id
  | _ => none

def media? : Mp4Event → Option Mp4MediaTiming
  | .trackMediaTiming media => some media
  | _ => none

def rate? : Mp4Event → Option ℕ
  | .trackSampleRate rate => some rate
  | _ => none

def edits? : Mp4Event → Option (List Mp4EditListEntry)
  | .trackEditList edits => some edits
  | _ => none

def tag? : Mp4Event → Option GaplessInfo
  | .itunSmpb info =>
    if info.leadingFrames = 0 ∧ info.trailingFrames = 0 then none
    else some ⟨info.leadingFrames, info.trailingFrames⟩
  | _ => none

end Mp4Event

structure Contents where
  timescale : ℕ
  id : ℕ
  media : Mp4MediaTiming
  rate : ℕ
  edits : Option (List Mp4EditListEntry)
  tag : Option GaplessInfo

/-- What the single entry of the edit list says to trim. -/
def Contents.derived (c : Contents) : Option GaplessInfo :=
  (c.edits.bind singleEdit).bind fun edit => deriveFromEdit edit c.media c.rate c.timescale

def Contents.gapless (c : Contents) : Option GaplessInfo := c.derived.or c.tag

/-- A file of one track, with everything in it once, wherever it stands. -/
structure OneTrack (events : List Mp4Event) (c : Contents) : Prop where
  track : events.count .trackBegin = 1
  timescale : events.filterMap Mp4Event.timescale? = [c.timescale]
  id : events.filterMap Mp4Event.id? = [c.id]
  media : events.filterMap Mp4Event.media? = [c.media]
  rate : events.filterMap Mp4Event.rate? = [c.rate]
  edits : events.filterMap Mp4Event.edits? = c.edits.toList
  tag : events.filterMap Mp4Event.tag? = c.tag.toList

def ahead (events : List Mp4Event) : List Mp4Event :=
  events.takeWhile fun event => event ≠ .trackBegin

def Mp4Event.ofMovie : Mp4Event → Bool
  | .itunSmpb _ | .movieTimescale _ => true
  | _ => false

theorem movie_only {events : List Mp4Event} (h : Movie events)
    (hno : events.count .trackBegin = 0) :
    ∀ event ∈ events, event.ofMovie = true := by
  induction h with
  | nil => simp
  | timescale timescale _ ih =>
    rw [List.count_cons_of_ne (by simp)] at hno
    exact List.forall_mem_cons.mpr ⟨rfl, ih hno⟩
  | tag info _ ih =>
    rw [List.count_cons_of_ne (by simp)] at hno
    exact List.forall_mem_cons.mpr ⟨rfl, ih hno⟩
  | track => simp at hno

/-- A movie of one track is the movie's events around the events of the track. -/
theorem Movie.split {events : List Mp4Event} (h : Movie events)
    (hone : events.count .trackBegin = 1) :
    ∃ inner after, events = ahead events ++ (.trackBegin :: inner ++ .trackEnd :: after) ∧
      (∀ event ∈ ahead events, event.ofMovie = true) ∧ TrackEvents inner ∧
      ∀ event ∈ after, event.ofMovie = true := by
  induction h with
  | nil => simp at hone
  | @timescale events timescale _ ih =>
    rw [List.count_cons_of_ne (by simp)] at hone
    obtain ⟨inner, after, hevents, hahead, hinner, hafter⟩ := ih hone
    have hcons : ahead (.movieTimescale timescale :: events) =
        .movieTimescale timescale :: ahead events := by simp [ahead]
    refine ⟨inner, after, ?_, ?_, hinner, hafter⟩
    · rw [hcons, List.cons_append, ← hevents]
    · rw [hcons]
      exact List.forall_mem_cons.mpr ⟨rfl, hahead⟩
  | @tag events info _ ih =>
    rw [List.count_cons_of_ne (by simp)] at hone
    obtain ⟨inner, after, hevents, hahead, hinner, hafter⟩ := ih hone
    have hcons : ahead (.itunSmpb info :: events) = .itunSmpb info :: ahead events := by
      simp [ahead]
    refine ⟨inner, after, ?_, ?_, hinner, hafter⟩
    · rw [hcons, List.cons_append, ← hevents]
    · rw [hcons]
      exact List.forall_mem_cons.mpr ⟨rfl, hahead⟩
  | @track inner events hinner hrest ih =>
    have hnone : events.count .trackBegin = 0 := by
      simp only [List.cons_append, List.count_cons_self, List.count_append] at hone
      rw [List.count_cons_of_ne (by simp)] at hone
      omega
    have hcons : ahead (.trackBegin :: inner ++ .trackEnd :: events) = [] := by simp [ahead]
    refine ⟨inner, events, ?_, ?_, hinner, movie_only hrest hnone⟩
    · rw [hcons, List.nil_append]
    · rw [hcons]
      simp

theorem gives_ofMovie {box : BoxRef} {events : List Mp4Event} (h : Gives box events)
    (hkind : box.kind ≠ boxTrak) : ∀ event ∈ events, event.ofMovie = true := by
  unfold Gives at h
  rw [if_neg hkind] at h
  intro event hevent
  split at h
  · obtain ⟨timescale, rfl⟩ := h event hevent
    rfl
  · split at h
    · obtain ⟨info, rfl⟩ := h event hevent
      rfl
    · rw [h] at hevent
      cases hevent

theorem gives_track {box : BoxRef} {events : List Mp4Event} (h : Gives box events)
    (hkind : box.kind = boxTrak) : WholeTrack events := by
  have hmvhd : ¬ box.kind = boxMvhd := by
    rw [hkind]
    decide
  rwa [Gives, if_neg hmvhd, if_pos hkind] at h

/-- Of the child boxes of `moov`, those before the first track give what stands ahead of it, and
each `trak` gives one track. -/
theorem walked_ahead {data : Bytes} {stop pos : ℕ} {pieces : List (BoxRef × List Mp4Event)}
    (h : Walked data stop pos pieces) :
    ahead (pieces.flatMap Prod.snd) =
        (pieces.takeWhile fun piece => piece.1.kind ≠ boxTrak).flatMap Prod.snd ∧
      (pieces.flatMap Prod.snd).count .trackBegin =
        pieces.countP fun piece => piece.1.kind = boxTrak := by
  induction h with
  | nil => exact ⟨rfl, rfl⟩
  | @box pos box events rest _ hgives _ ih =>
    obtain ⟨hahead, hcount⟩ := ih
    rw [List.flatMap_cons, List.count_append, hcount]
    by_cases htrak : box.kind = boxTrak
    · obtain ⟨inner, hinner, rfl⟩ := gives_track hgives htrak
      have hnone : inner.count .trackBegin = 0 := List.count_eq_zero.mpr fun hmem => by
        cases hinner _ hmem
      constructor
      · simp [ahead, htrak]
      · simp [htrak, hnone, Nat.add_comm]
    · have hmovie := gives_ofMovie hgives htrak
      have hnone : events.count .trackBegin = 0 := List.count_eq_zero.mpr fun hmem => by
        cases hmovie _ hmem
      constructor
      · rw [List.takeWhile_cons_of_pos (by simpa using htrak), List.flatMap_cons, ← hahead]
        refine List.takeWhile_append_of_pos fun event hmem => decide_eq_true ?_
        rintro rfl
        cases hmovie _ hmem
      · rw [hnone, Nat.zero_add, List.countP_cons_of_neg (by simpa using htrak)]

theorem filterMap_track {β : Type} {found : Mp4Event → Option β} {events : List Mp4Event}
    (hevents : TrackEvents events)
    (hnone : ∀ event : Mp4Event, event.ofTrack = true → found event = none) :
    events.filterMap found = [] := by
  refine List.filterMap_eq_nil_iff.mpr fun event hmem => hnone event (hevents event hmem)

theorem filterMap_movie {β : Type} {found : Mp4Event → Option β} {events : List Mp4Event}
    (hevents : ∀ event ∈ events, event.ofMovie = true)
    (hnone : ∀ event : Mp4Event, event.ofMovie = true → found event = none) :
    events.filterMap found = [] := by
  refine List.filterMap_eq_nil_iff.mpr fun event hmem => hnone event (hevents event hmem)

/-- The parts of a file of one track, each with what it holds. -/
structure Parts (events : List Mp4Event) (c : Contents) (inner after : List Mp4Event) : Prop where
  whole : events = ahead events ++ (.trackBegin :: inner ++ .trackEnd :: after)
  ofAhead : ∀ event ∈ ahead events, event.ofMovie = true
  ofInner : TrackEvents inner
  ofAfter : ∀ event ∈ after, event.ofMovie = true
  timescale : (ahead events).filterMap Mp4Event.timescale? ++
    after.filterMap Mp4Event.timescale? = [c.timescale]
  tag : (ahead events).filterMap Mp4Event.tag? ++ after.filterMap Mp4Event.tag? = c.tag.toList
  id : inner.filterMap Mp4Event.id? = [c.id]
  media : inner.filterMap Mp4Event.media? = [c.media]
  rate : inner.filterMap Mp4Event.rate? = [c.rate]
  edits : inner.filterMap Mp4Event.edits? = c.edits.toList

theorem OneTrack.parts {events : List Mp4Event} {c : Contents} (h : OneTrack events c)
    (hmovie : Movie events) : ∃ inner after, Parts events c inner after := by
  obtain ⟨inner, after, hwhole, hbefore, htrack, hafter⟩ := hmovie.split h.track
  have hparts : ∀ {β : Type} (found : Mp4Event → Option β), found .trackBegin = none →
      found .trackEnd = none → events.filterMap found =
        (ahead events).filterMap found ++ (inner.filterMap found ++ after.filterMap found) := by
    intro β found hbegin hend
    conv_lhs => rw [hwhole]
    rw [List.filterMap_append, List.filterMap_append, List.filterMap_cons_none hbegin,
      List.filterMap_cons_none hend]
  have hinner : ∀ {β : Type} (found : Mp4Event → Option β), found .trackBegin = none →
      found .trackEnd = none → (∀ event : Mp4Event, event.ofMovie = true → found event = none) →
      inner.filterMap found = events.filterMap found := by
    intro β found hbegin hend hnone
    rw [hparts found hbegin hend, filterMap_movie hbefore hnone, filterMap_movie hafter hnone,
      List.nil_append, List.append_nil]
  have houter : ∀ {β : Type} (found : Mp4Event → Option β), found .trackBegin = none →
      found .trackEnd = none → (∀ event : Mp4Event, event.ofTrack = true → found event = none) →
      (ahead events).filterMap found ++ after.filterMap found = events.filterMap found := by
    intro β found hbegin hend hnone
    rw [hparts found hbegin hend, filterMap_track htrack hnone, List.nil_append]
  refine ⟨inner, after, hwhole, hbefore, htrack, hafter, ?_, ?_, ?_, ?_, ?_, ?_⟩
  · rw [houter Mp4Event.timescale? rfl rfl
      (by intro event; cases event <;> simp [Mp4Event.ofTrack, Mp4Event.timescale?])]
    exact h.timescale
  · rw [houter Mp4Event.tag? rfl rfl
      (by intro event; cases event <;> simp [Mp4Event.ofTrack, Mp4Event.tag?])]
    exact h.tag
  · rw [hinner Mp4Event.id? rfl rfl
      (by intro event; cases event <;> simp [Mp4Event.ofMovie, Mp4Event.id?])]
    exact h.id
  · rw [hinner Mp4Event.media? rfl rfl
      (by intro event; cases event <;> simp [Mp4Event.ofMovie, Mp4Event.media?])]
    exact h.media
  · rw [hinner Mp4Event.rate? rfl rfl
      (by intro event; cases event <;> simp [Mp4Event.ofMovie, Mp4Event.rate?])]
    exact h.rate
  · rw [hinner Mp4Event.edits? rfl rfl
      (by intro event; cases event <;> simp [Mp4Event.ofMovie, Mp4Event.edits?])]
    exact h.edits

/-- A field that some events set and no other touches has the last value set. -/
theorem foldl_field {α β γ : Type} {see : α → γ → α} {field : α → β} {set : γ → Option β}
    (h : ∀ a e, field (see a e) = (set e).getD (field a)) (events : List γ) (a : α) :
    field (events.foldl see a) = ((events.filterMap set).getLast?).getD (field a) := by
  induction events generalizing a with
  | nil => rfl
  | cons e events ih =>
    rw [List.foldl_cons, ih, h]
    cases hset : set e with
    | none => rw [List.filterMap_cons_none hset]; rfl
    | some value =>
      rw [List.filterMap_cons_some hset, List.getLast?_cons]
      cases (events.filterMap set).getLast? <;> rfl

/-- The last value that the events set, if any of them does. -/
def last {β : Type} (found : Mp4Event → Option β) (events : List Mp4Event) : Option β :=
  (events.filterMap found).getLast?

theorem last_cons {β : Type} (found : Mp4Event → Option β) (event : Mp4Event)
    (events : List Mp4Event) :
    last found (event :: events) = (last found events).or (found event) := by
  cases hevent : found event with
  | none => rw [last, List.filterMap_cons_none hevent, Option.or_none, last]
  | some value =>
    rw [last, List.filterMap_cons_some hevent, List.getLast?_cons, last]
    cases (events.filterMap found).getLast? <;> rfl

theorem last_append {β : Type} (found : Mp4Event → Option β) (xs ys : List Mp4Event) :
    last found (xs ++ ys) = (last found ys).or (last found xs) := by
  induction xs with
  | nil => exact Option.or_none.symm
  | cons event xs ih => rw [List.cons_append, last_cons, last_cons, ih, Option.or_assoc]

theorem last_map {β γ : Type} (found : Mp4Event → Option β) (f : β → γ) (events : List Mp4Event) :
    (events.filterMap fun event => (found event).map f).getLast? = (last found events).map f := by
  rw [last, ← List.getLast?_map, List.map_filterMap]

theorem last_of_toList {β : Type} {found : Mp4Event → Option β} {events : List Mp4Event}
    (value : Option β) (h : events.filterMap found = value.toList) : last found events = value := by
  rw [last, h]
  cases value <;> rfl

theorem Parts.scale {events inner after : List Mp4Event} {c : Contents}
    (h : Parts events c inner after) :
    last Mp4Event.timescale? (ahead events) =
      if .movieTimescale c.timescale ∈ ahead events then some c.timescale else none := by
  have hmem : .movieTimescale c.timescale ∈ ahead events ↔
      c.timescale ∈ (ahead events).filterMap Mp4Event.timescale? := by
    rw [List.mem_filterMap]
    constructor
    · intro hmem
      exact ⟨_, hmem, rfl⟩
    · rintro ⟨event, hmem, hevent⟩
      cases event with
      | movieTimescale timescale => cases hevent; exact hmem
      | _ => cases hevent
  have hwhole := h.timescale
  rw [last]
  cases hbefore : (ahead events).filterMap Mp4Event.timescale? with
  | nil =>
    rw [if_neg]
    · rfl
    · rw [hmem, hbefore]
      exact List.not_mem_nil
  | cons first rest =>
    rw [hbefore, List.cons_append, List.cons.injEq, List.append_eq_nil_iff] at hwhole
    obtain ⟨rfl, rfl, -⟩ := hwhole
    rw [if_pos]
    · rfl
    · rw [hmem, hbefore]
      exact List.mem_cons_self

def TrackState.see (track : TrackState) : Mp4Event → TrackState
  | .trackEditList entries => { track with edit := singleEdit entries }
  | .trackMediaTiming timing => { track with media := some timing }
  | .trackSampleRate rate => { track with sampleRate := some rate }
  | _ => track

theorem TrackState.see_all {events after inner : List Mp4Event} {c : Contents}
    (h : Parts events c inner after) :
    inner.foldl TrackState.see ⟨none, none, none⟩ =
      ⟨c.edits.bind singleEdit, some c.media, some c.rate⟩ := by
  have hedit : ∀ (t : TrackState) e, (t.see e).edit = (e.edits?.map singleEdit).getD t.edit := by
    intro t e
    cases e <;> rfl
  have hmedia : ∀ (t : TrackState) e, (t.see e).media = (e.media?.map some).getD t.media := by
    intro t e
    cases e <;> rfl
  have hrate : ∀ (t : TrackState) e,
      (t.see e).sampleRate = (e.rate?.map some).getD t.sampleRate := by
    intro t e
    cases e <;> rfl
  have hedit := foldl_field hedit inner ⟨none, none, none⟩
  have hmedia := foldl_field hmedia inner ⟨none, none, none⟩
  have hrate := foldl_field hrate inner ⟨none, none, none⟩
  rw [last_map, last_of_toList c.edits h.edits] at hedit
  rw [last_map, last_of_toList (some c.media) h.media] at hmedia
  rw [last_map, last_of_toList (some c.rate) h.rate] at hrate
  cases htrack : inner.foldl TrackState.see ⟨none, none, none⟩ with
  | mk edit media rate =>
    rw [htrack] at hedit hmedia hrate
    cases hmedia
    cases hrate
    dsimp only at hedit
    rw [hedit]
    cases c.edits <;> rfl

namespace GaplessProbe

theorem visit_steady : Steady visit := by
  intro event probe h
  cases event with
  | itunSmpb info => simp [Mp4Event.ofTrack] at h
  | trackEnd => simp [Mp4Event.ofTrack] at h
  | _ => rfl

theorem feed_track {events : List Mp4Event} (hevents : TrackEvents events) (probe : GaplessProbe) :
    feed visit events probe =
      (.continue, { probe with current := probe.current.map (events.foldl TrackState.see) }) := by
  induction events generalizing probe with
  | nil => cases probe with | mk current => cases current <;> rfl
  | cons event events ih =>
    obtain ⟨hevent, hevents⟩ := List.forall_mem_cons.mp hevents
    have hvisit : visit event probe =
        (.continue, { probe with current := probe.current.map fun track => track.see event }) := by
      cases event <;> cases probe with | mk current => cases current <;> first | rfl | cases hevent
    simp only [feed, hvisit, ih hevents, List.foldl_cons, Option.map_map, Function.comp_def]

theorem feed_movie {events : List Mp4Event} (hevents : ∀ event ∈ events, event.ofMovie = true)
    (probe : GaplessProbe) :
    (events.filterMap Mp4Event.tag? = [] ∧ feed visit events probe =
      (.continue, { probe with
        movieTimescale := (last Mp4Event.timescale? events).or probe.movieTimescale })) ∨
    ∃ tag rest scale, events.filterMap Mp4Event.tag? = tag :: rest ∧ feed visit events probe =
      (.break, { probe with movieTimescale := scale, itunsmpb := some tag }) := by
  induction events generalizing probe with
  | nil => exact Or.inl ⟨rfl, rfl⟩
  | cons event events ih =>
    obtain ⟨hevent, hrest⟩ := List.forall_mem_cons.mp hevents
    cases event with
    | itunSmpb info =>
      by_cases hzero : info.leadingFrames = 0 ∧ info.trailingFrames = 0
      · have htag : Mp4Event.tag? (.itunSmpb info) = none := by simp [Mp4Event.tag?, hzero]
        have hscale : last Mp4Event.timescale? (.itunSmpb info :: events) =
            last Mp4Event.timescale? events := rfl
        simp only [feed, visit, if_pos hzero, List.filterMap_cons_none htag, hscale]
        exact ih hrest probe
      · have htag : Mp4Event.tag? (.itunSmpb info) =
            some ⟨info.leadingFrames, info.trailingFrames⟩ := by simp [Mp4Event.tag?, hzero]
        refine Or.inr ⟨_, _, probe.movieTimescale, List.filterMap_cons_some htag, ?_⟩
        simp only [feed, visit, if_neg hzero]
    | movieTimescale timescale =>
      have hscale : last Mp4Event.timescale? (.movieTimescale timescale :: events) =
          (last Mp4Event.timescale? events).or (some timescale) := last_cons _ _ events
      have htag : Mp4Event.tag? (.movieTimescale timescale) = none := rfl
      simp only [feed, visit, List.filterMap_cons_none htag, hscale, Option.or_assoc]
      exact ih hrest { probe with movieTimescale := some timescale }
    | _ => cases hevent

end GaplessProbe

/-- What the edit list proves while the track is read: nothing, before the movie's timescale. -/
def Contents.proven (c : Contents) (events : List Mp4Event) : Option GaplessInfo :=
  if .movieTimescale c.timescale ∈ ahead events then c.derived else none

theorem Contents.proven_eq {events inner after : List Mp4Event} {c : Contents}
    (h : Parts events c inner after) :
    deriveFromTrack ⟨c.edits.bind singleEdit, some c.media, some c.rate⟩
      (last Mp4Event.timescale? (ahead events)) = c.proven events := by
  rw [h.scale, proven]
  split
  · rw [derived, deriveFromTrack]
    cases c.edits.bind singleEdit <;> rfl
  · rw [deriveFromTrack]
    cases c.edits.bind singleEdit <;> rfl

theorem GaplessProbe.feed_rest {events inner after : List Mp4Event} {c : Contents}
    (h : Parts events c inner after) (hnone : (ahead events).filterMap Mp4Event.tag? = []) :
    let probe : GaplessProbe := ⟨none, none, none, last Mp4Event.timescale? (ahead events)⟩
    let final := (feed visit (.trackBegin :: inner ++ .trackEnd :: after) probe).2
    final.elstDerived.or final.itunsmpb = (c.proven events).or c.tag := by
  have htags := h.tag
  rw [hnone, List.nil_append] at htags
  have hproven := Contents.proven_eq h
  simp only [List.cons_append, feed, feed_append, visit, feed_track h.ofInner, Option.map_some,
    TrackState.see_all h, finishTrack, hproven]
  cases hfound : c.proven events with
  | some info => rfl
  | none =>
    dsimp only
    rcases feed_movie h.ofAfter ⟨none, none, none, last Mp4Event.timescale? (ahead events)⟩ with
      ⟨hempty, hafter⟩ | ⟨tag, rest, scale, hfirst, hafter⟩
    · rw [hafter]
      rw [hempty] at htags
      cases htag : c.tag with
      | none => rfl
      | some found => simp [htag] at htags
    · rw [hafter]
      rw [hfirst] at htags
      cases htag : c.tag with
      | none => simp [htag] at htags
      | some found =>
        rw [htag, Option.toList_some, List.cons.injEq] at htags
        rw [htags.1]

theorem probeMp4Gapless_eq {data : Bytes} {pos : ℕ} {events : List Mp4Event} {c : Contents}
    (hscan : scannedEvents data pos = .ok events) (hone : OneTrack events c) :
    probeMp4Gapless data pos =
      .ok (if (ahead events).filterMap Mp4Event.tag? = [] then (c.proven events).or c.tag
        else c.tag) := by
  obtain ⟨hmovie, hfeed⟩ := scanMp4_feed hscan
  obtain ⟨inner, after, hparts⟩ := hone.parts hmovie
  rw [probeMp4Gapless, hfeed _ _ _ GaplessProbe.visit_steady]
  have htags := hparts.tag
  have hsplit : feed GaplessProbe.visit events .empty = _ :=
    congrArg (fun events => feed GaplessProbe.visit events .empty) hparts.whole
  rw [hsplit, feed_append]
  rcases GaplessProbe.feed_movie hparts.ofAhead .empty with
    ⟨hnone, hahead⟩ | ⟨tag, rest, scale, hsome, hahead⟩
  · rw [if_pos hnone, hahead]
    have hrest := GaplessProbe.feed_rest hparts hnone
    simp only [GaplessProbe.empty, Option.or_none]
    rw [← hrest]
  · rw [if_neg (by simp [hsome]), hahead]
    rw [hsome, List.cons_append] at htags
    cases htag : c.tag with
    | none => simp [htag] at htags
    | some found =>
      rw [htag, Option.toList_some, List.cons.injEq] at htags
      rw [htags.1]
      rfl

theorem deriveFromEdit_unsupported {edit : Mp4EditListEntry} {media : Mp4MediaTiming}
    {rate timescale : ℕ} (h : ¬(0 ≤ edit.mediaTime ∧ edit.mediaRate = 2 ^ 16)) :
    deriveFromEdit edit media rate timescale = none := by
  rw [deriveFromEdit]
  split
  · rfl
  · rename_i hrate
    rw [if_pos (by omega)]
    rfl

theorem Track.presentation_eq (id : ℕ) (media : Mp4MediaTiming) (rate : ℕ)
    (edits : Option (List Mp4EditListEntry)) (scale : Option ℕ) :
    ∃ p, (Track.mk (some id) (some media) (some rate)
        ((edits.map Edit.ofList).getD .identity)).presentation scale = some p ∧
      p.gapless = deriveFromTrack ⟨edits.bind singleEdit, some media, some rate⟩ scale := by
  rcases edits with _ | (_ | ⟨edit, _ | ⟨next, rest⟩⟩)
  · exact ⟨_, rfl, rfl⟩
  · exact ⟨_, rfl, rfl⟩
  · by_cases hkind : 0 ≤ edit.mediaTime ∧ edit.mediaRate = 2 ^ 16
    · refine ⟨_, rfl, ?_⟩
      simp only [Option.map_some, Option.getD_some, Edit.ofList, if_pos hkind]
      cases scale <;> rfl
    · refine ⟨_, rfl, ?_⟩
      simp only [Option.map_some, Option.getD_some, Edit.ofList, if_neg hkind]
      cases scale with
      | none => rfl
      | some scale => exact (deriveFromEdit_unsupported hkind).symm
  · exact ⟨_, rfl, rfl⟩

def Track.see (track : Track) : Mp4Event → Track
  | .trackId id => { track with id := some id }
  | .trackMediaTiming timing => { track with media := some timing }
  | .trackSampleRate rate => { track with sampleRate := some rate }
  | .trackEditList entries => { track with edit := Edit.ofList entries }
  | _ => track

theorem Track.see_all {events after inner : List Mp4Event} {c : Contents}
    (h : Parts events c inner after) :
    inner.foldl Track.see ⟨none, none, none, .identity⟩ =
      ⟨some c.id, some c.media, some c.rate, (c.edits.map Edit.ofList).getD .identity⟩ := by
  have hid : ∀ (t : Track) e, (t.see e).id = (e.id?.map some).getD t.id := by
    intro t e
    cases e <;> rfl
  have hmedia : ∀ (t : Track) e, (t.see e).media = (e.media?.map some).getD t.media := by
    intro t e
    cases e <;> rfl
  have hrate : ∀ (t : Track) e, (t.see e).sampleRate = (e.rate?.map some).getD t.sampleRate := by
    intro t e
    cases e <;> rfl
  have hedit : ∀ (t : Track) e, (t.see e).edit = (e.edits?.map Edit.ofList).getD t.edit := by
    intro t e
    cases e <;> rfl
  have hid := foldl_field hid inner ⟨none, none, none, .identity⟩
  have hmedia := foldl_field hmedia inner ⟨none, none, none, .identity⟩
  have hrate := foldl_field hrate inner ⟨none, none, none, .identity⟩
  have hedit := foldl_field hedit inner ⟨none, none, none, .identity⟩
  rw [last_map, last_of_toList (some c.id) h.id] at hid
  rw [last_map, last_of_toList (some c.media) h.media] at hmedia
  rw [last_map, last_of_toList (some c.rate) h.rate] at hrate
  rw [last_map, last_of_toList c.edits h.edits] at hedit
  cases htrack : inner.foldl Track.see ⟨none, none, none, .identity⟩ with
  | mk id media rate edit =>
    rw [htrack] at hid hmedia hrate hedit
    cases hid
    cases hmedia
    cases hrate
    cases hedit
    rfl

namespace Presentations

theorem visit_steady : Steady visit := fun _ _ _ => rfl

theorem feed_track {events : List Mp4Event} (hevents : TrackEvents events) (s : Presentations) :
    feed visit events s =
      (.continue, { s with track := s.track.map (events.foldl Track.see) }) := by
  induction events generalizing s with
  | nil => cases s with | mk _ track => cases track <;> rfl
  | cons event events ih =>
    obtain ⟨hevent, hrest⟩ := List.forall_mem_cons.mp hevents
    have hvisit : visit event s =
        (.continue, { s with track := s.track.map fun track => track.see event }) := by
      cases event <;> cases s with | mk _ track => cases track <;> first | rfl | cases hevent
    simp only [feed, hvisit, ih hrest, List.foldl_cons, Option.map_map, Function.comp_def]

theorem feed_movie {events : List Mp4Event} (hevents : ∀ event ∈ events, event.ofMovie = true)
    (s : Presentations) :
    feed visit events s = (.continue, { s with
      movieTimescale := (last Mp4Event.timescale? events).or s.movieTimescale
      itunsmpb := (last Mp4Event.tag? events).or s.itunsmpb }) := by
  induction events generalizing s with
  | nil => rfl
  | cons event events ih =>
    obtain ⟨hevent, hrest⟩ := List.forall_mem_cons.mp hevents
    have hvisit : visit event s = (.continue, { s with
        movieTimescale := event.timescale?.or s.movieTimescale
        itunsmpb := event.tag?.or s.itunsmpb }) := by
      cases event with
      | itunSmpb info =>
        by_cases hzero : info.leadingFrames = 0 ∧ info.trailingFrames = 0
        · have htag : ¬(info.leadingFrames ≠ 0 ∨ info.trailingFrames ≠ 0) := by omega
          simp only [visit, Mp4Event.tag?, if_pos hzero, if_neg htag]
          rfl
        · have htag : info.leadingFrames ≠ 0 ∨ info.trailingFrames ≠ 0 := by omega
          simp only [visit, Mp4Event.tag?, if_neg hzero, if_pos htag]
          rfl
      | movieTimescale timescale => rfl
      | _ => cases hevent
    simp only [feed, hvisit, ih hrest, last_cons, Option.or_assoc]

end Presentations

theorem probePresentations_eq {data : Bytes} {pos : ℕ} {events : List Mp4Event} {c : Contents}
    (hscan : scannedEvents data pos = .ok events) (hone : OneTrack events c) :
    ∃ p, probePresentations data pos = .ok [p] ∧ p.gapless = (c.proven events).or c.tag := by
  obtain ⟨hmovie, hfeed⟩ := scanMp4_feed hscan
  obtain ⟨inner, after, hparts⟩ := hone.parts hmovie
  obtain ⟨p, hp, hgapless⟩ := Track.presentation_eq c.id c.media c.rate c.edits
    (last Mp4Event.timescale? (ahead events))
  rw [Contents.proven_eq hparts] at hgapless
  have hsplit : feed Presentations.visit events .empty = _ :=
    congrArg (fun events => feed Presentations.visit events .empty) hparts.whole
  have htag : (last Mp4Event.tag? after).or (last Mp4Event.tag? (ahead events)) = c.tag := by
    rw [← last_append, last_of_toList]
    rw [List.filterMap_append, hparts.tag]
  rw [probePresentations, hfeed _ _ _ Presentations.visit_steady, hsplit]
  simp only [feed_append, Presentations.feed_movie hparts.ofAhead, List.cons_append, feed,
    Presentations.visit, Presentations.feed_track hparts.ofInner, Option.map_some,
    Track.see_all hparts, Presentations.empty, Presentations.feed_movie hparts.ofAfter,
    Option.or_none, hp, htag, Option.toList_some, List.nil_append]
  refine ⟨_, rfl, ?_⟩
  simp only [hgapless]

/-- In a file of one track, what is ahead is given by the child boxes of `moov` that stand before
the one `trak`. -/
theorem OneTrack.boxes {data : Bytes} {pos : ℕ} {events : List Mp4Event} {c : Contents}
    (hone : OneTrack events c) (hscan : scannedEvents data pos = .ok events) :
    ∃ moov pieces, FirstMoov data pos (some moov) ∧ Walked data moov.stop moov.start pieces ∧
      ahead events = (pieces.takeWhile fun piece => piece.1.kind ≠ boxTrak).flatMap Prod.snd ∧
      pieces.countP (fun piece => piece.1.kind = boxTrak) = 1 := by
  obtain ⟨moov, pieces, hfirst, rfl, hwalked⟩ := scannedEvents_walked hscan
  cases moov with
  | none =>
    have htrack := hone.track
    rw [show pieces = [] from hwalked] at htrack
    cases htrack
  | some moov =>
    obtain ⟨hahead, hcount⟩ := walked_ahead hwalked
    exact ⟨moov, pieces, hfirst, hwalked, hahead, hcount.symm.trans hone.track⟩

def ProbesAgree (data : Bytes) (pos : ℕ) (c : Contents) : Prop :=
  probeMp4Gapless data pos = .ok c.gapless ∧
    ∃ p, probePresentations data pos = .ok [p] ∧ p.gapless = c.gapless

theorem tag_enough (derived tag : Option GaplessInfo) :
    tag = derived.or tag ↔ derived = none ∨ derived = tag := by
  cases derived with
  | none => simp
  | some info => simp [eq_comm]

/-- The readings agree on a file of one track when its edit list says nothing or what the tag says,
and else exactly when the movie's timescale stands before the track and no tag does. -/
theorem probes_agree (data : Bytes) (pos : ℕ) (events : List Mp4Event) (c : Contents)
    (hscan : scannedEvents data pos = .ok events) (hone : OneTrack events c) :
    ProbesAgree data pos c ↔ c.derived = none ∨ c.derived = c.tag ∨
      .movieTimescale c.timescale ∈ ahead events ∧ (ahead events).filterMap Mp4Event.tag? = [] := by
  obtain ⟨p, hp, hgapless⟩ := probePresentations_eq hscan hone
  have hagree : ProbesAgree data pos c ↔
      (if (ahead events).filterMap Mp4Event.tag? = [] then (c.proven events).or c.tag
        else c.tag) = c.gapless ∧ (c.proven events).or c.tag = c.gapless := by
    rw [ProbesAgree, probeMp4Gapless_eq hscan hone, hp]
    constructor
    · rintro ⟨hprobe, q, hq, hsame⟩
      cases hq
      exact ⟨Except.ok.inj hprobe, hgapless.symm.trans hsame⟩
    · rintro ⟨hprobe, hsame⟩
      exact ⟨congrArg Except.ok hprobe, p, rfl, hgapless.trans hsame⟩
  rw [hagree, ← or_assoc, ← tag_enough, Contents.gapless, Contents.proven]
  by_cases hscale : .movieTimescale c.timescale ∈ ahead events
  · by_cases htag : (ahead events).filterMap Mp4Event.tag? = []
    · simp [hscale, htag]
    · simp [hscale, htag]
  · by_cases htag : (ahead events).filterMap Mp4Event.tag? = []
    · simp [hscale, htag]
    · simp [hscale, htag]

def be32 (n : ℕ) : Bytes :=
  [(n / 2 ^ 24).toUInt8, (n / 2 ^ 16).toUInt8, (n / 2 ^ 8).toUInt8, n.toUInt8]

def atom (kind payload : Bytes) : Bytes := be32 (8 + payload.length) ++ kind ++ payload

def mvhd (timescale : ℕ) : Bytes := atom boxMvhd (List.replicate 12 0 ++ be32 timescale)

/-- A track at 48 kHz whose one edit leaves frames out at both ends. -/
def trimmedTrack : Bytes :=
  atom boxTrak
    (atom boxTkhd (List.replicate 12 0 ++ be32 1) ++
      atom boxMdia
        (atom boxMdhd (List.replicate 12 0 ++ be32 48000 ++ be32 96000) ++
          atom boxMinf (atom boxStbl (atom boxStsd
            (List.replicate 4 0 ++ be32 1 ++ be32 36 ++ ascii ['m', 'p', '4', 'a'] ++
              List.replicate 24 0 ++ be32 (48000 * 2 ^ 16))))) ++
      atom boxEdts (atom boxElst
        (List.replicate 4 0 ++ be32 1 ++ be32 1916 ++ be32 2112 ++ be32 (2 ^ 16))))

def tagged : Bytes :=
  atom boxUdta (atom boxMeta (List.replicate 4 0 ++ atom boxIlst (atom boxFreeform
    (atom boxMean (List.replicate 4 0 ++ itunesMean) ++
      atom boxName (List.replicate 4 0 ++ itunsmpbName) ++
      atom boxData (be32 1 ++ be32 0 ++ ascii ['0', ' ', '1', '0', ' ', '2', '0', ' ', '0'])))))

def trimmedContents : Contents where
  timescale := 1000
  id := 1
  media := ⟨48000, 96000⟩
  rate := 48000
  edits := some [⟨2112, 1916, 2 ^ 16⟩]
  tag := some ⟨16, 32⟩

def trimmedEvents : List Mp4Event :=
  [.trackBegin, .trackId 1, .trackMediaTiming ⟨48000, 96000⟩,
    .trackCodec (ascii ['m', 'p', '4', 'a']), .trackSampleRate 48000,
    .trackEditList [⟨2112, 1916, 2 ^ 16⟩], .trackEnd]

/-- With the tag last, as encoders write it. -/
theorem probes_agree_tag_last :
    scannedEvents (atom boxMoov (mvhd 1000 ++ trimmedTrack ++ tagged)) 0 =
        .ok (.movieTimescale 1000 :: trimmedEvents ++ [.itunSmpb ⟨16, 32⟩]) ∧
      trimmedContents.gapless = some ⟨2112, 1920⟩ ∧
      ProbesAgree (atom boxMoov (mvhd 1000 ++ trimmedTrack ++ tagged)) 0 trimmedContents := by
  have hscan : scannedEvents (atom boxMoov (mvhd 1000 ++ trimmedTrack ++ tagged)) 0 =
      .ok (.movieTimescale 1000 :: trimmedEvents ++ [.itunSmpb ⟨16, 32⟩]) := by decide +kernel
  have hone : OneTrack (.movieTimescale 1000 :: trimmedEvents ++ [.itunSmpb ⟨16, 32⟩])
      trimmedContents := ⟨rfl, rfl, rfl, rfl, rfl, rfl, rfl⟩
  refine ⟨hscan, by decide +kernel, (probes_agree _ _ _ _ hscan hone).mpr ?_⟩
  exact Or.inr (Or.inr ⟨by decide, by decide⟩)

/-- A tag before the track overrides the track's edit list. -/
theorem early_tag_overrides :
    ∃ events, scannedEvents (atom boxMoov (mvhd 1000 ++ tagged ++ trimmedTrack)) 0 = .ok events ∧
      OneTrack events trimmedContents ∧ trimmedContents.gapless = some ⟨2112, 1920⟩ ∧
      probeMp4Gapless (atom boxMoov (mvhd 1000 ++ tagged ++ trimmedTrack)) 0 =
        .ok (some ⟨16, 32⟩) ∧
      ¬ ProbesAgree (atom boxMoov (mvhd 1000 ++ tagged ++ trimmedTrack)) 0 trimmedContents := by
  have hprobe : probeMp4Gapless (atom boxMoov (mvhd 1000 ++ tagged ++ trimmedTrack)) 0 =
      .ok (some ⟨16, 32⟩) := by decide +kernel
  have hgapless : trimmedContents.gapless = some ⟨2112, 1920⟩ := by decide +kernel
  refine ⟨.movieTimescale 1000 :: .itunSmpb ⟨16, 32⟩ :: trimmedEvents, by decide +kernel,
    ⟨rfl, rfl, rfl, rfl, rfl, rfl, rfl⟩, hgapless, hprobe, ?_⟩
  rintro ⟨hagree, -⟩
  rw [hprobe, hgapless] at hagree
  exact absurd hagree (by decide)

end Mp4Scan
