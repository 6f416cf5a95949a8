import Kithara.FilePeers

/-! What the consumers of a remote file make of its bytes: what they store is the resource's, what
they commit is all of it, and a superseded fetch changes nothing. -/
namespace FileSession

open CheckedArithmetic FileResponses RangeResponses StorageMemory TransitionSystem
open PendingResources (SessionPhase WriterClaim)

structure Faithful (resource : List UInt8) (s : State) : Prop where
  single : ∀ i, (s.fetches.filter (·.owner = i)).length ≤ 1
  genuine : Genuine resource s.session.core
  whole : Whole resource s.session.core

/-- A callback whose epoch is superseded leaves the resource and its session as they were, and what
the consumers know of them. -/
def StaleInert (remote : Remote) (s : State) (a : Action) : Prop :=
  ∀ id f, s.fetch? id = some f → s.session.isCurrent f.epoch = false →
    (∃ served, a = .respond id served) ∨ (∃ size granted, a = .chunk id size granted) ∨
      (∃ error stored removed, a = .complete id error stored removed) →
    (next remote s a).session = s.session ∧
      ∀ i, ((next remote s a).consumer i).coord = (s.consumer i).coord

/-- A peer without a fetch that waits as the writer has stored what lies below the watermark, and
waits for a resource that goes on beyond it. -/
def PendingSated (resource : List UInt8) (s : State) (a : Action) : Prop :=
  ∀ i budget stored removed, a = .pollNext i budget stored removed →
    (s.consumer i).inflight.isNone = true → budget ≠ 0 →
    ∀ t, s.pollNext i budget stored removed = (t, .pending) → Sated resource i t

/-- A body ends without an error only where all of it has arrived. -/
def unbroken (s : State) : Action → Bool
  | .complete id none _ _ => (s.fetch? id).all fun f => f.body.all fun b => b.next = b.finish
  | _ => true

variable {resource : List UInt8}

section State

variable {s t : State} {i : ℕ}

theorem fetch?_mem {id : ℕ} {f : Fetch} (h : s.fetch? id = some f) : f ∈ s.fetches ∧ f.id = id := by
  refine ⟨List.mem_of_find?_eq_some h, ?_⟩
  simpa using List.find?_some h

theorem Inv.unique (h : Inv resource s) {f g : Fetch} (hf : f ∈ s.fetches) (hg : g ∈ s.fetches)
    (hid : f.id = g.id) : f = g :=
  List.inj_on_of_nodup_map h.distinct hf hg hid

theorem Inv.setFetch (h : Inv resource s) {f f' : Fetch} (hid : f'.id = f.id)
    (howner : f'.owner = f.owner) (hf : f ∈ s.fetches)
    (hsound : FetchSound resource s.session f') :
    Inv resource (s.onFetch f.id fun _ => f') := by
  refine h.onFetch fun g hg hgid => ?_
  obtain rfl := h.unique hf hg hgid.symm
  exact ⟨hsound, hid, howner⟩

theorem captureContentMetadata_spec (h : Inv resource s) {f : Fetch} {served : Served}
    (hdelivers : (responseContract served.response.headers f.start f.endExclusive).invalid = false →
      Delivers resource f.start f.endExclusive served) :
    let r := s.captureContentMetadata i served.response.headers f.start f.endExclusive
    Inv resource r.1 ∧ Quiet s r.1 ∧ r.1.session = s.session ∧
      (r.2 = true →
        (responseContract served.response.headers f.start f.endExclusive).invalid = false) := by
  dsimp only
  rw [State.captureContentMetadata]
  split
  · exact ⟨h, .refl s, rfl, fun hno => by cases hno⟩
  · rename_i hvalid
    have hvalid := Bool.eq_false_iff.mpr hvalid
    split
    · exact ⟨h, .refl s, rfl, fun _ => hvalid⟩
    · rename_i current _ htotal
      refine ⟨h.setTotal ?_, quiet_update s rfl, rfl, fun _ => hvalid⟩
      rintro n ⟨⟩
      exact (hdelivers hvalid).total current htotal
    · exact ⟨h, .refl s, rfl, fun _ => hvalid⟩

theorem onResponse_inv (h : Inv resource s) {f : Fetch} (hf : f ∈ s.fetches)
    (hnone : f.body = none) {served : Served} {url : String}
    (accepted : served.accepted url f.range = true) (honest : served.honest resource = true) :
    Inv resource (s.onResponse f served) := by
  have hsound := h.fetch f hf
  have hdelivers : (responseContract served.response.headers f.start f.endExclusive).invalid =
      false → Delivers resource f.start f.endExclusive served :=
    valid_delivers honest (hsound.range ▸ accepted)
  have hbounded := honest_bounded honest
  have bounded : ∀ b ∈ some (⟨served.first, served.finish,
      (contentLength served.response.headers).isSome⟩ : Body),
      b.next ≤ b.finish ∧ b.finish ≤ resource.length := by
    rintro b ⟨⟩
    exact hbounded
  rw [State.onResponse]
  dsimp only
  split
  · -- the epoch is current
    have answered : ∀ {t : State} {valid : Bool}, Inv resource t → Quiet s t →
        t.session = s.session → (valid = true →
          (responseContract served.response.headers f.start f.endExclusive).invalid = false) →
        Inv resource (t.onFetch f.id fun f => { f with
          body := some ⟨served.first, served.finish,
            (contentLength served.response.headers).isSome⟩
          invalidResponse := !valid }) := by
      intro t valid ht hquiet hsession hvalid
      refine ht.onFetch fun g hg hgid => ⟨?_, rfl, rfl⟩
      obtain rfl := h.unique hf (hquiet.fetches ▸ hg) hgid.symm
      refine ⟨hsession ▸ hsound.claimed, hsound.range, bounded, fun hno => (by cases hno), ?_⟩
      rintro - - hok b ⟨⟩
      have hd := hdelivers (hvalid (by simpa using hok))
      exact ⟨(hsound.fresh hnone).trans hd.first.symm, hd.whole⟩
    split
    · obtain ⟨hinv, hquiet, hsession, hvalid⟩ :=
        captureContentMetadata_spec (i := f.owner) h hdelivers
      exact answered hinv hquiet hsession hvalid
    · exact answered h (.refl s) rfl fun hok => by simpa using hok
  · rename_i hstale
    refine h.onFetch fun g hg hgid => ⟨?_, rfl, rfl⟩
    obtain rfl := h.unique hf hg hgid.symm
    exact ⟨hsound.claimed, hsound.range, bounded, fun hno => (by cases hno),
      fun hcur => absurd hcur hstale⟩

theorem onChunk_inv (h : Inv resource s) {f : Fetch} (hf : f ∈ s.fetches) {b : Body}
    (hb : f.body = some b) (hbroken : f.broken = false) {n : ℕ} (granted : Bool)
    (hn : b.next + n ≤ b.finish) : Inv resource (s.onChunk resource f b n granted) := by
  have hsound := h.fetch f hf
  obtain ⟨-, hfinish⟩ := hsound.bounded b hb
  have bounded : ∀ b' ∈ some { b with next := b.next + n },
      b'.next ≤ b'.finish ∧ b'.finish ≤ resource.length := by
    rintro b' ⟨⟩
    exact ⟨hn, hfinish⟩
  have ended : ∀ {t : Session} {f' : Fetch}, Sound resource t → After s.session t →
      f'.id = f.id → f'.owner = f.owner → f'.epoch = f.epoch → f'.range = f.range →
      f'.start = f.start → f'.endExclusive = f.endExclusive →
      (f'.broken = true ∨ t.isCurrent f.epoch = false) →
      Inv resource (({ s with session := t } : State).onFetch f.id fun _ =>
        { f' with body := some { b with next := b.next + n } }) := by
    intro t f' ht hafter hid howner hepoch hrange hstart hend hover
    have hinv := h.withSession ht hafter
    refine hinv.setFetch hid howner hf ⟨?_, ?_, bounded, fun hno => (by cases hno), ?_⟩
    · exact hepoch ▸ hsound.claimed.trans_le hafter.claims
    · show f'.range = fetchRange f'.start f'.endExclusive
      rw [hrange, hstart, hend]
      exact hsound.range
    · intro hcur hopen
      rcases hover with hbrk | hstale
      · exact absurd (hbrk.symm.trans hopen) (by decide)
      · rw [hepoch, hstale] at hcur
        cases hcur
  rw [State.onChunk, State.fetchWriterWrite]
  by_cases hinvalid : f.invalidResponse = true
  · rw [if_pos hinvalid]
    exact ended h.session (.refl _) rfl rfl rfl rfl rfl rfl (.inl rfl)
  · rw [if_neg hinvalid]
    have hvalid := Bool.eq_false_iff.mpr hinvalid
    cases hadd : checkedAdd 64 f.offset ((resource.drop b.next).take n).length with
    | none => exact ended h.session (.refl _) rfl rfl rfl rfl rfl rfl (.inl rfl)
    | some finish =>
      dsimp only
      have hplaced := fun hcur => hsound.placed hcur hbroken hvalid b hb
      cases hcur : s.session.isCurrent f.epoch with
      | false =>
        have hnone : ∀ data, s.session.writeAt f.epoch f.offset data granted =
            (s.session, none) := fun data => by
          rw [Session.writeAt, if_neg (by simp [hcur])]
        rw [hnone]
        exact ended h.session (.refl _) rfl rfl rfl rfl rfl rfl (.inr hcur)
      | true =>
        obtain ⟨hoffset, hwhole⟩ := hplaced hcur
        obtain ⟨hs, hafter⟩ := writeAt_spec h.session f.epoch granted
          fun _ => (hn.trans hfinish : b.next + n ≤ resource.length)
        rw [hoffset]
        have hlen : ((resource.drop b.next).take n).length = n := by
          rw [List.length_take, List.length_drop]
          omega
        rw [hoffset, hlen, checkedAdd] at hadd
        split at hadd
        · obtain rfl := Option.some_inj.mp hadd
          cases hwrite :
              s.session.writeAt f.epoch b.next ((resource.drop b.next).take n) granted with
          | mk t answer =>
            rw [hwrite] at hs hafter
            cases answer with
            | none =>
              rw [Session.writeAt, if_pos hcur] at hwrite
              split at hwrite <;> cases hwrite
            | some ok =>
              cases ok with
              | false => exact ended hs hafter rfl rfl rfl rfl rfl rfl (.inl rfl)
              | true =>
                show Inv resource (({ s with session := t } : State).onFetch f.id fun _ =>
                  { f with offset := b.next + n, body := some { b with next := b.next + n } })
                refine (h.withSession hs hafter).setFetch rfl rfl hf
                  ⟨hsound.claimed.trans_le hafter.claims, hsound.range, bounded,
                    fun hno => (by cases hno), ?_⟩
                rintro - - - b' ⟨⟩
                exact ⟨rfl, hwhole⟩
        · cases hadd

def Arrived (f : Fetch) (error : Option NetError) : Prop :=
  error = none → f.broken = false ∧ ∃ b, f.body = some b ∧ b.next = b.finish

/-- The length a fetch would commit is that of the resource. -/
theorem resolved_length (h : Inv resource s) {f : Fetch} (hf : f ∈ s.fetches)
    {error : Option NetError} (harrived : Arrived f error)
    (hvalid : error = none → f.invalidResponse = false)
    (hcur : s.session.isCurrent f.epoch = true) :
    ∀ n ∈ s.resolvedFinalLen i (f.completion error), n = resource.length := by
  intro n hn
  rw [State.resolvedFinalLen] at hn
  cases htotal : (s.consumer i).coord.totalBytes with
  | some total =>
    rw [htotal, Option.some_or] at hn
    obtain rfl := Option.some_inj.mp hn
    exact h.total i _ htotal
  | none =>
    rw [htotal, Option.none_or] at hn
    split at hn
    · rename_i hplain
      obtain ⟨herror, hstart, hend⟩ := hplain
      have herror : error = none := Option.isNone_iff_eq_none.mp herror
      have hstart : f.start = 0 := hstart
      have hend : f.endExclusive = none := hend
      obtain ⟨hopen, b, hb, hdone⟩ := harrived herror
      obtain ⟨hoffset, hwhole⟩ := (h.fetch f hf).placed hcur hopen (hvalid herror) b hb
      have hlength := hwhole (by rw [hstart, hend]; rfl)
      have hn : checkedAdd 64 f.start (f.offset - f.start) = some n := hn
      rw [checkedAdd] at hn
      split at hn
      · have hsum := Option.some_inj.mp hn
        omega
      · cases hn
    · cases hn

theorem commitFetch_inv (h : Inv resource s) {f : Fetch} (hf : f ∈ s.fetches)
    {error : Option NetError} (harrived : Arrived f error)
    (hvalid : error = none → f.invalidResponse = false) (stored removed : Bool) :
    let r := s.commitFetchIfComplete i f.epoch (f.completion error) stored removed
    Inv resource r.1 ∧ Quiet s r.1 := by
  dsimp only
  rw [State.commitFetchIfComplete]
  split
  · rename_i hcur
    have hlength := resolved_length (i := i) h hf harrived hvalid hcur
    cases hfinal : s.resolvedFinalLen i (f.completion error) with
    | none => exact ⟨h, .refl s⟩
    | some finalLen =>
      obtain rfl := hlength finalLen hfinal
      obtain ⟨hinv, hquiet, -⟩ := commitIfComplete_spec h i f.epoch stored removed
      exact ⟨hinv, hquiet⟩
  · exact ⟨h, .refl s⟩

theorem failCurrentEpoch_inv (h : Inv resource s) (epoch : WriterClaim) (reason : String)
    (removed : Bool) : Inv resource (s.failCurrentEpoch epoch reason removed) ∧
      Quiet s (s.failCurrentEpoch epoch reason removed) := by
  obtain ⟨hsound, hafter⟩ := fail_spec h.session epoch reason removed
  exact ⟨h.withSession hsound hafter, quiet_session s _⟩

theorem settleFetchError_inv (h : Inv resource s) (describe : NetError → String)
    (epoch : WriterClaim) (c : FetchCompletion) (removed : Bool) :
    Inv resource (s.settleFetchError describe epoch c removed).1 ∧
      Quiet s (s.settleFetchError describe epoch c removed).1 := by
  rw [State.settleFetchError]
  split
  · exact ⟨h, .refl s⟩
  · obtain ⟨hsound, hafter⟩ := relinquish_spec h.session epoch
    exact ⟨h.withSession hsound hafter, quiet_session s _⟩
  · split
    · exact failCurrentEpoch_inv h epoch _ removed
    · exact ⟨h, .refl s⟩

theorem completeFetch_inv (h : Inv resource s) (describe : NetError → String) {f : Fetch}
    (hf : f ∈ s.fetches) {error : Option NetError} (harrived : Arrived f error)
    (stored removed : Bool) :
    Inv resource (s.completeFetch describe i f.epoch (f.completion error) stored removed) ∧
      Quiet s (s.completeFetch describe i f.epoch (f.completion error) stored removed) := by
  rw [State.completeFetch]
  split
  · exact failCurrentEpoch_inv h f.epoch _ removed
  · rename_i hplain
    have hvalid : error = none → f.invalidResponse = false := by
      rintro rfl
      have hno : ¬ (f.invalidResponse && true) = true := hplain
      simpa using hno
    rw [State.finalizeFetch]
    have first : Inv resource (if !(f.completion error).invalidResponse &&
          State.isCancelled (f.completion error).error then
        s.commitFetchIfComplete i f.epoch (f.completion error) stored removed
        else (s, false)).1 ∧ Quiet s (if !(f.completion error).invalidResponse &&
          State.isCancelled (f.completion error).error then
        s.commitFetchIfComplete i f.epoch (f.completion error) stored removed
        else (s, false)).1 := by
      split
      · exact commitFetch_inv h hf harrived hvalid stored removed
      · exact ⟨h, .refl s⟩
    generalize (if !(f.completion error).invalidResponse &&
          State.isCancelled (f.completion error).error then
        s.commitFetchIfComplete i f.epoch (f.completion error) stored removed
        else (s, false)) = r at first ⊢
    obtain ⟨t, committed⟩ := r
    obtain ⟨ht, hquiet⟩ := first
    dsimp only at ht hquiet ⊢
    split
    · exact ⟨ht, hquiet⟩
    · obtain ⟨hu, hquiet'⟩ := settleFetchError_inv ht describe f.epoch (f.completion error) removed
      generalize t.settleFetchError describe f.epoch (f.completion error) removed = r
        at hu hquiet' ⊢
      obtain ⟨u, settled⟩ := r
      dsimp only at hu hquiet' ⊢
      have hall := hquiet.trans hquiet'
      split
      · exact ⟨hu, hall⟩
      · obtain ⟨hv, hlast⟩ := commitFetch_inv (i := i) hu (hall.fetches ▸ hf) harrived hvalid
          stored removed
        exact ⟨hv, hall.trans hlast⟩

theorem onComplete_inv (h : Inv resource s) (describe : NetError → String) {f : Fetch}
    (hf : f ∈ s.fetches) {error : Option NetError} (harrived : Arrived f error)
    (stored removed : Bool) :
    Inv resource (s.onComplete describe f error stored removed) := by
  have settled : ∀ {t : State}, Inv resource t → Quiet s t →
      Inv resource { t.update f.owner { t.consumer f.owner with inflight := none } with
        fetches := t.fetches.filter (·.id ≠ f.id) } := by
    intro t ht hquiet
    have hin : f ∈ t.fetches := hquiet.fetches ▸ hf
    have hother : ∀ g ∈ t.fetches.filter (·.id ≠ f.id), g ∈ t.fetches ∧ g.owner ≠ f.owner := by
      intro g hg
      obtain ⟨hg, hne⟩ := List.mem_filter.mp hg
      refine ⟨hg, fun howner => of_decide_eq_true hne ?_⟩
      have hmine := ht.held f hin
      rw [← howner, ht.held g hg] at hmine
      exact Option.some_inj.mp hmine
    refine ⟨ht.session, total_update ht (ht.total f.owner), ?_, ?_, ?_, ?_⟩
    · exact fun g hg => ht.fetch g (hother g hg).1
    · intro g hg
      obtain ⟨hg, hne⟩ := hother g hg
      dsimp only
      rw [State.update_of_ne t hne]
      exact ht.held g hg
    · exact fun g hg => ht.owned g (hother g hg).1
    · exact ht.distinct.sublist ((List.filter_sublist).map _)
  rw [State.onComplete]
  dsimp only
  split
  · obtain ⟨ht, hquiet⟩ := completeFetch_inv (i := f.owner) h describe hf harrived stored removed
    exact settled ht hquiet
  · exact settled h (.refl s)

theorem attach_inv (h : Inv resource s) (lookAhead : Option ℕ) :
    Inv resource (s.attach lookAhead) := by
  have hjoined : Sound resource { s.session with
      entries := s.session.entries ++ [s.attached] } :=
    ⟨h.session.core, h.session.active, h.session.claimed⟩
  obtain ⟨hsound, hafter, -⟩ := electWriter_spec hjoined s.attached
  have hafter : After s.session ({ s.session with
      entries := s.session.entries ++ [s.attached] }.electWriter s.attached).1 :=
    ⟨hafter.claims, hafter.current⟩
  have hother : ∀ f ∈ s.fetches, f.owner ≠ s.attached := fun f hf =>
    Nat.ne_of_lt (h.owned f hf).1
  have hinv := h.withSession hsound hafter
  rw [State.attach]
  refine ⟨hsound, total_update hinv (fun _ hn => by cases hn), hinv.fetch, ?_, ?_, h.distinct⟩
  · intro f hf
    dsimp only
    rw [State.update_of_ne _ (hother f hf)]
    exact h.held f hf
  · exact fun f hf => ⟨(h.owned f hf).1.trans (Nat.lt_succ_self _), (h.owned f hf).2⟩

theorem dropSource_inv (h : Inv resource s) (i : ℕ) (removed : Bool) :
    Inv resource { s.update i { s.consumer i with alive := false } with
      session := s.session.dropLease i removed } := by
  obtain ⟨hsound, hafter⟩ := dropLease_spec h.session i removed
  have hinv := h.update (i := i) (c := { s.consumer i with alive := false }) rfl (h.total i)
  exact hinv.withSession hsound hafter

end State

theorem start_inv (resource : List UInt8) (capacity : ℕ) : Inv resource (start capacity) where
  session := ⟨.inl (.start capacity), fun _ => ⟨rfl, rfl⟩, fun _ hc => by cases hc⟩
  total _ _ hn := by cases hn
  fetch _ hf := absurd hf List.not_mem_nil
  held _ hf := absurd hf List.not_mem_nil
  owned _ hf := absurd hf List.not_mem_nil
  distinct := List.nodup_nil

variable {remote : Remote} {s : State}

theorem next_inv (h : Inv remote.resource s) {a : Action} (ha : (machine remote).Enabled s a)
    (hu : unbroken s a = true) : Inv remote.resource (next remote s a) := by
  cases a with
  | attach lookAhead => exact attach_inv h lookAhead
  | pollNext i budget stored removed => exact pollNext_inv h ha budget stored removed
  | seek i position => exact h.update rfl (h.total i)
  | advance i readPos => exact h.update rfl (h.total i)
  | requestUntil i finish => exact h.update rfl (h.total i)
  | respond id served =>
    obtain ⟨f, hfetch, hready⟩ := (Option.any_eq_true _ _).mp ha
    simp only [Bool.and_eq_true, Option.isNone_iff_eq_none] at hready
    obtain ⟨⟨hnone, haccepted⟩, hhonest⟩ := hready
    rw [next, hfetch]
    exact onResponse_inv h (fetch?_mem hfetch).1 hnone haccepted hhonest
  | chunk id size granted =>
    obtain ⟨f, hfetch, hready⟩ := (Option.any_eq_true _ _).mp ha
    rw [Bool.and_eq_true] at hready
    obtain ⟨b, hb, hroom⟩ := (Option.any_eq_true _ _).mp hready.2
    rw [next, hfetch, Option.elim_some, hb]
    exact onChunk_inv h (fetch?_mem hfetch).1 hb (by simpa using hready.1) granted
      (of_decide_eq_true hroom)
  | complete id error stored removed =>
    obtain ⟨f, hfetch, hends⟩ := (Option.any_eq_true _ _).mp ha
    rw [next, hfetch]
    refine onComplete_inv h remote.describe (fetch?_mem hfetch).1 ?_ stored removed
    rintro rfl
    rw [ends, Option.isSome_none, Bool.false_or, Bool.and_eq_true] at hends
    obtain ⟨b, hb, -⟩ := (Option.any_eq_true _ _).mp hends.2
    rw [unbroken, hfetch, Option.all_some, hb, Option.all_some] at hu
    exact ⟨by simpa using hends.1, b, hb, of_decide_eq_true hu⟩
  | cancelSource i => exact h.update rfl (h.total i)
  | cancelSession =>
    exact h.withSession ⟨h.session.core, h.session.active, h.session.claimed⟩
      ⟨le_rfl, fun _ _ hcur => hcur⟩
  | dropSource i removed => exact dropSource_inv h i removed
  | dropPeer i => exact (dropWriter_spec h i).1

theorem Inv.faithful (h : Inv remote.resource s) : Faithful remote.resource s where
  single i := by
    have hsame : ∀ f ∈ s.fetches.filter (·.owner = i), ∀ g ∈ s.fetches.filter (·.owner = i),
        f = g := by
      intro f hf g hg
      obtain ⟨hf, howner⟩ := List.mem_filter.mp hf
      obtain ⟨hg, howner'⟩ := List.mem_filter.mp hg
      refine h.unique hf hg (Option.some_inj.mp ?_)
      rw [← h.held f hf, ← h.held g hg, of_decide_eq_true howner, of_decide_eq_true howner']
    have hnodup := (List.Nodup.of_map _ h.distinct).filter (·.owner = i)
    generalize s.fetches.filter (·.owner = i) = mine at hsame hnodup
    rcases mine with - | ⟨f, - | ⟨g, rest⟩⟩
    · exact Nat.zero_le 1
    · exact le_rfl
    · have hne := (List.nodup_cons.mp hnodup).1
      rw [hsame f List.mem_cons_self g (List.mem_cons_of_mem f List.mem_cons_self)] at hne
      exact absurd List.mem_cons_self hne
  genuine := h.session.core.elim Filling.genuine Filled.genuine
  whole hcommitted := by
    rcases h.session.core with hfilling | hfilled
    · rw [hfilling.open_] at hcommitted
      cases hcommitted
    · exact ⟨hfilled.finalLen, fun p hp => (hfilled.available p).mpr hp⟩

theorem stale_commitFetch {i : ℕ} {epoch : WriterClaim} {c : FetchCompletion}
    {stored removed : Bool} (h : s.session.isCurrent epoch = false) :
    s.commitFetchIfComplete i epoch c stored removed = (s, false) := by
  rw [State.commitFetchIfComplete, if_neg (by simp [h])]

theorem stale_fail {epoch : WriterClaim} {reason : String} {removed : Bool}
    (h : s.session.isCurrent epoch = false) : s.failCurrentEpoch epoch reason removed = s := by
  rw [State.failCurrentEpoch, Session.fail, if_neg (by simp [h])]

theorem stale_settle (describe : NetError → String) {epoch : WriterClaim} (c : FetchCompletion)
    (removed : Bool) (h : s.session.isCurrent epoch = false) :
    (s.settleFetchError describe epoch c removed).1 = s := by
  rw [State.settleFetchError]
  split
  · rfl
  · rw [Session.relinquish, if_neg (by simp [h])]
  · split
    · exact stale_fail h
    · rfl

theorem stale_complete {describe : NetError → String} {i : ℕ} {epoch : WriterClaim}
    {c : FetchCompletion} {stored removed : Bool} (h : s.session.isCurrent epoch = false) :
    s.completeFetch describe i epoch c stored removed = s := by
  rw [State.completeFetch]
  split
  · exact stale_fail h
  · have hsettle := stale_settle describe c removed h
    rw [State.finalizeFetch]
    simp only [stale_commitFetch h, ite_self, Bool.false_eq_true, if_false]
    generalize s.settleFetchError describe epoch c removed = r at hsettle ⊢
    obtain ⟨t, settled⟩ := r
    dsimp only at hsettle ⊢
    subst hsettle
    split
    · rfl
    · rw [stale_commitFetch h]

theorem next_staleInert (remote : Remote) (s : State) (a : Action) : StaleInert remote s a := by
  rintro id f hfetch hstale (⟨served, rfl⟩ | ⟨size, granted, rfl⟩ | ⟨error, stored, removed, rfl⟩)
  · rw [next, hfetch, Option.elim_some, State.onResponse]
    simp only [hstale, Bool.false_eq_true, if_false]
    exact ⟨rfl, fun _ => rfl⟩
  · rw [next, hfetch, Option.elim_some]
    cases hb : f.body with
    | none => exact ⟨rfl, fun _ => rfl⟩
    | some b =>
      have hwrite : ∀ data, s.session.writeAt f.epoch f.offset data granted = (s.session, none) :=
        fun data => by rw [Session.writeAt, if_neg (by simp [hstale])]
      have hstays : (s.fetchWriterWrite f ((remote.resource.drop b.next).take size) granted).1 =
          s := by
        rw [State.fetchWriterWrite]
        split
        · rfl
        · split
          · rfl
          · rw [hwrite]
      rw [Option.elim_some, State.onChunk]
      generalize s.fetchWriterWrite f ((remote.resource.drop b.next).take size) granted = r
        at hstays ⊢
      obtain ⟨t, f'⟩ := r
      dsimp only at hstays ⊢
      subst hstays
      exact ⟨rfl, fun _ => rfl⟩
  · rw [next, hfetch, Option.elim_some, State.onComplete]
    simp only [stale_complete hstale, ite_self]
    refine ⟨rfl, fun i => ?_⟩
    by_cases hi : i = f.owner
    · subst hi
      rw [State.update_self]
    · rw [State.update_of_ne s hi]

theorem next_sated (h : Inv remote.resource s) (a : Action) : PendingSated remote.resource s a := by
  intro i budget stored removed _ hfree hbudget t hpoll
  have hin : (s.consumer i).inflight = none := Option.isNone_iff_eq_none.mp hfree
  rw [State.pollNext] at hpoll
  split at hpoll
  · simp only [State.parkOnRunningFetch, hin, Option.map_none] at hpoll
    obtain ⟨-, -, -, hsated⟩ := nextAction_spec h i stored removed
    cases haction : s.nextAction i stored removed with
    | mk u action =>
      rw [haction] at hpoll hsated
      cases action with
      | pending =>
        cases hpoll
        exact hsated rfl
      | done => cases hpoll
      | fetch plan => cases hpoll
  · cases hpoll

def StepFaithful (remote : Remote) (s : State) (a : Action) : Prop :=
  StaleInert remote s a ∧ PendingSated remote.resource s a

/-- In every run in which a body of unknown length that is cut reports it, the resource is stored
and committed true to the server's, superseded fetches change nothing, and a waiting writer has
stored all that was asked for. -/
theorem session_faithful (remote : Remote) (capacity : ℕ) (as : List Action)
    (hvalid : (machine remote).ValidTrace (start capacity) as)
    (hunbroken : (machine remote).Along (fun s a => unbroken s a = true) (start capacity) as) :
    (machine remote).Throughout (Faithful remote.resource) (start capacity) as ∧
      (machine remote).Along (StepFaithful remote) (start capacity) as := by
  have hstep : ∀ s a, Inv remote.resource s → (machine remote).Enabled s a →
      unbroken s a = true → Inv remote.resource ((machine remote).next s a) :=
    fun s a h ha hu => next_inv h ha hu
  have hstart := start_inv remote.resource capacity
  constructor
  · exact throughout_imp (fun _ h => h.faithful)
      (throughout_of_along hstep hstart hvalid hunbroken)
  · exact along_of_invariant
      (fun s a h ha hu => ⟨⟨next_staleInert remote s a, next_sated h a⟩, hstep s a h ha hu⟩)
      hstart hvalid hunbroken

def threeBytes : Remote := ⟨[7, 8, 9], "track", fun _ => "network error"⟩

def headers (fields : List (String × String)) : Headers :=
  fields.map fun field => (field.1.toList, field.2.toList)

/-- One consumer fetches the first two bytes; the other takes over, asks for more than there is, and
is answered with all of it. -/
def handedOver : List Action :=
  [.attach (some 2), .attach (some 0), .pollNext 0 1 true true,
    .respond 0 ⟨⟨206, headers [("content-range", "bytes 0-1/3"), ("content-length", "2")], none⟩,
      0, 2⟩,
    .chunk 0 2 true, .complete 0 none true true, .pollNext 0 1 true true, .requestUntil 1 5,
    .pollNext 0 1 true true, .dropPeer 0, .pollNext 1 1 true true,
    .complete 1 (some .cancelled) true true,
    .respond 2 ⟨⟨200, headers [("content-length", "3")], none⟩, 0, 3⟩, .chunk 2 3 true,
    .complete 2 none true true]

theorem session_faithful_handedOver :
    (machine threeBytes).Throughout (Faithful threeBytes.resource) (start 0) handedOver ∧
      (machine threeBytes).Along (StepFaithful threeBytes) (start 0) handedOver ∧
      ((machine threeBytes).runTrace (start 0) handedOver).session.core.gate.finalLen = some 3 := by
  obtain ⟨hthroughout, halong⟩ :=
    session_faithful threeBytes 0 handedOver (by decide) (by decide)
  exact ⟨hthroughout, halong, by decide⟩

/-- A full response without a length, cut after two bytes. -/
def cutShort : List Action :=
  [.attach none, .pollNext 0 1 true true, .respond 0 ⟨⟨200, [], none⟩, 0, 3⟩, .chunk 0 2 true,
    .complete 0 none true true]

theorem cutShort_unfaithful : (machine threeBytes).ValidTrace (start 0) cutShort ∧
    ¬ (machine threeBytes).Throughout (Faithful threeBytes.resource) (start 0) cutShort := by
  refine ⟨by decide, fun h => ?_⟩
  have hend := throughout_iff_visited.mp h cutShort (List.prefix_refl _)
  have hlen := (hend.whole (by decide)).1
  exact absurd hlen (by decide)

end FileSession
