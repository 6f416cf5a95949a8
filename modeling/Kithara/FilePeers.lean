import Kithara.FileStores
import Mathlib.Data.List.Nodup

/-! The fetches of a remote file and the peers that plan them: a fetch writes what its body brought
from the byte it was planned at, and a peer that waits as the writer has stored what was asked
for. -/
namespace FileSession

open FileResponses RangeResponses StorageMemory TransitionSystem
open PendingResources (SessionPhase WriterClaim)

variable {resource : List UInt8}

/-- A fetch whose epoch is current has written what its body brought, from the byte it was planned
at. -/
structure FetchSound (resource : List UInt8) (s : Session) (f : Fetch) : Prop where
  claimed : f.epoch.id < s.claims
  range : f.range = fetchRange f.start f.endExclusive
  bounded : ∀ b ∈ f.body, b.next ≤ b.finish ∧ b.finish ≤ resource.length
  fresh : f.body = none → f.offset = f.start
  placed : s.isCurrent f.epoch = true → f.broken = false → f.invalidResponse = false →
    ∀ b ∈ f.body, f.offset = b.next ∧
      (rangeRequested f.start f.endExclusive = false → b.finish = resource.length)

theorem FetchSound.after {s t : Session} {f : Fetch} (h : FetchSound resource s f)
    (hafter : After s t) : FetchSound resource t f where
  claimed := h.claimed.trans_le hafter.claims
  range := h.range
  bounded := h.bounded
  fresh := h.fresh
  placed hcur := h.placed (hafter.current f.epoch h.claimed hcur)

structure Inv (resource : List UInt8) (s : State) : Prop where
  session : Sound resource s.session
  total : ∀ i, ∀ n ∈ (s.consumer i).coord.totalBytes, n = resource.length
  fetch : ∀ f ∈ s.fetches, FetchSound resource s.session f
  held : ∀ f ∈ s.fetches, (s.consumer f.owner).inflight.map Inflight.fetch = some f.id
  owned : ∀ f ∈ s.fetches, f.owner < s.attached ∧ f.id < s.nextFetch
  distinct : (s.fetches.map Fetch.id).Nodup

/-- The fetches stay, and which consumer has which. -/
structure Quiet (s t : State) : Prop where
  fetches : t.fetches = s.fetches
  attached : t.attached = s.attached
  nextFetch : t.nextFetch = s.nextFetch
  inflight : ∀ i, (t.consumer i).inflight = (s.consumer i).inflight

theorem Quiet.refl (s : State) : Quiet s s := ⟨rfl, rfl, rfl, fun _ => rfl⟩

theorem Quiet.trans {s t u : State} (h : Quiet s t) (h' : Quiet t u) : Quiet s u :=
  ⟨h'.fetches.trans h.fetches, h'.attached.trans h.attached, h'.nextFetch.trans h.nextFetch,
    fun i => (h'.inflight i).trans (h.inflight i)⟩

theorem quiet_session (s : State) (session : Session) : Quiet s { s with session } :=
  ⟨rfl, rfl, rfl, fun _ => rfl⟩

theorem quiet_update (s : State) {i : ℕ} {c : Consumer}
    (hin : c.inflight = (s.consumer i).inflight) : Quiet s (s.update i c) := by
  refine ⟨rfl, rfl, rfl, fun j => ?_⟩
  by_cases hj : j = i
  · subst hj
    rw [State.update_self]
    exact hin
  · rw [State.update_of_ne s hj]

section State

variable {s t : State} {i : ℕ}

theorem Inv.quiet (h : Inv resource s) (hquiet : Quiet s t) (hsession : Sound resource t.session)
    (hafter : After s.session t.session)
    (htotal : ∀ i, ∀ n ∈ (t.consumer i).coord.totalBytes, n = resource.length) :
    Inv resource t where
  session := hsession
  total := htotal
  fetch f hf := (h.fetch f (hquiet.fetches ▸ hf)).after hafter
  held f hf := by
    rw [hquiet.inflight]
    exact h.held f (hquiet.fetches ▸ hf)
  owned f hf := by
    rw [hquiet.attached, hquiet.nextFetch]
    exact h.owned f (hquiet.fetches ▸ hf)
  distinct := hquiet.fetches ▸ h.distinct

theorem Inv.withSession (h : Inv resource s) {session : Session} (hsound : Sound resource session)
    (hafter : After s.session session) : Inv resource { s with session } :=
  h.quiet (quiet_session s session) hsound hafter h.total

theorem total_update (h : Inv resource s) {c : Consumer}
    (hc : ∀ n ∈ c.coord.totalBytes, n = resource.length) :
    ∀ j, ∀ n ∈ ((s.update i c).consumer j).coord.totalBytes, n = resource.length := by
  intro j n hn
  by_cases hj : j = i
  · subst hj
    rw [State.update_self] at hn
    exact hc n hn
  · rw [State.update_of_ne s hj] at hn
    exact h.total j n hn

theorem Inv.update (h : Inv resource s) {c : Consumer}
    (hin : c.inflight = (s.consumer i).inflight)
    (hc : ∀ n ∈ c.coord.totalBytes, n = resource.length) : Inv resource (s.update i c) :=
  h.quiet (quiet_update s hin) h.session (.refl _) (total_update h hc)

theorem Inv.setTotal (h : Inv resource s) {total : Option ℕ}
    (htotal : ∀ n ∈ total, n = resource.length) : Inv resource (s.setTotal i total) :=
  h.update rfl fun n hn => htotal n (Option.filter_eq_some_iff.mp hn).1

theorem Inv.setWriter (h : Inv resource s) (writer : Option WriterClaim) :
    Inv resource (s.setWriter i writer) :=
  h.update rfl (h.total i)

theorem committed_total (h : Sound resource s.session) {finalLen : Option ℕ}
    (hstatus : status s.session.core = .committed finalLen) :
    finalLen = some resource.length := by
  rw [status] at hstatus
  split at hstatus
  · cases hstatus
  · split at hstatus
    · rename_i hcommitted
      cases hstatus
      rcases h.core with hfilling | hfilled
      · rw [hfilling.open_] at hcommitted
        cases hcommitted
      · exact hfilled.finalLen
    · split at hstatus <;> cases hstatus

theorem observeCommitted_spec (h : Inv resource s) (i : ℕ) :
    Inv resource (s.observeCommitted i).1 ∧ Quiet s (s.observeCommitted i).1 ∧
      (s.observeCommitted i).1.session = s.session := by
  rw [State.observeCommitted]
  split
  · rename_i finalLen hstatus
    have hlen := committed_total h.session hstatus
    refine ⟨h.setTotal ?_, quiet_update s rfl, rfl⟩
    intro n hn
    rw [hlen] at hn
    exact (Option.some_inj.mp hn).symm
  · exact ⟨h, .refl s, rfl⟩

/-- A commit attempt with the length of the resource. It comes to nothing where a byte is missing,
where the epoch is stale, or where it fails and the session is over. -/
theorem commitIfComplete_spec (h : Inv resource s) (i : ℕ) (epoch : WriterClaim)
    (stored removed : Bool) :
    let r := s.commitIfComplete i epoch resource.length stored removed
    Inv resource r.1 ∧ Quiet s r.1 ∧ After s.session r.1.session ∧
      (r.2 = false → s.session.isCurrent epoch = true →
        (r.1 = s ∧ ∃ p < resource.length, p ∉ s.session.core.available) ∨
          r.1.session.phase ≠ .active) := by
  have hfinal : s.session.phase = .active → s.session.core.gate.finalLen = none := fun ha =>
    (h.session.filling ha).unbounded
  cases hgap : s.session.core.nextGap 0 resource.length with
  | some gap =>
    simp only [State.commitIfComplete, hgap, Option.isSome_some, if_true]
    exact ⟨h, .refl s, .refl _, fun _ hcur =>
      .inl ⟨trivial, gap_some (hfinal (isCurrent_iff.mp hcur).2.1) hgap⟩⟩
  | none =>
    have hall : s.session.phase = .active → ∀ p < resource.length, p ∈ s.session.core.available :=
      fun ha p hp => gap_none (hfinal ha) hgap p (Nat.zero_le p) hp
    obtain ⟨hsound, hafter, hover⟩ := commit_spec h.session epoch stored removed hall
    simp only [State.commitIfComplete, hgap, Option.isSome_none, Bool.false_eq_true, if_false]
    cases hcommit : s.session.commit epoch resource.length stored removed with
    | mk session answer =>
      rw [hcommit] at hsound hafter hover
      have hinv := h.withSession hsound hafter
      cases answer with
      | none =>
        refine ⟨hinv, quiet_session s session, hafter, fun _ hcur => ?_⟩
        rw [Session.commit, if_pos hcur] at hcommit
        split at hcommit
        · split at hcommit <;> cases hcommit
        · cases hcommit
      | some done =>
        cases done with
        | true =>
          obtain ⟨hobs, hquiet, hsame⟩ := observeCommitted_spec hinv i
          refine ⟨hobs, (quiet_session s session).trans hquiet, ?_, fun hno => by cases hno⟩
          exact hsame ▸ hafter
        | false =>
          exact ⟨hinv, quiet_session s session, hafter, fun _ _ => .inr (hover (by simp))⟩

theorem dropWriter_spec (h : Inv resource s) (i : ℕ) :
    Inv resource (s.dropWriter i) ∧ Quiet s (s.dropWriter i) := by
  rw [State.dropWriter]
  split
  · rename_i claim _
    obtain ⟨hsound, hafter⟩ := relinquish_spec h.session claim
    exact ⟨(h.withSession hsound hafter).setWriter none,
      (quiet_session s _).trans (quiet_update _ rfl)⟩
  · exact ⟨h, .refl s⟩

theorem maxWatermark_kept (hentry : ∀ i, (t.consumer i).entry = (s.consumer i).entry)
    (hentries : t.session.entries = s.session.entries) : t.maxWatermark = s.maxWatermark := by
  simp only [State.maxWatermark, hentries, hentry]

/-- What a snapshot of the writer leaves: with an epoch, it is the current one, and the watermark is
that of all consumers. -/
structure Snapshot (resource : List UInt8) (i : ℕ) (s t : State)
    (snapshot : Option (WriterClaim × ℕ)) : Prop where
  inv : Inv resource t
  quiet : Quiet s t
  core : t.session.core = s.session.core
  coord : ∀ j, (t.consumer j).coord = (s.consumer j).coord
  writer : (t.consumer i).writer = snapshot.map Prod.fst
  current : ∀ p ∈ snapshot, t.session.isCurrent p.1 = true ∧ p.1.id < t.session.claims ∧
    p.2 = t.maxWatermark

theorem setWriter_other (writer : Option WriterClaim) (j : ℕ) :
    ((s.setWriter i writer).consumer j).coord = (s.consumer j).coord ∧
      ((s.setWriter i writer).consumer j).entry = (s.consumer j).entry := by
  rw [State.setWriter]
  by_cases hj : j = i
  · subst hj
    rw [State.update_self]
    exact ⟨rfl, rfl⟩
  · rw [State.update_of_ne s hj]
    exact ⟨rfl, rfl⟩

theorem writerSnapshot_spec (h : Inv resource s) (i : ℕ) :
    Snapshot resource i s (s.writerSnapshot i).1 (s.writerSnapshot i).2 := by
  rw [State.writerSnapshot]
  split
  · -- the handle is current
    rename_i claim hclaim
    obtain ⟨hwriter, hcurrent⟩ := Option.filter_eq_some_iff.mp hclaim
    obtain ⟨hactive, hmine⟩ := isCurrentWriter_iff.mp hcurrent
    refine ⟨h, .refl s, rfl, fun _ => rfl, hwriter, ?_⟩
    rintro p ⟨⟩
    exact ⟨isCurrent_iff.mpr ⟨(h.session.active hactive).1, hactive, hmine⟩,
      h.session.claimed claim hmine, rfl⟩
  · obtain ⟨hsound, hafter, hcore, hclaim, hentries⟩ := tryTakeWriter_spec h.session i
    cases htake : s.session.tryTakeWriter i with
    | mk session taken =>
      rw [htake] at hsound hafter hcore hclaim hentries
      have hinv := h.withSession hsound hafter
      have hquiet : ∀ writer, Quiet s ({ s with session }.setWriter i writer) := fun writer =>
        (quiet_session s session).trans (quiet_update _ rfl)
      cases taken with
      | none =>
        refine ⟨hinv.setWriter _, hquiet _, hcore, fun j => (setWriter_other _ j).1, ?_,
          fun _ hp => by cases hp⟩
        simp only [State.setWriter, State.update_self, Option.map_none]
      | some claim =>
        refine ⟨hinv.setWriter _, hquiet _, hcore, fun j => (setWriter_other _ j).1, ?_, ?_⟩
        · simp only [State.setWriter, State.update_self, Option.map_some]
        · rintro p ⟨⟩
          obtain ⟨hcur, hlt⟩ := hclaim claim rfl
          have hmark : (State.setWriter { s with session } i (some claim)).maxWatermark =
              s.maxWatermark :=
            maxWatermark_kept (fun j => (setWriter_other (some claim) j).2) hentries
          exact ⟨hcur, hlt, hmark.symm⟩

/-- As the current writer a peer has every byte below the watermark, and a total beyond it. -/
def Sated (resource : List UInt8) (i : ℕ) (t : State) : Prop :=
  ∀ claim, (t.consumer i).writer = some claim → t.session.isCurrent claim = true →
    (∀ p < resource.length, p < t.maxWatermark → p ∈ t.session.core.available) ∧
      ∀ total ∈ (t.consumer i).coord.totalBytes, t.maxWatermark < total

structure Decided (resource : List UInt8) (i : ℕ) (s t : State) (action : PeerAction) : Prop where
  inv : Inv resource t
  quiet : Quiet s t
  planned : ∀ plan, action = .fetch plan → plan.epoch.id < t.session.claims
  sated : action = .pending → Sated resource i t

theorem planned_epoch {coord : FileCoord} {epoch : WriterClaim} {watermark : ℕ} {plan : FetchPlan}
    (h : s.planned coord epoch watermark = some plan) : plan.epoch = epoch := by
  obtain ⟨gap, -, rfl⟩ := Option.map_eq_some_iff.mp h
  rfl

/-- Nothing is planned where nothing is asked for, or where it is all stored. -/
theorem planned_none {coord : FileCoord} {epoch : WriterClaim} {watermark : ℕ}
    (hopen : s.session.core.gate.finalLen = none)
    (h : s.planned coord epoch watermark = none) :
    (coord.totalBytes = none → watermark = 0) ∧
      ∀ total ∈ coord.totalBytes, ∀ p < min total watermark, p ∈ s.session.core.available := by
  rw [State.planned] at h
  have hgap := Option.map_eq_none_iff.mp h
  constructor
  · intro hnone
    rw [hnone] at hgap
    by_contra hpos
    rw [if_pos ⟨rfl, Nat.pos_of_ne_zero hpos⟩] at hgap
    cases hgap
  · intro total htotal p hp
    rw [Option.mem_def] at htotal
    rw [htotal, if_neg (fun hno => by cases hno.1)] at hgap
    rw [State.nextGapFromCursor, Option.or_eq_none_iff] at hgap
    exact gap_none hopen hgap.2 p (Nat.zero_le p) hp

theorem nextAction_spec (h : Inv resource s) (i : ℕ) (stored removed : Bool) :
    Decided resource i s (s.nextAction i stored removed).1
      (s.nextAction i stored removed).2 := by
  have plain : ∀ {t : State}, Inv resource t → Quiet s t → Decided resource i s t .done :=
    fun hinv hquiet => ⟨hinv, hquiet, fun _ hp => (by cases hp), fun hp => by cases hp⟩
  rw [State.nextAction]
  split
  · obtain ⟨hinv, hquiet⟩ := dropWriter_spec h i
    exact plain hinv hquiet
  split
  · obtain ⟨hinv, hquiet, -⟩ := observeCommitted_spec h i
    exact plain hinv hquiet
  split
  · exact plain h (.refl s)
  obtain ⟨hinv, hquiet, hcore, hcoord, hwriter, hcurrent⟩ := writerSnapshot_spec h i
  generalize s.writerSnapshot i = r at hinv hquiet hcore hcoord hwriter hcurrent ⊢
  obtain ⟨t, snapshot⟩ := r
  dsimp only at hinv hquiet hcore hcoord hwriter hcurrent ⊢
  cases snapshot with
  | none =>
    refine ⟨hinv, hquiet, fun _ hp => (by cases hp), fun _ claim hclaim => ?_⟩
    rw [hwriter] at hclaim
    cases hclaim
  | some p =>
    obtain ⟨epoch, watermark⟩ := p
    obtain ⟨hcur, hlt, hmark⟩ := hcurrent _ rfl
    dsimp only at hcur hlt hmark ⊢
    subst hmark
    have hopen := (hinv.session.filling (isCurrent_iff.mp hcur).2.1).unbounded
    cases hplan : t.planned (t.consumer i).coord epoch t.maxWatermark with
    | some plan =>
      refine ⟨hinv, hquiet, fun plan' hp => ?_, fun hp => by cases hp⟩
      cases hp
      rw [planned_epoch hplan]
      exact hlt
    | none =>
      obtain ⟨hnothing, hfilled⟩ := planned_none hopen hplan
      cases htotal : (t.consumer i).coord.totalBytes with
      | none =>
        refine ⟨hinv, hquiet, fun _ hp => (by cases hp), fun _ claim _ _ => ⟨fun p _ hp => ?_, ?_⟩⟩
        · rw [hnothing htotal] at hp
          exact absurd hp (Nat.not_lt_zero p)
        · intro total hmem
          rw [htotal] at hmem
          cases hmem
      | some total =>
        obtain rfl := hinv.total i total htotal
        obtain ⟨hinv', hquiet', -, hfalse⟩ := commitIfComplete_spec hinv i epoch stored removed
        cases hcommit : t.commitIfComplete i epoch resource.length stored removed with
        | mk u committed =>
          rw [hcommit] at hinv' hquiet' hfalse
          dsimp only at hinv' hquiet' hfalse ⊢
          rw [hcommit]
          cases committed with
          | true => exact plain hinv' (hquiet.trans hquiet')
          | false =>
            show Decided resource i s u .pending
            refine ⟨hinv', hquiet.trans hquiet', fun _ hp => (by cases hp),
              fun _ claim _ hclaim => ?_⟩
            rcases hfalse rfl hcur with ⟨rfl, p, hp, hmissing⟩ | hover
            · -- a byte is missing, beyond the watermark
              have hbeyond : u.maxWatermark ≤ p := by
                by_contra hbelow
                exact hmissing (hfilled _ htotal p (by omega))
              refine ⟨fun q hq hqw => hfilled _ htotal q (by omega), fun total hmem => ?_⟩
              rw [htotal] at hmem
              obtain rfl := Option.some_inj.mp hmem
              omega
            · exact absurd (isCurrent_iff.mp hclaim).2.1 hover

theorem buildFetchCmd_spec (h : Inv resource s) {plan : FetchPlan}
    (hfree : (s.consumer i).inflight = none) (hi : i < s.attached)
    (hplan : plan.epoch.id < s.session.claims) : Inv resource (s.buildFetchCmd i plan) := by
  have hother : ∀ f ∈ s.fetches, f.owner ≠ i := by
    rintro f hf rfl
    have hheld := h.held f hf
    rw [hfree] at hheld
    cases hheld
  rw [State.buildFetchCmd]
  refine ⟨h.session, total_update h (h.total i), ?_, ?_, ?_, ?_⟩
  all_goals dsimp only
  · intro f hf
    rcases List.mem_append.mp hf with hf | hf
    · exact h.fetch f hf
    · obtain rfl := List.mem_singleton.mp hf
      exact ⟨hplan, rfl, fun _ hb => (by cases hb), fun _ => rfl, fun _ _ _ _ hb => by cases hb⟩
  · intro f hf
    rcases List.mem_append.mp hf with hf | hf
    · rw [State.update_of_ne s (hother f hf)]
      exact h.held f hf
    · obtain rfl := List.mem_singleton.mp hf
      rw [State.update_self]
      rfl
  · intro f hf
    rcases List.mem_append.mp hf with hf | hf
    · exact ⟨(h.owned f hf).1, (h.owned f hf).2.trans (Nat.lt_succ_self _)⟩
    · obtain rfl := List.mem_singleton.mp hf
      exact ⟨hi, Nat.lt_succ_self _⟩
  · rw [List.map_append]
    refine List.nodup_append.mpr ⟨h.distinct, List.nodup_singleton _, ?_⟩
    rintro id hid _ hnew rfl
    obtain ⟨f, hf, rfl⟩ := List.mem_map.mp hid
    have hlt := (h.owned f hf).2
    rw [List.mem_singleton.mp hnew] at hlt
    exact Nat.lt_irrefl _ hlt

theorem Inv.onFetch (h : Inv resource s) {id : ℕ} {g : Fetch → Fetch}
    (hg : ∀ f ∈ s.fetches, f.id = id → FetchSound resource s.session (g f) ∧
      (g f).id = f.id ∧ (g f).owner = f.owner) : Inv resource (s.onFetch id g) := by
  have hmap : ∀ f' ∈ (s.onFetch id g).fetches, ∃ f ∈ s.fetches,
      FetchSound resource s.session f' ∧ f'.id = f.id ∧ f'.owner = f.owner := by
    intro f' hf'
    obtain ⟨f, hf, rfl⟩ := List.mem_map.mp hf'
    refine ⟨f, hf, ?_⟩
    split
    · exact hg f hf (by assumption)
    · exact ⟨h.fetch f hf, rfl, rfl⟩
  refine ⟨h.session, h.total, fun f' hf' => ?_, fun f' hf' => ?_, fun f' hf' => ?_, ?_⟩
  · obtain ⟨f, -, hsound, -⟩ := hmap f' hf'
    exact hsound
  · obtain ⟨f, hf, -, hid, howner⟩ := hmap f' hf'
    rw [hid, howner]
    exact h.held f hf
  · obtain ⟨f, hf, -, hid, howner⟩ := hmap f' hf'
    rw [hid, howner]
    exact h.owned f hf
  · have hids : (s.onFetch id g).fetches.map Fetch.id = s.fetches.map Fetch.id := by
      rw [State.onFetch, List.map_map]
      refine List.map_congr_left fun f hf => ?_
      rw [Function.comp_apply]
      split
      · exact (hg f hf (by assumption)).2.1
      · rfl
    rw [hids]
    exact h.distinct

theorem pollNext_inv (h : Inv resource s) (hi : i < s.attached) (budget : ℕ)
    (stored removed : Bool) : Inv resource (s.pollNext i budget stored removed).1 := by
  rw [State.pollNext]
  split
  · cases hin : (s.consumer i).inflight with
    | some fetch =>
      simp only [State.parkOnRunningFetch, hin, Option.map_some]
      split
      · refine h.onFetch fun f hf _ => ⟨?_, rfl, rfl⟩
        have hsound := h.fetch f hf
        exact ⟨hsound.claimed, hsound.range, hsound.bounded, hsound.fresh, hsound.placed⟩
      · exact h
    | none =>
      simp only [State.parkOnRunningFetch, hin, Option.map_none]
      split
      · exact h
      · have hspec := nextAction_spec h i stored removed
        obtain ⟨hinv, hquiet, hplan, -⟩ := hspec
        cases haction : s.nextAction i stored removed with
        | mk t action =>
          rw [haction] at hinv hquiet hplan
          cases action with
          | done => exact hinv
          | pending => exact hinv
          | fetch plan =>
            refine buildFetchCmd_spec hinv ?_ ?_ (hplan plan rfl)
            · exact (hquiet.inflight i).trans hin
            · exact hi.trans_eq hquiet.attached.symm
  · exact h

end State

end FileSession
