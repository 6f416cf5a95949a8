import Kithara.CommandAnswers

/-! One block of an executor: the ring is drained, and the block's frames are handed over in
stretches between the batches that fall due in it. -/
namespace CommandBlocks

open CommandProtocol CommandDocket CommandLevel

variable {P : Protocol}

variable (P) in
inductive Step where
  | run (first last : ℕ)
  | due (due : Due P)

variable (P) in
inductive Aside where
  | complete (seq : ℕ) (data : P.Applied)
  | edit (seq : ℕ) (change : List P.Command → List P.Command)

variable (P) in
inductive Verdict where
  | applied (data : P.Applied)
  | committed
  | refused (refusal : P.Refusal)
  | deferred
  | dropped

variable (P) in
/-- What an executor does with a due batch: asides, edits of its commands, and the verdict. -/
structure Handling where
  asides : List (Aside P)
  commands : List P.Command → List P.Command
  verdict : Verdict P

def Aside.act (d : Docket P) (hand : Hand P) : Aside P → Turn P
  | .complete seq data => CommandLevel.complete d hand seq data
  | .edit seq change => { docket := editCommitted d seq change, hand := hand, replies := [] }

def actAll (hand : Hand P) : Docket P → List (Aside P) → Docket P × List (Receipt P)
  | d, [] => (d, [])
  | d, aside :: rest =>
    let turn := aside.act d hand
    let after := actAll hand turn.docket rest
    (after.1, turn.replies ++ after.2)

def Verdict.settle (due : Due P) (d : Docket P) : Verdict P → Turn P
  | .applied data => due.apply d data
  | .committed => due.commit d
  | .refused refusal => due.answer d (.refused refusal)
  | .deferred => due.defer d
  | .dropped => due.answer d .unanswered

def Handling.handle (h : Handling P) (due : Due P) (d : Docket P) : Turn P :=
  let aside := actAll (.due due) d h.asides
  let settled := h.verdict.settle { due with commands := h.commands due.commands } aside.1
  { settled with replies := aside.2 ++ settled.replies }

variable (P) in
structure BlockRun where
  docket : Docket P
  steps : List (Step P)
  replies : List (Receipt P)

/-- The walk of `runBlock`: each due batch leaves the schedule, so the schedule bounds the rounds.
`handlings` says what the executor does with the batches it is handed, in turn. -/
def walkBlock (start : P.Clock) (frames : ℕ) :
    ℕ → Docket P → ℕ → (ℕ → Handling P) → BlockRun P
  | 0, d, _, _ => { docket := d, steps := [], replies := [] }
  | rounds + 1, d, reached, handlings =>
    let turn := takeDue d start frames
    match turn.hand with
    | .due due =>
      let handled := (handlings 0).handle due turn.docket
      let rest := walkBlock start frames rounds handled.docket (max reached due.offset)
        fun n => handlings (n + 1)
      { docket := rest.docket
        steps := (if reached < due.offset then [.run reached due.offset] else []) ++
          .due due :: rest.steps
        replies := turn.replies ++ handled.replies ++ rest.replies }
    | _ =>
      { docket := turn.docket
        steps := if reached < frames then [.run reached frames] else []
        replies := turn.replies }

def drained (d : Docket P) (ring : List (Sent P)) : Docket P := ring.foldl Docket.insert d

def runBlock (d : Docket P) (ring : List (Sent P)) (start : P.Clock) (frames : ℕ)
    (handlings : ℕ → Handling P) : BlockRun P :=
  walkBlock start frames ((drained d ring).schedule.length + 1) (drained d ring) 0 handlings

/-- What a schedule is: in execution order, and without the arrivals that wait for an event. -/
structure Scheduled (items : List (Sent P)) : Prop where
  ordered : items.Pairwise fun a b => a.key ≤ b.key
  timed : ∀ sent ∈ items, sent.when ≠ .deferred

variable (P) in
structure Counts : Prop where
  before : ∀ moment start : P.Clock, P.framesSince moment start = none ↔ moment < start
  mono : ∀ {moment moment' start : P.Clock} {frames frames' : ℕ}, moment ≤ moment' →
    P.framesSince moment start = some frames → P.framesSince moment' start = some frames' →
      frames ≤ frames'

theorem Scheduled.sublist {items items' : List (Sent P)} (h : Scheduled items)
    (hs : items'.Sublist items) : Scheduled items' :=
  ⟨h.ordered.sublist hs, fun sent hsent => h.timed sent (hs.subset hsent)⟩

theorem insertByKey_scheduled {items : List (Sent P)} (h : Scheduled items) {sent : Sent P}
    (hw : sent.when ≠ .deferred) : Scheduled (insertByKey sent items) := by
  constructor
  · have parts := List.takeWhile_append_dropWhile (p := fun item => decide (item.key ≤ sent.key))
      (l := items)
    have ordered := h.ordered
    rw [← parts, List.pairwise_append] at ordered
    have early : ∀ item ∈ items.takeWhile (fun item => item.key ≤ sent.key),
        item.key ≤ sent.key := fun item hitem => by simpa using List.mem_takeWhile_imp hitem
    have late : ∀ item ∈ items.dropWhile (fun item => item.key ≤ sent.key),
        sent.key ≤ item.key := by
      intro item hitem
      cases hd : items.dropWhile (fun item => item.key ≤ sent.key) with
      | nil =>
        rw [hd] at hitem
        cases hitem
      | cons first rest =>
        have hfirst : ¬ first.key ≤ sent.key := by
          have := List.head?_dropWhile_not (fun item : Sent P => decide (item.key ≤ sent.key)) items
          rw [hd] at this
          simpa using this
        have hle : first.key ≤ item.key := by
          have := ordered.2.1
          rw [hd] at this hitem
          rcases List.mem_cons.mp hitem with rfl | hrest
          · exact le_rfl
          · exact (List.pairwise_cons.mp this).1 item hrest
        exact (lt_of_lt_of_le (not_le.mp hfirst) hle).le
    rw [insertByKey, List.pairwise_append, List.pairwise_cons]
    refine ⟨ordered.1, ⟨late, ordered.2.1⟩, fun a ha b hb => ?_⟩
    rcases List.mem_cons.mp hb with rfl | hb
    · exact early a ha
    · exact ordered.2.2 a ha b hb
  · intro item hitem
    rcases List.mem_cons.mp ((Docket.insertByKey_perm sent items).mem_iff.mp hitem) with rfl | hitem
    · exact hw
    · exact h.timed item hitem

theorem insert_scheduled {d : Docket P} (h : Scheduled d.schedule) (sent : Sent P) :
    Scheduled (d.insert sent).schedule := by
  unfold Docket.insert
  cases hw : sent.when with
  | deferred => exact h
  | next => exact insertByKey_scheduled h (by rw [hw]; simp)
  | timed moment => exact insertByKey_scheduled h (by rw [hw]; simp)

theorem drained_scheduled {d : Docket P} (h : Scheduled d.schedule) (ring : List (Sent P)) :
    Scheduled (drained d ring).schedule := by
  induction ring generalizing d with
  | nil => exact h
  | cons sent ring ih => exact ih (insert_scheduled h sent)

/-- The ring is taken in as a whole: what waits for an event arrives, the rest is scheduled. -/
structure Drains (d : Docket P) (ring : List (Sent P)) (d' : Docket P) : Prop where
  schedule : d'.schedule.Perm (d.schedule ++ ring.filter fun sent => sent.when ≠ .deferred)
  arrived : d'.arrived = d.arrived ++ ring.filter fun sent => sent.when = .deferred
  ledger : d'.ledger = d.ledger
  parked : d'.parked = d.parked
  committed : d'.committed = d.committed

theorem drained_drains (d : Docket P) (ring : List (Sent P)) : Drains d ring (drained d ring) := by
  induction ring generalizing d with
  | nil => exact ⟨.of_eq (List.append_nil _).symm, (List.append_nil _).symm, rfl, rfl, rfl⟩
  | cons sent ring ih =>
    have later : Drains (d.insert sent) ring (drained d (sent :: ring)) := ih (d.insert sent)
    have timed (h : sent.when ≠ .deferred)
        (inserted : d.insert sent = { d with schedule := insertByKey sent d.schedule }) :
        Drains d (sent :: ring) (drained d (sent :: ring)) := by
      rw [inserted] at later
      constructor
      · rw [List.filter_cons_of_pos (by simpa using h)]
        refine later.schedule.trans ?_
        have inserted := (Docket.insertByKey_perm sent d.schedule).append_right
          (ring.filter fun sent => sent.when ≠ .deferred)
        exact inserted.trans List.perm_middle.symm
      · rw [List.filter_cons_of_neg (by simpa using h)]
        exact later.arrived
      · exact later.ledger
      · exact later.parked
      · exact later.committed
    cases hw : sent.when with
    | next => exact timed (by rw [hw]; simp) (by rw [Docket.insert, hw])
    | timed moment => exact timed (by rw [hw]; simp) (by rw [Docket.insert, hw])
    | deferred =>
      rw [Docket.insert, hw] at later
      constructor
      · rw [List.filter_cons_of_neg (by simp [hw])]
        exact later.schedule
      · rw [List.filter_cons_of_pos (by simp [hw])]
        refine later.arrived.trans ?_
        rw [List.append_assoc, List.singleton_append]
      · exact later.ledger
      · exact later.parked
      · exact later.committed

def Late (start : P.Clock) (sent : Sent P) : Prop :=
  ∃ moment, sent.when = .timed moment ∧ P.framesSince moment start = none

def Inside (start : P.Clock) (frames : ℕ) (sent : Sent P) : Prop :=
  ∃ moment offset, momentOf start sent.when = some (moment, some offset) ∧ offset < frames

def Beyond (start : P.Clock) (frames : ℕ) (sent : Sent P) : Prop :=
  ∃ moment offset, sent.when = .timed moment ∧ P.framesSince moment start = some offset ∧
    frames ≤ offset

variable {start : P.Clock} {frames : ℕ}

theorem offset_mono (counts : Counts P) {a b : Sent P} (h : a.key ≤ b.key) {m m' : P.Clock}
    {o o' : ℕ} (ha : momentOf start a.when = some (m, some o))
    (hb : momentOf start b.when = some (m', some o')) : o ≤ o' := by
  have hw : a.when ≤ b.when := (Prod.Lex.toLex_le_toLex.mp h).elim le_of_lt fun e => e.1.le
  cases wa : a.when with
  | next =>
    rw [wa] at ha
    cases ha
    exact Nat.zero_le _
  | deferred =>
    rw [wa] at ha
    cases ha
  | timed ta =>
    cases wb : b.when with
    | next =>
      rw [wa, wb] at hw
      exact absurd hw (not_le.mpr (WithBot.bot_lt_coe _))
    | deferred =>
      rw [wb] at hb
      cases hb
    | timed tb =>
      rw [wa, wb] at hw
      rw [wa] at ha
      rw [wb] at hb
      simp only [momentOf, Option.some.injEq, Prod.mk.injEq] at ha hb
      exact counts.mono (WithTop.coe_le_coe.mp (WithBot.coe_le_coe.mp hw)) ha.2 hb.2

theorem beyond_mono (counts : Counts P) {a b : Sent P} (h : a.key ≤ b.key)
    (timed : b.when ≠ .deferred) (ha : Beyond start frames a) : Beyond start frames b := by
  obtain ⟨ta, oa, wa, fa, hle⟩ := ha
  have hw : a.when ≤ b.when := (Prod.Lex.toLex_le_toLex.mp h).elim le_of_lt fun e => e.1.le
  cases wb : b.when with
  | next =>
    rw [wa, wb] at hw
    exact absurd hw (not_le.mpr (WithBot.bot_lt_coe _))
  | deferred => exact absurd wb timed
  | timed tb =>
    rw [wa, wb] at hw
    have later : ta ≤ tb := WithTop.coe_le_coe.mp (WithBot.coe_le_coe.mp hw)
    cases fb : P.framesSince tb start with
    | none =>
      have := (counts.before tb start).mp fb
      have early := (counts.before ta start).mpr (lt_of_le_of_lt later this)
      rw [fa] at early
      cases early
    | some ob => exact ⟨tb, ob, wb, fb, hle.trans (counts.mono later fa fb)⟩

def Passed (ledger : Ledger) (start : P.Clock) (frames : ℕ) (x : Sent P × Rejection P) : Prop :=
  x.2 = .late ∧ Late start x.1 ∨
    x.2 = .stale ∧ Inside start frames x.1 ∧ ledger.isCurrent x.1.batch.basis = false

/-- A walk passes over the front of the schedule, up to the batch it hands over, or up to what lies
beyond the block. -/
def Walked (ledger : Ledger) (start : P.Clock) (frames : ℕ) (items : List (Sent P))
    (w : List (Receipt P) × Hand P × List (Sent P)) : Prop :=
  ∃ rejected : List (Sent P × Rejection P), w.1 = rejected.map (fun x => x.1.reject x.2) ∧
    (∀ x ∈ rejected, Passed ledger start frames x) ∧
    (w.2.1 = .empty ∧ items = rejected.map Prod.fst ++ w.2.2 ∧
        (∀ sent ∈ w.2.2, Beyond start frames sent) ∨
      ∃ sent moment offset, w.2.1 = .due (toDue sent moment offset) ∧
        momentOf start sent.when = some (moment, some offset) ∧ offset < frames ∧
        items = rejected.map Prod.fst ++ sent :: w.2.2)

theorem walk_spec (counts : Counts P) (hf : 0 < frames) (ledger : Ledger) {items : List (Sent P)}
    (h : Scheduled items) : Walked ledger start frames items (walk ledger start frames items) := by
  induction items with
  | nil => exact ⟨[], rfl, by simp, .inl ⟨rfl, rfl, by simp [walk]⟩⟩
  | cons sent rest ih =>
    have skip : ∀ rejection : Rejection P, Passed ledger start frames (sent, rejection) →
        walk ledger start frames (sent :: rest) =
          (sent.reject rejection :: (walk ledger start frames rest).1,
            (walk ledger start frames rest).2) →
        Walked ledger start frames (sent :: rest) (walk ledger start frames (sent :: rest)) := by
      intro rejection passed walked
      obtain ⟨rejected, replies, each, ending⟩ := ih (h.sublist (List.sublist_cons_self _ _))
      rw [walked]
      refine ⟨(sent, rejection) :: rejected, by rw [List.map_cons, ← replies],
        List.forall_mem_cons.mpr ⟨passed, each⟩, ?_⟩
      rcases ending with ⟨hand, parts, left⟩ | ⟨due, moment, offset, hand, at_, inside, parts⟩
      · exact .inl ⟨hand, congrArg (sent :: ·) parts, left⟩
      · exact .inr ⟨due, moment, offset, hand, at_, inside, congrArg (sent :: ·) parts⟩
    cases hw : sent.when with
    | deferred => exact absurd hw (h.timed sent List.mem_cons_self)
    | next =>
      have at_ : momentOf start sent.when = some (start, some 0) := by rw [hw]; rfl
      cases current : ledger.isCurrent sent.batch.basis with
      | true =>
        have walked : walk ledger start frames (sent :: rest) =
            ([], .due (toDue sent start 0), rest) := by
          rw [walk, at_]
          dsimp only
          rw [if_pos hf, if_pos current]
        rw [walked]
        exact ⟨[], rfl, by simp, .inr ⟨sent, start, 0, rfl, at_, hf, rfl⟩⟩
      | false =>
        refine skip .stale (.inr ⟨rfl, ⟨start, 0, at_, hf⟩, current⟩) ?_
        rw [walk, at_]
        dsimp only
        rw [if_pos hf, if_neg (by rw [current]; simp)]
    | timed moment =>
      have at_ : momentOf start sent.when = some (moment, P.framesSince moment start) := by
        rw [hw]
        rfl
      cases since : P.framesSince moment start with
      | none =>
        refine skip .late (.inl ⟨rfl, moment, hw, since⟩) ?_
        rw [walk, at_, since]
      | some offset =>
        rw [since] at at_
        by_cases inside : offset < frames
        · cases current : ledger.isCurrent sent.batch.basis with
          | true =>
            have walked : walk ledger start frames (sent :: rest) =
                ([], .due (toDue sent moment offset), rest) := by
              rw [walk, at_]
              dsimp only
              rw [if_pos inside, if_pos current]
            rw [walked]
            exact ⟨[], rfl, by simp, .inr ⟨sent, moment, offset, rfl, at_, inside, rfl⟩⟩
          | false =>
            refine skip .stale (.inr ⟨rfl, ⟨moment, offset, at_, inside⟩, current⟩) ?_
            rw [walk, at_]
            dsimp only
            rw [if_pos inside, if_neg (by rw [current]; simp)]
        · have walked : walk ledger start frames (sent :: rest) = ([], .empty, sent :: rest) := by
            rw [walk, at_]
            dsimp only
            rw [if_neg inside]
          have first : Beyond start frames sent :=
            ⟨moment, offset, hw, since, Nat.le_of_not_lt inside⟩
          rw [walked]
          refine ⟨[], rfl, by simp, .inl ⟨rfl, rfl, fun other hother => ?_⟩⟩
          rcases List.mem_cons.mp hother with rfl | hrest
          · exact first
          · exact beyond_mono counts ((List.pairwise_cons.mp h.ordered).1 other hrest)
              (h.timed other hother) first

def Verdict.records : Verdict P → Bool
  | .applied _ | .committed => true
  | _ => false

theorem actAll_spec (hand : Hand P) (d : Docket P) (asides : List (Aside P)) :
    (actAll hand d asides).1.schedule = d.schedule ∧
      (actAll hand d asides).1.ledger = d.ledger := by
  induction asides generalizing d with
  | nil => exact ⟨rfl, rfl⟩
  | cons aside asides ih =>
    have once : (aside.act d hand).docket.schedule = d.schedule ∧
        (aside.act d hand).docket.ledger = d.ledger := by
      cases aside with
      | edit seq change => exact ⟨rfl, rfl⟩
      | complete seq data =>
        simp only [Aside.act, complete]
        split <;> exact ⟨rfl, rfl⟩
    exact ⟨(ih _).1.trans once.1, (ih _).2.trans once.2⟩

theorem rejectOutdated_schedule (d : Docket P) : ∃ taken : List (Sent P),
    d.schedule.Perm (taken ++ (rejectOutdated d).1.schedule) ∧
      (rejectOutdated d).1.schedule.Sublist d.schedule ∧
      ∀ sent ∈ taken, sent.reject .stale ∈ (rejectOutdated d).2 ∧
        d.ledger.outdates sent.batch.basis = true := by
  obtain ⟨all, replies, perm, schedule, arrived, parked⟩ := rejectOutdated_lists d
  obtain ⟨taken, htaken⟩ := schedule.exists_perm_append
  obtain ⟨left, hleft⟩ := arrived.exists_perm_append
  obtain ⟨gone, hgone⟩ := parked.exists_perm_append
  have every : all.Perm (taken ++ left ++ gone) := by
    rw [← Multiset.coe_eq_coe] at perm htaken hleft hgone ⊢
    simp only [← Multiset.coe_add] at perm htaken hleft hgone ⊢
    rw [htaken, hleft, hgone] at perm
    have cancel : ((rejectOutdated d).1.schedule + (rejectOutdated d).1.arrived +
        (rejectOutdated d).1.parked : Multiset (Sent P)) + (taken + left + gone) =
        ((rejectOutdated d).1.schedule + (rejectOutdated d).1.arrived +
          (rejectOutdated d).1.parked : Multiset (Sent P)) + all := by
      rw [add_comm _ (all : Multiset (Sent P)), ← perm]
      abel
    exact (add_left_cancel cancel).symm
  refine ⟨taken, htaken.trans List.perm_append_comm, schedule, fun sent hsent => ?_⟩
  have inside : sent.reject .stale ∈ (rejectOutdated d).2 := by
    rw [replies]
    refine List.mem_map_of_mem (every.mem_iff.mpr ?_)
    exact List.mem_append_left _ (List.mem_append_left _ hsent)
  exact ⟨inside, ((rejectOutdated_spec d).1 _ inside).1⟩

theorem handle_spec (h : Handling P) (due : Due P) (d : Docket P) :
    (h.handle due d).docket.ledger =
        (if h.verdict.records then d.ledger.record due.basis due.seq else d.ledger) ∧
    (h.handle due d).docket.schedule.Sublist d.schedule ∧
    ∃ taken : List (Sent P), d.schedule.Perm (taken ++ (h.handle due d).docket.schedule) ∧
      ∀ sent ∈ taken, sent.reject .stale ∈ (h.handle due d).replies ∧
        h.verdict.records = true ∧
        (h.handle due d).docket.ledger.outdates sent.batch.basis = true := by
  obtain ⟨schedule, ledger⟩ := actAll_spec (.due due) d h.asides
  cases hv : h.verdict with
  | refused refusal =>
    simp only [Handling.handle, hv, Verdict.settle, Due.answer, Verdict.records, schedule, ledger]
    exact ⟨rfl, .refl _, [], .refl _, fun _ hsent => by cases hsent⟩
  | dropped =>
    simp only [Handling.handle, hv, Verdict.settle, Due.answer, Verdict.records, schedule, ledger]
    exact ⟨rfl, .refl _, [], .refl _, fun _ hsent => by cases hsent⟩
  | deferred =>
    simp only [Handling.handle, hv, Verdict.settle, Due.defer, Docket.park, Verdict.records,
      schedule, ledger]
    exact ⟨rfl, .refl _, [], .refl _, fun _ hsent => by cases hsent⟩
  | applied data =>
    obtain ⟨taken, perm, sub, each⟩ := rejectOutdated_schedule
      { (actAll (.due due) d h.asides).1 with
        ledger := (actAll (.due due) d h.asides).1.ledger.record due.basis due.seq }
    have kept := (rejectOutdated_spec
      { (actAll (.due due) d h.asides).1 with
        ledger := (actAll (.due due) d h.asides).1.ledger.record due.basis due.seq }).2.1
    simp only [Handling.handle, hv, Verdict.settle, Due.apply, Verdict.records, if_true]
    rw [kept]
    refine ⟨by rw [ledger], schedule ▸ sub, taken, schedule ▸ perm, fun sent hsent => ?_⟩
    refine ⟨List.mem_append_right _ (List.mem_cons_of_mem _ (each sent hsent).1), trivial, ?_⟩
    exact (each sent hsent).2
  | committed =>
    obtain ⟨taken, perm, sub, each⟩ := rejectOutdated_schedule
      { (actAll (.due due) d h.asides).1 with
        ledger := (actAll (.due due) d h.asides).1.ledger.record due.basis due.seq
        committed := (actAll (.due due) d h.asides).1.committed ++ [(due.moment,
          { batch := Due.batch { due with commands := h.commands due.commands }
            seq := due.seq
            when := .timed due.moment })] }
    have kept := (rejectOutdated_spec
      { (actAll (.due due) d h.asides).1 with
        ledger := (actAll (.due due) d h.asides).1.ledger.record due.basis due.seq
        committed := (actAll (.due due) d h.asides).1.committed ++ [(due.moment,
          { batch := Due.batch { due with commands := h.commands due.commands }
            seq := due.seq
            when := .timed due.moment })] }).2.1
    simp only [Handling.handle, hv, Verdict.settle, Due.commit, Verdict.records, if_true]
    rw [kept]
    refine ⟨by rw [ledger], schedule ▸ sub, taken, schedule ▸ perm, fun sent hsent => ?_⟩
    exact ⟨List.mem_append_right _ (each sent hsent).1, trivial, (each sent hsent).2⟩

def dues : List (Step P) → List (Due P)
  | [] => []
  | .run _ _ :: rest => dues rest
  | .due due :: rest => due :: dues rest

/-- From `reached` on the runs are nonempty and consecutive up to `frames`, and every batch stands
where the frames before it are its offset. -/
def Tiled (frames : ℕ) : ℕ → List (Step P) → Prop
  | reached, [] => reached = frames
  | reached, .run first last :: rest => first = reached ∧ first < last ∧ Tiled frames last rest
  | reached, .due due :: rest => due.offset = reached ∧ Tiled frames reached rest

def Matches (start : P.Clock) (sent : Sent P) (due : Due P) : Prop :=
  ∃ moment offset, momentOf start sent.when = some (moment, some offset) ∧
    due = toDue sent moment offset

def recorded (ledger : Ledger) : List (Due P) → (ℕ → Handling P) → Ledger
  | [], _ => ledger
  | due :: rest, handlings =>
    recorded (if (handlings 0).verdict.records then ledger.record due.basis due.seq else ledger)
      rest fun n => handlings (n + 1)

def Outdated (ledger : Ledger) (handled : List (Due P)) (handlings : ℕ → Handling P)
    (sent : Sent P) : Prop :=
  ∃ k < handled.length, (handlings k).verdict.records = true ∧
    (recorded ledger (handled.take (k + 1)) handlings).outdates sent.batch.basis = true

/-- What becomes of the batches of a schedule in one block: `delivered` are handed over, `rejected`
answered, the rest stays. -/
structure Blocked (start : P.Clock) (frames : ℕ) (d : Docket P) (reached : ℕ)
    (handlings : ℕ → Handling P) (r : BlockRun P) (delivered : List (Sent P))
    (rejected : List (Sent P × Rejection P)) : Prop where
  parts : d.schedule.Perm (delivered ++ rejected.map Prod.fst ++ r.docket.schedule)
  order : delivered.Sublist d.schedule
  kept : r.docket.schedule.Sublist d.schedule
  handed : List.Forall₂ (Matches start) delivered (dues r.steps)
  inside : ∀ sent ∈ delivered, Inside start frames sent
  answered : ∀ x ∈ rejected, x.1.reject x.2 ∈ r.replies ∧
    (x.2 = .late ∧ Late start x.1 ∨
      x.2 = .stale ∧ (Inside start frames x.1 ∨ Outdated d.ledger (dues r.steps) handlings x.1))
  beyond : ∀ sent ∈ r.docket.schedule, Beyond start frames sent
  tiled : Tiled frames reached r.steps

theorem dues_append (first rest : List (Step P)) :
    dues (first ++ rest) = dues first ++ dues rest := by
  induction first with
  | nil => rfl
  | cons step first ih =>
    cases step with
    | run a b => exact ih
    | due due => exact congrArg (due :: ·) ih

theorem walkBlock_spec (counts : Counts P) (hf : 0 < frames) (rounds : ℕ) (d : Docket P)
    (reached : ℕ) (handlings : ℕ → Handling P) (h : Scheduled d.schedule)
    (hr : d.schedule.length < rounds) (hreached : reached ≤ frames)
    (ahead : ∀ sent ∈ d.schedule, ∀ moment offset,
      momentOf start sent.when = some (moment, some offset) → reached ≤ offset) :
    ∃ delivered rejected, Blocked start frames d reached handlings
      (walkBlock start frames rounds d reached handlings) delivered rejected := by
  induction rounds generalizing d reached handlings with
  | zero => exact absurd hr (Nat.not_lt_zero _)
  | succ rounds ih =>
    obtain ⟨answers, hand, rest, hwalk⟩ : ∃ answers hand rest,
        walk d.ledger start frames d.schedule = (answers, hand, rest) := ⟨_, _, _, rfl⟩
    obtain ⟨rejected, replies, each, ending⟩ := hwalk ▸ walk_spec counts hf d.ledger h
    dsimp only at replies ending
    have taken : takeDue d start frames =
        { docket := { d with schedule := rest }, hand := hand, replies := answers } := by
      rw [takeDue, if_neg (by omega), hwalk]
    rcases ending with ⟨rfl, split, left⟩ | ⟨sent, moment, offset, rfl, at_, inside, split⟩
    · -- the walk reached what lies beyond the block
      have walked : walkBlock start frames (rounds + 1) d reached handlings =
          { docket := { d with schedule := rest }
            steps := if reached < frames then [.run reached frames] else []
            replies := answers } := by
        simp only [walkBlock, taken]
      have no_dues : dues (if reached < frames then [.run reached frames] else [] :
          List (Step P)) = [] := by split <;> rfl
      rw [walked]
      refine ⟨[], rejected, ?_, List.nil_sublist _, ?_, ?_, by simp, ?_, left, ?_⟩
      · rw [List.nil_append]
        exact .of_eq split
      · exact split ▸ List.sublist_append_right _ _
      · rw [no_dues]
        exact .nil
      · intro x hx
        refine ⟨replies ▸ List.mem_map_of_mem hx, ?_⟩
        exact (each x hx).imp_right fun passed => ⟨passed.1, .inl passed.2.1⟩
      · dsimp only
        split
        · exact ⟨rfl, ‹_›, rfl⟩
        · exact show reached = frames by omega
    · -- a batch is due
      obtain ⟨due, hdue⟩ : ∃ due, toDue sent moment offset = due := ⟨_, rfl⟩
      have at_offset : due.offset = offset := hdue ▸ rfl
      rw [hdue] at taken
      obtain ⟨handled, hhandled⟩ : ∃ handled,
        (handlings 0).handle due { d with schedule := rest } = handled := ⟨_, rfl⟩
      obtain ⟨ledger, sub, outdated, perm, out⟩ := hhandled ▸ handle_spec (handlings 0) due
        { d with schedule := rest }
      have ordered := h.ordered
      rw [split] at ordered
      have later := List.pairwise_cons.mp (List.pairwise_append.mp ordered).2.1
      have rest_sub : rest.Sublist d.schedule :=
        split ▸ (List.sublist_cons_self sent rest).trans (List.sublist_append_right _ _)
      have mem_sent : sent ∈ d.schedule := by
        rw [split]
        exact List.mem_append_right _ List.mem_cons_self
      have reached_le : reached ≤ offset := ahead sent mem_sent moment offset at_
      have shorter : handled.docket.schedule.length < rounds := by
        have one := sub.length_le
        have two := congrArg List.length split
        simp only [List.length_append, List.length_cons] at two
        dsimp only at one
        omega
      obtain ⟨delivered, rejected', after⟩ := ih handled.docket offset (fun n => handlings (n + 1))
        (h.sublist (sub.trans rest_sub)) shorter (by omega) fun other hother m o at' =>
          offset_mono counts (later.1 other (sub.subset hother)) at_ at'
      have walked : walkBlock start frames (rounds + 1) d reached handlings =
          { docket := (walkBlock start frames rounds handled.docket offset
              fun n => handlings (n + 1)).docket
            steps := (if reached < offset then [.run reached offset] else []) ++
              .due due :: (walkBlock start frames rounds handled.docket offset
                fun n => handlings (n + 1)).steps
            replies := answers ++ handled.replies ++
              (walkBlock start frames rounds handled.docket offset
                fun n => handlings (n + 1)).replies } := by
        simp only [walkBlock, taken, hhandled, at_offset, Nat.max_eq_right reached_le]
      generalize walkBlock start frames rounds handled.docket offset
        (fun n => handlings (n + 1)) = r at after walked
      have all_dues : dues ((if reached < offset then [.run reached offset] else []) ++
          .due due :: r.steps) = due :: dues r.steps := by
        rw [dues_append]
        split <;> rfl
      rw [walked]
      refine ⟨sent :: delivered,
        rejected ++ (outdated.map fun sent => (sent, .stale)) ++ rejected', ?_, ?_, ?_, ?_, ?_, ?_,
        after.beyond, ?_⟩
      · have names : (outdated.map fun sent : Sent P => (sent, (.stale : Rejection P))).map
            Prod.fst = outdated := by
          rw [List.map_map]
          exact List.map_id _
        rw [split, List.map_append, List.map_append, names]
        have first := (perm.trans (after.parts.append_left outdated)).cons sent
        refine (first.append_left (rejected.map Prod.fst)).trans ?_
        rw [← Multiset.coe_eq_coe]
        simp only [← Multiset.coe_add, ← Multiset.cons_coe, ← Multiset.singleton_add]
        abel
      · rw [split]
        exact (((after.order.trans sub).cons_cons sent).trans (List.sublist_append_right _ _))
      · exact after.kept.trans (sub.trans rest_sub)
      · dsimp only
        rw [all_dues]
        exact .cons ⟨moment, offset, at_, hdue.symm⟩ after.handed
      · exact List.forall_mem_cons.mpr ⟨⟨moment, offset, at_, inside⟩, after.inside⟩
      · dsimp only
        rw [all_dues]
        intro x hx
        rcases List.mem_append.mp hx with hx | hx
        · rcases List.mem_append.mp hx with hx | hx
          · refine ⟨List.mem_append_left _ (List.mem_append_left _ ?_), ?_⟩
            · exact replies ▸ List.mem_map_of_mem hx
            · exact (each x hx).imp_right fun passed => ⟨passed.1, .inl passed.2.1⟩
          · obtain ⟨gone, hgone, rfl⟩ := List.mem_map.mp hx
            obtain ⟨reply, records, outdates⟩ := out gone hgone
            refine ⟨List.mem_append_left _ (List.mem_append_right _ reply), .inr ⟨rfl, .inr ?_⟩⟩
            refine ⟨0, Nat.succ_pos _, records, ?_⟩
            rw [ledger] at outdates
            exact outdates
        · obtain ⟨reply, why⟩ := after.answered x hx
          refine ⟨List.mem_append_right _ reply, why.imp_right fun stale => ⟨stale.1, ?_⟩⟩
          apply stale.2.imp_right
          rintro ⟨k, hk, records, outdates⟩
          refine ⟨k + 1, Nat.succ_lt_succ hk, records, ?_⟩
          rw [ledger] at outdates
          exact outdates
      · dsimp only
        split
        · exact ⟨rfl, ‹_›, at_offset, after.tiled⟩
        · have same : reached = offset := by omega
          exact ⟨at_offset.trans same.symm, same ▸ after.tiled⟩

theorem Blocked.fates {d : Docket P} {reached : ℕ} {handlings : ℕ → Handling P} {r : BlockRun P}
    {delivered : List (Sent P)} {rejected : List (Sent P × Rejection P)}
    (b : Blocked start frames d reached handlings r delivered rejected) {sent : Sent P}
    (hsent : sent ∈ d.schedule) :
    (Late start sent → sent ∉ delivered ∧ sent ∉ r.docket.schedule ∧
      (sent.reject .late ∈ r.replies ∨ sent.reject .stale ∈ r.replies)) ∧
    (Inside start frames sent → sent ∉ r.docket.schedule ∧
      (sent ∈ delivered ∨ sent.reject .stale ∈ r.replies)) ∧
    (Beyond start frames sent → sent ∉ delivered ∧ (sent ∈ r.docket.schedule ∨
      sent.reject .stale ∈ r.replies ∧ Outdated d.ledger (dues r.steps) handlings sent)) := by
  have somewhere := b.parts.mem_iff.mp hsent
  rw [List.mem_append, List.mem_append, or_assoc] at somewhere
  have not_inside : ∀ {other : Sent P}, Late start other → ¬ Inside start frames other := by
    rintro other ⟨moment, hw, hf⟩ ⟨m, o, at_, -⟩
    rw [hw] at at_
    simp [momentOf, hf] at at_
  have not_beyond : ∀ {other : Sent P}, Late start other → ¬ Beyond start frames other := by
    rintro other ⟨moment, hw, hf⟩ ⟨m, o, hw', hf', -⟩
    rw [hw] at hw'
    cases hw'
    rw [hf] at hf'
    cases hf'
  have apart : ∀ {other : Sent P}, Beyond start frames other → ¬ Inside start frames other := by
    rintro other ⟨moment, offset, hw, hf, hle⟩ ⟨m, o, at_, hlt⟩
    rw [hw] at at_
    simp only [momentOf, hf, Option.some.injEq, Prod.mk.injEq] at at_
    omega
  refine ⟨fun late => ?_, fun inside => ?_, fun beyond => ?_⟩
  · refine ⟨fun hd => not_inside late (b.inside _ hd),
      fun hk => not_beyond late (b.beyond _ hk), ?_⟩
    rcases somewhere with hd | hx | hk
    · exact absurd (b.inside _ hd) (not_inside late)
    · obtain ⟨x, hin, rfl⟩ := List.mem_map.mp hx
      obtain ⟨reply, why⟩ := b.answered x hin
      rcases why with ⟨named, -⟩ | ⟨named, -⟩
      · exact .inl (named ▸ reply)
      · exact .inr (named ▸ reply)
    · exact absurd (b.beyond _ hk) (not_beyond late)
  · refine ⟨fun hk => apart (b.beyond _ hk) inside, ?_⟩
    rcases somewhere with hd | hx | hk
    · exact .inl hd
    · obtain ⟨x, hin, rfl⟩ := List.mem_map.mp hx
      obtain ⟨reply, ⟨-, late⟩ | ⟨stale, -⟩⟩ := b.answered x hin
      · exact absurd inside (not_inside late)
      · exact .inr (stale ▸ reply)
    · exact absurd inside (apart (b.beyond _ hk))
  · refine ⟨fun hd => apart beyond (b.inside _ hd), ?_⟩
    rcases somewhere with hd | hx | hk
    · exact absurd (b.inside _ hd) (apart beyond)
    · obtain ⟨x, hin, rfl⟩ := List.mem_map.mp hx
      obtain ⟨reply, ⟨-, late⟩ | ⟨stale, inside | outdated⟩⟩ := b.answered x hin
      · exact absurd beyond (not_beyond late)
      · exact absurd inside (apart beyond)
      · exact .inr ⟨stale ▸ reply, outdated⟩
    · exact .inl hk

/-- Whatever is scheduled and in the ring, and whatever the executor does with what it is handed:
the ring is drained, the runs tile the block, the due batches stand in execution order where their
offsets say, and every other batch is answered or kept by where its moment lies. A block of no
frames hands over and answers nothing. -/
theorem block_tiled (counts : Counts P) (d : Docket P) (h : Scheduled d.schedule)
    (ring : List (Sent P)) (start : P.Clock) (frames : ℕ) (handlings : ℕ → Handling P) :
    Drains d ring (drained d ring) ∧ Scheduled (drained d ring).schedule ∧
    (frames = 0 → runBlock d ring start frames handlings =
      { docket := drained d ring, steps := [], replies := [] }) ∧
    (0 < frames → ∃ delivered rejected,
      Blocked start frames (drained d ring) 0 handlings (runBlock d ring start frames handlings)
        delivered rejected ∧
      (delivered.Pairwise fun a b => a.key ≤ b.key) ∧
      ∀ sent ∈ (drained d ring).schedule,
        (Late start sent → sent ∉ delivered ∧
          sent ∉ (runBlock d ring start frames handlings).docket.schedule ∧
          (sent.reject .late ∈ (runBlock d ring start frames handlings).replies ∨
            sent.reject .stale ∈ (runBlock d ring start frames handlings).replies)) ∧
        (Inside start frames sent →
          sent ∉ (runBlock d ring start frames handlings).docket.schedule ∧
          (sent ∈ delivered ∨
            sent.reject .stale ∈ (runBlock d ring start frames handlings).replies)) ∧
        (Beyond start frames sent → sent ∉ delivered ∧
          (sent ∈ (runBlock d ring start frames handlings).docket.schedule ∨
            sent.reject .stale ∈ (runBlock d ring start frames handlings).replies ∧
              Outdated (drained d ring).ledger
                (dues (runBlock d ring start frames handlings).steps) handlings sent))) := by
  have scheduled := drained_scheduled h ring
  refine ⟨drained_drains d ring, scheduled, ?_, ?_⟩
  · rintro rfl
    simp [runBlock, walkBlock, takeDue]
  · intro hf
    obtain ⟨delivered, rejected, b⟩ : ∃ delivered rejected,
        Blocked start frames (drained d ring) 0 handlings
          (runBlock d ring start frames handlings) delivered rejected :=
      walkBlock_spec counts hf ((drained d ring).schedule.length + 1) (drained d ring) 0 handlings
        scheduled (Nat.lt_succ_self _) (Nat.zero_le _) fun _ _ _ _ _ => Nat.zero_le _
    exact ⟨delivered, rejected, b, scheduled.ordered.sublist b.order, fun sent hsent =>
      b.fates hsent⟩

open CommandAnswers

theorem frameProtocol_counts : Counts frameProtocol where
  before moment start := by
    by_cases h : (moment : ℕ) < start
    · exact iff_of_true (if_pos h) h
    · refine iff_of_false (fun early => ?_) h
      obtain ⟨frames, since⟩ : ∃ frames, frameProtocol.framesSince moment start = some frames :=
        ⟨_, if_neg h⟩
      rw [since] at early
      cases early
  mono := by
    intro moment moment' start frames frames' hle h h'
    simp only [frameProtocol, Option.ite_none_left_eq_some, Option.some.injEq] at h h'
    obtain ⟨-, rfl⟩ := h
    obtain ⟨-, rfl⟩ := h'
    exact Nat.sub_le_sub_right hle _

def rivals : List (Sent frameProtocol) :=
  [⟨⟨[((), none)], [(7 : ℕ)]⟩, 1, .timed (10 : ℕ)⟩,
    ⟨⟨[((), none)], [(8 : ℕ)]⟩, 2, .timed (200 : ℕ)⟩]

def applying : ℕ → Handling frameProtocol := fun _ => ⟨[], id, .applied ()⟩

theorem block_tiled_rivals : (drained (.new 1) rivals).schedule.Perm rivals ∧
    ∃ delivered rejected, Blocked (0 : ℕ) 64 (drained (.new 1) rivals) 0 applying
      (runBlock (.new 1) rivals (0 : ℕ) 64 applying) delivered rejected := by
  obtain ⟨drains, -, -, ran⟩ := block_tiled frameProtocol_counts (.new 1)
    ⟨.nil, by simp [Docket.new]⟩ rivals (0 : ℕ) 64 applying
  obtain ⟨delivered, rejected, b, -⟩ := ran (by decide)
  exact ⟨drains.schedule, delivered, rejected, b⟩

/-- The first of the two is applied, and the second, past the end of the block, is answered. -/
theorem rival_answered :
    (∀ sent ∈ rivals.tail, Beyond (0 : ℕ) 64 sent) ∧
      (drained (.new 1) rivals).schedule.map Sent.seq = [1, 2] ∧
      (runBlock (.new 1) rivals (0 : ℕ) 64 applying).docket.schedule.map Sent.seq = [] ∧
      (runBlock (.new 1) rivals (0 : ℕ) 64 applying).replies =
        [⟨⟨[((), none)], [(7 : ℕ)]⟩, .applied (10 : ℕ) (), 1⟩,
          ⟨⟨[((), none)], [(8 : ℕ)]⟩, .rejected .stale, 2⟩] := by
  refine ⟨fun sent hsent => ?_, rfl, rfl, rfl⟩
  rw [List.mem_singleton.mp hsent]
  exact ⟨(200 : ℕ), 200, rfl, rfl, by decide⟩

end CommandBlocks
