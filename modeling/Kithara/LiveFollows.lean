import Kithara.LiveConfigs
import Kithara.CommandAnswers

/-! The owner settles the changes in the order the executor applied them, so it confirms the
executor's configuration; it folds the copies it abandons in an order of its own, by moment and
number, which is the executor's as long as no block applies a change behind one still unsettled. -/
namespace LiveConfigs

open BoundedRing CommandProtocol CommandDocket CommandLevel CommandBlocks CommandChannel Extraction
open TransitionSystem

variable {C : LiveConfig} {P : Protocol} {capacity : ℕ}

def carry (W : Wiring C P) (copy : InFlight C P) : Sent P :=
  { batch := { basis := [], commands := [W.wrap copy.change] }
    seq := copy.seq
    when := copy.when }

theorem render_carry (W : Wiring C P) (config : C.Config) (copy : InFlight C P) (moment : P.Clock)
    (offset : ℕ) : render W config (toDue (carry W copy) moment offset) =
      C.applyChange config copy.change := by
  simp [render, toDue, carry, W.unwrap_wrap]

theorem folded_append (config : C.Config) (first rest : List (InFlight C P)) :
    folded config (first ++ rest) = folded (folded config first) rest := List.foldl_append

theorem rejectOutdated_plain {d : Docket P}
    (h : ∀ sent ∈ d.schedule ++ d.arrived ++ d.parked, sent.batch.basis = []) :
    rejectOutdated d = (d, []) := by
  have current : ∀ {items : List (Sent P)}, (∀ sent ∈ items, sent.batch.basis = []) →
      extract (fun sent => d.ledger.outdates sent.batch.basis) items = none := by
    intro items hitems
    induction items with
    | nil => rfl
    | cons sent items ih =>
      have now : d.ledger.outdates sent.batch.basis = false := by
        rw [hitems sent List.mem_cons_self]
        rfl
      rw [extract, if_neg (by rw [now]; exact Bool.false_ne_true),
        ih fun other hother => hitems other (List.mem_cons_of_mem _ hother)]
      rfl
  have none_taken : d.takeOutdated = none := by
    simp only [List.forall_mem_append] at h
    unfold Docket.takeOutdated
    dsimp only
    rw [current h.1.1, current h.1.2, current h.2]
  have stays : ∀ fuel : ℕ, exhaust Docket.takeOutdated fuel d = ([], d) := by
    intro fuel
    cases fuel with
    | zero => rfl
    | succ fuel => rw [exhaust, none_taken]
  rw [rejectOutdated, stays]
  rfl

/-- A walk over carried copies answers the late ones at its front, and stops or hands over the
next. -/
def WalkedOver (W : Wiring C P) (start : P.Clock) (frames : ℕ) (copies : List (InFlight C P))
    (w : List (Receipt P) × Hand P × List (Sent P)) : Prop :=
  ∃ (late rest : List (InFlight C P)) (hand : Hand P),
    w = (late.map fun copy => (carry W copy).reject .late, hand, rest.map (carry W)) ∧
    (hand = .empty ∧ copies = late ++ rest ∨
      ∃ copy moment offset, hand = .due (toDue (carry W copy) moment offset) ∧
        momentOf start copy.when = some (moment, some offset) ∧ offset < frames ∧
        copies = late ++ copy :: rest)

theorem walk_carried (W : Wiring C P) (ledger : Ledger) (start : P.Clock) (frames : ℕ)
    (copies : List (InFlight C P)) :
    WalkedOver W start frames copies (walk ledger start frames (copies.map (carry W))) := by
  induction copies with
  | nil => exact ⟨[], [], .empty, rfl, .inl ⟨rfl, rfl⟩⟩
  | cons copy copies ih =>
    have stop : WalkedOver W start frames (copy :: copies)
        ([], .empty, (copy :: copies).map (carry W)) :=
      ⟨[], copy :: copies, .empty, rfl, .inl ⟨rfl, rfl⟩⟩
    rw [List.map_cons, walk]
    cases at_ : momentOf start (carry W copy).when with
    | none => exact stop
    | some found =>
      obtain ⟨moment, since⟩ := found
      cases since with
      | none =>
        obtain ⟨late, rest, hand, walked, ending⟩ := ih
        rw [walked]
        refine ⟨copy :: late, rest, hand, rfl, ?_⟩
        rcases ending with ⟨empty, parts⟩ | ⟨other, m, o, due, since, inside, parts⟩
        · exact .inl ⟨empty, congrArg (copy :: ·) parts⟩
        · exact .inr ⟨other, m, o, due, since, inside, congrArg (copy :: ·) parts⟩
      | some offset =>
        by_cases inside : offset < frames
        · have current : ledger.isCurrent (carry W copy).batch.basis = true := rfl
          dsimp only
          rw [if_pos inside, if_pos current]
          exact ⟨[], copies, _, rfl, .inr ⟨copy, moment, offset, rfl, at_, inside, rfl⟩⟩
        · dsimp only
          rw [if_neg inside]
          exact stop

def confirmed (answered : List (InFlight C P × Receipt P)) : List (InFlight C P) :=
  (answered.filter fun x => Live.applies x.2.outcome).map Prod.fst

theorem confirmed_append (first rest : List (InFlight C P × Receipt P)) :
    confirmed (first ++ rest) = confirmed first ++ confirmed rest := by
  rw [confirmed, List.filter_append, List.map_append]
  rfl

theorem confirmed_cons (x : InFlight C P × Receipt P) (rest : List (InFlight C P × Receipt P)) :
    confirmed (x :: rest) =
      if Live.applies x.2.outcome then x.1 :: confirmed rest else confirmed rest := by
  by_cases h : Live.applies x.2.outcome = true
  · simp [confirmed, h]
  · simp [confirmed, h]

theorem mem_confirmed {answered : List (InFlight C P × Receipt P)} {copy : InFlight C P}
    (h : copy ∈ confirmed answered) :
    ∃ x ∈ answered, x.1 = copy ∧ Live.applies x.2.outcome = true := by
  obtain ⟨x, hx, rfl⟩ := List.mem_map.mp h
  exact ⟨x, (List.mem_filter.mp hx).1, rfl, (List.mem_filter.mp hx).2⟩

theorem confirmed_sublist (answered : List (InFlight C P × Receipt P)) :
    (confirmed answered).Sublist (answered.map Prod.fst) := List.filter_sublist.map _

/-- What a block makes of scheduled copies: the front of the schedule is `answered`, in its order,
and the executor folds what of it is applied. -/
structure Served (W : Wiring C P) (start : P.Clock) (frames : ℕ) (copies : List (InFlight C P))
    (r : BlockRun P) (answered : List (InFlight C P × Receipt P)) (rest : List (InFlight C P)) :
    Prop where
  parts : copies = answered.map Prod.fst ++ rest
  replies : r.replies = answered.map Prod.snd
  schedule : r.docket.schedule = rest.map (carry W)
  idle : r.docket.arrived = [] ∧ r.docket.parked = []
  numbered : ∀ x ∈ answered, x.2.seq = x.1.seq
  inside : ∀ x ∈ answered, Live.applies x.2.outcome = true → Inside start frames (carry W x.1)
  executed : ∀ config, (dues r.steps).foldl (render W) config = folded config (confirmed answered)

theorem applied_carried (W : Wiring C P) {d : Docket P} {copies : List (InFlight C P)}
    (schedule : d.schedule = copies.map (carry W)) (idle : d.arrived = [] ∧ d.parked = [])
    (copy : InFlight C P) (moment : P.Clock) (offset : ℕ) (data : ℕ → P.Applied) :
    ∃ ledger, (applyingAll data 0).handle (toDue (carry W copy) moment offset) d =
      { docket := { d with ledger := ledger }
        hand := .empty
        replies := [⟨(carry W copy).batch, .applied moment (data 0), copy.seq⟩] } := by
  have plain : ∀ ledger : Ledger, rejectOutdated { d with ledger := ledger } =
      ({ d with ledger := ledger }, []) := by
    intro ledger
    apply rejectOutdated_plain
    rw [idle.1, idle.2, schedule]
    intro sent hsent
    simp only [List.append_nil] at hsent
    obtain ⟨other, -, rfl⟩ := List.mem_map.mp hsent
    rfl
  refine ⟨d.ledger.record (carry W copy).batch.basis copy.seq, ?_⟩
  simp only [Handling.handle, applyingAll, actAll, Verdict.settle, Due.apply, toDue, carry, id,
    plain, List.nil_append]
  rfl

theorem walkBlock_carried (W : Wiring C P) {start : P.Clock} {frames : ℕ} (hf : 0 < frames)
    (rounds : ℕ) (d : Docket P) (reached : ℕ) (data : ℕ → P.Applied)
    (copies : List (InFlight C P)) (schedule : d.schedule = copies.map (carry W))
    (idle : d.arrived = [] ∧ d.parked = []) (hr : copies.length < rounds) :
    ∃ answered rest, Served W start frames copies
      (walkBlock start frames rounds d reached (applyingAll data)) answered rest := by
  induction rounds generalizing d reached data copies with
  | zero => exact absurd hr (Nat.not_lt_zero _)
  | succ rounds ih =>
    obtain ⟨late, rest, hand, walked, ending⟩ := walk_carried W d.ledger start frames copies
    have taken : takeDue d start frames =
        { docket := { d with schedule := rest.map (carry W) }
          hand := hand
          replies := late.map fun copy => (carry W copy).reject .late } := by
      rw [takeDue, if_neg (by omega), schedule, walked]
    obtain ⟨passed, hpassed⟩ : ∃ passed : List (InFlight C P × Receipt P),
        late.map (fun copy => (copy, (carry W copy).reject .late)) = passed := ⟨_, rfl⟩
    have names : passed.map Prod.fst = late := by
      rw [← hpassed, List.map_map]
      exact List.map_id _
    have answers : passed.map Prod.snd = late.map fun copy => (carry W copy).reject .late := by
      rw [← hpassed, List.map_map]
      rfl
    have numbers : ∀ x ∈ passed, x.2.seq = x.1.seq ∧ Live.applies x.2.outcome = false := by
      rw [← hpassed]
      intro x hx
      obtain ⟨copy, -, rfl⟩ := List.mem_map.mp hx
      exact ⟨rfl, rfl⟩
    have nothing : confirmed passed = [] := by
      rw [confirmed, List.filter_eq_nil_iff.mpr fun x hx => by rw [(numbers x hx).2]; simp]
      rfl
    rcases ending with ⟨rfl, parts⟩ | ⟨copy, moment, offset, rfl, at_, inside, parts⟩
    · -- what is left lies beyond the block
      simp only [walkBlock, taken]
      refine ⟨passed, rest, ⟨by rw [names, parts], answers.symm, rfl, idle,
        fun x hx => (numbers x hx).1, fun x hx applied => ?_, fun config => ?_⟩⟩
      · rw [(numbers x hx).2] at applied
        cases applied
      · rw [nothing]
        split <;> rfl
    · -- one is due, and applied
      obtain ⟨ledger, handled⟩ := applied_carried W (d := { d with schedule := rest.map (carry W) })
        rfl idle copy moment offset data
      have shorter : rest.length < rounds := by
        have := congrArg List.length parts
        simp only [List.length_append, List.length_cons] at this
        omega
      obtain ⟨answered, left, after⟩ := ih { d with schedule := rest.map (carry W), ledger := ledger }
        (max reached offset) (fun n => data (n + 1)) rest rfl idle shorter
      have walked : walkBlock start frames (rounds + 1) d reached (applyingAll data) =
          { docket := (walkBlock start frames rounds
              { d with schedule := rest.map (carry W), ledger := ledger } (max reached offset)
              (applyingAll fun n => data (n + 1))).docket
            steps := (if reached < offset then [.run reached offset] else []) ++
              .due (toDue (carry W copy) moment offset) :: (walkBlock start frames rounds
                { d with schedule := rest.map (carry W), ledger := ledger } (max reached offset)
                (applyingAll fun n => data (n + 1))).steps
            replies := (late.map fun copy => (carry W copy).reject .late) ++
              [⟨(carry W copy).batch, .applied moment (data 0), copy.seq⟩] ++
              (walkBlock start frames rounds
                { d with schedule := rest.map (carry W), ledger := ledger } (max reached offset)
                (applyingAll fun n => data (n + 1))).replies } := by
        simp only [walkBlock, taken, handled]
        rfl
      rw [walked]
      generalize walkBlock start frames rounds
        { d with schedule := rest.map (carry W), ledger := ledger } (max reached offset)
        (applyingAll fun n => data (n + 1)) = r at after
      obtain ⟨reply, hreply⟩ : ∃ reply : Receipt P,
        ⟨(carry W copy).batch, .applied moment (data 0), copy.seq⟩ = reply := ⟨_, rfl⟩
      have applied : Live.applies reply.outcome = true := hreply ▸ rfl
      refine ⟨passed ++ (copy, reply) :: answered, left, ?_, ?_, after.schedule, after.idle, ?_, ?_,
        fun config => ?_⟩
      · rw [parts, after.parts, List.map_append, List.map_cons, names]
        simp
      · rw [hreply, after.replies, List.map_append, List.map_cons, answers]
        simp
      · refine List.forall_mem_append.mpr ⟨fun x hx => (numbers x hx).1, ?_⟩
        exact List.forall_mem_cons.mpr ⟨hreply ▸ rfl, after.numbered⟩
      · refine List.forall_mem_append.mpr ⟨fun x hx applied => ?_, ?_⟩
        · rw [(numbers x hx).2] at applied
          cases applied
        · exact List.forall_mem_cons.mpr ⟨fun _ => ⟨moment, offset, at_, inside⟩, after.inside⟩
      · have all : dues ((if reached < offset then [.run reached offset] else []) ++
            .due (toDue (carry W copy) moment offset) :: r.steps) =
            toDue (carry W copy) moment offset :: dues r.steps := by
          rw [dues_append]
          split <;> rfl
        have first : confirmed (passed ++ (copy, reply) :: answered) =
            copy :: confirmed answered := by
          rw [confirmed_append, nothing, confirmed_cons, if_pos applied, List.nil_append]
        dsimp only
        rw [all, first, List.foldl_cons, render_carry, after.executed]
        rfl

theorem drained_timed {d : Docket P} {ring : List (Sent P)}
    (timed : ∀ sent ∈ ring, sent.when ≠ .deferred) :
    (drained d ring).schedule.Perm (d.schedule ++ ring) ∧
      (drained d ring).arrived = d.arrived ∧ (drained d ring).parked = d.parked := by
  induction ring generalizing d with
  | nil => exact ⟨.of_eq (List.append_nil _).symm, rfl, rfl⟩
  | cons sent ring ih =>
    obtain ⟨now, later⟩ := List.forall_mem_cons.mp timed
    have inserted : d.insert sent = { d with schedule := insertByKey sent d.schedule } := by
      unfold Docket.insert
      cases hw : sent.when with
      | deferred => exact absurd hw now
      | next => rfl
      | timed moment => rfl
    obtain ⟨perm, arrived, parked⟩ := ih (d := d.insert sent) later
    rw [drained, List.foldl_cons, ← drained, arrived, parked, inserted]
    rw [inserted] at perm
    refine ⟨perm.trans ?_, rfl, rfl⟩
    exact ((Docket.insertByKey_perm sent d.schedule).append_right ring).trans
      List.perm_middle.symm

/-- The copies whose receipts the owner has yet to read, each with its receipt, and those whose
batches wait for their moment. -/
structure Tracks (W : Wiring C P) (s : System C P capacity)
    (answered : List (InFlight C P × Receipt P)) (waiting : List (InFlight C P)) : Prop where
  copies : s.live.inFlight.Perm (answered.map Prod.fst ++ waiting)
  carried : (s.docket.schedule ++ s.commands.items).Perm (waiting.map (carry W))
  receipts : s.receipts = answered.map Prod.snd
  numbered : ∀ x ∈ answered, x.2.seq = x.1.seq
  distinct : (s.live.inFlight.map InFlight.seq).Nodup
  timed : ∀ copy ∈ waiting, copy.when ≠ .deferred
  scheduled : Scheduled s.docket.schedule
  idle : s.docket.arrived = [] ∧ s.docket.parked = []
  executor : s.executor = folded s.live.config (confirmed answered)

/-- The number a batch gets is not that of a change in flight. Numbers are counted up from one, so
this fails only at the end of their range. -/
def Fresh (s : System C P capacity) : Action C P → Prop
  | .send _ _ => ∀ copy ∈ s.live.inFlight, copy.seq ≠ s.sender.next
  | _ => True

def Executed (s : System C P capacity) (copy : InFlight C P) : Prop :=
  ∃ receipt ∈ s.receipts, receipt.seq = copy.seq ∧ Live.applies receipt.outcome = true

/-- No batch that falls due in the block comes, by moment and number, before a change the executor
applied earlier and the owner has not settled. -/
def InOrder (s : System C P capacity) : Action C P → Prop
  | .block start frames _ => ∀ copy ∈ s.live.inFlight, Executed s copy →
      ∀ sent ∈ s.docket.schedule ++ s.commands.items, Inside start frames sent →
        copy.key < sent.key
  | _ => True

theorem send_cases (W : Wiring C P) (s : System C P capacity) (when : When P.Clock)
    (change : C.Change) : s.send W when change = s ∨
      ∃ (change' : C.Change) (sender : Sender P) (commands : Ring (Sent P) capacity),
        s.send W when change = { s with
          live := s.live.track s.sender.next when change'
          sender := sender
          commands := commands } ∧
        commands.items = s.commands.items ++ [carry W ⟨s.sender.next, when, change'⟩] := by
  unfold System.send
  dsimp only
  unfold Live.send
  cases C.check change with
  | error error => exact .inl rfl
  | ok change' =>
    dsimp only
    cases pushed : s.sender.push s.commands when ⟨[], [W.wrap change']⟩ with
    | error error => exact .inl rfl
    | ok r =>
      obtain ⟨sent, sender, commands⟩ := r
      obtain ⟨rfl, -, -, items⟩ := CommandAnswers.push_cases pushed
      exact .inr ⟨change', sender, commands, rfl, items⟩

theorem send_tracks {W : Wiring C P} {s : System C P capacity}
    {answered : List (InFlight C P × Receipt P)} {waiting : List (InFlight C P)}
    (h : Tracks W s answered waiting) {when : When P.Clock} (hw : when ≠ .deferred)
    (change : C.Change) (fresh : ∀ copy ∈ s.live.inFlight, copy.seq ≠ s.sender.next) :
    ∃ waiting', Tracks W (s.send W when change) answered waiting' := by
  rcases send_cases W s when change with same | ⟨change', sender, commands, sends, items⟩
  · rw [same]
    exact ⟨waiting, h⟩
  · obtain ⟨copy, hcopy⟩ : ∃ copy : InFlight C P, ⟨s.sender.next, when, change'⟩ = copy := ⟨_, rfl⟩
    rw [sends]
    rw [hcopy] at items
    refine ⟨waiting ++ [copy], ?_, ?_, h.receipts, h.numbered, ?_, ?_, h.scheduled, h.idle,
      h.executor⟩
    · rw [Live.track, hcopy, ← List.append_assoc]
      exact h.copies.append_right [copy]
    · dsimp only
      rw [items, ← List.append_assoc, List.map_append]
      exact h.carried.append_right _
    · rw [Live.track, hcopy, List.map_append, List.nodup_append]
      refine ⟨h.distinct, List.nodup_singleton _, fun seq hseq other hother => ?_⟩
      obtain ⟨earlier, hearlier, rfl⟩ := List.mem_map.mp hseq
      rw [List.mem_singleton.mp hother, ← hcopy]
      exact fresh earlier hearlier
    · refine List.forall_mem_append.mpr ⟨h.timed, List.forall_mem_singleton.mpr ?_⟩
      exact hcopy ▸ hw

theorem settle_tracks {W : Wiring C P} {s : System C P capacity}
    {answered : List (InFlight C P × Receipt P)} {waiting : List (InFlight C P)}
    (h : Tracks W s answered waiting) : Tracks W s.settle answered.tail waiting := by
  unfold System.settle
  cases answered with
  | nil =>
    have none_left := h.receipts
    rw [List.map_nil] at none_left
    rw [none_left]
    exact h
  | cons x answered =>
    obtain ⟨copy, receipt⟩ := x
    have receipts := h.receipts
    rw [List.map_cons] at receipts
    rw [receipts]
    obtain ⟨own, numbered⟩ := List.forall_mem_cons.mp h.numbered
    have mine : copy ∈ s.live.inFlight := by
      rw [h.copies.mem_iff, List.map_cons]
      exact List.mem_append_left _ List.mem_cons_self
    cases taken : extract (fun other => decide (other.seq = receipt.seq)) s.live.inFlight with
    | none =>
      have := extract_eq_none taken copy mine
      rw [own] at this
      simp at this
    | some r =>
      obtain ⟨other, rest⟩ := r
      obtain ⟨perm, same⟩ := extract_spec taken
      have seqs : other.seq = copy.seq := (of_decide_eq_true same).trans own
      have first : other = copy := List.inj_on_of_nodup_map h.distinct
        (perm.mem_iff.mpr List.mem_cons_self) mine seqs
      rw [first] at perm taken
      have settled : s.live.settle receipt = (some copy, {
          config := if Live.applies receipt.outcome then C.applyChange s.live.config copy.change
            else s.live.config
          inFlight := rest }) := by
        rw [Live.settle, taken]
      dsimp only
      rw [settled]
      refine ⟨?_, h.carried, rfl, numbered, ?_, h.timed, h.scheduled, h.idle, ?_⟩
      · exact (perm.symm.trans h.copies).cons_inv
      · exact h.distinct.sublist ((extract_sublist taken).map _)
      · rw [List.tail_cons, h.executor, confirmed_cons]
        dsimp only
        split
        · rfl
        · rfl

theorem block_tracks {W : Wiring C P} {s : System C P capacity}
    {answered : List (InFlight C P × Receipt P)} {waiting : List (InFlight C P)}
    (h : Tracks W s answered waiting) (start : P.Clock) (frames : ℕ) (data : ℕ → P.Applied) :
    ∃ new rest, Tracks W (s.block W start frames data) (answered ++ new) rest ∧
      waiting.Perm (new.map Prod.fst ++ rest) ∧
      ((new.map Prod.fst).Pairwise fun a b => a.key ≤ b.key) ∧
      ∀ x ∈ new, Live.applies x.2.outcome = true → Inside start frames (carry W x.1) := by
  have ring_timed : ∀ sent ∈ s.commands.items, sent.when ≠ .deferred := by
    intro sent hsent
    have := h.carried.mem_iff.mp (List.mem_append_right _ hsent)
    obtain ⟨copy, hcopy, rfl⟩ := List.mem_map.mp this
    exact h.timed copy hcopy
  obtain ⟨perm, arrived, parked⟩ := drained_timed (d := s.docket) ring_timed
  have scheduled := drained_scheduled h.scheduled s.commands.items
  obtain ⟨copies, schedule, same⟩ : ∃ copies : List (InFlight C P),
      (drained s.docket s.commands.items).schedule =
      copies.map (carry W) ∧ copies.Perm waiting := by
    have through : Relation.Comp (fun a b => a = b.map (carry W)) List.Perm
        (drained s.docket s.commands.items).schedule waiting := by
      rw [List.eq_map_comp_perm]
      exact perm.trans h.carried
    exact through
  obtain ⟨r, hr⟩ : ∃ r, runBlock s.docket s.commands.items start frames (applyingAll data) = r :=
    ⟨_, rfl⟩
  obtain ⟨new, rest, served⟩ : ∃ new rest, Served W start frames copies r new rest := by
    by_cases hf : 0 < frames
    · rw [← hr]
      refine walkBlock_carried W hf _ _ 0 data copies schedule ?_ ?_
      · rw [arrived, parked]
        exact h.idle
      · rw [schedule, List.length_map]
        exact Nat.lt_succ_self _
    · obtain rfl : frames = 0 := by omega
      have nothing : runBlock s.docket s.commands.items start 0 (applyingAll data) =
          { docket := drained s.docket s.commands.items, steps := [], replies := [] } := by
        simp [runBlock, walkBlock, takeDue]
      rw [← hr, nothing]
      refine ⟨[], copies, rfl, rfl, schedule, ?_, by simp, by simp, fun _ => rfl⟩
      dsimp only
      rw [arrived, parked]
      exact h.idle
  have ordered := scheduled.ordered
  rw [schedule, List.pairwise_map, served.parts] at ordered
  have parts : waiting.Perm (new.map Prod.fst ++ rest) := served.parts ▸ same.symm
  refine ⟨new, rest, ?_, parts, (List.pairwise_append.mp ordered).1, served.inside⟩
  simp only [System.block, hr]
  refine ⟨?_, ?_, ?_, ?_, h.distinct, ?_, ?_, served.idle, ?_⟩
  · rw [List.map_append, List.append_assoc]
    exact h.copies.trans (parts.append_left _)
  · rw [Ring.empty, served.schedule, List.append_nil]
  · rw [h.receipts, served.replies, List.map_append]
  · exact List.forall_mem_append.mpr ⟨h.numbered, served.numbered⟩
  · exact fun copy hcopy => h.timed copy (parts.mem_iff.mpr (List.mem_append_right _ hcopy))
  · apply scheduled.sublist
    rw [schedule, served.schedule, served.parts, List.map_append]
    exact List.sublist_append_right _ _
  · rw [served.executed, confirmed_append, folded_append, h.executor]

theorem block_ordered {W : Wiring C P} {s : System C P capacity}
    {answered new : List (InFlight C P × Receipt P)} {waiting rest : List (InFlight C P)}
    (h : Tracks W s answered waiting) {start : P.Clock} {frames : ℕ} {data : ℕ → P.Applied}
    (parts : waiting.Perm (new.map Prod.fst ++ rest))
    (order : (new.map Prod.fst).Pairwise fun a b => a.key ≤ b.key)
    (inside : ∀ x ∈ new, Live.applies x.2.outcome = true → Inside start frames (carry W x.1))
    (hin : InOrder s (.block start frames data))
    (sorted : (confirmed answered).Pairwise fun a b => a.key < b.key) :
    (confirmed (answered ++ new)).Pairwise fun a b => a.key < b.key := by
  rw [confirmed_append, List.pairwise_append]
  have seqs : ((new.map Prod.fst).map InFlight.seq).Nodup := by
    have all := (h.copies.map InFlight.seq).nodup_iff.mp h.distinct
    rw [List.map_append, List.nodup_append] at all
    have later := (parts.map InFlight.seq).nodup_iff.mp all.2.1
    rw [List.map_append, List.nodup_append] at later
    exact later.1
  have strict : (new.map Prod.fst).Pairwise fun a b => a.key < b.key := by
    rw [List.nodup_iff_pairwise_ne, List.pairwise_map] at seqs
    refine (order.and seqs).imp fun both => lt_of_le_of_ne both.1 fun same => both.2 ?_
    exact congrArg (fun key => (ofLex key).2) same
  refine ⟨sorted, strict.sublist (confirmed_sublist new), fun a ha b hb => ?_⟩
  obtain ⟨x, hx, rfl, applied⟩ := mem_confirmed ha
  obtain ⟨y, hy, rfl, applied'⟩ := mem_confirmed hb
  have in_flight : x.1 ∈ s.live.inFlight :=
    h.copies.mem_iff.mpr (List.mem_append_left _ (List.mem_map_of_mem hx))
  have executed : Executed s x.1 := by
    refine ⟨x.2, ?_, h.numbered x hx, applied⟩
    rw [h.receipts]
    exact List.mem_map_of_mem hx
  have waits : y.1 ∈ waiting := parts.mem_iff.mpr (List.mem_append_left _ (List.mem_map_of_mem hy))
  exact hin x.1 in_flight executed (carry W y.1)
    (h.carried.mem_iff.mpr (List.mem_map_of_mem waits)) (inside y hy applied')

theorem next_tracks {W : Wiring C P} {s : System C P capacity}
    {answered : List (InFlight C P × Receipt P)} {waiting : List (InFlight C P)}
    (h : Tracks W s answered waiting) {a : Action C P} (ha : s.Enabled a) (fresh : Fresh s a) :
    ∃ answered' waiting', Tracks W (s.next W a) answered' waiting' ∧
      (InOrder s a → ((confirmed answered).Pairwise fun a b => a.key < b.key) →
        (confirmed answered').Pairwise fun a b => a.key < b.key) := by
  cases a with
  | send when change =>
    obtain ⟨waiting', tracks⟩ := send_tracks h ha change fresh
    exact ⟨answered, waiting', tracks, fun _ sorted => sorted⟩
  | settle =>
    refine ⟨answered.tail, waiting, settle_tracks h, fun _ sorted => ?_⟩
    exact sorted.sublist (((List.tail_sublist answered).filter _).map Prod.fst)
  | block start frames data =>
    obtain ⟨new, rest, tracks, parts, order, inside⟩ := block_tracks h start frames data
    exact ⟨answered ++ new, rest, tracks, fun hin sorted =>
      block_ordered h parts order inside hin sorted⟩

theorem start_tracks (W : Wiring C P) {config : C.Config} {live : Live C P}
    (hnew : Live.new config = .ok live) (targets : ℕ) :
    Tracks W (System.start live targets : System C P capacity) [] [] := by
  have empty : live.inFlight = [] := by
    unfold Live.new at hnew
    cases hc : C.validated config with
    | error error =>
      rw [hc] at hnew
      cases hnew
    | ok config' =>
      rw [hc] at hnew
      cases hnew
      rfl
  refine ⟨.of_eq empty, .refl _, rfl, by simp, ?_, by simp, ⟨.nil, by simp [System.start, Docket.new]⟩,
    ⟨rfl, rfl⟩, rfl⟩
  rw [System.start, empty]
  exact List.nodup_nil

def Confirms (s : System C P capacity) : Prop := s.receipts = [] → s.live.config = s.executor

/-- While everything in flight is applied, the owner would abandon its executor with the
executor's configuration, and projects it. -/
def Agrees (s : System C P capacity) : Prop :=
  (∀ copy ∈ s.live.inFlight, Executed s copy) →
    s.live.abandon.2.config = s.executor ∧ s.live.projected = s.executor

theorem tracks_confirms {W : Wiring C P} {s : System C P capacity}
    {answered : List (InFlight C P × Receipt P)} {waiting : List (InFlight C P)}
    (h : Tracks W s answered waiting) : Confirms s := by
  intro settled
  have receipts := h.receipts
  rw [settled] at receipts
  have none_left : answered = [] := List.map_eq_nil_iff.mp receipts.symm
  rw [h.executor, none_left]
  rfl

theorem tracks_agrees {W : Wiring C P} {s : System C P capacity}
    {answered : List (InFlight C P × Receipt P)} {waiting : List (InFlight C P)}
    (h : Tracks W s answered waiting)
    (sorted : (confirmed answered).Pairwise fun a b => a.key < b.key) : Agrees s := by
  intro executed
  have seqs := (h.copies.map InFlight.seq).nodup_iff.mp h.distinct
  rw [List.map_append, List.nodup_append, List.map_map] at seqs
  have own : ∀ copy ∈ s.live.inFlight, ∃ x ∈ answered, x.1.seq = copy.seq ∧
      Live.applies x.2.outcome = true := by
    intro copy hcopy
    obtain ⟨receipt, hreceipt, same, applied⟩ := executed copy hcopy
    rw [h.receipts] at hreceipt
    obtain ⟨x, hx, rfl⟩ := List.mem_map.mp hreceipt
    exact ⟨x, hx, (h.numbered x hx).symm.trans same, applied⟩
  have none_waits : waiting = [] := by
    refine List.eq_nil_iff_forall_not_mem.mpr fun copy hcopy => ?_
    obtain ⟨x, hx, same, -⟩ := own copy (h.copies.mem_iff.mpr (List.mem_append_right _ hcopy))
    exact seqs.2.2 x.1.seq (List.mem_map.mpr ⟨x, hx, rfl⟩) copy.seq (List.mem_map_of_mem hcopy) same
  have all_applied : confirmed answered = answered.map Prod.fst := by
    rw [confirmed, List.filter_eq_self.mpr]
    intro x hx
    obtain ⟨y, hy, same, applied⟩ := own x.1
      (h.copies.mem_iff.mpr (List.mem_append_left _ (List.mem_map_of_mem hx)))
    have one : y = x := List.inj_on_of_nodup_map seqs.1 hy hx same
    rw [← one]
    exact applied
  have in_order : s.live.sorted = confirmed answered := by
    have perm : s.live.sorted.Perm (confirmed answered) := by
      have := h.copies
      rw [none_waits, List.append_nil, ← all_applied] at this
      exact (List.perm_insertionSort _ _).trans this
    have total : s.live.sorted.Pairwise fun a b => a.key ≤ b.key :=
      List.pairwise_insertionSort (fun a b : InFlight C P => a.key ≤ b.key) _
    refine perm.eq_of_pairwise (fun a b ha hb hab hba => ?_) total (sorted.imp le_of_lt)
    have key : a.key = b.key := le_antisymm hab hba
    refine List.inj_on_of_nodup_map h.distinct ?_ ?_ (congrArg (fun key => (ofLex key).2) key)
    · exact (List.perm_insertionSort _ _).mem_iff.mp ha
    · exact (List.perm_insertionSort _ _).mem_iff.mp (perm.mem_iff.mpr hb)
  have folds : folded s.live.config s.live.sorted = s.executor := by rw [in_order, h.executor]
  exact ⟨folds, folds⟩

/-- In every run whose batches get fresh numbers, the owner's configuration is the executor's
whenever every receipt is settled. What it abandons and projects once everything in flight is
applied is the executor's configuration throughout every such run whose blocks come in order. -/
theorem live_follows (W : Wiring C P) {config : C.Config} {live : Live C P}
    (hnew : Live.new config = .ok live) (capacity targets : ℕ) (as : List (Action C P))
    (hv : (System.machine W).ValidTrace (System.start live targets : System C P capacity) as)
    (fresh : (System.machine W).Along Fresh (System.start live targets : System C P capacity) as) :
    (System.machine W).Throughout Confirms (System.start live targets : System C P capacity) as ∧
      ((System.machine W).Along InOrder (System.start live targets : System C P capacity) as →
        (System.machine W).Throughout Agrees (System.start live targets : System C P capacity)
          as) := by
  have begins : Tracks W (System.start live targets : System C P capacity) [] [] :=
    start_tracks W hnew targets
  constructor
  · have tracked := throughout_of_along (P := fun s => ∃ answered waiting, Tracks W s answered waiting)
      (fun s a hs ha hf => by
        obtain ⟨answered, waiting, tracks⟩ := hs
        obtain ⟨answered', waiting', tracks', -⟩ := next_tracks tracks ha hf
        exact ⟨answered', waiting', tracks'⟩) ⟨[], [], begins⟩ hv fresh
    exact throughout_imp (fun s ⟨_, _, tracks⟩ => tracks_confirms tracks) tracked
  · intro ordered
    have tracked := throughout_of_along (P := fun s => ∃ answered waiting,
        Tracks W s answered waiting ∧ (confirmed answered).Pairwise fun a b => a.key < b.key)
      (fun s a hs ha hg => by
        obtain ⟨answered, waiting, tracks, sorted⟩ := hs
        obtain ⟨answered', waiting', tracks', keeps⟩ := next_tracks tracks ha hg.1
        exact ⟨answered', waiting', tracks', keeps hg.2 sorted⟩)
      ⟨[], [], begins, .nil⟩ hv (along_and.mpr ⟨fresh, ordered⟩)
    exact throughout_imp (fun s ⟨_, _, tracks, sorted⟩ => tracks_agrees tracks sorted) tracked

open CommandAnswers

def level : LiveConfig where
  Config := ℕ
  Change := ℕ
  Error := ℕ
  validated level := if level ≤ 10 then .ok level else .error level
  check level := if level ≤ 10 then .ok level else .error level
  applyChange _ level := level

def levels : Wiring level frameProtocol := ⟨id, some, fun _ => rfl⟩

def mute : Live level frameProtocol := ⟨(0 : ℕ), []⟩

theorem timed_ne_deferred {T : Type} {moment : T} : When.timed moment ≠ .deferred := by
  simp

theorem next_ne_deferred {T : Type} : (When.next : When T) ≠ .deferred := by
  simp

def settledBetween : List (Action level frameProtocol) :=
  [.send (.timed (10 : ℕ)) (7 : ℕ), .block (0 : ℕ) 64 fun _ => (), .settle, .send .next (8 : ℕ),
    .block (64 : ℕ) 64 fun _ => ()]

theorem live_follows_settled_between :
    (System.machine levels).Throughout Confirms
        (System.start mute 0 : System level frameProtocol 4) settledBetween ∧
      (System.machine levels).Throughout Agrees
        (System.start mute 0 : System level frameProtocol 4) settledBetween := by
  have unanswered : ∀ {s : System level frameProtocol 4}, s.receipts = [] → ∀ copy,
      ¬ Executed s copy := by
    rintro s none_left copy ⟨receipt, hreceipt, -⟩
    rw [none_left] at hreceipt
    cases hreceipt
  have fresh : ∀ {s : System level frameProtocol 4}, s.live.inFlight = [] →
      ∀ copy ∈ s.live.inFlight, copy.seq ≠ s.sender.next := by
    intro s none_left copy hcopy
    rw [none_left] at hcopy
    cases hcopy
  have created : Live.new (C := level) (P := frameProtocol) (0 : ℕ) = .ok mute := rfl
  obtain ⟨confirms, agrees⟩ := live_follows levels created 4 0 settledBetween
    ⟨timed_ne_deferred, trivial, trivial, next_ne_deferred, trivial, trivial⟩
    ⟨fresh rfl, trivial, trivial, fresh rfl, trivial, trivial⟩
  refine ⟨confirms, agrees ⟨trivial, ?_, trivial, trivial, ?_, trivial⟩⟩
  · exact fun copy _ executed => absurd executed (unanswered rfl copy)
  · exact fun copy _ executed => absurd executed (unanswered rfl copy)

/-- The same two changes, with the first still unsettled: the executor renders with the second, and
the owner projects the first. -/
def overtaken : List (Action level frameProtocol) :=
  [.send (.timed (10 : ℕ)) (7 : ℕ), .block (0 : ℕ) 64 fun _ => (), .send .next (8 : ℕ),
    .block (64 : ℕ) 64 fun _ => ()]

theorem overtaken_disagrees :
    (System.machine levels).ValidTrace (System.start mute 0 : System level frameProtocol 4)
        overtaken ∧
      ((System.machine levels).runTrace (System.start mute 0 : System level frameProtocol 4)
        overtaken).executor = (8 : ℕ) ∧
      ((System.machine levels).runTrace (System.start mute 0 : System level frameProtocol 4)
        overtaken).live.projected = (7 : ℕ) ∧
      ¬ (System.machine levels).Throughout Agrees
        (System.start mute 0 : System level frameProtocol 4) overtaken := by
  obtain ⟨s, hs⟩ : ∃ s, (System.machine levels).runTrace
      (System.start mute 0 : System level frameProtocol 4) overtaken = s := ⟨_, rfl⟩
  have executor : s.executor = (8 : ℕ) := hs ▸ rfl
  have projected : s.live.projected = (7 : ℕ) := hs ▸ rfl
  have executed : ∀ copy ∈ s.live.inFlight, Executed s copy := by
    rw [← hs]
    refine List.forall_mem_cons.mpr ⟨⟨_, List.mem_cons_self, rfl, rfl⟩, ?_⟩
    refine List.forall_mem_cons.mpr ⟨⟨_, List.mem_cons_of_mem _ List.mem_cons_self, rfl, rfl⟩, ?_⟩
    exact fun copy hcopy => by cases hcopy
  rw [hs]
  refine ⟨⟨timed_ne_deferred, trivial, next_ne_deferred, trivial, trivial⟩, executor, projected,
    fun agrees => ?_⟩
  have follows := (throughout_iff_visited.mp agrees overtaken (List.prefix_refl _))
  rw [hs] at follows
  have same : (7 : ℕ) = 8 := projected.symm.trans ((follows executed).2.trans executor)
  exact absurd same (by decide)

end LiveConfigs
