import Kithara.VariantSlots
import Mathlib.Data.List.Basic

/-! The life of a session as its log tells it, and the role the slots give it: every operation
keeps the two in step, so that each incoming session leaves its role once. -/
namespace VariantHandover

open Abr VariantSlots TransitionSystem

/-- Where a session is in its life. -/
inductive Role where
  | outside
  | waiting (claim : PendingAbrDecision)
  | handed (claim : PendingAbrDecision)
  | accepted (claim : PendingAbrDecision)
  | active
  | gone
  deriving DecidableEq

def Role.step : Role → Event → Option Role
  | .outside, .installed claim => some (.waiting claim)
  | .waiting claim, .handedOut => some (.handed claim)
  | .handed claim, .commit claim' ok =>
    if claim' = claim then some (if ok then .accepted claim else .handed claim) else none
  | .accepted _, .promoted => some .active
  | .outside, .aborted | .waiting _, .aborted | .handed _, .aborted | .active, .aborted => some .gone
  | _, _ => none

def Role.run (r : Role) (l : List Event) : Option Role := l.foldlM Role.step r

def lifeOf (log : List (ℕ × Event)) (i : ℕ) : List Event :=
  log.filterMap fun e => if e.1 = i then some e.2 else none

variable {Media Profile : Type*} {s s' : State Media Profile} {i j : ℕ}
  {slot : IncomingSlot Media Profile} {claim : PendingAbrDecision} {l : List Event} {r : Role}

def life (s : State Media Profile) (i : ℕ) : List Event := lifeOf s.log i

def settledRole (s : State Media Profile) (i : ℕ) : Role :=
  if s.publication.active = i then .active else if i < s.created then .gone else .outside

def slotRole (slot : IncomingSlot Media Profile) : Role :=
  if slot.reader.isSome then .waiting slot.claim else .handed slot.claim

/-- The role the slots give a session. -/
def role (s : State Media Profile) (i : ℕ) : Role := match s.incoming with
  | some slot => if slot.session = i then slotRole slot else settledRole s i
  | none => settledRole s i

/-- The session a stream starts with is active from the first. -/
def firstRole (i : ℕ) : Role := if i = 0 then .active else .outside

/-- The life of a session that was handed out and refused any number of commits. -/
def handedLife (claim : PendingAbrDecision) (n : ℕ) : List Event :=
  .installed claim :: .handedOut :: List.replicate n (.commit claim false)

/-- How the life of a session that left the incoming role reads: it was aborted, before or after
its reader was handed out, or it was promoted once exactly its own claim was accepted, and it is
aborted after that when it is the active session no longer. -/
inductive Left (claim : PendingAbrDecision) (active : Prop) : List Event → Prop
  | untaken (inactive : ¬ active) : Left claim active [.installed claim, .aborted]
  | taken (n : ℕ) (inactive : ¬ active) : Left claim active (handedLife claim n ++ [.aborted])
  | promoted (n : ℕ) (current : active) :
    Left claim active (handedLife claim n ++ [.commit claim true, .promoted])
  | replaced (n : ℕ) (inactive : ¬ active) :
    Left claim active (handedLife claim n ++ [.commit claim true, .promoted, .aborted])

/-- What the slots promise whenever the transition lock is free. -/
structure Handover (s : State Media Profile) : Prop where
  published : s.publication.incoming = s.incoming.map IncomingSlot.session
  /-- The sessions that still fetch are the two that are published. -/
  resident : ∀ i < s.created, (s.session i).cancelled = false ↔
    i = s.publication.active ∨ s.publication.incoming = some i
  apart : s.publication.incoming ≠ some s.publication.active
  held : ∀ slot ∈ s.incoming, (slot.reader.isSome ∧ life s slot.session = [.installed slot.claim]) ∨
    slot.reader = none ∧ ∃ n, life s slot.session = handedLife slot.claim n
  left : ∀ i claim, .installed claim ∈ life s i → s.publication.incoming ≠ some i →
    Left claim (i = s.publication.active) (life s i)

structure Inv (s : State Media Profile) : Prop where
  published : s.publication.incoming = s.incoming.map IncomingSlot.session
  known : s.publication.active < s.created
  slot : ∀ slot, s.incoming = some slot → slot.session < s.created ∧
    slot.session ≠ s.publication.active
  lives : ∀ i, (firstRole i).run (life s i) = some (role s i)
  cancelled : ∀ i < s.created, (s.session i).cancelled = true ↔ role s i = .gone

theorem run_append (r : Role) (l m : List Event) : r.run (l ++ m) = (r.run l).bind (·.run m) :=
  List.foldlM_append

theorem run_cons (r : Role) (e : Event) (l : List Event) :
    r.run (e :: l) = (r.step e).bind (·.run l) := rfl

theorem run_gone (h : Role.gone.run l = some r) : l = [] ∧ r = .gone := by
  cases l with
  | nil => exact ⟨rfl, (Option.some_inj.mp h).symm⟩
  | cons e rest => cases h

theorem run_active (h : Role.active.run l = some r) :
    l = [] ∧ r = .active ∨ l = [.aborted] ∧ r = .gone := by
  cases l with
  | nil => exact .inl ⟨rfl, (Option.some_inj.mp h).symm⟩
  | cons e rest =>
    cases e with
    | aborted =>
      obtain ⟨rfl, rfl⟩ := run_gone h
      exact .inr ⟨rfl, rfl⟩
    | _ => cases h

theorem run_accepted (h : (Role.accepted claim).run l = some r) :
    l = [] ∧ r = .accepted claim ∨ l = [.promoted] ∧ r = .active ∨
      l = [.promoted, .aborted] ∧ r = .gone := by
  cases l with
  | nil => exact .inl ⟨rfl, (Option.some_inj.mp h).symm⟩
  | cons e rest =>
    cases e with
    | promoted =>
      rcases run_active h with ⟨rfl, rfl⟩ | ⟨rfl, rfl⟩
      · exact .inr (.inl ⟨rfl, rfl⟩)
      · exact .inr (.inr ⟨rfl, rfl⟩)
    | _ => cases h

theorem run_handed (h : (Role.handed claim).run l = some r) :
    ∃ n rest, l = List.replicate n (.commit claim false) ++ rest ∧
      (rest = [] ∧ r = .handed claim ∨ rest = [.aborted] ∧ r = .gone ∨
        rest = [.commit claim true] ∧ r = .accepted claim ∨
        rest = [.commit claim true, .promoted] ∧ r = .active ∨
        rest = [.commit claim true, .promoted, .aborted] ∧ r = .gone) := by
  induction l with
  | nil => exact ⟨0, [], rfl, .inl ⟨rfl, (Option.some_inj.mp h).symm⟩⟩
  | cons e rest ih =>
    rw [run_cons] at h
    cases e with
    | commit claim' ok =>
      simp only [Role.step] at h
      split at h
      · rename_i hclaim
        subst hclaim
        cases ok with
        | false =>
          obtain ⟨n, rest, rfl, hrest⟩ := ih h
          exact ⟨n + 1, rest, rfl, hrest⟩
        | true =>
          rcases run_accepted h with ⟨rfl, rfl⟩ | ⟨rfl, rfl⟩ | ⟨rfl, rfl⟩
          · exact ⟨0, _, rfl, .inr (.inr (.inl ⟨rfl, rfl⟩))⟩
          · exact ⟨0, _, rfl, .inr (.inr (.inr (.inl ⟨rfl, rfl⟩)))⟩
          · exact ⟨0, _, rfl, .inr (.inr (.inr (.inr ⟨rfl, rfl⟩)))⟩
      · cases h
    | aborted =>
      obtain ⟨rfl, rfl⟩ := run_gone h
      exact ⟨0, _, rfl, .inr (.inl ⟨rfl, rfl⟩)⟩
    | _ => cases h

theorem run_waiting (h : (Role.waiting claim).run l = some r) :
    l = [] ∧ r = .waiting claim ∨ l = [.aborted] ∧ r = .gone ∨
      ∃ rest, l = .handedOut :: rest ∧ (Role.handed claim).run rest = some r := by
  cases l with
  | nil => exact .inl ⟨rfl, (Option.some_inj.mp h).symm⟩
  | cons e rest =>
    cases e with
    | handedOut => exact .inr (.inr ⟨rest, rfl, h⟩)
    | aborted =>
      obtain ⟨rfl, rfl⟩ := run_gone h
      exact .inr (.inl ⟨rfl, rfl⟩)
    | _ => cases h

theorem run_first (h : (firstRole i).run l = some r) :
    l = [] ∧ r = firstRole i ∨ l = [.aborted] ∧ r = .gone ∨
      ∃ claim rest, l = .installed claim :: rest ∧ (Role.waiting claim).run rest = some r := by
  rw [firstRole] at h ⊢
  split at h
  · rename_i hi
    rw [if_pos hi]
    exact (run_active h).imp_right .inl
  · rename_i hi
    rw [if_neg hi]
    cases l with
    | nil => exact .inl ⟨rfl, (Option.some_inj.mp h).symm⟩
    | cons e rest =>
      cases e with
      | installed claim => exact .inr (.inr ⟨claim, rest, rfl, h⟩)
      | aborted =>
        obtain ⟨rfl, rfl⟩ := run_gone h
        exact .inr (.inl ⟨rfl, rfl⟩)
      | _ => cases h

theorem run_waiting_installed {claim' : PendingAbrDecision} (h : (Role.waiting claim).run l = some r) :
    .installed claim' ∉ l := by
  intro hin
  rcases run_waiting h with ⟨rfl, _⟩ | ⟨rfl, _⟩ | ⟨rest, rfl, hhanded⟩
  · cases hin
  · cases List.mem_singleton.mp hin
  · obtain ⟨n, tail, rfl, htail⟩ := run_handed hhanded
    rcases List.mem_cons.mp hin with heq | hin
    · cases heq
    rcases List.mem_append.mp hin with hin | hin
    · cases List.eq_of_mem_replicate hin
    · rcases htail with ⟨rfl, _⟩ | ⟨rfl, _⟩ | ⟨rfl, _⟩ | ⟨rfl, _⟩ | ⟨rfl, _⟩ <;> simp at hin

/-- A life with an installation in it begins with that one. -/
theorem run_installed (h : (firstRole i).run l = some r) (hin : .installed claim ∈ l) :
    ∃ rest, l = .installed claim :: rest ∧ (Role.waiting claim).run rest = some r := by
  rcases run_first h with ⟨rfl, _⟩ | ⟨rfl, _⟩ | ⟨claim', rest, rfl, hrun⟩
  · cases hin
  · cases List.mem_singleton.mp hin
  · rcases List.mem_cons.mp hin with heq | hin
    · cases heq
      exact ⟨rest, rfl, hrun⟩
    · exact absurd hin (run_waiting_installed hrun)

theorem lifeOf_append (log : List (ℕ × Event)) (i : ℕ) (e : Event) (j : ℕ) :
    lifeOf (log ++ [(i, e)]) j = lifeOf log j ++ if i = j then [e] else [] := by
  rw [lifeOf, List.filterMap_append]
  by_cases hij : i = j
  · simp [lifeOf, hij]
  · simp [lifeOf, hij]

theorem role_of_slot (hslot : s.incoming = some slot) : role s slot.session = slotRole slot := by
  simp only [role, hslot, if_true]

theorem role_other (hslot : ∀ slot, s.incoming = some slot → slot.session ≠ i) :
    role s i = settledRole s i := by
  rw [role]
  cases hin : s.incoming with
  | none => rfl
  | some slot => exact if_neg (hslot slot hin)

theorem role_none (hslot : s.incoming = none) : role s i = settledRole s i :=
  role_other fun slot hin => by
    rw [hslot] at hin
    cases hin

theorem slotRole_step (slot : IncomingSlot Media Profile) :
    (slotRole slot).step .aborted = some .gone := by
  rw [slotRole]
  split <;> rfl

theorem slotRole_ne (slot : IncomingSlot Media Profile) : slotRole slot ≠ .gone := by
  rw [slotRole]
  split <;> rintro ⟨⟩

theorem settledRole_active (hi : i = s.publication.active) : settledRole s i = .active :=
  if_pos hi.symm

theorem settledRole_gone (hactive : i ≠ s.publication.active) (hi : i < s.created) :
    settledRole s i = .gone := by
  rw [settledRole, if_neg hactive.symm, if_pos hi]

theorem settledRole_outside (h : s.publication.active < s.created) (hi : s.created ≤ i) :
    settledRole s i = .outside := by
  rw [settledRole, if_neg (Nat.ne_of_lt (Nat.lt_of_lt_of_le h hi)), if_neg (Nat.not_lt.mpr hi)]

/-- One session lives on, and no other's role changes. -/
theorem lives_of {es : List Event} (h : Inv s)
    (hlife : ∀ j, life s' j = life s j ++ if i = j then es else [])
    (hrun : (role s i).run es = some (role s' i)) (hrole : ∀ j, j ≠ i → role s' j = role s j)
    (j : ℕ) : (firstRole j).run (life s' j) = some (role s' j) := by
  by_cases hij : j = i
  · subst hij
    rw [hlife, if_pos rfl, run_append, h.lives, Option.bind_some]
    exact hrun
  · rw [hlife, if_neg (Ne.symm hij), List.append_nil, hrole j hij]
    exact h.lives j

theorem abortPending_inv (h : Inv s) (ticket : AbrTicket) : Inv (s.abortPending ticket) :=
  ⟨h.published, h.known, h.slot, h.lives, h.cancelled⟩

theorem discarded_inv (h : Inv s) (hslot : s.incoming = some slot) :
    Inv ((s.vacate.publishExactOne s.publication.active).abort slot.session) := by
  obtain ⟨hin, hactive⟩ := h.slot slot hslot
  have hgone := settledRole_gone (s := s) hactive hin
  have hother (j : ℕ) (hj : j ≠ slot.session) : role s j = settledRole s j :=
    role_other fun slot' hslot' => by
      cases hslot.symm.trans hslot'
      exact hj.symm
  refine ⟨rfl, h.known, by rintro slot ⟨⟩, lives_of h (lifeOf_append s.log slot.session _) ?_
    fun j hj => (hother j hj).symm, fun i hi => ?_⟩
  · rw [role_of_slot hslot, run_cons, slotRole_step]
    exact congrArg some hgone.symm
  · by_cases hij : i = slot.session
    · subst hij
      simp only [State.abort, Function.update_self, true_iff]
      exact hgone
    · simp only [State.abort, Function.update_of_ne hij]
      refine (h.cancelled i hi).trans ?_
      rw [hother i hij]
      exact Iff.rfl

theorem discardIncoming_inv (h : Inv s) (abortIntent : Bool) :
    Inv (s.discardIncoming abortIntent) := by
  rw [State.discardIncoming]
  cases hslot : s.incoming with
  | none => exact h
  | some slot =>
    have hdiscarded := discarded_inv h hslot
    cases abortIntent with
    | true => exact abortPending_inv hdiscarded _
    | false => exact hdiscarded

theorem discardIncoming_none (s : State Media Profile) (abortIntent : Bool) :
    (s.discardIncoming abortIntent).incoming = none := by
  rw [State.discardIncoming]
  cases hslot : s.incoming with
  | none => exact hslot
  | some slot => cases abortIntent <;> rfl

theorem plan_inv (h : Inv s) (claim : PendingAbrClaim) : Inv (planVariantReader s claim).1 := by
  cases claim with
  | absent => exact discardIncoming_inv h true
  | locked claim =>
    simp only [planVariantReader]
    split
    · split
      · split
        · exact discardIncoming_inv h false
        · exact h
      · exact discardIncoming_inv h true
    · exact discardIncoming_inv h true
  | ready claim =>
    simp only [planVariantReader]
    split
    · split
      · exact h
      · exact discardIncoming_inv h _
    · exact h

theorem finishPlan_inv (variants : VariantIndex → Option Media) (h : Inv s)
    (claim : PendingAbrDecision) (transition : VariantTransition) (again : PendingAbrClaim)
    (landingTime : ℕ) : Inv (finishPlan variants s claim transition again landingTime).1 := by
  rw [finishPlan]
  split
  · exact abortPending_inv h _
  · split
    · exact abortPending_inv h _
    · exact h

theorem settledRole_created {session : HlsSession Media} (hj : j ≠ s.created) :
    settledRole (s.create session) j = settledRole s j := by
  have hlt : j < s.created + 1 ↔ j < s.created := by omega
  simp only [settledRole, State.create, hlt]

/-- A session that is created and aborted before any slot holds it. -/
theorem rejected_inv (h : Inv s) (hnone : s.incoming = none) (session : HlsSession Media) :
    Inv ((s.create session).abort s.created) := by
  have hactive : s.created ≠ s.publication.active := Nat.ne_of_gt h.known
  have hgone : settledRole (s.create session) s.created = .gone :=
    settledRole_gone hactive (Nat.lt_succ_self _)
  have hrole (j : ℕ) : role ((s.create session).abort s.created) j =
      settledRole (s.create session) j := role_none hnone
  refine ⟨h.published, Nat.lt_succ_of_lt h.known, fun slot hslot => ?_,
    lives_of h (lifeOf_append s.log s.created _) ?_ fun j hj => ?_, fun i hi => ?_⟩
  · exact absurd (hnone.symm.trans hslot) (by rintro ⟨⟩)
  · rw [role_none hnone, settledRole_outside h.known (Nat.le_refl _), hrole, hgone]
    rfl
  · rw [hrole, settledRole_created hj, role_none hnone]
  · rw [hrole]
    by_cases hij : i = s.created
    · subst hij
      simp only [State.abort, Function.update_self, true_iff]
      exact hgone
    · have hlt : i < s.created + 1 := hi
      simp only [State.abort, State.create, Function.update_of_ne hij]
      rw [h.cancelled i (by omega), role_none hnone, ← settledRole_created hij]
      exact Iff.rfl

theorem installed_inv {session : HlsSession Media} (h : Inv s) (hnone : s.incoming = none)
    (hlive : session.cancelled = false) (hsession : slot.session = s.created)
    (hreader : slot.reader.isSome = true) :
    Inv (((((s.create session).publishExactTwo s.publication.active s.created).occupy slot).event
      s.created (.installed slot.claim))) := by
  have hactive : s.created ≠ s.publication.active := Nat.ne_of_gt h.known
  have hself : role ((((s.create session).publishExactTwo s.publication.active
      s.created).occupy slot).event s.created (.installed slot.claim)) s.created =
      .waiting slot.claim := by
    have hslot : role ((((s.create session).publishExactTwo s.publication.active
        s.created).occupy slot).event s.created (.installed slot.claim)) slot.session =
        slotRole slot := role_of_slot rfl
    rw [hsession, slotRole, if_pos hreader] at hslot
    exact hslot
  have hother (j : ℕ) (hj : j ≠ s.created) : role ((((s.create session).publishExactTwo
      s.publication.active s.created).occupy slot).event s.created (.installed slot.claim)) j =
      role s j := by
    rw [role_none hnone, ← (settledRole_created hj : settledRole (s.create session) j = _)]
    apply role_other
    intro slot' hslot'
    cases hslot'
    exact hsession ▸ hj.symm
  refine ⟨congrArg some hsession.symm, Nat.lt_succ_of_lt h.known, fun slot' hslot' => ?_,
    lives_of h (lifeOf_append s.log s.created _) ?_ hother, fun i hi => ?_⟩
  · cases hslot'
    exact ⟨Nat.lt_succ_of_le (Nat.le_of_eq hsession), hsession ▸ hactive⟩
  · rw [role_none hnone, settledRole_outside h.known (Nat.le_refl _), hself]
    rfl
  · by_cases hij : i = s.created
    · subst hij
      rw [hself]
      simp only [State.event, State.occupy, State.publishExactTwo, State.create,
        Function.update_self, hlive, Bool.false_eq_true, reduceCtorEq]
    · have hlt : i < s.created + 1 := hi
      rw [hother i hij, ← h.cancelled i (by omega)]
      simp only [State.event, State.occupy, State.publishExactTwo, State.create,
        Function.update_of_ne hij]

theorem install_inv [DecidableEq Media] (variants : VariantIndex → Option Media) (h : Inv s)
    (hnone : s.incoming = none) (plan : VariantReaderPlan Media) (profile : Profile)
    (claim : PendingAbrDecision) (again : PendingAbrClaim) (opens : Bool) :
    Inv (install variants s plan profile claim again opens).1 := by
  simp only [install]
  split
  · exact abortPending_inv h _
  · split
    · exact h
    · split
      · exact abortPending_inv h _
      · split
        · exact abortPending_inv (rejected_inv h hnone _) _
        · exact installed_inv h hnone rfl rfl rfl

theorem prepare_inv [DecidableEq Media] [DecidableEq Profile]
    (variants : VariantIndex → Option Media) (h : Inv s) (plan : VariantReaderPlan Media)
    (profile : Profile) (claim again : PendingAbrClaim) (opens : Bool) :
    Inv (preparePlannedVariantReader variants s plan profile claim again opens).1 := by
  have hfresh (abortIntent : Bool) (claim : PendingAbrDecision) :=
    install_inv variants (discardIncoming_inv h abortIntent)
      (discardIncoming_none s abortIntent) plan profile claim again opens
  cases claim with
  | absent => exact discardIncoming_inv h true
  | locked claim =>
    simp only [preparePlannedVariantReader]
    split
    · split
      · split
        · exact h
        · split
          · exact discardIncoming_inv h false
          · exact h
      · exact discardIncoming_inv h true
    · exact discardIncoming_inv h true
  | ready claim =>
    simp only [preparePlannedVariantReader]
    split
    · split
      · split
        · exact discardIncoming_inv h _
        · exact h
      · exact h
    · split
      · split
        · exact h
        · exact hfresh _ claim
      · rename_i hnone
        exact install_inv variants h hnone plan profile claim again opens

theorem kept_inv {slot' : IncomingSlot Media Profile} {e : Event} (h : Inv s)
    (hslot : s.incoming = some slot) (hsame : slot'.session = slot.session)
    (hstep : (slotRole slot).step e = some (slotRole slot')) :
    Inv ((s.occupy slot').event slot.session e) := by
  have hself : role ((s.occupy slot').event slot.session e) slot.session = slotRole slot' := by
    have hrole : role ((s.occupy slot').event slot.session e) slot'.session = slotRole slot' :=
      role_of_slot rfl
    rw [hsame] at hrole
    exact hrole
  have hother (j : ℕ) (hj : j ≠ slot.session) :
      role ((s.occupy slot').event slot.session e) j = role s j := by
    have hbefore : role s j = settledRole s j := role_other fun slot₀ hslot₀ => by
      cases hslot.symm.trans hslot₀
      exact hj.symm
    refine (role_other fun slot₀ hslot₀ => ?_).trans hbefore.symm
    cases hslot₀
    exact hsame ▸ hj.symm
  refine ⟨?_, h.known, fun slot₀ hslot₀ => ?_, lives_of h (lifeOf_append s.log slot.session e) ?_
    hother, fun i hi => ?_⟩
  · have hpublished := h.published
    rw [hslot] at hpublished
    exact hpublished.trans (congrArg some hsame.symm)
  · cases hslot₀
    exact hsame ▸ h.slot slot hslot
  · rw [role_of_slot hslot, run_cons, hstep, hself]
    rfl
  · refine (h.cancelled i hi).trans ?_
    by_cases hij : i = slot.session
    · subst hij
      rw [role_of_slot hslot, hself]
      exact iff_of_false (slotRole_ne slot) (slotRole_ne slot')
    · rw [hother i hij]

theorem take_inv (h : Inv s) (transition : VariantTransition) (claim : PendingAbrClaim)
    (ready : Except Unit Bool) : Inv (takePreparedVariantReader s transition claim ready).1 := by
  rw [takePreparedVariantReader]
  split
  · exact h
  · rename_i slot hslot
    split
    · exact h
    · cases claim with
      | absent => exact discardIncoming_inv h true
      | locked claim =>
        simp only
        split
        · exact h
        · exact discardIncoming_inv h true
      | ready claim =>
        simp only
        split
        · exact discardIncoming_inv h true
        · split
          · exact h
          · split
            · exact h
            · rename_i hreader
              refine kept_inv h hslot rfl ?_
              rw [slotRole, hreader]
              rfl
          · exact discardIncoming_inv h true

/-- The slot's session becomes the active one, and the session it replaces is aborted. -/
theorem promoted_inv (h : Inv s) (hslot : s.incoming = some slot) (hreader : slot.reader = none) :
    Inv ((((((s.vacate.event slot.session (.commit slot.claim true)).activate
      slot.session).publishExactOne slot.session).event slot.session .promoted).abort
        s.publication.active)) := by
  obtain ⟨hin, hne⟩ := h.slot slot hslot
  generalize hs' : ((((s.vacate.event slot.session (.commit slot.claim true)).activate
      slot.session).publishExactOne slot.session).event slot.session .promoted).abort
        s.publication.active = s'
  have hincoming : s'.incoming = none := by subst hs'; rfl
  have hpublication : s'.publication = ⟨slot.session, none⟩ := by subst hs'; rfl
  have hcreated : s'.created = s.created := by subst hs'; rfl
  have hlife (j : ℕ) : life s' j = life s j ++
      (if slot.session = j then [.commit slot.claim true, .promoted] else []) ++
        if s.publication.active = j then [.aborted] else [] := by
    subst hs'
    simp only [life, State.abort, State.event, State.publishExactOne, State.activate, State.vacate,
      lifeOf_append]
    by_cases hj : slot.session = j
    · simp only [if_pos hj, List.append_assoc, List.cons_append, List.nil_append]
    · simp only [if_neg hj, List.append_nil]
  have hrole (j : ℕ) : role s' j = settledRole s' j := role_none hincoming
  have hactive : role s' slot.session = .active :=
    (hrole _).trans (settledRole_active (congrArg ResidentSessions.active hpublication).symm)
  have hothers (j : ℕ) (hj : j ≠ slot.session) : s'.publication.active ≠ j := by
    rw [hpublication]
    exact hj.symm
  have hbefore (j : ℕ) (hj : j ≠ slot.session) : role s j = settledRole s j :=
    role_other fun slot' hslot' => by
      cases hslot.symm.trans hslot'
      exact hj.symm
  have hgone : role s' s.publication.active = .gone := (hrole _).trans
    (settledRole_gone (hothers _ hne.symm).symm (hcreated ▸ h.known))
  refine ⟨?_, ?_, fun slot' hslot' => ?_, fun j => ?_, fun i hi => ?_⟩
  · rw [hpublication, hincoming]
    rfl
  · rw [hpublication, hcreated]
    exact hin
  · rw [hincoming] at hslot'
    cases hslot'
  · by_cases hj : j = slot.session
    · subst hj
      rw [hlife, if_pos rfl, if_neg hne.symm, List.append_nil, run_append, h.lives,
        role_of_slot hslot, hactive, slotRole, hreader]
      simp [Role.step, Role.run]
    · rw [hlife, if_neg (Ne.symm hj), List.append_nil, run_append, h.lives, Option.bind_some]
      by_cases hout : s.publication.active = j
      · rw [if_pos hout, ← hout, hgone, hbefore _ hne.symm, settledRole_active rfl]
        rfl
      · rw [if_neg hout, hrole, hbefore j hj, settledRole, settledRole, if_neg hout,
          if_neg (hothers j hj), hcreated]
        rfl
  · have hsession : (s'.session i).cancelled = if i = s.publication.active then true
        else (s.session i).cancelled := by
      subst hs'
      by_cases hout : i = s.publication.active
      · subst hout
        simp only [State.abort, Function.update_self, if_true]
      · simp only [State.abort, State.event, State.publishExactOne, State.activate, State.vacate,
          Function.update_of_ne hout, if_neg hout]
        by_cases hij : i = slot.session
        · subst hij
          rw [Function.update_self]
        · rw [Function.update_of_ne hij]
    rw [hsession]
    rw [hcreated] at hi
    by_cases hout : i = s.publication.active
    · rw [if_pos hout, hout, hgone]
      exact iff_of_true rfl rfl
    · rw [if_neg hout, h.cancelled i hi]
      by_cases hij : i = slot.session
      · subst hij
        rw [hactive, role_of_slot hslot]
        exact iff_of_false (slotRole_ne slot) (by rintro ⟨⟩)
      · rw [hrole, hbefore i hij, settledRole_gone hout hi,
          settledRole_gone (hothers i hij).symm (hcreated ▸ hi)]

theorem promoteSlot_inv (h : Inv s) (hslot : s.incoming = some slot) (hreader : slot.reader = none)
    (again : PendingAbrClaim) (accepted : Bool) : Inv (promoteSlot s slot again accepted).1 := by
  cases accepted with
  | true => exact promoted_inv h hslot hreader
  | false =>
    have hstep : (slotRole slot).step (.commit slot.claim false) = some (slotRole slot) := by
      rw [slotRole, hreader]
      exact if_pos rfl
    have hkept : Inv ((s.occupy slot).event slot.session (.commit slot.claim false)) :=
      kept_inv h hslot rfl hstep
    simp only [promoteSlot, Bool.not_false, if_true]
    split
    · exact hkept
    · have hdiscarded := discarded_inv hkept rfl
      exact hdiscarded

theorem promote_inv (h : Inv s) (transition : VariantTransition) (claim again : PendingAbrClaim)
    (accepted : Bool) : Inv (promotePlannedVariant s transition claim again accepted).1 := by
  rw [promotePlannedVariant]
  split
  · exact h
  · rename_i slot hslot
    split
    · exact h
    · cases claim with
      | absent => exact discardIncoming_inv h true
      | locked claim =>
        simp only
        split
        · exact h
        · exact discardIncoming_inv h true
      | ready claim =>
        simp only
        split
        · exact discardIncoming_inv h true
        · split
          · exact h
          · rename_i hreader
            exact promoteSlot_inv h hslot (Option.not_isSome_iff_eq_none.mp hreader) again accepted

theorem abortVariant_inv (h : Inv s) (transition : VariantTransition) :
    Inv (abortVariant s transition).1 := by
  rw [abortVariant]
  split
  · exact h
  · split
    · exact h
    · exact discardIncoming_inv h true

theorem start_inv (variantIndex : VariantIndex) (mediaInfo : Media) :
    Inv (start variantIndex mediaInfo : State Media Profile) := by
  have hrole (i : ℕ) : role (start variantIndex mediaInfo : State Media Profile) i = firstRole i := by
    rw [role_none rfl, firstRole]
    by_cases hi : i = 0
    · rw [if_pos hi, settledRole_active hi]
    · rw [if_neg hi, settledRole_outside Nat.one_pos (Nat.one_le_iff_ne_zero.mpr hi)]
  refine ⟨rfl, Nat.one_pos, by rintro slot ⟨⟩, fun i => ?_, fun i hi => ?_⟩
  · rw [hrole]
    rfl
  · have hzero : i = 0 := Nat.lt_one_iff.mp hi
    rw [hrole, hzero]
    exact iff_of_false Bool.false_ne_true (by rintro ⟨⟩)

variable [DecidableEq Media] [DecidableEq Profile]

theorem next_inv (variants : VariantIndex → Option Media) (h : Inv s)
    (a : VariantSlots.Action Media Profile) : Inv (next variants s a) := by
  cases a with
  | plan claim =>
    have hplan := plan_inv h claim
    exact ⟨hplan.published, hplan.known, hplan.slot, hplan.lives, hplan.cancelled⟩
  | finishPlan claim transition again landingTime =>
    have hplan := finishPlan_inv variants h claim transition again landingTime
    exact ⟨hplan.published, hplan.known, hplan.slot, hplan.lives, hplan.cancelled⟩
  | prepare plan profile claim again opens =>
    exact prepare_inv variants h plan profile claim again opens
  | take transition claim ready => exact take_inv h transition claim ready
  | promote transition claim again accepted => exact promote_inv h transition claim again accepted
  | abortVariant transition => exact abortVariant_inv h transition
  | cancelIncomingForSeek => exact discardIncoming_inv h false

omit [DecidableEq Media] [DecidableEq Profile] in
theorem held_life (h : Inv s) (hslot : s.incoming = some slot) :
    slot.reader.isSome ∧ life s slot.session = [.installed slot.claim] ∨
      slot.reader = none ∧ ∃ n, life s slot.session = handedLife slot.claim n := by
  have hlives := h.lives slot.session
  rw [role_of_slot hslot] at hlives
  have hfirst : slotRole slot ≠ firstRole slot.session := by
    rw [slotRole, firstRole]
    split <;> split <;> rintro ⟨⟩
  have hgone := slotRole_ne slot
  rcases run_first hlives with ⟨_, hr⟩ | ⟨_, hr⟩ | ⟨claim, rest, hlife, hrun⟩
  · exact absurd hr hfirst
  · exact absurd hr hgone
  rw [hlife]
  rcases run_waiting hrun with ⟨rfl, hr⟩ | ⟨_, hr⟩ | ⟨rest', rfl, hhanded⟩
  · rw [slotRole] at hr
    split at hr
    · rename_i hreader
      cases hr
      exact .inl ⟨hreader, rfl⟩
    · cases hr
  · exact absurd hr hgone
  · obtain ⟨n, tail, rfl, htail⟩ := run_handed hhanded
    rcases htail with ⟨rfl, hr⟩ | ⟨_, hr⟩ | ⟨_, hr⟩ | ⟨_, hr⟩ | ⟨_, hr⟩
    · rw [slotRole] at hr
      split at hr
      · cases hr
      · rename_i hreader
        cases hr
        exact .inr ⟨Option.not_isSome_iff_eq_none.mp hreader, n, by rw [List.append_nil]; rfl⟩
    · exact absurd hr hgone
    all_goals
      rw [slotRole] at hr
      split at hr <;> cases hr

omit [DecidableEq Media] [DecidableEq Profile] in
theorem left_life (h : Inv s) (hin : .installed claim ∈ life s i)
    (hout : s.publication.incoming ≠ some i) :
    Left claim (i = s.publication.active) (life s i) := by
  have hrole : role s i = settledRole s i := role_other fun slot hslot hsession => by
    rw [h.published, hslot] at hout
    exact hout (congrArg some hsession)
  have hactive (hr : settledRole s i = .active) : i = s.publication.active := by
    rw [settledRole] at hr
    split at hr
    · rename_i heq
      exact heq.symm
    · split at hr <;> cases hr
  have hinactive (hr : settledRole s i ≠ .active) : ¬ i = s.publication.active :=
    fun hi => hr (settledRole_active hi)
  have hsettled (hr : settledRole s i = .waiting claim ∨ settledRole s i = .handed claim ∨
      settledRole s i = .accepted claim) : False := by
    rw [settledRole] at hr
    split at hr
    · rcases hr with hr | hr | hr <;> cases hr
    · split at hr <;> rcases hr with hr | hr | hr <;> cases hr
  obtain ⟨rest, hlife, hrun⟩ := run_installed (h.lives i) hin
  rw [hlife]
  rw [hrole] at hrun
  rcases run_waiting hrun with ⟨_, hr⟩ | ⟨rfl, hr⟩ | ⟨rest', rfl, hhanded⟩
  · exact (hsettled (.inl hr)).elim
  · exact .untaken (hinactive (by rw [hr]; rintro ⟨⟩))
  · obtain ⟨n, tail, rfl, htail⟩ := run_handed hhanded
    rcases htail with ⟨_, hr⟩ | ⟨rfl, hr⟩ | ⟨_, hr⟩ | ⟨rfl, hr⟩ | ⟨rfl, hr⟩
    · exact (hsettled (.inr (.inl hr))).elim
    · exact .taken n (hinactive (by rw [hr]; rintro ⟨⟩))
    · exact (hsettled (.inr (.inr hr))).elim
    · exact .promoted n (hactive hr)
    · exact .replaced n (hinactive (by rw [hr]; rintro ⟨⟩))

omit [DecidableEq Media] [DecidableEq Profile] in
theorem inv_handover (h : Inv s) : Handover s := by
  refine ⟨h.published, fun i hi => ?_, fun hsame => ?_, fun slot hslot => held_life h hslot,
    fun i claim => left_life h⟩
  · rw [← Bool.not_eq_true, h.cancelled i hi, h.published]
    cases hslot : s.incoming with
    | none =>
      rw [role_none hslot]
      by_cases hactive : i = s.publication.active
      · exact iff_of_true (by rw [settledRole_active hactive]; rintro ⟨⟩) (.inl hactive)
      · refine iff_of_false (not_not.mpr (settledRole_gone hactive hi)) ?_
        rintro (heq | heq)
        · exact hactive heq
        · cases heq
    | some slot =>
      by_cases hsession : slot.session = i
      · subst hsession
        rw [role_of_slot hslot]
        exact iff_of_true (slotRole_ne slot) (.inr rfl)
      · have hrole : role s i = settledRole s i := role_other fun slot' hslot' => by
          cases hslot.symm.trans hslot'
          exact hsession
        rw [hrole]
        by_cases hactive : i = s.publication.active
        · exact iff_of_true (by rw [settledRole_active hactive]; rintro ⟨⟩) (.inl hactive)
        · refine iff_of_false (not_not.mpr (settledRole_gone hactive hi)) ?_
          rintro (heq | heq)
          · exact hactive heq
          · exact hsession (Option.some_inj.mp heq)
  · rw [h.published] at hsame
    obtain ⟨slot, hslot, hsession⟩ := Option.map_eq_some_iff.mp hsame
    exact (h.slot slot hslot).2 hsession

/-- Whenever the transition lock is free, the published pair and the slot hold the same incoming
session, and every session installed before left the incoming role exactly once. -/
theorem sessions_handed_over (variants : VariantIndex → Option Media) (variantIndex : VariantIndex)
    (mediaInfo : Media) (as : List (VariantSlots.Action Media Profile))
    (hvalid : (machine variants).ValidTrace (start variantIndex mediaInfo) as) :
    (machine variants).Throughout Handover (start variantIndex mediaInfo) as := by
  have hinv := throughout_of_along (P := Inv) (G := fun _ _ => True)
    (fun s a h _ _ => next_inv variants h a) (start_inv variantIndex mediaInfo) hvalid
    (along_trivial _ _)
  exact throughout_imp (fun _ h => inv_handover h) hinv

def upClaim : PendingAbrDecision := ⟨.upSwitch 0 1 .upSwitch, 7⟩

def upTransition : VariantTransition := transitionForClaim upClaim 0

/-- A switch is planned, prepared and taken; its first commit is refused while its claim still
stands, the second is accepted. A later switch is cut short by a seek. -/
def switchRun : List (VariantSlots.Action ℕ ℕ) :=
  [.plan (.ready upClaim), .finishPlan upClaim upTransition (.locked upClaim) 30,
    .prepare ⟨30, 1, upTransition⟩ 5 (.ready upClaim) (.ready upClaim) true,
    .take upTransition (.ready upClaim) (.ok false), .take upTransition (.ready upClaim) (.ok true),
    .promote upTransition (.ready upClaim) (.locked upClaim) false,
    .promote upTransition (.ready upClaim) .absent true,
    .prepare ⟨40, 2, transitionForClaim ⟨.downSwitch 1 2 .downSwitch, 8⟩ 1⟩ 5
      (.ready ⟨.downSwitch 1 2 .downSwitch, 8⟩) (.ready ⟨.downSwitch 1 2 .downSwitch, 8⟩) true,
    .cancelIncomingForSeek]

theorem switch_handed_over :
    (machine fun i => some i.toNat).Throughout Handover (start 0 0) switchRun :=
  sessions_handed_over (fun i => some i.toNat) 0 0 switchRun (by decide)

example : life ((machine fun i => some i.toNat).runTrace (start 0 0) switchRun) 1 =
    handedLife upClaim 1 ++ [.commit upClaim true, .promoted] := by decide

end VariantHandover
