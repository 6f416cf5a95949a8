import Kithara.ResourceTransactions
import Mathlib.Data.List.Count

/-! Transactions over every interleaving: one holder, one cell for the participants of a key, and a
free cell with a sleeping waiter always has a notification on its way. -/
namespace ResourceTransactions

open TransitionSystem

namespace Stage

def holds : Stage → Bool
  | holding => true
  | _ => false

def live : Stage → Bool
  | gone => false
  | _ => true

/-- The flag was taken when the task looked, and no notification has reached it since. -/
def waits : Stage → Bool
  | polling | asleep => true
  | _ => false

/-- A notification is on its way to an attempt: it reached the task, or the task is about to send
it. -/
def spurred : Stage → Bool
  | notified | woken | notifying => true
  | _ => false

end Stage

variable {Key : Type*} {s : ResourceTransactionIndex Key}

namespace ResourceTransactionIndex

def count (s : ResourceTransactionIndex Key) (cell : CellId) (p : Stage → Bool) : ℕ :=
  s.tasks.countP fun transaction => transaction.cell == cell && p transaction.stage

theorem countP_modify {α : Type*} {l : List α} {i : ℕ} {a : α} (h : l[i]? = some a) (f : α → α)
    (p : α → Bool) : (l.modify i f).countP p + (if p a = true then 1 else 0) =
      l.countP p + if p (f a) = true then 1 else 0 := by
  induction l generalizing i with
  | nil => cases h
  | cons b l ih =>
    cases i with
    | zero =>
      obtain rfl := Option.some.inj h
      simp only [List.modify_zero_cons, List.countP_cons]
      omega
    | succ i =>
      have rest := ih (i := i) h
      simp only [List.modify_succ_cons, List.countP_cons]
      omega

theorem count_moveTo {task : TaskId} {transaction : ResourceTransaction Key}
    (h : s.tasks[task]? = some transaction) (stage : Stage) (cell : CellId) (p : Stage → Bool) :
    (s.moveTo task stage).count cell p +
        (if (transaction.cell == cell && p transaction.stage) = true then 1 else 0) =
      s.count cell p + if (transaction.cell == cell && p stage) = true then 1 else 0 :=
  countP_modify h (fun transaction => { transaction with stage := stage })
    fun transaction => transaction.cell == cell && p transaction.stage

theorem count_pos {cell : CellId} {p : Stage → Bool} : 0 < s.count cell p ↔
    ∃ transaction ∈ s.tasks, transaction.cell = cell ∧ p transaction.stage = true := by
  simp [count, List.countP_pos_iff]

end ResourceTransactionIndex

open ResourceTransactionIndex

structure Sound (s : ResourceTransactionIndex Key) : Prop where
  allocated : ∀ transaction ∈ s.tasks, transaction.cell < s.fresh
  current : ∀ transaction ∈ s.tasks, transaction.stage.live = true →
    s.registry transaction.key = some transaction.cell
  single : ∀ key key' cell, s.registry key = some cell → s.registry key' = some cell → key = key'
  used : ∀ key cell, s.registry key = some cell → 0 < s.count cell Stage.live
  counted : ∀ cell < s.fresh, (s.memory cell).participants = s.count cell Stage.live
  exclusive : ∀ cell, s.count cell Stage.holds = if (s.memory cell).held then 1 else 0
  awake : ∀ cell, (s.memory cell).held = false → 0 < s.count cell Stage.waits →
    (s.memory cell).permit = true ∨ 0 < s.count cell Stage.spurred

theorem mem_moveTo {task : TaskId} {transaction : ResourceTransaction Key}
    (at_ : s.tasks[task]? = some transaction) {stage : Stage} {t : ResourceTransaction Key}
    (h : t ∈ (s.moveTo task stage).tasks) :
    t ∈ s.tasks ∨ t = { transaction with stage := stage } := by
  obtain ⟨i, hi⟩ := List.mem_iff_getElem?.mp h
  rw [moveTo, List.getElem?_modify] at hi
  by_cases same : task = i
  · subst same
    rw [at_] at hi
    exact .inr (by simpa using hi.symm)
  · simp only [if_neg same] at hi
    exact .inl (List.mem_of_getElem? (by simpa using hi))

/-- A live task moves to another stage, and the flag and the permit of its cell change with it. -/
theorem moved_sound (h : Sound s) {task : TaskId} {transaction : ResourceTransaction Key}
    (at_ : s.tasks[task]? = some transaction) (live : transaction.stage.live = true)
    {stage : Stage} (live' : stage.live = true) {f : TransactionCell → TransactionCell}
    (kept : ∀ c, (f c).participants = c.participants)
    (exclusive : (if (f (s.memory transaction.cell)).held then 1 else 0) +
        (if transaction.stage.holds = true then 1 else 0) =
      (if (s.memory transaction.cell).held then 1 else 0) + if stage.holds = true then 1 else 0)
    (awake : (f (s.memory transaction.cell)).held = false →
      0 < (s.moveTo task stage).count transaction.cell Stage.waits →
        (f (s.memory transaction.cell)).permit = true ∨
          0 < (s.moveTo task stage).count transaction.cell Stage.spurred) :
    Sound ((s.edit transaction.cell f).moveTo task stage) := by
  have inside := List.mem_of_getElem? at_
  have counts : ∀ cell p, ((s.edit transaction.cell f).moveTo task stage).count cell p =
      (s.moveTo task stage).count cell p := fun _ _ => rfl
  have memory : ∀ cell, ((s.edit transaction.cell f).moveTo task stage).memory cell =
      if cell = transaction.cell then f (s.memory cell) else s.memory cell := by
    intro cell
    by_cases same : cell = transaction.cell
    · subst same
      simp [moveTo, edit]
    · simp [moveTo, edit, same]
  have same_live : ∀ cell, (s.moveTo task stage).count cell Stage.live =
      s.count cell Stage.live := by
    intro cell
    have := count_moveTo at_ stage cell Stage.live
    rw [live, live'] at this
    omega
  have other : ∀ cell, cell ≠ transaction.cell → ∀ p,
      (s.moveTo task stage).count cell p = s.count cell p := by
    intro cell apart p
    have := count_moveTo at_ stage cell p
    simpa [Ne.symm apart] using this
  refine ⟨?_, ?_, h.single, ?_, ?_, ?_, ?_⟩
  · intro t ht
    rcases mem_moveTo at_ ht with ht | rfl
    · exact h.allocated t ht
    · exact h.allocated transaction inside
  · intro t ht hlive
    rcases mem_moveTo at_ ht with ht | rfl
    · exact h.current t ht hlive
    · exact h.current transaction inside live
  · intro key cell hcell
    rw [counts, same_live]
    exact h.used key cell hcell
  · intro cell hcell
    rw [counts, same_live, memory, ← h.counted cell hcell]
    split
    · exact kept _
    · rfl
  · intro cell
    rw [counts, memory]
    by_cases same : cell = transaction.cell
    · subst same
      have := count_moveTo at_ stage transaction.cell Stage.holds
      have before := h.exclusive transaction.cell
      simp only [beq_self_eq_true, Bool.true_and] at this
      rw [if_pos rfl]
      omega
    · rw [if_neg same, other cell same]
      exact h.exclusive cell
  · intro cell
    rw [counts, counts, memory]
    by_cases same : cell = transaction.cell
    · subst same
      rw [if_pos rfl]
      exact awake
    · rw [if_neg same, other cell same, other cell same]
      exact h.awake cell

theorem edit_id (s : ResourceTransactionIndex Key) (cell : CellId) :
    s.edit cell (fun c => c) = s := by
  simp [edit]

theorem passed_sound (h : Sound s) {task : TaskId} {transaction : ResourceTransaction Key}
    (at_ : s.tasks[task]? = some transaction) (live : transaction.stage.live = true)
    {stage : Stage} (live' : stage.live = true) (holds : stage.holds = transaction.stage.holds)
    (awake : (s.memory transaction.cell).held = false →
      0 < (s.moveTo task stage).count transaction.cell Stage.waits →
        (s.memory transaction.cell).permit = true ∨
          0 < (s.moveTo task stage).count transaction.cell Stage.spurred) :
    Sound (s.moveTo task stage) := by
  have moved := moved_sound h at_ live live' (f := fun c => c) (fun _ => rfl) (by rw [holds]) awake
  rwa [edit_id] at moved

/-- A task moves between stages that neither wait nor are spurred less. -/
theorem quiet_sound (h : Sound s) {task : TaskId} {transaction : ResourceTransaction Key}
    (at_ : s.tasks[task]? = some transaction) (live : transaction.stage.live = true)
    {stage : Stage} (live' : stage.live = true) (holds : stage.holds = transaction.stage.holds)
    (waits : stage.waits = true → transaction.stage.waits = true)
    (spurred : transaction.stage.spurred = true → stage.spurred = true) :
    Sound (s.moveTo task stage) := by
  refine passed_sound h at_ live live' holds fun free waiting => ?_
  have waited := count_moveTo at_ stage transaction.cell Stage.waits
  have spurs := count_moveTo at_ stage transaction.cell Stage.spurred
  simp only [beq_self_eq_true, Bool.true_and] at waited spurs
  have before : 0 < s.count transaction.cell Stage.waits := by
    by_cases hw : stage.waits = true
    · rw [if_pos hw, if_pos (waits hw)] at waited
      omega
    · rw [if_neg hw] at waited
      omega
  refine (h.awake transaction.cell free before).imp_right fun some_spur => ?_
  by_cases hs : transaction.stage.spurred = true
  · rw [if_pos hs, if_pos (spurred hs)] at spurs
    omega
  · rw [if_neg hs] at spurs
    omega

theorem onTask_eq {task : TaskId} {transaction : ResourceTransaction Key}
    (at_ : s.tasks[task]? = some transaction)
    (f : ResourceTransaction Key → ResourceTransactionIndex Key) :
    s.onTask task f = f transaction := by
  simp only [onTask, at_]

theorem attempt_sound (h : Sound s) {task : TaskId}
    (enabled : s.At task .attempting ∨ s.At task .woken) : Sound (s.attempt task) := by
  obtain ⟨transaction, at_, live, idle⟩ : ∃ transaction, s.tasks[task]? = some transaction ∧
      transaction.stage.live = true ∧ transaction.stage.holds = false := by
    rcases enabled with ⟨transaction, at_, stage⟩ | ⟨transaction, at_, stage⟩
    · exact ⟨transaction, at_, by rw [stage]; rfl, by rw [stage]; rfl⟩
    · exact ⟨transaction, at_, by rw [stage]; rfl, by rw [stage]; rfl⟩
  rw [attempt, onTask_eq at_]
  cases held : (s.memory transaction.cell).held with
  | true =>
    refine passed_sound h at_ live rfl idle.symm fun free => ?_
    exact absurd (held.symm.trans free) (by simp)
  | false =>
    refine moved_sound h at_ live rfl (fun _ => rfl) ?_ fun taken => absurd taken (by simp)
    rw [held, idle]
    rfl

theorem poll_sound (h : Sound s) {task : TaskId} (enabled : s.At task .polling) :
    Sound (s.poll task) := by
  obtain ⟨transaction, at_, stage⟩ := enabled
  have at_ : s.tasks[task]? = some transaction := at_
  rw [poll, onTask_eq at_]
  cases permit : (s.memory transaction.cell).permit with
  | true =>
    have spurs := count_moveTo at_ .woken transaction.cell Stage.spurred
    refine moved_sound h at_ (by rw [stage]; rfl) rfl (fun _ => rfl) (by rw [stage]; rfl)
      fun _ _ => .inr ?_
    rw [stage] at spurs
    simp [Stage.spurred] at spurs
    omega
  | false =>
    exact quiet_sound h at_ (by rw [stage]; rfl) rfl (by rw [stage]; rfl)
      (fun _ => by rw [stage]; rfl) (fun hs => by rw [stage] at hs; cases hs)

theorem wake_sound (h : Sound s) {task : TaskId} (enabled : s.At task .notified) :
    Sound (s.moveTo task .woken) := by
  obtain ⟨transaction, at_, stage⟩ := enabled
  exact quiet_sound h at_ (by rw [stage]; rfl) rfl (by rw [stage]; rfl) (fun hw => by cases hw)
    fun _ => rfl

theorem release_sound (h : Sound s) {task : TaskId} (enabled : s.At task .holding) :
    Sound (s.release task) := by
  obtain ⟨transaction, at_, stage⟩ := enabled
  have at_ : s.tasks[task]? = some transaction := at_
  rw [release, onTask_eq at_]
  have holders := h.exclusive transaction.cell
  have positive : 0 < s.count transaction.cell Stage.holds :=
    count_pos.mpr ⟨transaction, List.mem_of_getElem? at_, rfl, by rw [stage]; rfl⟩
  have held : (s.memory transaction.cell).held = true := by
    by_contra free
    rw [if_neg free] at holders
    omega
  have spurs := count_moveTo at_ .notifying transaction.cell Stage.spurred
  refine moved_sound h at_ (by rw [stage]; rfl) rfl (fun _ => rfl) (by rw [stage, held]; rfl)
    fun _ _ => .inr ?_
  rw [stage] at spurs
  simp [Stage.spurred] at spurs
  omega

theorem check_sound (h : Sound s) {task : TaskId} (enabled : s.At task .checking) :
    Sound (s.check task) := by
  obtain ⟨transaction, at_, stage⟩ := enabled
  have at_ : s.tasks[task]? = some transaction := at_
  rw [check, onTask_eq at_]
  cases held : (s.memory transaction.cell).held with
  | true =>
    exact quiet_sound h at_ (by rw [stage]; rfl) rfl (by rw [stage]; rfl)
      (fun hw => by cases hw) (fun hs => by rw [stage] at hs; cases hs)
  | false =>
    exact quiet_sound h at_ (by rw [stage]; rfl) rfl (by rw [stage]; rfl)
      (fun hw => by cases hw) (fun hs => by rw [stage] at hs; cases hs)

/-- A task sends a notification and moves on: the waiter it reached, or the permit, answers for
it. -/
theorem sent_sound (h : Sound s) {task : TaskId} {transaction : ResourceTransaction Key}
    (at_ : s.tasks[task]? = some transaction) (live : transaction.stage.live = true)
    (idle : transaction.stage.holds = false) (up : transaction.stage ≠ .asleep)
    {next : Option TaskId} (reaches : s.Reaches transaction.cell next) {stage : Stage}
    (live' : stage.live = true) (idle' : stage.holds = false) :
    Sound ((s.notifyOne transaction.cell next).moveTo task stage) := by
  cases next with
  | none =>
    exact moved_sound h at_ live live' (fun _ => rfl) (by rw [idle, idle']) fun _ _ => .inl rfl
  | some next =>
    obtain ⟨waiter, there, cell, asleep⟩ := reaches
    have there : s.tasks[next]? = some waiter := there
    have apart : next ≠ task := by
      rintro rfl
      exact up (Option.some.inj (at_.symm.trans there) ▸ asleep)
    have woke : Sound (s.moveTo next .notified) :=
      quiet_sound h there (by rw [asleep]; rfl) rfl (by rw [asleep]; rfl) (fun hw => by cases hw)
        fun _ => rfl
    have still : (s.moveTo next .notified).tasks[task]? = some transaction := by
      rw [moveTo, List.getElem?_modify_ne _ _ apart]
      exact at_
    refine passed_sound woke still live live' (idle'.trans idle.symm) fun _ _ => .inr ?_
    refine count_pos.mpr ⟨{ waiter with stage := .notified }, ?_, cell, rfl⟩
    refine List.mem_of_getElem? (i := next) ?_
    rw [moveTo, List.getElem?_modify_ne _ _ apart.symm, moveTo, List.getElem?_modify_eq, there]
    rfl

theorem notify_sound (h : Sound s) {task : TaskId} {next : Option TaskId}
    (enabled : ∃ transaction ∈ s.tasks[task]?, transaction.stage = .notifying ∧
      s.Reaches transaction.cell next) : Sound (s.notify task next) := by
  obtain ⟨transaction, at_, stage, reaches⟩ := enabled
  have at_ : s.tasks[task]? = some transaction := at_
  rw [notify, onTask_eq at_]
  exact sent_sound h at_ (by rw [stage]; rfl) (by rw [stage]; rfl) (by rw [stage]; simp) reaches
    rfl rfl

theorem cancel_sound (h : Sound s) {task : TaskId} {next : Option TaskId}
    (enabled : s.At task .asleep ∨ ∃ transaction ∈ s.tasks[task]?,
      transaction.stage = .notified ∧ s.Reaches transaction.cell next) :
    Sound (s.cancel task next) := by
  rcases enabled with ⟨transaction, at_, stage⟩ | ⟨transaction, at_, stage, reaches⟩
  · have at_ : s.tasks[task]? = some transaction := at_
    rw [cancel, onTask_eq at_, if_neg (by rw [stage]; simp)]
    exact quiet_sound h at_ (by rw [stage]; rfl) rfl (by rw [stage]; rfl) (fun hw => by cases hw)
      (fun hs => by rw [stage] at hs; cases hs)
  · have at_ : s.tasks[task]? = some transaction := at_
    rw [cancel, onTask_eq at_, if_pos stage]
    exact sent_sound h at_ (by rw [stage]; rfl) (by rw [stage]; rfl) (by rw [stage]; simp) reaches
      rfl rfl

variable [DecidableEq Key]

theorem enter_sound (h : Sound s) (key : Key) : Sound (s.enter key) := by
  cases registered : s.registry key with
  | some cell =>
    have entered : s.enter key =
        { s.edit cell fun c => { c with participants := c.participants + 1 } with
          tasks := s.tasks ++ [⟨key, cell, .attempting⟩] } := by
      simp only [enter, registered]
    obtain ⟨first, hfirst, same, -⟩ := count_pos.mp (h.used key cell registered)
    have known : cell < s.fresh := same ▸ h.allocated first hfirst
    have counts : ∀ c p, (s.enter key).count c p = s.count c p +
        if (cell == c && p .attempting) = true then 1 else 0 := by
      intro c p
      rw [entered]
      simp [count, List.countP_append, List.countP_singleton]
    have memory : ∀ c, ((s.enter key).memory c).held = (s.memory c).held ∧
        ((s.enter key).memory c).permit = (s.memory c).permit ∧
        ((s.enter key).memory c).participants =
          (s.memory c).participants + if cell = c then 1 else 0 := by
      intro c
      rw [entered]
      by_cases same : cell = c
      · subst same
        simp [edit]
      · simp [edit, same, Ne.symm same]
    refine ⟨?_, ?_, ?_, ?_, ?_, ?_, ?_⟩
    · rw [entered]
      intro t ht
      rcases List.mem_append.mp ht with ht | ht
      · exact h.allocated t ht
      · rw [List.mem_singleton.mp ht]
        exact known
    · rw [entered]
      intro t ht live
      rcases List.mem_append.mp ht with ht | ht
      · exact h.current t ht live
      · rw [List.mem_singleton.mp ht]
        exact registered
    · rw [entered]
      exact h.single
    · intro key' c hc
      rw [counts]
      rw [entered] at hc
      have := h.used key' c hc
      omega
    · intro c hc
      rw [entered] at hc
      rw [counts, (memory c).2.2, h.counted c hc]
      simp [Stage.live]
    · intro c
      rw [counts, (memory c).1, h.exclusive c]
      simp [Stage.holds]
    · intro c free waiting
      rw [counts] at waiting ⊢
      rw [(memory c).1] at free
      rw [(memory c).2.1]
      simp only [Stage.waits, Bool.and_false, Bool.false_eq_true, if_false, Nat.add_zero] at waiting
      exact (h.awake c free waiting).imp_right fun spur => by omega
  | none =>
    have entered : s.enter key =
        { registry := Function.update s.registry key (some s.fresh)
          memory := Function.update s.memory s.fresh .default
          fresh := s.fresh + 1
          tasks := s.tasks ++ [⟨key, s.fresh, .attempting⟩] } := by
      simp only [enter, registered]
    have unused : ∀ p, s.count s.fresh p = 0 := by
      intro p
      by_contra used
      obtain ⟨t, ht, same, -⟩ := count_pos.mp (Nat.pos_of_ne_zero used)
      exact Nat.lt_irrefl _ (same ▸ h.allocated t ht)
    have counts : ∀ c p, (s.enter key).count c p = s.count c p +
        if (s.fresh == c && p .attempting) = true then 1 else 0 := by
      intro c p
      rw [entered]
      simp [count, List.countP_append, List.countP_singleton]
    have memory : ∀ c, (s.enter key).memory c =
        if c = s.fresh then .default else s.memory c := by
      intro c
      rw [entered]
      by_cases same : c = s.fresh
      · subst same
        simp
      · simp [same]
    have registry : ∀ key' c, (s.enter key).registry key' = some c →
        key' = key ∧ c = s.fresh ∨ key' ≠ key ∧ s.registry key' = some c ∧ c ≠ s.fresh := by
      intro key' c hc
      rw [entered] at hc
      by_cases same : key' = key
      · subst same
        exact .inl ⟨rfl, by simpa using hc.symm⟩
      · simp only [Function.update_of_ne same] at hc
        refine .inr ⟨same, hc, fun new => ?_⟩
        have := h.used key' c hc
        rw [new, unused] at this
        exact absurd this (Nat.lt_irrefl 0)
    refine ⟨?_, ?_, ?_, ?_, ?_, ?_, ?_⟩
    · rw [entered]
      intro t ht
      rcases List.mem_append.mp ht with ht | ht
      · exact Nat.lt_succ_of_lt (h.allocated t ht)
      · rw [List.mem_singleton.mp ht]
        exact Nat.lt_succ_self _
    · rw [entered]
      intro t ht live
      rcases List.mem_append.mp ht with ht | ht
      · have current := h.current t ht live
        have other : t.key ≠ key := by
          intro same
          rw [same, registered] at current
          cases current
        simpa [Function.update_of_ne other] using current
      · rw [List.mem_singleton.mp ht]
        simp
    · intro key₁ key₂ c h₁ h₂
      rcases registry key₁ c h₁ with ⟨rfl, rfl⟩ | ⟨-, old₁, ne₁⟩
      · rcases registry key₂ _ h₂ with ⟨rfl, -⟩ | ⟨-, -, ne₂⟩
        · rfl
        · exact absurd rfl ne₂
      · rcases registry key₂ c h₂ with ⟨-, new⟩ | ⟨-, old₂, -⟩
        · exact absurd new ne₁
        · exact h.single key₁ key₂ c old₁ old₂
    · intro key' c hc
      rw [counts]
      rcases registry key' c hc with ⟨-, rfl⟩ | ⟨-, old, -⟩
      · simp [Stage.live]
      · have := h.used key' c old
        omega
    · intro c hc
      rw [entered] at hc
      rw [counts, memory]
      by_cases same : c = s.fresh
      · subst same
        rw [if_pos rfl, unused]
        simp [TransactionCell.default, Stage.live]
      · rw [if_neg same, h.counted c (Nat.lt_of_le_of_ne (Nat.lt_succ_iff.mp hc) same)]
        simp [Ne.symm same]
    · intro c
      rw [counts, memory]
      by_cases same : c = s.fresh
      · subst same
        rw [if_pos rfl, unused]
        simp [TransactionCell.default, Stage.holds]
      · rw [if_neg same, h.exclusive c]
        simp [Stage.holds]
    · intro c free waiting
      rw [counts] at waiting ⊢
      simp only [Stage.waits, Bool.and_false, Bool.false_eq_true, if_false, Nat.add_zero] at waiting
      have old : c ≠ s.fresh := by
        rintro rfl
        rw [unused] at waiting
        exact Nat.lt_irrefl 0 waiting
      rw [memory, if_neg old] at free ⊢
      exact (h.awake c free waiting).imp_right fun spur => by omega

theorem leave_sound (h : Sound s) {task : TaskId} (enabled : s.At task .leaving) :
    Sound (s.leave task) := by
  obtain ⟨transaction, at_, stage⟩ := enabled
  have at_ : s.tasks[task]? = some transaction := at_
  have inside := List.mem_of_getElem? at_
  have registered := h.current transaction inside (by rw [stage]; rfl)
  have participants := h.counted transaction.cell (h.allocated transaction inside)
  have counts : ∀ c p, (s.leave task).count c p = (s.moveTo task .gone).count c p := by
    intro c p
    rw [leave, onTask_eq at_, if_pos registered]
    dsimp only
    split <;> rfl
  have tasks : (s.leave task).tasks = (s.moveTo task .gone).tasks := by
    rw [leave, onTask_eq at_, if_pos registered]
    dsimp only
    split <;> rfl
  have fresh : (s.leave task).fresh = s.fresh := by
    rw [leave, onTask_eq at_, if_pos registered]
    dsimp only
    split <;> rfl
  have memory : (s.leave task).memory = (s.edit transaction.cell fun c =>
      { c with participants := c.participants - 1 }).memory := by
    rw [leave, onTask_eq at_, if_pos registered]
    dsimp only
    split <;> rfl
  have registry : (s.leave task).registry =
      if (s.memory transaction.cell).participants = 1 then
        Function.update s.registry transaction.key none else s.registry := by
    rw [leave, onTask_eq at_, if_pos registered]
    dsimp only
    split <;> rfl
  have cells : ∀ c, ((s.leave task).memory c).held = (s.memory c).held ∧
      ((s.leave task).memory c).permit = (s.memory c).permit ∧
      ((s.leave task).memory c).participants =
        if c = transaction.cell then (s.memory c).participants - 1
        else (s.memory c).participants := by
    intro c
    rw [memory]
    by_cases same : c = transaction.cell
    · subst same
      simp [edit]
    · simp [edit, same]
  have fewer : ∀ c, (s.moveTo task .gone).count c Stage.live +
      (if transaction.cell = c then 1 else 0) = s.count c Stage.live := by
    intro c
    have := count_moveTo at_ .gone c Stage.live
    rw [stage] at this
    simpa [Stage.live] using this
  have same_count : ∀ c p, p .leaving = false → p .gone = false →
      (s.moveTo task .gone).count c p = s.count c p := by
    intro c p before after
    have := count_moveTo at_ .gone c p
    rw [stage, before, after] at this
    simpa using this
  have kept : ∀ key c, (s.leave task).registry key = some c →
      s.registry key = some c ∧ (c = transaction.cell → 1 < s.count c Stage.live) := by
    intro key c hc
    rw [registry] at hc
    by_cases last : (s.memory transaction.cell).participants = 1
    · rw [if_pos last] at hc
      by_cases same : key = transaction.key
      · rw [same, Function.update_self] at hc
        cases hc
      · rw [Function.update_of_ne same] at hc
        exact ⟨hc, fun own => absurd (h.single _ _ _ (own ▸ hc) registered) same⟩
    · rw [if_neg last] at hc
      refine ⟨hc, ?_⟩
      rintro rfl
      have := h.used key _ hc
      omega
  refine ⟨?_, ?_, ?_, ?_, ?_, ?_, ?_⟩
  · intro t ht
    rw [fresh]
    rw [tasks] at ht
    rcases mem_moveTo at_ ht with ht | rfl
    · exact h.allocated t ht
    · exact h.allocated transaction inside
  · intro t ht live
    have others : 0 < (s.moveTo task .gone).count t.cell Stage.live :=
      count_pos.mpr ⟨t, tasks ▸ ht, rfl, live⟩
    rw [tasks] at ht
    rcases mem_moveTo at_ ht with ht | rfl
    · have current := h.current t ht live
      rw [registry]
      by_cases last : (s.memory transaction.cell).participants = 1
      · have apart : t.key ≠ transaction.key := by
          intro same
          have own : t.cell = transaction.cell :=
            Option.some.inj ((same ▸ current).symm.trans registered)
          have := fewer t.cell
          rw [if_pos own.symm, own, ← participants] at this
          rw [own] at others
          omega
        rw [if_pos last, Function.update_of_ne apart]
        exact current
      · rw [if_neg last]
        exact current
    · cases live
  · intro key₁ key₂ c h₁ h₂
    exact h.single key₁ key₂ c (kept key₁ c h₁).1 (kept key₂ c h₂).1
  · intro key c hc
    obtain ⟨before, more⟩ := kept key c hc
    have := fewer c
    have used := h.used key c before
    rw [counts]
    by_cases own : transaction.cell = c
    · have two := more own.symm
      rw [if_pos own] at this
      omega
    · rw [if_neg own] at this
      omega
  · intro c hc
    rw [fresh] at hc
    rw [counts, (cells c).2.2]
    have := fewer c
    have before := h.counted c hc
    by_cases own : c = transaction.cell
    · rw [if_pos own.symm] at this
      rw [if_pos own]
      omega
    · rw [if_neg (Ne.symm own)] at this
      rw [if_neg own]
      omega
  · intro c
    rw [counts, same_count c _ rfl rfl, (cells c).1]
    exact h.exclusive c
  · intro c free waiting
    rw [counts, same_count c _ rfl rfl] at waiting
    rw [(cells c).1] at free
    rw [counts, same_count c _ rfl rfl, (cells c).2.1]
    exact h.awake c free waiting

omit [DecidableEq Key] in
theorem start_sound : Sound (start : ResourceTransactionIndex Key) where
  allocated _ h := by cases h
  current _ h := by cases h
  single _ _ _ h := by cases h
  used _ _ h := by cases h
  counted _ h := absurd h (Nat.not_lt_zero _)
  exclusive _ := rfl
  awake _ _ h := absurd h (Nat.lt_irrefl 0)

theorem step_sound (s : ResourceTransactionIndex Key) (a : Action Key) (h : Sound s)
    (enabled : machine.Enabled s a) : Sound (machine.next s a) := by
  cases a with
  | enter key => exact enter_sound h key
  | attempt task => exact attempt_sound h enabled
  | poll task => exact poll_sound h enabled
  | wake task => exact wake_sound h enabled
  | release task => exact release_sound h enabled
  | cancel task next => exact cancel_sound h enabled
  | check task => exact check_sound h enabled
  | notify task next => exact notify_sound h enabled
  | leave task => exact leave_sound h enabled

omit [DecidableEq Key] in
theorem holder_unique (h : Sound s) {task task' : TaskId}
    {transaction transaction' : ResourceTransaction Key}
    (at_ : s.tasks[task]? = some transaction) (at' : s.tasks[task']? = some transaction')
    (holds : transaction.stage = .holding) (holds' : transaction'.stage = .holding)
    (same : transaction.cell = transaction'.cell) : task = task' := by
  by_contra apart
  have moved := count_moveTo at_ .gone transaction.cell Stage.holds
  have still : 0 < (s.moveTo task .gone).count transaction.cell Stage.holds := by
    refine count_pos.mpr ⟨transaction', List.mem_of_getElem? (i := task') ?_, same.symm, ?_⟩
    · rw [moveTo, List.getElem?_modify_ne _ _ apart]
      exact at'
    · rw [holds']
      rfl
  have one := h.exclusive transaction.cell
  rw [holds] at moved
  simp only [Stage.holds, beq_self_eq_true, Bool.and_self, Bool.and_false, if_true,
    Bool.false_eq_true, if_false] at moved
  split at one
  · omega
  · omega

/-- Over every interleaving of any number of tasks: a key has one holder and its participants one
cell; a free cell with a waiter asleep has its permit stored, a notified waiter on its way, or a
drop whose notification is its next step; and the registry holds a cell exactly while it has
participants, which it counts. -/
theorem transactions_safe (actions : List (Action Key))
    (valid : machine.ValidTrace (start : ResourceTransactionIndex Key) actions) :
    let s := machine.runTrace (start : ResourceTransactionIndex Key) actions
    (∀ (task task' : TaskId), ∀ transaction ∈ s.tasks[task]?, ∀ transaction' ∈ s.tasks[task']?,
      transaction.stage = .holding → transaction'.stage = .holding →
        transaction.key = transaction'.key → task = task') ∧
    (∀ transaction ∈ s.tasks, ∀ transaction' ∈ s.tasks,
      transaction.stage ≠ .gone → transaction'.stage ≠ .gone →
        transaction.key = transaction'.key → transaction.cell = transaction'.cell) ∧
    (∀ cell, (s.memory cell).held = false →
      (∃ waiter ∈ s.tasks, waiter.cell = cell ∧ waiter.stage = .asleep) →
        (s.memory cell).permit = true ∨
        (∃ next ∈ s.tasks, next.cell = cell ∧ (next.stage = .notified ∨ next.stage = .woken)) ∨
        ∃ leaver ∈ s.tasks, leaver.cell = cell ∧ leaver.stage = .notifying) ∧
    ∀ key cell, (s.registry key = some cell ↔ ∃ transaction ∈ s.tasks,
        transaction.key = key ∧ transaction.cell = cell ∧ transaction.stage ≠ .gone) ∧
      (s.registry key = some cell → (s.memory cell).participants =
        s.tasks.countP fun transaction =>
          transaction.cell == cell && transaction.stage != .gone) := by
  intro s
  have h : Sound s := trace_invariant (G := fun _ _ => True)
    (fun s a hs enabled _ => step_sound s a hs enabled) start_sound valid (along_trivial _ _)
  have alive : ∀ stage : Stage, stage ≠ .gone → stage.live = true := by
    intro stage there
    cases stage with
    | gone => exact absurd rfl there
    | _ => rfl
  have there : ∀ stage : Stage, stage.live = true → stage ≠ .gone := by
    rintro _ live rfl
    cases live
  refine ⟨?_, ?_, ?_, fun key cell => ⟨⟨fun registered => ?_, ?_⟩, fun registered => ?_⟩⟩
  · intro task task' transaction at_ transaction' at' holds holds' same
    have current := h.current transaction (List.mem_of_getElem? at_) (by rw [holds]; rfl)
    have current' := h.current transaction' (List.mem_of_getElem? at') (by rw [holds']; rfl)
    refine holder_unique h at_ at' holds holds' (Option.some.inj ?_)
    rw [← current, same, current']
  · intro transaction ht transaction' ht' live live' same
    have current := h.current transaction ht (alive _ live)
    have current' := h.current transaction' ht' (alive _ live')
    rw [same, current'] at current
    exact (Option.some.inj current).symm
  · rintro cell free ⟨waiter, hw, same, asleep⟩
    have waiting : 0 < s.count cell Stage.waits :=
      count_pos.mpr ⟨waiter, hw, same, by rw [asleep]; rfl⟩
    refine (h.awake cell free waiting).imp_right fun spur => ?_
    obtain ⟨next, hn, own, spurred⟩ := count_pos.mp spur
    cases stage : next.stage with
    | notified => exact .inl ⟨next, hn, own, .inl stage⟩
    | woken => exact .inl ⟨next, hn, own, .inr stage⟩
    | notifying => exact .inr ⟨next, hn, own, stage⟩
    | _ => simp [stage, Stage.spurred] at spurred
  · obtain ⟨transaction, ht, same, live⟩ := count_pos.mp (h.used key cell registered)
    have current := h.current transaction ht live
    exact ⟨transaction, ht, h.single _ _ cell (same ▸ current) registered, same, there _ live⟩
  · rintro ⟨transaction, ht, rfl, rfl, live⟩
    exact h.current transaction ht (alive _ live)
  · obtain ⟨transaction, ht, same, live⟩ := count_pos.mp (h.used key cell registered)
    rw [h.counted cell (same ▸ h.allocated transaction ht)]
    refine congrArg (fun p => s.tasks.countP p) (funext fun t => congrArg _ ?_)
    cases t.stage with
    | _ => rfl

/-- A holder and two waiters; the holder leaves, and the waiter it notified is cancelled. -/
def handedOff : List (Action ℕ) :=
  [.enter 0, .attempt 0, .enter 0, .attempt 1, .poll 1, .enter 0, .attempt 2, .poll 2, .release 0,
    .notify 0 (some 1), .cancel 1 (some 2)]

instance (s : ResourceTransactionIndex Key) (task : TaskId) (stage : Stage) :
    Decidable (s.At task stage) := inferInstanceAs (Decidable (∃ _ ∈ _, _))

instance (s : ResourceTransactionIndex Key) (cell : CellId) (next : Option TaskId) :
    Decidable (s.Reaches cell next) := by
  cases next with
  | none => exact inferInstanceAs (Decidable (∀ _ ∈ _, _))
  | some next => exact inferInstanceAs (Decidable (∃ _ ∈ _, _))

instance (s : ResourceTransactionIndex Key) (a : Action Key) :
    Decidable (machine.Enabled s a) := by
  cases a with
  | enter key => exact isTrue trivial
  | attempt task => exact inferInstanceAs (Decidable (_ ∨ _))
  | poll task => exact inferInstanceAs (Decidable (s.At _ _))
  | wake task => exact inferInstanceAs (Decidable (s.At _ _))
  | release task => exact inferInstanceAs (Decidable (s.At _ _))
  | cancel task next => exact inferInstanceAs (Decidable (_ ∨ _))
  | check task => exact inferInstanceAs (Decidable (s.At _ _))
  | notify task next => exact inferInstanceAs (Decidable (∃ _ ∈ _, _))
  | leave task => exact inferInstanceAs (Decidable (s.At _ _))

theorem transactions_safe_handed_off :
    let s := machine.runTrace (start : ResourceTransactionIndex ℕ) handedOff
    ∀ key cell, s.registry key = some cell ↔ ∃ transaction ∈ s.tasks,
      transaction.key = key ∧ transaction.cell = cell ∧ transaction.stage ≠ .gone :=
  fun key cell => ((transactions_safe handedOff (by decide)).2.2.2 key cell).1

end ResourceTransactions
