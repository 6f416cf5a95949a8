import Kithara.ResumableBody

/-! The bytes a healed stream gives out against the representation behind it. -/
namespace ResumedBytes

open RangeResponses TransitionSystem ResumableBody UnicodeText

/-- The bytes the first response promises: everything, or the span it declared. -/
def promised (content : List UInt8) (first : State) : List UInt8 :=
  if first.isPartial then
    (content.drop first.refetch.resumeBase).take (first.expectedLen.getD 0)
  else content

/-- A chunk carries the representation from where its response stands, as far as the request
asked for it; what it sends beyond that may be anything, unless no length delimits the body. -/
def HonestChunk (content : List UInt8) (s : State) (bytes : List UInt8) : Prop :=
  (∀ (i : ℕ) b, bytes[i]? = some b → s.position + i < content.length →
    (s.isPartial = true → ∀ last ∈ s.refetch.resumeEnd, s.position + i ≤ last) →
    content[s.position + i]? = some b) ∧
  (s.expectedLen = none → s.position + bytes.length ≤ content.length)

/-- The total a refetched response states, if it is accepted. -/
def statedTotal (s : State) (response : Response) : Option ℕ :=
  match rawBody s.refetch.url (some ⟨s.resumeOffset, s.refetch.resumeEnd⟩) true response with
  | .error _ => none
  | .ok stream => RangeResponses.representationTotal stream.isPartial stream.headers

/-- Every chunk is honest, and so is the first total that is stated. -/
def Honest (content : List UInt8) (s : State) : Action → Prop
  | .poll (.chunk bytes) => HonestChunk content s bytes
  | .refetch (.responded response) => s.representationTotal = none →
      ∀ total ∈ statedTotal s response, total = content.length
  | _ => True

def declares (s : State) : Action → List ℕ
  | .refetch (.responded response) =>
    match (s.heal (.responded response)).phase with
    | .reading => (statedTotal s response).toList
    | _ => []
  | _ => []

def refetches (as : List Action) : ℕ :=
  as.countP fun a => match a with
    | .refetch _ => true
    | .poll _ => false

structure DeliversExactly (content : List UInt8) (first : State) (as : List Action) : Prop where
  given : (machine.runTrace first as).yielded <+: promised content first
  complete : (machine.runTrace first as).phase = .finished none →
    first.expectedLen ≠ none ∨ machine.collect declares first as ≠ [] →
    (machine.runTrace first as).yielded = promised content first
  contradicted : ∀ before after response total stated,
    as = before ++ .refetch (.responded response) :: after →
    total ∈ first.representationTotal.toList ++ machine.collect declares first before →
    stated ∈ statedTotal (machine.runTrace first before) response → stated ≠ total →
    after = [] ∧ (∃ detail, (machine.runTrace first as).phase =
      .finished (some (.decode detail))) ∧
      (machine.runTrace first as).yielded = (machine.runTrace first before).yielded
  bounded : refetches as ≤ first.maxRetries

section

variable {content promise : List UInt8} {base : ℕ} {last : Option ℕ} {s : State}

/-- The promise is a stretch of the representation, and the request asked for all of it. -/
structure Stretch (content promise : List UInt8) (base : ℕ) (last : Option ℕ) : Prop where
  fits : base + promise.length ≤ content.length
  stretch : promise = (content.drop base).take promise.length
  asked : ∀ e ∈ last, base + promise.length ≤ e + 1

/-- What was given is a prefix of the promise, and the current response goes on from there. -/
structure Delivering (content promise : List UInt8) (base : ℕ) (last : Option ℕ) (s : State) :
    Prop where
  from_ : s.refetch.resumeBase = base ∧ s.refetch.resumeEnd = last
  given : s.yielded = promise.take s.consumed
  counted : s.yielded.length = s.consumed
  expected : ∀ e, s.expectedLen = some e → e = promise.length
  total : ∀ t, s.representationTotal = some t → t = content.length
  declared : s.expectedLen = none ↔ s.representationTotal = none
  undeclared : s.expectedLen = none → base = 0 ∧ last = none ∧ promise = content
  onward : s.phase = .reading → s.consumed < promise.length ∨ s.expectedLen = none →
    s.position + s.toSkip = base + s.consumed
  whole : s.phase = .finished none → ∀ e, s.expectedLen = some e → s.consumed = e

theorem Delivering.le (h : Delivering content promise base last s) :
    s.consumed ≤ promise.length := by
  have hlen := h.counted
  rw [h.given, List.length_take] at hlen
  omega

theorem accepted_open (bytes : List UInt8) (h : s.expectedLen = none) :
    s.accepted bytes = bytes.drop (min s.toSkip bytes.length) := by
  rw [State.accepted, h]
  exact List.take_length

theorem accepted_capped (bytes : List UInt8) {expected : ℕ} (h : s.expectedLen = some expected) :
    s.accepted bytes = (bytes.drop (min s.toSkip bytes.length)).take (expected - s.consumed) := by
  rw [State.accepted, h]
  dsimp only
  rw [← List.take_take, List.take_length]

/-- How far the accepted bytes reach: never beyond the promise, and through the whole chunk unless
the promise ends inside it. -/
theorem accepted_reach (h : Delivering content promise base last s) (hphase : s.phase = .reading)
    (hopen : s.consumed < promise.length ∨ s.expectedLen = none) {bytes : List UInt8}
    (hhonest : HonestChunk content s bytes) :
    s.consumed + (s.accepted bytes).length ≤ promise.length ∧
      (s.consumed + (s.accepted bytes).length < promise.length ∨ s.expectedLen = none →
        (s.accepted bytes).length + min s.toSkip bytes.length = bytes.length) := by
  have honward := h.onward hphase hopen
  have hle := h.le
  cases hexpected : s.expectedLen with
  | none =>
    obtain ⟨hbase, _, hall⟩ := h.undeclared hexpected
    have hfits := hhonest.2 hexpected
    rw [accepted_open bytes hexpected, List.length_drop, hall]
    rw [hall] at hle
    exact ⟨by omega, fun _ => by omega⟩
  | some expected =>
    have hlen := h.expected expected hexpected
    rw [accepted_capped bytes hexpected, List.length_take, List.length_drop]
    refine ⟨by omega, ?_⟩
    rintro (hlt | hnone)
    · omega
    · cases hnone

theorem accepted_given (hstretch : Stretch content promise base last)
    (h : Delivering content promise base last s) (hphase : s.phase = .reading)
    (hopen : s.consumed < promise.length ∨ s.expectedLen = none) {bytes : List UInt8}
    (hhonest : HonestChunk content s bytes) :
    s.accepted bytes = (promise.drop s.consumed).take (s.accepted bytes).length := by
  have honward := h.onward hphase hopen
  have hreach := (accepted_reach h hphase hopen hhonest).1
  have hsub (i : ℕ) (hi : i < (s.accepted bytes).length) :
      (s.accepted bytes)[i]? = bytes[min s.toSkip bytes.length + i]? ∧
        min s.toSkip bytes.length + i < bytes.length := by
    cases hexpected : s.expectedLen with
    | none =>
      rw [accepted_open bytes hexpected] at hi ⊢
      rw [List.length_drop] at hi
      exact ⟨List.getElem?_drop, by omega⟩
    | some expected =>
      rw [accepted_capped bytes hexpected] at hi ⊢
      rw [List.length_take, List.length_drop] at hi
      exact ⟨(List.getElem?_take_of_lt (by omega)).trans List.getElem?_drop, by omega⟩
  apply List.ext_getElem?
  intro i
  by_cases hi : i < (s.accepted bytes).length
  · obtain ⟨hbyte, hin⟩ := hsub i hi
    have hskip : min s.toSkip bytes.length = s.toSkip := by omega
    have hat : s.position + (min s.toSkip bytes.length + i) = base + (s.consumed + i) := by omega
    have hfits := hstretch.fits
    have hlt : base + (s.consumed + i) < content.length := by omega
    have hcontent := hhonest.1 _ _ (List.getElem?_eq_getElem hin) (by omega) fun _ e he => by
      rw [h.from_.2] at he
      have hasked := hstretch.asked e he
      omega
    rw [hbyte, List.getElem?_eq_getElem hin, List.getElem?_take_of_lt hi, List.getElem?_drop,
      hstretch.stretch, List.getElem?_take_of_lt (by omega), List.getElem?_drop, ← hcontent, hat]
  · rw [List.getElem?_eq_none (by omega), List.getElem?_eq_none]
    rw [List.length_take]
    omega

theorem take_delivering (hstretch : Stretch content promise base last)
    (h : Delivering content promise base last s) (hphase : s.phase = .reading)
    (hopen : s.consumed < promise.length ∨ s.expectedLen = none) {bytes : List UInt8}
    (hhonest : HonestChunk content s bytes) :
    Delivering content promise base last (s.take bytes) where
  from_ := h.from_
  given := by
    have hgiven := accepted_given hstretch h hphase hopen hhonest
    have hsplit : promise.take (s.consumed + (s.accepted bytes).length) =
        promise.take s.consumed ++ (promise.drop s.consumed).take (s.accepted bytes).length :=
      List.take_add
    rw [State.take, hsplit, ← hgiven, ← h.given]
  counted := by
    rw [State.take, List.length_append, h.counted]
  expected := h.expected
  total := h.total
  declared := h.declared
  undeclared := h.undeclared
  onward _ hmore := by
    have hreach := (accepted_reach h hphase hopen hhonest).2 hmore
    have honward := h.onward hphase hopen
    rw [State.take]
    dsimp only
    omega
  whole hfinished := by
    have hreading : (s.take bytes).phase = .reading := hphase
    rw [hreading] at hfinished
    cases hfinished

theorem finish_delivering (h : Delivering content promise base last s) (terminal : Option NetError)
    (hwhole : terminal = none → ∀ e, s.expectedLen = some e → s.consumed = e) :
    Delivering content promise base last (s.finish terminal) where
  from_ := h.from_
  given := h.given
  counted := h.counted
  expected := h.expected
  total := h.total
  declared := h.declared
  undeclared := h.undeclared
  onward hphase := by cases hphase
  whole hphase := by
    cases hphase
    exact hwhole rfl

theorem resume_delivering (h : Delivering content promise base last s) (cause : NetError) :
    Delivering content promise base last (s.resume cause) := by
  rw [State.resume]
  split
  · exact finish_delivering h _ (by rintro ⟨⟩)
  · split
    · exact finish_delivering h _ (by rintro ⟨⟩)
    · exact
        { from_ := h.from_, given := h.given, counted := h.counted, expected := h.expected
          total := h.total, declared := h.declared, undeclared := h.undeclared
          onward := by rintro ⟨⟩
          whole := by rintro ⟨⟩ }

theorem not_complete (h : Delivering content promise base last s) (hopen : ¬ s.bodyComplete) :
    s.consumed < promise.length ∨ s.expectedLen = none := by
  rw [State.bodyComplete] at hopen
  cases hexpected : s.expectedLen with
  | none => exact .inr rfl
  | some expected =>
    have hlen := h.expected expected hexpected
    rw [hexpected, Option.any_some, decide_eq_true_eq] at hopen
    exact .inl (by omega)

theorem nextChunk_delivering (hstretch : Stretch content promise base last)
    (h : Delivering content promise base last s) (hphase : s.phase = .reading) {read : Poll}
    (hhonest : Honest content s (.poll read)) :
    Delivering content promise base last (s.nextChunk read) := by
  rw [State.nextChunk.eq_def]
  split
  · rename_i hcomplete
    apply finish_delivering h
    intro _ e he
    have hle := h.le
    have hlen := h.expected e he
    rw [State.bodyComplete, he, Option.any_some, decide_eq_true_eq] at hcomplete
    omega
  · rename_i hopen
    cases read with
    | chunk bytes => exact take_delivering hstretch h hphase (not_complete h hopen) hhonest
    | failed cause => exact resume_delivering h cause
    | ended =>
      dsimp only
      split
      · exact resume_delivering h _
      · rename_i hend
        apply finish_delivering h
        intro _ e he
        rw [State.bodyIncompleteAtEof, he, Bool.eq_false_iff.mpr hopen] at hend
        simp at hend
    | stalled => exact resume_delivering h _
    | cancelled => exact resume_delivering h _

theorem checkTotal_none {skip : ℕ} {total : Option ℕ} (h : s.checkTotal skip total = none) :
    (∀ t ∈ total, skip ≤ t) ∧ ∀ t, s.representationTotal = some t → total = some t := by
  rw [State.checkTotal] at h
  split at h
  · cases h
  · rename_i hlong
    refine ⟨fun t ht => ?_, fun t ht => ?_⟩
    · rw [ht, Option.any_some, decide_eq_true_eq] at hlong
      omega
    · rw [ht] at h
      cases total with
      | none => cases h
      | some actual =>
        dsimp only at h
        split at h
        · rename_i hsame
          rw [hsame]
        · cases h

/-- A response to a refetch ends the stream with an error or takes its body over. -/
theorem heal_responded (s : State) (response : Response) :
    (∃ error, s.heal (.responded response) = s.finish (some error)) ∨
      ∃ stream, statedTotal s response =
          RangeResponses.representationTotal stream.isPartial stream.headers ∧
        s.checkTotal (if stream.isPartial then 0 else s.resumeOffset) (statedTotal s response) =
          none ∧
        s.heal (.responded response) = s.install stream
          (if stream.isPartial then 0 else s.resumeOffset) (statedTotal s response) := by
  rw [State.heal.eq_def, statedTotal]
  dsimp only
  cases rawBody s.refetch.url (some ⟨s.resumeOffset, s.refetch.resumeEnd⟩) true response with
  | error error => exact .inl ⟨error, rfl⟩
  | ok stream =>
    dsimp only
    cases hcheck : s.checkTotal (if stream.isPartial then 0 else s.resumeOffset)
      (RangeResponses.representationTotal stream.isPartial stream.headers) with
    | some error => exact .inl ⟨error, rfl⟩
    | none => exact .inr ⟨stream, rfl, hcheck, rfl⟩

theorem install_delivering (h : Delivering content promise base last s) {stream : ByteStream}
    {skip : ℕ} {total : Option ℕ} (hskip : skip ≤ s.resumeOffset)
    (hhonest : s.representationTotal = none → ∀ t ∈ total, t = content.length) :
    Delivering content promise base last (s.install stream skip total) := by
  have hnone := h.declared
  cases htotal : s.representationTotal with
  | some known =>
    have hexpected : s.expectedLen ≠ none := fun hopen => by
      rw [hnone.mp hopen] at htotal
      cases htotal
    have hkept : (s.install stream skip total).expectedLen = s.expectedLen := by
      rw [State.install, htotal]
      rfl
    have hsame : (s.install stream skip total).representationTotal = s.representationTotal := by
      rw [State.install, htotal]
      rfl
    refine ⟨h.from_, h.given, h.counted, ?_, ?_, ?_, ?_, ?_, ?_⟩
    · rw [hkept]
      exact h.expected
    · rw [hsame]
      exact h.total
    · rw [hkept, hsame]
      exact hnone
    · rw [hkept]
      exact h.undeclared
    · intro _ _
      rw [← h.from_.1]
      exact Nat.sub_add_cancel hskip
    · rintro ⟨⟩
  | none =>
    have hopen := hnone.mpr htotal
    have hkept : (s.install stream skip total).expectedLen = total := by
      rw [State.install, htotal, hopen]
      rfl
    have hsame : (s.install stream skip total).representationTotal = total := by
      rw [State.install, htotal]
      rfl
    obtain ⟨hbase, hlast, hall⟩ := h.undeclared hopen
    refine ⟨h.from_, h.given, h.counted, ?_, ?_, ?_, ?_, ?_, ?_⟩
    · intro e he
      rw [hkept] at he
      rw [hall]
      exact hhonest htotal e he
    · intro t ht
      rw [hsame] at ht
      exact hhonest htotal t ht
    · rw [hkept, hsame]
    · exact fun _ => ⟨hbase, hlast, hall⟩
    · intro _ _
      rw [← h.from_.1]
      exact Nat.sub_add_cancel hskip
    · rintro ⟨⟩

theorem heal_delivering (h : Delivering content promise base last s) {outcome : Refetch}
    (hhonest : Honest content s (.refetch outcome)) :
    Delivering content promise base last (s.heal outcome) := by
  cases outcome with
  | cancelled => exact finish_delivering h _ (by rintro ⟨⟩)
  | failed error => exact finish_delivering h _ (by rintro ⟨⟩)
  | responded response =>
    obtain ⟨error, herror⟩ | ⟨stream, _, _, hheal⟩ := heal_responded s response
    · rw [herror]
      exact finish_delivering h _ (by rintro ⟨⟩)
    · rw [hheal]
      apply install_delivering h _ hhonest
      split
      · exact Nat.zero_le _
      · exact Nat.le_refl _

theorem next_delivering (hstretch : Stretch content promise base last) (a : Action)
    (h : Delivering content promise base last s) (henabled : s.Enabled a)
    (hhonest : Honest content s a) : Delivering content promise base last (s.next a) := by
  cases a with
  | poll read => exact nextChunk_delivering hstretch h henabled hhonest
  | refetch outcome => exact heal_delivering h hhonest

end

section

variable {s : State}

theorem resume_total (s : State) (cause : NetError) :
    (s.resume cause).representationTotal = s.representationTotal := by
  rw [State.resume]
  split
  · rfl
  · split <;> rfl

theorem nextChunk_total (s : State) (read : Poll) :
    (s.nextChunk read).representationTotal = s.representationTotal := by
  rw [State.nextChunk.eq_def]
  split
  · rfl
  · cases read with
    | chunk bytes => rfl
    | failed cause => exact resume_total s cause
    | ended =>
      dsimp only
      split
      · exact resume_total s _
      · rfl
    | stalled => exact resume_total s _
    | cancelled => exact resume_total s _

theorem install_total {stream : ByteStream} {skip : ℕ} {total : Option ℕ}
    (hcheck : s.checkTotal skip total = none) :
    (s.install stream skip total).representationTotal = total := by
  rw [State.install]
  cases hknown : s.representationTotal with
  | none => rfl
  | some known => exact ((checkTotal_none hcheck).2 known hknown).symm

theorem next_total {total : ℕ} (a : Action) (h : s.representationTotal = some total) :
    (s.next a).representationTotal = some total := by
  cases a with
  | poll read => exact (nextChunk_total s read).trans h
  | refetch outcome =>
    cases outcome with
    | cancelled => exact h
    | failed error => exact h
    | responded response =>
      rw [State.next]
      obtain ⟨error, herror⟩ | ⟨stream, _, hcheck, hheal⟩ := heal_responded s response
      · rw [herror]
        exact h
      · rw [hheal, install_total hcheck]
        exact (checkTotal_none hcheck).2 total h

theorem declares_total {total : ℕ} {a : Action} (h : total ∈ declares s a) :
    (s.next a).representationTotal = some total := by
  cases a with
  | poll read => cases h
  | refetch outcome =>
    cases outcome with
    | cancelled => cases h
    | failed error => cases h
    | responded response =>
      rw [declares] at h
      rw [State.next]
      obtain ⟨error, herror⟩ | ⟨stream, _, hcheck, hheal⟩ := heal_responded s response
      · rw [herror] at h
        cases h
      · rw [hheal] at h ⊢
        rw [install_total hcheck]
        exact Option.mem_toList.mp h

theorem known_total {total : ℕ} (s : State) (as : List Action)
    (h : total ∈ s.representationTotal.toList ++ machine.collect declares s as) :
    (machine.runTrace s as).representationTotal = some total := by
  induction as generalizing s with
  | nil =>
    rw [Machine.collect, List.append_nil] at h
    exact Option.mem_toList.mp h
  | cons a as ih =>
    apply ih
    rw [Machine.collect, List.mem_append, List.mem_append] at h
    rw [List.mem_append]
    obtain h | h | h := h
    · exact .inl (Option.mem_toList.mpr (next_total a (Option.mem_toList.mp h)))
    · exact .inl (Option.mem_toList.mpr (declares_total h))
    · exact .inr h

def outstanding : Phase → ℕ
  | .healing => 1
  | _ => 0

theorem resume_spends (s : State) (cause : NetError) :
    (s.resume cause).resumes = s.resumes + outstanding (s.resume cause).phase ∧
      (s.resumes ≤ s.maxRetries → (s.resume cause).resumes ≤ s.maxRetries) ∧
      (s.resume cause).maxRetries = s.maxRetries := by
  rw [State.resume]
  split
  · exact ⟨rfl, id, rfl⟩
  · split
    · exact ⟨rfl, id, rfl⟩
    · rename_i hbudget
      exact ⟨rfl, fun _ => Nat.lt_of_not_le hbudget, rfl⟩

theorem next_spends (a : Action) (henabled : s.Enabled a) :
    (s.next a).resumes + outstanding s.phase =
        s.resumes + outstanding (s.next a).phase + refetches [a] ∧
      (s.resumes ≤ s.maxRetries → (s.next a).resumes ≤ s.maxRetries) ∧
      (s.next a).maxRetries = s.maxRetries := by
  cases a with
  | poll read =>
    have hphase : s.phase = .reading := henabled
    have hresume (cause : NetError) :
        (s.resume cause).resumes + outstanding s.phase =
          s.resumes + outstanding (s.resume cause).phase + refetches [.poll read] ∧
        (s.resumes ≤ s.maxRetries → (s.resume cause).resumes ≤ s.maxRetries) ∧
        (s.resume cause).maxRetries = s.maxRetries := by
      rw [hphase]
      exact resume_spends s cause
    have hfinish (terminal : Option NetError) :
        (s.finish terminal).resumes + outstanding s.phase =
          s.resumes + outstanding (s.finish terminal).phase + refetches [.poll read] ∧
        (s.resumes ≤ s.maxRetries → (s.finish terminal).resumes ≤ s.maxRetries) ∧
        (s.finish terminal).maxRetries = s.maxRetries := by
      rw [hphase]
      exact ⟨rfl, id, rfl⟩
    rw [State.next, State.nextChunk.eq_def]
    split
    · exact hfinish none
    · cases read with
      | chunk bytes =>
        dsimp only
        refine ⟨?_, id, rfl⟩
        rw [State.take, hphase]
        rfl
      | failed cause => exact hresume cause
      | ended =>
        dsimp only
        split
        · exact hresume _
        · exact hfinish none
      | stalled => exact hresume _
      | cancelled => exact hresume _
  | refetch outcome =>
    have hphase : s.phase = .healing := henabled
    rw [hphase]
    cases outcome with
    | cancelled => exact ⟨rfl, id, rfl⟩
    | failed error => exact ⟨rfl, id, rfl⟩
    | responded response =>
      rw [State.next]
      obtain ⟨error, herror⟩ | ⟨stream, _, _, hheal⟩ := heal_responded s response
      · rw [herror]
        exact ⟨rfl, id, rfl⟩
      · rw [hheal]
        exact ⟨rfl, id, rfl⟩

theorem run_spends (s : State) (as : List Action) (hvalid : machine.ValidTrace s as) :
    (machine.runTrace s as).resumes + outstanding s.phase =
        s.resumes + outstanding (machine.runTrace s as).phase + refetches as ∧
      (s.resumes ≤ s.maxRetries → (machine.runTrace s as).resumes ≤ s.maxRetries) := by
  induction as generalizing s with
  | nil => exact ⟨rfl, id⟩
  | cons a as ih =>
    obtain ⟨hfirst, hbudget, hmax⟩ := next_spends a hvalid.1
    obtain ⟨hrest, hlimit⟩ := ih (s.next a) hvalid.2
    rw [hmax] at hlimit
    have hcount : refetches ([a] ++ as) = refetches [a] + refetches as := List.countP_append
    refine ⟨?_, fun hle => hlimit (hbudget hle)⟩
    rw [runTrace_cons, ← List.singleton_append, hcount]
    have hnext : machine.next s a = s.next a := rfl
    rw [hnext]
    omega

end

section

variable {content : List UInt8} {url : String} {request : Option RangeSpec} {maxRetries : ℕ}
  {response : Response} {first : State}

def HonestFirst (content : List UInt8) (first : State) : Prop :=
  ∀ total ∈ first.representationTotal, total = content.length

theorem wrap_whole {stream : ByteStream} (hfull : stream.isPartial = false) (baseStart : ℕ)
    (finish : Option ℕ)
    (hhonest : HonestFirst content (wrapResumable stream url baseStart finish maxRetries)) :
    Stretch content (promised content (wrapResumable stream url baseStart finish maxRetries))
        (wrapResumable stream url baseStart finish maxRetries).refetch.resumeBase
        (wrapResumable stream url baseStart finish maxRetries).refetch.resumeEnd ∧
      Delivering content (promised content (wrapResumable stream url baseStart finish maxRetries))
        (wrapResumable stream url baseStart finish maxRetries).refetch.resumeBase
        (wrapResumable stream url baseStart finish maxRetries).refetch.resumeEnd
        (wrapResumable stream url baseStart finish maxRetries) := by
  obtain ⟨headers, isPartial⟩ := stream
  cases hfull
  have hpromised : promised content (wrapResumable ⟨headers, false⟩ url baseStart finish
      maxRetries) = content := rfl
  rw [hpromised]
  refine ⟨⟨Nat.le_of_eq (Nat.zero_add _), ?_, by rintro e ⟨⟩⟩, ⟨rfl, rfl⟩, rfl, rfl, hhonest,
    hhonest, Iff.rfl, fun _ => ⟨rfl, rfl, rfl⟩, fun _ _ => rfl, by rintro ⟨⟩⟩
  exact List.take_length.symm

theorem wrap_span {stream : ByteStream} (hranged : stream.isPartial = true) {range : RangeSpec}
    {total span : ℕ} (hspan : PartialSpan range stream.headers total span)
    (hhonest : HonestFirst content (wrapResumable stream url range.start range.finish
      maxRetries)) :
    Stretch content (promised content (wrapResumable stream url range.start range.finish
        maxRetries)) range.start range.finish ∧
      Delivering content (promised content (wrapResumable stream url range.start range.finish
        maxRetries)) range.start range.finish
        (wrapResumable stream url range.start range.finish maxRetries) := by
  obtain ⟨headers, isPartial⟩ := stream
  cases hranged
  have hlength : contentLength headers = some span := hspan.length
  have hknown : RangeResponses.representationTotal true headers = some total := hspan.known
  have htotal : total = content.length := hhonest total hknown
  have hpromised : promised content (wrapResumable ⟨headers, true⟩ url range.start range.finish
      maxRetries) = (content.drop range.start).take span :=
    congrArg (fun len : Option ℕ => (content.drop range.start).take (len.getD 0)) hlength
  have hinside := hspan.inside
  have hlen : ((content.drop range.start).take span).length = span := by
    rw [List.length_take, List.length_drop]
    omega
  rw [hpromised]
  refine ⟨⟨?_, ?_, ?_⟩, ⟨rfl, rfl⟩, rfl, rfl, ?_, hhonest, ?_, ?_, fun _ _ => rfl,
    by rintro ⟨⟩⟩
  · rw [hlen, ← htotal]
    exact hinside
  · rw [hlen]
  · rw [hlen]
    exact hspan.asked
  · intro e he
    have hsame : some e = some span := he.symm.trans hlength
    cases hsame
    exact hlen.symm
  · exact iff_of_false (fun hnone => by cases hlength.symm.trans hnone)
      (fun hnone => by cases hknown.symm.trans hnone)
  · exact fun hnone => by cases hlength.symm.trans hnone

theorem open_delivering (hopen : openStream url request maxRetries response = .ok first)
    (hhonest : HonestFirst content first) :
    ∃ base last, Stretch content (promised content first) base last ∧
      Delivering content (promised content first) base last first := by
  rw [openStream] at hopen
  cases hbody : rawBody url request request.isSome response with
  | error error =>
    rw [hbody] at hopen
    cases hopen
  | ok stream =>
    rw [hbody] at hopen
    have hdeclared := (rawBody_spec hbody).2
    cases request with
    | none =>
      cases hopen
      have hfull : stream.isPartial = false := Bool.eq_false_iff.mpr fun hranged => by
        cases (hdeclared hranged).1
      exact ⟨_, _, wrap_whole hfull 0 none hhonest⟩
    | some range =>
      cases hopen
      cases hranged : stream.isPartial with
      | false => exact ⟨_, _, wrap_whole hranged range.start range.finish hhonest⟩
      | true =>
        obtain ⟨total, span, hspan⟩ := (hdeclared hranged).2 range rfl
        exact ⟨_, _, wrap_span hranged hspan hhonest⟩

theorem open_fresh (hopen : openStream url request maxRetries response = .ok first) :
    first.phase = .reading ∧ first.resumes = 0 ∧ first.maxRetries = maxRetries := by
  rw [openStream] at hopen
  cases hbody : rawBody url request request.isSome response with
  | error error =>
    rw [hbody] at hopen
    cases hopen
  | ok stream =>
    rw [hbody] at hopen
    cases request with
    | none =>
      cases hopen
      exact ⟨rfl, rfl, rfl⟩
    | some range =>
      cases hopen
      exact ⟨rfl, rfl, rfl⟩

theorem checkTotal_differs {s : State} {total stated : ℕ}
    (hknown : s.representationTotal = some total) (hne : stated ≠ total) (skip : ℕ) :
    ∃ detail, s.checkTotal skip (some stated) = some (.decode detail) := by
  by_cases hshort : stated < skip
  · rw [State.checkTotal, if_pos (by simpa using hshort)]
    exact ⟨_, rfl⟩
  · rw [State.checkTotal, if_neg (by simpa using hshort), hknown]
    dsimp only
    rw [if_neg (Ne.symm hne)]
    exact ⟨_, rfl⟩

theorem contradiction_ends {s : State} {total stated : ℕ}
    (hknown : s.representationTotal = some total) (hstated : stated ∈ statedTotal s response)
    (hne : stated ≠ total) :
    (∃ detail, (s.heal (.responded response)).phase = .finished (some (.decode detail))) ∧
      (s.heal (.responded response)).yielded = s.yielded := by
  rw [statedTotal] at hstated
  cases hbody : rawBody s.refetch.url (some ⟨s.resumeOffset, s.refetch.resumeEnd⟩) true
    response with
  | error error =>
    rw [hbody] at hstated
    cases hstated
  | ok stream =>
    rw [hbody] at hstated
    have htotal : RangeResponses.representationTotal stream.isPartial stream.headers =
        some stated := hstated
    obtain ⟨detail, hdetail⟩ := checkTotal_differs hknown hne
      (if stream.isPartial then 0 else s.resumeOffset)
    have hheal : s.heal (.responded response) = s.finish (some (.decode detail)) := by
      rw [State.heal.eq_def]
      dsimp only
      rw [hbody]
      dsimp only
      rw [htotal, hdetail]
    rw [hheal]
    exact ⟨⟨detail, rfl⟩, rfl⟩

theorem finished_last {s : State} {terminal : Option NetError} {as : List Action}
    (h : s.phase = .finished terminal) (hvalid : machine.ValidTrace s as) : as = [] := by
  cases as with
  | nil => rfl
  | cons a as =>
    have henabled : s.Enabled a := hvalid.1
    cases a with
    | poll read =>
      rw [State.Enabled, h] at henabled
      cases henabled
    | refetch outcome =>
      rw [State.Enabled, h] at henabled
      cases henabled

/-- Every healed stream gives out the promised bytes in order, ends without an error only after
all of them where their number was stated, refuses a response that contradicts the known total,
and asks no more often than its policy allows. -/
theorem resumed_exactly (content : List UInt8) (url : String) (request : Option RangeSpec)
    (maxRetries : ℕ) (response : Response) (first : State) (as : List Action)
    (hopen : openStream url request maxRetries response = .ok first)
    (hfirst : HonestFirst content first) (hvalid : machine.ValidTrace first as)
    (hhonest : machine.Along (Honest content) first as) : DeliversExactly content first as := by
  obtain ⟨base, last, hstretch, hstart⟩ := open_delivering hopen hfirst
  obtain ⟨hreading, hresumes, _⟩ := open_fresh hopen
  have hrun := trace_invariant (G := Honest content)
    (fun s a h he hg => next_delivering hstretch a h he hg) hstart
    hvalid hhonest
  refine ⟨?_, ?_, ?_, ?_⟩
  · rw [hrun.given]
    exact List.take_prefix ..
  · intro hphase hdeclared
    have hknown : ∃ total, (machine.runTrace first as).representationTotal = some total := by
      obtain hlength | hlater := hdeclared
      · obtain ⟨total, htotal⟩ := Option.ne_none_iff_exists'.mp fun hnone =>
          hlength (hstart.declared.mpr hnone)
        exact ⟨total, known_total first as (List.mem_append_left _ (Option.mem_toList.mpr htotal))⟩
      · obtain ⟨total, htotal⟩ := List.exists_mem_of_ne_nil _ hlater
        exact ⟨total, known_total first as (List.mem_append_right _ htotal)⟩
    obtain ⟨total, htotal⟩ := hknown
    obtain ⟨expected, hexpected⟩ := Option.ne_none_iff_exists'.mp fun hnone => by
      cases htotal.symm.trans (hrun.declared.mp hnone)
    rw [hrun.given, hrun.whole hphase expected hexpected, hrun.expected expected hexpected,
      List.take_length]
  · rintro before after resp total stated rfl hknown hstated hne
    have htotal := known_total first before hknown
    have hends := contradiction_ends htotal hstated hne
    obtain ⟨⟨detail, hphase⟩, hyielded⟩ := hends
    have hrest := (validTrace_append.mp hvalid).2.2
    have hafter : after = [] := finished_last hphase hrest
    subst hafter
    rw [runTrace_append]
    exact ⟨rfl, ⟨detail, hphase⟩, hyielded⟩
  · obtain ⟨hspent, hlimit⟩ := run_spends first as hvalid
    have hle := hlimit (by rw [hresumes]; exact Nat.zero_le _)
    rw [hreading, hresumes] at hspent
    have hidle : outstanding Phase.reading = 0 := rfl
    omega

theorem honest_of_leading {s : State} {bytes : List UInt8} (hfits : s.position ≤ content.length)
    (h : bytes <+: content.drop s.position) : HonestChunk content s bytes := by
  obtain ⟨rest, hrest⟩ := h
  have hlen := congrArg List.length hrest
  rw [List.length_append, List.length_drop] at hlen
  refine ⟨fun i b hb _ _ => ?_, fun _ => by omega⟩
  rw [← List.getElem?_drop, ← hrest]
  exact (List.getElem?_append_left (List.getElem?_eq_some_iff.mp hb).1).trans hb

end

def lengthField (length : String) : Text × Text := (contentLengthKey, length.toList)

def spanResponse : Response where
  status := 206
  headers := [lengthField "4", (contentRangeKey, "bytes 1-4/6".toList)]
  errorBody := none

/-- The server ignores the resumed range and starts over. -/
def fullResponse : Response where
  status := 200
  headers := [lengthField "6"]
  errorBody := none

def restarted : List Action :=
  [.poll (.chunk [2, 3]), .poll .stalled, .refetch (.responded fullResponse),
    .poll (.chunk [1, 2, 3]), .poll (.chunk [4, 5, 6]), .poll .ended]

theorem restarted_exactly :
    DeliversExactly [1, 2, 3, 4, 5, 6]
      (wrapResumable ⟨spanResponse.headers, true⟩ "" 1 (some 4) 3) restarted := by
  refine resumed_exactly [1, 2, 3, 4, 5, 6] "" (some ⟨1, some 4⟩) 3 spanResponse _ restarted rfl
    ?_ ?_ ?_
  · rintro total ⟨⟩
    rfl
  · exact ⟨rfl, rfl, rfl, rfl, rfl, rfl, trivial⟩
  · refine ⟨honest_of_leading (by decide) (by decide), trivial, ?_,
      honest_of_leading (by decide) (by decide), honest_of_leading (by decide) (by decide), trivial,
      trivial⟩
    rintro ⟨⟩

end ResumedBytes
