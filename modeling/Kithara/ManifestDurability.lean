import Kithara.AvailabilityManifest

/-! What the manifest names was forced onto the medium before it was named. -/
namespace AvailabilityManifest

open KeyedSums (Table)
open KeyedTables RangeRuns TransitionSystem

variable {Root Rel Path Bytes : Type*} [DecidableEq Root] [DecidableEq Rel] [DecidableEq Path]

theorem markCommitted_fst (a : Availability) (finalLen : ℕ) :
    (a.markCommitted finalLen).1 = ⟨some finalLen, Availability.whole finalLen, true⟩ := by
  simp only [Availability.markCommitted]
  split
  · rename_i hsame
    obtain ⟨len, ranges, committed⟩ := a
    simp only [Bool.and_eq_true, decide_eq_true_eq] at hsame
    rw [hsame.1.1, hsame.1.2, hsame.2]
  · rfl

theorem insert_committed (a : Availability) (first last : ℕ) :
    (a.insert first last).1.committed = a.committed ∧
      (a.insert first last).1.finalLen = a.finalLen := by
  rw [Availability.insert]
  split <;> exact ⟨rfl, rfl⟩

omit [DecidableEq Path] in
theorem lookup_update (s : State Root Rel Path Bytes) (key key' : Key Root Rel)
    (f : Availability → Availability) : (s.update key f).assets.lookup key' =
      if key' = key then some (f ((s.assets.lookup key).getD .new)) else s.assets.lookup key' := by
  rw [State.update]
  split
  · rename_i heq
    rw [heq, AList.lookup_insert]
  · rename_i hne
    exact AList.lookup_insert_ne hne

def Forces (files files' : Path → Option (File (List UInt8))) : Prop :=
  ∀ path, files' path = files path ∨
    ∃ file, files path = some file ∧ files' path = some { file with synced := true }

variable {files files' files'' : Path → Option (File (List UInt8))} {path : Path}

omit [DecidableEq Path] in
theorem Forces.refl (files : Path → Option (File (List UInt8))) : Forces files files :=
  fun _ => .inl rfl

omit [DecidableEq Path] in
theorem Forces.trans (h : Forces files files') (k : Forces files' files'') :
    Forces files files'' := by
  intro path
  rcases k path with hk | ⟨file', hfile', hk⟩
  · rw [hk]
    exact h path
  · right
    rcases h path with hh | ⟨file, hfile, hh⟩
    · exact ⟨file', hh ▸ hfile', hk⟩
    · rw [hh] at hfile'
      cases hfile'
      exact ⟨file, hfile, hk⟩

theorem forces_update {file : File (List UInt8)} (h : files path = some file) :
    Forces files (Function.update files path (some { file with synced := true })) := by
  intro path'
  by_cases hp : path' = path
  · subst hp
    exact .inr ⟨file, h, Function.update_self ..⟩
  · exact .inl (Function.update_of_ne hp _ _)

omit [DecidableEq Path] in
theorem Forces.before (h : Forces files files') {file' : File (List UInt8)}
    (hfile' : files' path = some file') : ∃ file, files path = some file ∧
      file'.bytes = file.bytes ∧ (file.synced = true → file'.synced = true) := by
  rcases h path with hsame | ⟨file, hfile, hforced⟩
  · exact ⟨file', hsame ▸ hfile', rfl, id⟩
  · rw [hforced] at hfile'
    cases hfile'
    exact ⟨file, hfile, rfl, fun _ => rfl⟩

variable {present : Key Root Rel → Bool} {index : AvailabilityFile Root Rel}
  {barrier : Path → Barrier} {queued : List (Sigma fun _ : Path => Key Root Rel)}

variable (present index barrier) in
theorem barrierFiles_forces (queued : List (Sigma fun _ : Path => Key Root Rel))
    (files : Path → Option (File (List UInt8))) :
    Forces files (barrierFiles present index barrier queued files).1 := by
  induction queued generalizing files with
  | nil => exact .refl files
  | cons e queued ih =>
    simp only [barrierFiles]
    split
    · split
      · exact ih files
      · exact .refl files
    · rename_i file hfile
      split
      · exact .refl files
      · exact forces_update hfile
      · split
        · exact (forces_update hfile).trans (ih _)
        · exact forces_update hfile

variable (present index barrier queued) in
/-- After a barrier that holds, each queued file is forced, and has the length selected for it. -/
theorem barrierFiles_forced (files : Path → Option (File (List UInt8)))
    (h : (barrierFiles present index barrier queued files).2 = true) :
    ∀ e ∈ queued, ∀ file, (barrierFiles present index barrier queued files).1 e.1 = some file →
      file.synced = true ∧ extentMatches (index.lookup e.2) file.bytes.length = true := by
  induction queued generalizing files with
  | nil => exact fun _ he => absurd he List.not_mem_nil
  | cons e queued ih =>
    intro e' he' file' hfile'
    obtain ⟨path, key⟩ := e
    have hforces := barrierFiles_forces present index barrier queued
    simp only [barrierFiles] at h hfile'
    split at h
    · rename_i hnone
      simp only [hnone] at h hfile'
      split at h
      · rename_i hover
        rw [if_pos hover] at hfile'
        rcases List.mem_cons.mp he' with rfl | he'
        · obtain ⟨file, hfile, _⟩ := (hforces files).before hfile'
          rw [hnone] at hfile
          cases hfile
        · exact ih files h e' he' file' hfile'
      · cases h
    · rename_i file hfile
      simp only [hfile] at h hfile'
      split at h
      · cases h
      · cases h
      · rename_i hbarrier
        simp only [hbarrier] at h hfile'
        split at h
        · rename_i hmatches
          rw [if_pos hmatches] at hfile'
          rcases List.mem_cons.mp he' with rfl | he'
          · obtain ⟨forced, hforced, hbytes, hsynced⟩ := (hforces _).before hfile'
            rw [Function.update_self] at hforced
            cases hforced
            exact ⟨hsynced rfl, hbytes ▸ hmatches⟩
          · exact ih _ h e' he' file' hfile'
        · cases h

def State.Recorded (s : State Root Rel Path Bytes) (key : Key Root Rel) (finalLen : ℕ) : Prop :=
  ∃ a ∈ s.assets.lookup key, a.committed = true ∧ a.finalLen = some finalLen

/-- No other resource has the file of this one. -/
def Own (layout : Layout Root Rel Path) (key : Key Root Rel) : Prop :=
  ∀ key', layout.path key' = layout.path key → key' = key

/-- The resource is not recorded without an obligation: a rewrite gives its length, one by a writer
taken up from an opened file comes while the file is still queued, and no file is opened that is
neither forced nor queued. -/
def Careful (layout : Layout Root Rel Path) (key : Key Root Rel) (s : State Root Rel Path Bytes) :
    Action Root Rel Path → Prop
  | .commit key' _ none => key' = key → ∀ a ∈ s.assets.lookup key, a.committed = false
  | .rewrite key' _ finalLen => key' = key →
    finalLen.isSome ∧ s.pendingDurability.lookup (layout.path key) = some key
  | .openResource key' => key' = key → ∀ file ∈ s.files (layout.path key),
    file.synced = true ∨ s.pendingDurability.lookup (layout.path key) = some key
  | _ => True

instance (layout : Layout Root Rel Path) (key : Key Root Rel) (s : State Root Rel Path Bytes) :
    (a : Action Root Rel Path) → Decidable (Careful layout key s a)
  | .commit key' _ none =>
    inferInstanceAs (Decidable (key' = key → ∀ a ∈ s.assets.lookup key, a.committed = false))
  | .rewrite key' _ finalLen =>
    inferInstanceAs (Decidable (key' = key →
      finalLen.isSome ∧ s.pendingDurability.lookup (layout.path key) = some key))
  | .openResource key' =>
    inferInstanceAs (Decidable (key' = key → ∀ file ∈ s.files (layout.path key),
      file.synced = true ∨ s.pendingDurability.lookup (layout.path key) = some key))
  | .commit _ _ (some _) | .acquireResource _ | .write _ _ _ | .remove _ | .deleteAsset _
  | .flush _ _ _ _ => isTrue trivial

def Forced (file : File (List UInt8)) (finalLen : ℕ) : Prop :=
  file.synced = true ∧ file.bytes.length = finalLen

def named (codec : Codec (AvailabilityFile Root Rel) Bytes) (s : State Root Rel Path Bytes) :
    Option (AvailabilityFile Root Rel) :=
  s.manifest.bind fun file => codec.decode file.bytes

/-- A resource counts as committed exactly if its length is known. -/
def Full (assets : Table (Key Root Rel) Availability) : Prop :=
  ∀ key, ∀ a ∈ assets.lookup key, a.committed = a.finalLen.isSome

structure Kept (layout : Layout Root Rel Path) (codec : Codec (AvailabilityFile Root Rel) Bytes)
    (s : State Root Rel Path Bytes) : Prop where
  full : Full s.assets
  queued : ∀ path, ∀ key ∈ s.pendingDurability.lookup path, layout.path key = path
  lengths : ∀ index ∈ named codec s, ∀ key, ∀ r ∈ index.lookup key, r.finalLen.isSome

structure Sound (layout : Layout Root Rel Path) (codec : Codec (AvailabilityFile Root Rel) Bytes)
    (key : Key Root Rel) (s : State Root Rel Path Bytes) : Prop where
  recorded : ∀ finalLen, s.Recorded key finalLen → ∀ file ∈ s.files (layout.path key),
    s.pendingDurability.lookup (layout.path key) = some key ∨ Forced file finalLen
  whole : ∀ index ∈ named codec s, ∀ r ∈ index.lookup key, ∀ file ∈ s.files (layout.path key),
    layout.path key ∈ s.rewritten ∨ ∃ finalLen, r.finalLen = some finalLen ∧ Forced file finalLen

variable {layout : Layout Root Rel Path} {codec : Codec (AvailabilityFile Root Rel) Bytes}
  {s s' : State Root Rel Path Bytes} {key : Key Root Rel}

omit [DecidableEq Path] in
theorem update_full (h : Full s.assets) (key : Key Root Rel) {f : Availability → Availability}
    (hf : ∀ a : Availability, a.committed = a.finalLen.isSome →
      (f a).committed = (f a).finalLen.isSome) : Full (s.update key f).assets := by
  intro key' a ha
  rw [lookup_update] at ha
  split at ha
  · cases ha
    apply hf
    cases hlookup : s.assets.lookup key with
    | none => rfl
    | some b => exact h key b hlookup
  · exact h key' a ha

omit [DecidableEq Path] in
theorem recordCommit_full (h : Full s.assets) (key : Key Root Rel) (finalLen : ℕ) :
    Full (s.recordCommit key finalLen).assets := by
  apply update_full h key
  intro a _
  rw [markCommitted_fst]
  rfl

omit [DecidableEq Path] in
theorem lookup_recordCommit (s : State Root Rel Path Bytes) (key key' : Key Root Rel)
    (finalLen : ℕ) : (s.recordCommit key finalLen).assets.lookup key' =
      if key' = key then some ⟨some finalLen, Availability.whole finalLen, true⟩
      else s.assets.lookup key' := by
  rw [State.recordCommit, lookup_update, markCommitted_fst]

omit [DecidableEq Path] in
theorem opened_eq (s : State Root Rel Path Bytes) (key : Key Root Rel) (path : Path) :
    s.openStorageResource key path = s ∨ ∃ file ∈ s.files path,
      s.openStorageResource key path = s.recordCommit key file.bytes.length := by
  rw [State.openStorageResource]
  split
  · rename_i file hfile
    exact .inr ⟨file, hfile, rfl⟩
  · exact .inl rfl

omit [DecidableEq Root] [DecidableEq Rel] in
theorem lookup_requeued {queued : List (Sigma fun _ : Path => Key Root Rel)}
    (hperm : queued.Perm s.pendingDurability.entries) (path : Path) :
    (queued.foldl (fun m e => orInsert m e.1 e.2) ∅).lookup path =
      s.pendingDurability.lookup path := by
  have hnodup : queued.NodupKeys :=
    (List.perm_nodupKeys hperm).mpr s.pendingDurability.nodupKeys
  rw [lookup_foldl_orInsert queued hnodup]
  exact List.perm_dlookup path hnodup hperm

omit [DecidableEq Path] in
theorem mem_snapshot {key : Key Root Rel} {r : ResourceAvailabilityFile} :
    r ∈ (snapshotAggregate s).lookup key ↔
      ∃ a ∈ s.assets.lookup key, a.committed = true ∧ r = ⟨a.ranges.runs, a.finalLen, true⟩ := by
  rw [snapshotAggregate, lookup_mapValues, Option.mem_bind_iff]
  constructor
  · rintro ⟨a, ha, hr⟩
    rw [record] at hr
    split at hr
    · rename_i hcommitted
      cases hr
      exact ⟨a, ha, hcommitted, by rw [hcommitted]⟩
    · cases hr
  · rintro ⟨a, ha, hcommitted, rfl⟩
    refine ⟨a, ha, ?_⟩
    rw [record, if_pos hcommitted, hcommitted]
    rfl

theorem barrier_pending (s : State Root Rel Path Bytes)
    (hperm : queued.Perm s.pendingDurability.entries) (path : Path) {key : Key Root Rel}
    (hkey : key ∈ (barrierPendingFiles s (snapshotAggregate s) queued
      barrier).1.pendingDurability.lookup path) : key ∈ s.pendingDurability.lookup path := by
  simp only [barrierPendingFiles] at hkey
  split at hkey
  · rw [AList.lookup_empty] at hkey
    cases hkey
  · rwa [lookup_requeued hperm] at hkey

theorem kept_step (layout : Layout Root Rel Path) (s : State Root Rel Path Bytes)
    (a : Action Root Rel Path) (h : Kept layout codec s) (he : Enabled s a) :
    Kept layout codec (next layout codec s a) := by
  obtain ⟨hfull, hqueued, hlengths⟩ := h
  have hopened (key : Key Root Rel) (path : Path) :
      Kept layout codec (s.openStorageResource key path) := by
    rcases opened_eq s key path with hsame | ⟨file, _, hopened⟩
    · rw [hsame]
      exact ⟨hfull, hqueued, hlengths⟩
    · rw [hopened]
      exact ⟨recordCommit_full hfull key _, hqueued, hlengths⟩
  cases a with
  | commit key bytes finalLen =>
    cases finalLen with
    | none => exact ⟨hfull, hqueued, hlengths⟩
    | some finalLen =>
      refine ⟨recordCommit_full (s := { s with
        pendingDurability := orInsert s.pendingDurability (layout.path key) key }) hfull key _,
        fun path key' hkey' => ?_, hlengths⟩
      simp only [next, State.recordFileCommit, State.recordCommit, State.update,
        lookup_orInsert] at hkey'
      split at hkey'
      · rename_i hpath
        subst hpath
        cases hlookup : s.pendingDurability.lookup (layout.path key) with
        | none =>
          rw [State.published, hlookup] at hkey'
          cases hkey'
          rfl
        | some queued =>
          rw [State.published, hlookup] at hkey'
          cases hkey'
          exact hqueued _ _ hlookup
      · exact hqueued path key' hkey'
  | rewrite key bytes finalLen =>
    cases finalLen with
    | none => exact ⟨hfull, hqueued, hlengths⟩
    | some finalLen => exact ⟨recordCommit_full hfull key _, hqueued, hlengths⟩
  | openResource key => exact hopened key _
  | acquireResource key =>
    simp only [next]
    split
    · exact hopened key _
    · exact ⟨hfull, hqueued, hlengths⟩
  | write key first last =>
    simp only [next, State.recordWrite]
    split
    · exact ⟨hfull, hqueued, hlengths⟩
    · refine ⟨update_full hfull key fun a ha => ?_, hqueued, hlengths⟩
      rw [(insert_committed a first last).1, (insert_committed a first last).2, ha]
  | remove key =>
    refine ⟨fun key' a ha => ?_, hqueued, hlengths⟩
    change a ∈ (s.assets.erase key).lookup key' at ha
    by_cases hkey : key' = key
    · rw [hkey, AList.lookup_erase] at ha
      cases ha
    · rw [AList.lookup_erase_ne hkey] at ha
      exact hfull key' a ha
  | deleteAsset root =>
    refine ⟨fun key a ha => ?_, hqueued, hlengths⟩
    simp only [next, KeyedSums.lookup_keep] at ha
    split at ha
    · exact hfull key a ha
    · cases ha
  | flush durable queued barrier writes =>
    have hforced : Kept layout codec
        (barrierPendingFiles s (snapshotAggregate s) queued barrier).1 :=
      ⟨hfull, fun path key hkey => hqueued path key (barrier_pending s he path hkey), hlengths⟩
    simp only [next, flushWithDurability]
    split
    · rw [writeAggregate]
      split
      · refine ⟨hforced.full, hforced.queued, fun index hindex key r hr => ?_⟩
        have hsnapshot : index = snapshotAggregate s := by
          simp only [named, Option.bind_some, codec.decode_encode, Option.mem_some_iff] at hindex
          exact hindex.symm
        rw [hsnapshot] at hr
        obtain ⟨a, ha, hcommitted, rfl⟩ := mem_snapshot.mp hr
        exact (hfull key a ha).symm.trans hcommitted
      · exact hforced
    · exact hforced

theorem shrink_sound (h : Sound layout codec key s)
    (hfiles : ∀ file ∈ s'.files (layout.path key), file ∈ s.files (layout.path key))
    (hrecorded : ∀ finalLen, s'.Recorded key finalLen → s.Recorded key finalLen)
    (hpending : s'.pendingDurability.lookup (layout.path key) =
      s.pendingDurability.lookup (layout.path key))
    (hmanifest : s'.manifest = s.manifest)
    (hrewritten : layout.path key ∈ s.rewritten → layout.path key ∈ s'.rewritten) :
    Sound layout codec key s' := by
  refine ⟨fun len hlen file hfile => ?_, fun index hindex r hr file hfile => ?_⟩
  · rw [hpending]
    exact h.recorded len (hrecorded len hlen) file (hfiles file hfile)
  · rw [named, hmanifest] at hindex
    exact (h.whole index hindex r hr file (hfiles file hfile)).imp_left hrewritten

theorem rewritten_sound (hrewritten : layout.path key ∈ s.rewritten)
    (hqueued : ∀ finalLen, s.Recorded key finalLen →
      s.pendingDurability.lookup (layout.path key) = some key) : Sound layout codec key s :=
  ⟨fun len hlen _ _ => .inl (hqueued len hlen), fun _ _ _ _ _ _ => .inl hrewritten⟩

theorem opened_sound (h : Sound layout codec key s)
    (hopen : ∀ file ∈ s.files (layout.path key),
      file.synced = true ∨ s.pendingDurability.lookup (layout.path key) = some key) :
    Sound layout codec key (s.openStorageResource key (layout.path key)) := by
  rcases opened_eq s key (layout.path key) with hsame | ⟨file, hfile, hopened⟩
  · rw [hsame]
    exact h
  · rw [hopened]
    refine ⟨fun len hlen file' hfile' => ?_, h.whole⟩
    obtain ⟨a, ha, _, hlen⟩ := hlen
    rw [lookup_recordCommit, if_pos rfl] at ha
    cases ha
    cases hlen
    have hsame : file' = file := Option.some.inj (hfile'.symm.trans hfile)
    rw [hsame]
    exact (hopen file hfile).symm.imp_right fun hsynced => ⟨hsynced, rfl⟩

theorem opened_elsewhere (h : Sound layout codec key s) {key' : Key Root Rel} (path : Path)
    (hne : key' ≠ key) : Sound layout codec key (s.openStorageResource key' path) := by
  rcases opened_eq s key' path with hsame | ⟨file, hfile, hopened⟩
  · rw [hsame]
    exact h
  · rw [hopened]
    refine shrink_sound h (fun _ => id) (fun len hlen => ?_) rfl rfl id
    obtain ⟨a, ha, hrest⟩ := hlen
    rw [lookup_recordCommit, if_neg hne.symm] at ha
    exact ⟨a, ha, hrest⟩

theorem commit_sound (hown : Own layout key) (hkept : Kept layout codec s)
    (h : Sound layout codec key s) {key' : Key Root Rel} {bytes : List UInt8}
    {finalLen : Option ℕ} (hcare : Careful layout key s (.commit key' bytes finalLen)) :
    Sound layout codec key (next layout codec s (.commit key' bytes finalLen)) := by
  have hpending (len : ℕ) : (next layout codec s
      (.commit key' bytes (some len))).pendingDurability.lookup (layout.path key) =
        if layout.path key = layout.path key' then
          some ((s.pendingDurability.lookup (layout.path key')).getD key')
        else s.pendingDurability.lookup (layout.path key) := by
    simp only [next, State.recordFileCommit, State.recordCommit, State.update, lookup_orInsert,
      State.published]
  by_cases hkey : key' = key
  · subst hkey
    cases finalLen with
    | none =>
      refine rewritten_sound List.mem_cons_self fun len hlen => ?_
      obtain ⟨a, ha, hcommitted, _⟩ := hlen
      rw [hcare rfl a ha] at hcommitted
      cases hcommitted
    | some finalLen =>
      refine rewritten_sound List.mem_cons_self fun len hlen => ?_
      rw [hpending, if_pos rfl]
      cases hlookup : s.pendingDurability.lookup (layout.path key') with
      | none => rfl
      | some queued => exact congrArg some (hown queued (hkept.queued _ queued hlookup))
  · have hpath : layout.path key ≠ layout.path key' := fun heq => hkey (hown key' heq.symm)
    have hfiles : ∀ file ∈ (s.published (layout.path key') bytes).files (layout.path key),
        file ∈ s.files (layout.path key) := by
      intro file hfile
      simp only [State.published, Function.update_of_ne hpath] at hfile
      exact hfile
    cases finalLen with
    | none => exact shrink_sound h hfiles (fun _ => id) rfl rfl (List.mem_cons_of_mem _)
    | some finalLen =>
      refine shrink_sound h hfiles (fun len hlen => ?_) ?_ rfl (List.mem_cons_of_mem _)
      · obtain ⟨a, ha, hrest⟩ := hlen
        simp only [next, State.recordFileCommit, lookup_recordCommit, if_neg (Ne.symm hkey)] at ha
        exact ⟨a, ha, hrest⟩
      · rw [hpending, if_neg hpath]

theorem rewrite_sound (hown : Own layout key) (h : Sound layout codec key s)
    {key' : Key Root Rel} {bytes : List UInt8} {finalLen : Option ℕ}
    (hcare : Careful layout key s (.rewrite key' bytes finalLen)) :
    Sound layout codec key (next layout codec s (.rewrite key' bytes finalLen)) := by
  by_cases hkey : key' = key
  · obtain ⟨hlen, hqueued⟩ := hcare hkey
    obtain ⟨len, rfl⟩ := Option.isSome_iff_exists.mp hlen
    subst hkey
    exact rewritten_sound List.mem_cons_self fun _ _ => hqueued
  · have hpath : layout.path key ≠ layout.path key' := fun heq => hkey (hown key' heq.symm)
    have hfiles : ∀ file ∈ (s.published (layout.path key') bytes).files (layout.path key),
        file ∈ s.files (layout.path key) := by
      intro file hfile
      simp only [State.published, Function.update_of_ne hpath] at hfile
      exact hfile
    cases finalLen with
    | none => exact shrink_sound h hfiles (fun _ => id) rfl rfl (List.mem_cons_of_mem _)
    | some finalLen =>
      refine shrink_sound h hfiles (fun len hlen => ?_) rfl rfl (List.mem_cons_of_mem _)
      obtain ⟨a, ha, hrest⟩ := hlen
      simp only [next, lookup_recordCommit, if_neg (Ne.symm hkey)] at ha
      exact ⟨a, ha, hrest⟩

/-- Only what was committed, and so queued or forced, is taken for confirmed. -/
theorem acquire_sound (hown : Own layout key) (hkept : Kept layout codec s)
    (h : Sound layout codec key s) (key' : Key Root Rel) :
    Sound layout codec key (next layout codec s (.acquireResource key')) := by
  simp only [next]
  split
  · rename_i hconfirmed
    by_cases hkey : key' = key
    · subst hkey
      rw [State.isConfirmed, Bool.and_eq_true] at hconfirmed
      obtain ⟨len, hlen⟩ := Option.isSome_iff_exists.mp hconfirmed.1
      obtain ⟨a, ha, hlen⟩ := Option.bind_eq_some_iff.mp hlen
      have hrecorded : s.Recorded key' len := by
        refine ⟨a, ha, ?_, hlen⟩
        rw [hkept.full key' a ha, hlen, Option.isSome_some]
      refine opened_sound h fun file hfile => ?_
      exact (h.recorded len hrecorded file hfile).symm.imp_left fun hforced => hforced.1
    · exact opened_elsewhere h _ hkey
  · refine shrink_sound h (fun file hfile => ?_) (fun _ => id) rfl rfl id
    by_cases hpath : layout.path key = layout.path key'
    · simp only [hpath, Function.update_self] at hfile
      cases hfile
    · simp only [Function.update_of_ne hpath] at hfile
      exact hfile

theorem write_sound (h : Sound layout codec key s) (key' : Key Root Rel) (first last : ℕ) :
    Sound layout codec key (s.recordWrite key' first last) := by
  rw [State.recordWrite]
  split
  · exact h
  · refine shrink_sound h (fun _ => id) (fun len hlen => ?_) rfl rfl id
    obtain ⟨a, ha, hcommitted, hlen⟩ := hlen
    rw [lookup_update] at ha
    split at ha
    · rename_i heq
      cases ha
      rw [(insert_committed _ first last).1] at hcommitted
      rw [(insert_committed _ first last).2] at hlen
      rw [heq]
      cases hold : s.assets.lookup key' with
      | none =>
        rw [hold] at hcommitted
        cases hcommitted
      | some b =>
        rw [hold] at hcommitted hlen
        exact ⟨b, hold, hcommitted, hlen⟩
    · exact ⟨a, ha, hcommitted, hlen⟩

theorem remove_sound (h : Sound layout codec key s) (key' : Key Root Rel) :
    Sound layout codec key (next layout codec s (.remove key')) := by
  refine shrink_sound h (fun file hfile => ?_) (fun len hlen => ?_) rfl rfl id
  · by_cases hpath : layout.path key = layout.path key'
    · simp only [next, hpath, Function.update_self] at hfile
      cases hfile
    · simp only [next, Function.update_of_ne hpath] at hfile
      exact hfile
  · obtain ⟨a, ha, hrest⟩ := hlen
    change a ∈ (s.assets.erase key').lookup key at ha
    by_cases hkey : key = key'
    · rw [hkey, AList.lookup_erase] at ha
      cases ha
    · rw [AList.lookup_erase_ne hkey] at ha
      exact ⟨a, ha, hrest⟩

theorem deleteAsset_sound (h : Sound layout codec key s) (root : Root) :
    Sound layout codec key (next layout codec s (.deleteAsset root)) := by
  refine shrink_sound h (fun file hfile => ?_) (fun len hlen => ?_) rfl rfl id
  · simp only [next] at hfile
    split at hfile
    · cases hfile
    · exact hfile
  · obtain ⟨a, ha, hrest⟩ := hlen
    simp only [next, KeyedSums.lookup_keep] at ha
    split at ha
    · exact ⟨a, ha, hrest⟩
    · cases ha

theorem barrier_sound (h : Sound layout codec key s)
    (hperm : queued.Perm s.pendingDurability.entries) :
    Sound layout codec key (barrierPendingFiles s (snapshotAggregate s) queued barrier).1 := by
  have hforces := barrierFiles_forces (fun key => (s.assets.lookup key).isSome)
    (snapshotAggregate s) barrier queued s.files
  have hforced := barrierFiles_forced (fun key => (s.assets.lookup key).isSome)
    (snapshotAggregate s) barrier queued s.files
  refine ⟨fun len hrecorded file hfile => ?_, fun index hindex r hr file hfile => ?_⟩
  · obtain ⟨file', hfile', hbytes, hsynced⟩ := hforces.before hfile
    rcases h.recorded len hrecorded file' hfile' with hqueued | ⟨hold, hlen⟩
    · simp only [barrierPendingFiles]
      cases hok : (barrierFiles (fun key => (s.assets.lookup key).isSome) (snapshotAggregate s)
          barrier queued s.files).2 with
      | false =>
        left
        rw [if_neg Bool.false_ne_true, lookup_requeued hperm]
        exact hqueued
      | true =>
        right
        have hmem : (⟨layout.path key, key⟩ : Sigma fun _ : Path => Key Root Rel) ∈ queued :=
          hperm.mem_iff.mpr (AList.mem_lookup_iff.mp hqueued)
        obtain ⟨hsynced', hextent⟩ := hforced hok _ hmem file hfile
        obtain ⟨a, ha, hcommitted, hlen⟩ := hrecorded
        have hselected : (snapshotAggregate s).lookup key =
            some ⟨a.ranges.runs, a.finalLen, true⟩ := mem_snapshot.mpr ⟨a, ha, hcommitted, rfl⟩
        simp only [extentMatches, hselected, Option.all_some, Bool.and_eq_true,
          decide_eq_true_eq, hlen, Option.some_inj] at hextent
        exact ⟨hsynced', hextent.1.symm⟩
    · exact .inr ⟨hsynced hold, hbytes ▸ hlen⟩
  · obtain ⟨file', hfile', hbytes, hsynced⟩ := hforces.before hfile
    refine (h.whole index hindex r hr file' hfile').imp_right ?_
    rintro ⟨len, hlen, hold, hheld⟩
    exact ⟨len, hlen, hsynced hold, hbytes ▸ hheld⟩

theorem flush_sound {durable writes : Bool} (hkept : Kept layout codec s)
    (h : Sound layout codec key s) (hperm : queued.Perm s.pendingDurability.entries) :
    Sound layout codec key (flushWithDurability codec s durable queued barrier writes).1 := by
  have hbarrier : Sound layout codec key
      (barrierPendingFiles s (snapshotAggregate s) queued barrier).1 := barrier_sound h hperm
  simp only [flushWithDurability]
  split
  · rename_i hok
    rw [writeAggregate]
    split
    · refine ⟨hbarrier.recorded, fun index hindex r hr file hfile => .inr ?_⟩
      have hsnapshot : index = snapshotAggregate s := by
        simp only [named, Option.bind_some, codec.decode_encode, Option.mem_some_iff] at hindex
        exact hindex.symm
      rw [hsnapshot] at hr
      obtain ⟨a, ha, hcommitted, rfl⟩ := mem_snapshot.mp hr
      have hfull : a.finalLen.isSome = true := (hkept.full key a ha).symm.trans hcommitted
      obtain ⟨len, hlen⟩ := Option.isSome_iff_exists.mp hfull
      refine ⟨len, hlen, ?_⟩
      have hnone : (barrierPendingFiles s (snapshotAggregate s) queued
          barrier).1.pendingDurability.lookup (layout.path key) = none := by
        simp only [barrierPendingFiles] at hok ⊢
        rw [if_pos hok, AList.lookup_empty]
      rcases hbarrier.recorded len ⟨a, ha, hcommitted, hlen⟩ file hfile with hqueued | hforced
      · rw [hnone] at hqueued
        cases hqueued
      · exact hforced
    · exact hbarrier
  · exact hbarrier

theorem sound_step (hown : Own layout key) (s : State Root Rel Path Bytes)
    (a : Action Root Rel Path) (h : Kept layout codec s ∧ Sound layout codec key s)
    (he : Enabled s a) (hcare : Careful layout key s a) :
    Kept layout codec (next layout codec s a) ∧ Sound layout codec key (next layout codec s a) := by
  obtain ⟨hkept, hsound⟩ := h
  refine ⟨kept_step layout s a hkept he, ?_⟩
  cases a with
  | commit key' bytes finalLen => exact commit_sound hown hkept hsound hcare
  | rewrite key' bytes finalLen => exact rewrite_sound hown hsound hcare
  | openResource key' =>
    by_cases hkey : key' = key
    · subst hkey
      exact opened_sound hsound (hcare rfl)
    · exact opened_elsewhere hsound _ hkey
  | acquireResource key' => exact acquire_sound hown hkept hsound key'
  | write key' first last => exact write_sound hsound key' first last
  | remove key' => exact remove_sound hsound key'
  | deleteAsset root => exact deleteAsset_sound hsound root
  | flush durable queued barrier writes => exact flush_sound hkept hsound he

theorem start_kept : Kept layout codec (start : State Root Rel Path Bytes) := by
  refine ⟨fun key a ha => ?_, fun path key hkey => ?_, fun index hindex => ?_⟩
  · rw [start, AList.lookup_empty] at ha
    cases ha
  · rw [start, AList.lookup_empty] at hkey
    cases hkey
  · cases hindex

theorem start_sound : Sound layout codec key (start : State Root Rel Path Bytes) := by
  refine ⟨fun len _ file hfile => ?_, fun index hindex => ?_⟩
  · cases hfile
  · cases hindex

/-- A committed resource as a whole, without what a rewrite under way has written. -/
def committedEntry (a : Availability) : Option Availability :=
  if a.committed then a.finalLen.map fun len => ⟨some len, Availability.whole len, true⟩ else none

/-- What the manifest names of the resource is on the medium, unless it was rewritten since. -/
def Vouched (layout : Layout Root Rel Path) (codec : Codec (AvailabilityFile Root Rel) Bytes)
    (key : Key Root Rel) (s : State Root Rel Path Bytes) : Prop :=
  ∀ index ∈ named codec s, ∀ r ∈ index.lookup key, ∀ file ∈ s.files (layout.path key),
    layout.path key ∈ s.rewritten ∨ (file.synced = true ∧ r.finalLen = some file.bytes.length)

instance (layout : Layout Root Rel Path) (codec : Codec (AvailabilityFile Root Rel) Bytes)
    (key : Key Root Rel) (s : State Root Rel Path Bytes) : Decidable (Vouched layout codec key s) :=
  inferInstanceAs (Decidable (∀ index ∈ named codec s, ∀ r ∈ index.lookup key,
    ∀ file ∈ s.files (layout.path key), layout.path key ∈ s.rewritten ∨
      (file.synced = true ∧ r.finalLen = some file.bytes.length)))

/-- What a flush promises, and a new index reads back. -/
structure Obliged (layout : Layout Root Rel Path) (codec : Codec (AvailabilityFile Root Rel) Bytes)
    (s : State Root Rel Path Bytes) : Prop where
  /-- A flush that fails in the barrier. -/
  refused : ∀ durable queued barrier writes, Enabled s (.flush durable queued barrier writes) →
    (barrierPendingFiles s (snapshotAggregate s) queued barrier).2 = false →
      (next layout codec s (.flush durable queued barrier writes)).manifest = s.manifest ∧
        ∀ path, (next layout codec s
          (.flush durable queued barrier writes)).pendingDurability.lookup path =
            s.pendingDurability.lookup path
  /-- A flush that fails in the write. -/
  unwritten : ∀ durable queued barrier, Enabled s (.flush durable queued barrier false) →
    (barrierPendingFiles s (snapshotAggregate s) queued barrier).2 = true →
      (next layout codec s (.flush durable queued barrier false)).manifest = s.manifest ∧
        ∀ path, (s.pendingDurability.lookup path).isSome → ∀ file ∈
          (next layout codec s (.flush durable queued barrier false)).files path,
            file.synced = true
  /-- A flush that succeeds, read back. -/
  written : ∀ durable queued barrier, Enabled s (.flush durable queued barrier true) →
    (barrierPendingFiles s (snapshotAggregate s) queued barrier).2 = true → ∀ key,
      (loadFrom codec (next layout codec s (.flush durable queued barrier true)).manifest).lookup
        key = (s.assets.lookup key).bind committedEntry
  hydrated : ∀ key, ∀ a ∈ (loadFrom codec s.manifest).lookup key, committedEntry a = some a

theorem hydrateEntry_whole {r : ResourceAvailabilityFile} {len : ℕ} (h : r.finalLen = some len) :
    hydrateEntry r = ⟨some len, Availability.whole len, true⟩ := by
  simp only [hydrateEntry, h, markCommitted_fst]

omit [DecidableEq Path] in
theorem loadFrom_named {index : AvailabilityFile Root Rel} (h : named codec s = some index)
    (key : Key Root Rel) :
    (loadFrom codec s.manifest).lookup key = (index.lookup key).map hydrateEntry := by
  rw [named] at h
  rw [loadFrom, h]
  simp only [lookup_mapValues]
  cases index.lookup key <;> rfl

theorem sound_vouched (h : Sound layout codec key s) : Vouched layout codec key s := by
  intro index hindex r hr file hfile
  refine (h.whole index hindex r hr file hfile).imp_right ?_
  rintro ⟨len, hlen, hsynced, rfl⟩
  exact ⟨hsynced, hlen⟩

theorem kept_obliged (h : Kept layout codec s) : Obliged layout codec s := by
  refine ⟨fun durable queued barrier writes he hno => ?_, fun durable queued barrier he hok => ?_,
    fun durable queued barrier he hok key => ?_, fun key a ha => ?_⟩
  · simp only [next, flushWithDurability, hno]
    refine ⟨rfl, fun path => ?_⟩
    simp only [barrierPendingFiles] at hno
    simp only [barrierPendingFiles, hno]
    exact lookup_requeued he path
  · simp only [next, flushWithDurability, hok, if_true, writeAggregate]
    refine ⟨rfl, fun path hqueued file hfile => ?_⟩
    obtain ⟨key, hkey⟩ := Option.isSome_iff_exists.mp hqueued
    have hmem : (⟨path, key⟩ : Sigma fun _ : Path => Key Root Rel) ∈ queued :=
      he.mem_iff.mpr (AList.mem_lookup_iff.mp hkey)
    exact (barrierFiles_forced _ _ _ _ s.files hok _ hmem file hfile).1
  · have hnamed : named codec (next layout codec s (.flush durable queued barrier true)) =
        some (snapshotAggregate s) := by
      simp only [named, next, flushWithDurability, hok, if_true, writeAggregate, Option.bind_some,
        codec.decode_encode]
    rw [loadFrom_named hnamed, snapshotAggregate, lookup_mapValues]
    cases hlookup : s.assets.lookup key with
    | none => rfl
    | some a =>
      simp only [Option.bind_some, record, committedEntry]
      cases hcommitted : a.committed with
      | false => rfl
      | true =>
        have hfull : a.finalLen.isSome = true := (h.full key a hlookup).symm.trans hcommitted
        obtain ⟨len, hlen⟩ := Option.isSome_iff_exists.mp hfull
        simp only [if_true, Option.map_some, hlen]
        rw [hydrateEntry_whole rfl]
  · cases hnamed : named codec s with
    | none =>
      rw [named] at hnamed
      rw [loadFrom, hnamed] at ha
      rw [AList.lookup_empty] at ha
      cases ha
    | some index =>
      rw [loadFrom_named hnamed] at ha
      obtain ⟨r, hr, rfl⟩ := Option.mem_map.mp ha
      obtain ⟨len, hlen⟩ := Option.isSome_iff_exists.mp (h.lengths index hnamed key r hr)
      rw [hydrateEntry_whole hlen]
      rfl

/-- In every run a flush keeps its promises; and in every run that is careful with a resource that
has a file of its own, the manifest vouches for what is on the medium. -/
theorem manifest_vouches (as : List (Action Root Rel Path))
    (hvalid : (machine layout codec).ValidTrace start as) :
    (machine layout codec).Throughout (Obliged layout codec) start as ∧
    ∀ key, Own layout key → (machine layout codec).Along (Careful layout key) start as →
      (machine layout codec).Throughout (Vouched layout codec key) start as := by
  refine ⟨?_, fun key hown hcare => ?_⟩
  · have hkept := throughout_of_along (fun s a h he _ => kept_step layout s a h he) start_kept
      hvalid (along_trivial _ _)
    exact throughout_imp (fun _ h => kept_obliged h) hkept
  · have hsound := throughout_of_along (sound_step hown) ⟨start_kept, start_sound⟩ hvalid hcare
    exact throughout_imp (fun _ h => sound_vouched h.2) hsound

def listing : Codec (AvailabilityFile (List ℕ) (List ℕ))
    (List (Sigma fun _ : Key (List ℕ) (List ℕ) => ResourceAvailabilityFile)) where
  encode index := index.entries
  decode bytes := if h : bytes.keys.Nodup then some ⟨bytes, h⟩ else none
  decode_encode index := dif_pos index.keys_nodup

def own : Layout (List ℕ) (List ℕ) (List ℕ × List ℕ) where
  path := id
  under root path := path.1 = root
  path_under _ := decide_eq_true rfl

def fine (_ : List ℕ × List ℕ) : Barrier := .forced

/-- Two resources are committed and named, one of them after its barrier and then its write fails,
and is written anew; a third is only begun, and a fourth opened before anything forced it. -/
def checkpoints : List (Action (List ℕ) (List ℕ) (List ℕ × List ℕ)) :=
  [.commit ([0], [1]) [7] (some 1), .flush true [⟨([0], [1]), ([0], [1])⟩] fine true,
    .commit ([0], [2]) [7, 8] (some 2), .rewrite ([0], [2]) [7, 9] (some 2),
    .commit ([0], [4]) [7] none, .openResource ([0], [4]), .openResource ([0], [1]),
    .flush false [⟨([0], [2]), ([0], [2])⟩] (fun _ => .refused) true,
    .flush false [⟨([0], [2]), ([0], [2])⟩] fine false,
    .write ([0], [3]) 0 5, .write ([0], [2]) 2 6, .acquireResource ([0], [2]),
    .flush true [] fine true, .commit ([0], [2]) [7, 8, 9] (some 3), .remove ([0], [1])]

theorem checkpoints_vouched :
    (machine own listing).Throughout (Obliged own listing) start checkpoints ∧
    (machine own listing).Throughout (Vouched own listing ([0], [1])) start checkpoints ∧
    (machine own listing).Throughout (Vouched own listing ([0], [2])) start checkpoints := by
  obtain ⟨hobliged, hvouched⟩ := manifest_vouches checkpoints
    (by decide : (machine own listing).ValidTrace start checkpoints)
  exact ⟨hobliged, hvouched ([0], [1]) (fun _ => id) (by decide),
    hvouched ([0], [2]) (fun _ => id) (by decide)⟩

/-- A resource's file lies under the segments of its root and of its own path. -/
def joined : Layout (List ℕ) (List ℕ) (List ℕ) where
  path key := key.1 ++ key.2
  under root path := root.isPrefixOf path
  path_under key := by simp

def unwrittenFlush : List (Action (List ℕ) (List ℕ) (List ℕ × List ℕ)) :=
  [.commit ([0], [1]) [7] (some 1), .flush true [⟨([0], [1]), ([0], [1])⟩] fine false]

def silentRewrite : List (Action (List ℕ) (List ℕ) (List ℕ × List ℕ)) :=
  [.commit ([0], [1]) [7] (some 1), .flush true [⟨([0], [1]), ([0], [1])⟩] fine true,
    .commit ([0], [1]) [7, 8] none, .flush true [] fine true]

def openedLeftover : List (Action (List ℕ) (List ℕ) (List ℕ × List ℕ)) :=
  [.commit ([0], [1]) [7] none, .openResource ([0], [1]), .flush true [] fine true]

def openedRewrite : List (Action (List ℕ) (List ℕ) (List ℕ × List ℕ)) :=
  [.commit ([0], [1]) [7] (some 1), .flush true [⟨([0], [1]), ([0], [1])⟩] fine true,
    .openResource ([0], [1]), .rewrite ([0], [1]) [7, 8] (some 2), .flush true [] fine true]

def sharedFile : List (Action (List ℕ) (List ℕ) (List ℕ)) :=
  [.commit ([0], [1, 2]) [7] (some 1), .flush true [⟨[0, 1, 2], ([0], [1, 2])⟩] (fun _ => .forced)
      true,
    .commit ([0, 1], [2]) [7, 8] (some 2),
    .flush true [⟨[0, 1, 2], ([0, 1], [2])⟩] (fun _ => .forced) true]

/-- A write that fails leaves nothing queued. After a rewrite that does not give its length, and
after one through another resource of the same file, a flush names the old length; after a file that
was not forced is opened, and after one is rewritten through its opened file, a flush names bytes
that were not forced. -/
theorem manifest_outrun :
    ((machine own listing).ValidTrace start unwrittenFlush ∧
      ((machine own listing).runTrace start (unwrittenFlush.take 1)).pendingDurability.lookup
        ([0], [1]) = some ([0], [1]) ∧
      ((machine own listing).runTrace start unwrittenFlush).pendingDurability.lookup
        ([0], [1]) = none ∧
      ((machine own listing).runTrace start unwrittenFlush).manifest.isNone) ∧
    (∀ as ∈ [silentRewrite, openedLeftover, openedRewrite],
      (machine own listing).ValidTrace start as ∧
      ¬ Vouched own listing ([0], [1]) ((machine own listing).runTrace start as)) ∧
    (machine joined listing).ValidTrace start sharedFile ∧
      ¬ Vouched joined listing ([0], [1, 2])
        ((machine joined listing).runTrace start sharedFile) := by
  decide

end AvailabilityManifest
