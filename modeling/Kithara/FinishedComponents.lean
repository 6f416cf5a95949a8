import Kithara.ComponentPieces

/-! Finishing an encoded name: each rewrite keeps what the text is read as, the result is a
component any of the file systems takes, and only the truncated ones rest on the fingerprint. -/
namespace CachePaths

open PrefixCodes

/-- The rewrites of a finished component, before its length is bounded. -/
def rewritten (encoded : Bytes) : Bytes :=
  escapeDeviceName (escapeTempSuffix (escapeTrailingDots encoded))

theorem finishComponent_eq (encoded fingerprint : Bytes) :
    finishComponent encoded fingerprint = boundLength (rewritten encoded) fingerprint := by
  rw [finishComponent]
  split
  · rename_i h
    subst h
    rfl
  · rfl

theorem toLowercase_eq {b c : UInt8} (hc : isLowercase c = false) (h : toLowercase b = c) :
    b = c := by
  rw [toLowercase] at h
  cases hup : isUppercase b with
  | false => simpa [hup] using h
  | true =>
    rw [hup, if_pos rfl] at h
    simp only [isUppercase, Bool.and_eq_true, decide_eq_true_eq] at hup
    simp only [isLowercase, Bool.and_eq_false_iff, decide_eq_false_iff_not] at hc
    grind

theorem dots_cut (encoded : Bytes) : ∃ body k, encoded = body ++ List.replicate k dot ∧
    body.getLast? ≠ some dot ∧
    escapeTrailingDots encoded = body ++ (List.replicate k escapedDot).flatten := by
  have hsplit := List.takeWhile_append_dropWhile (p := (· == dot)) (l := encoded.reverse)
  have hdots : encoded.reverse.takeWhile (· == dot) =
      List.replicate (encoded.reverse.takeWhile (· == dot)).length dot := by
    refine List.eq_replicate_of_mem fun b hb => ?_
    simpa using List.mem_takeWhile_imp hb
  set k := (encoded.reverse.takeWhile (· == dot)).length with hk
  have hwhole : encoded = (encoded.reverse.dropWhile (· == dot)).reverse ++
      List.replicate k dot := by
    have hrev := congrArg List.reverse hsplit
    rw [List.reverse_append, List.reverse_reverse, hdots, List.reverse_replicate] at hrev
    exact hrev.symm
  refine ⟨_, k, hwhole, ?_, ?_⟩
  · rw [List.getLast?_reverse]
    intro hhead
    have hfirst := List.head?_dropWhile_not (· == dot) encoded.reverse
    rw [hhead] at hfirst
    exact absurd hfirst (by decide)
  · have hlength := congrArg List.length hwhole
    rw [List.length_append, List.length_replicate] at hlength
    have hkept : encoded.length - k = (encoded.reverse.dropWhile (· == dot)).reverse.length := by
      omega
    rw [escapeTrailingDots, ← hk, hkept]
    exact congrArg (· ++ _) ((congrArg (List.take _) hwhole).trans List.take_left)

theorem temp_cut {encoded : Bytes} : hasTempSuffix encoded = true ↔
    ∃ body rest, encoded = body ++ dot :: rest ∧ lowercase rest = ascii ['t', 'm', 'p'] := by
  rw [hasTempSuffix, eqIgnoreCase, beq_iff_eq]
  constructor
  · intro h
    cases hdrop : encoded.drop (encoded.length - 4) with
    | nil =>
      rw [hdrop] at h
      cases h
    | cons b rest =>
      rw [hdrop] at h
      obtain ⟨hb, hrest⟩ := List.cons.inj h
      have hdot : b = dot := toLowercase_eq (by decide) hb
      subst hdot
      refine ⟨encoded.take (encoded.length - 4), rest, ?_, hrest⟩
      rw [← hdrop, List.take_append_drop]
  · rintro ⟨body, rest, rfl, hrest⟩
    have hlength : rest.length = 3 := by simpa [lowercase, ascii] using congrArg List.length hrest
    have hdrop : (body ++ dot :: rest).drop ((body ++ dot :: rest).length - 4) = dot :: rest := by
      simp [hlength]
    rw [hdrop]
    exact congrArg (toLowercase dot :: ·) hrest

theorem temp_escaped {body rest : Bytes} (h : lowercase rest = ascii ['t', 'm', 'p']) :
    escapeTempSuffix (body ++ dot :: rest) = body ++ escapedDot ++ rest := by
  have hlength : rest.length = 3 := by simpa [lowercase, ascii] using congrArg List.length h
  have hdrop : (body ++ dot :: rest).drop ((body ++ dot :: rest).length - 3) = rest := by
    simp [hlength, List.drop_append]
  rw [escapeTempSuffix, if_pos (temp_cut.mpr ⟨body, rest, rfl, h⟩), hdrop]
  simp [hlength]

abbrev dotPiece : Piece := .plain ⟨dot, by decide⟩

theorem write_dots (k : ℕ) : write (List.replicate k dotPiece) = List.replicate k dot := by
  induction k with
  | zero => rfl
  | succ k ih => rw [List.replicate_succ, write_cons, ih]; rfl

theorem write_escapedDots (k : ℕ) :
    write (List.replicate k (.escaped dot)) = (List.replicate k escapedDot).flatten := by
  induction k with
  | zero => rfl
  | succ k ih => rw [List.replicate_succ, write_cons, ih]; rfl

theorem reading_dots (k : ℕ) :
    reading (List.replicate k (.escaped dot)) = reading (List.replicate k dotPiece) := by
  induction k with
  | zero => rfl
  | succ k ih => rw [List.replicate_succ, List.replicate_succ, reading_cons, reading_cons, ih]; rfl

theorem write_cut_dots {ps : List Piece} {body : Bytes} {k : ℕ}
    (h : write ps = body ++ List.replicate k dot) :
    ∃ before, ps = before ++ List.replicate k dotPiece ∧ write before = body := by
  cases k with
  | zero => exact ⟨ps, (List.append_nil ps).symm, by simpa using h⟩
  | succ k =>
    obtain ⟨before, after, rfl, hbefore, hafter⟩ := write_cut_dot h
    obtain rfl := write_injective (hafter.trans (write_dots k).symm)
    exact ⟨before, rfl, hbefore⟩

theorem trailingDots_reading (ps : List Piece) :
    ∃ qs, escapeTrailingDots (write ps) = write qs ∧ reading qs = reading ps := by
  obtain ⟨body, k, hwhole, -, hescaped⟩ := dots_cut (write ps)
  obtain ⟨before, rfl, rfl⟩ := write_cut_dots hwhole
  refine ⟨before ++ List.replicate k (.escaped dot), ?_, ?_⟩
  · rw [hescaped, write_append, write_escapedDots]
  · rw [reading_append, reading_append, reading_dots]

theorem tempSuffix_reading (ps : List Piece) :
    ∃ qs, escapeTempSuffix (write ps) = write qs ∧ reading qs = reading ps := by
  cases htemp : hasTempSuffix (write ps) with
  | false => exact ⟨ps, by simp [escapeTempSuffix, htemp], rfl⟩
  | true =>
    obtain ⟨body, rest, hwhole, hrest⟩ := temp_cut.mp htemp
    obtain ⟨before, after, rfl, rfl, rfl⟩ := write_cut_dot hwhole
    refine ⟨before ++ .escaped dot :: after, ?_, ?_⟩
    · rw [hwhole, temp_escaped hrest, write_append, write_cons, List.append_assoc]
      rfl
    · rw [reading_append, reading_append, reading_cons, reading_cons]
      rfl

theorem deviceName_reading (ps : List Piece) :
    ∃ qs, escapeDeviceName (write ps) = write qs ∧ reading qs = reading ps := by
  rw [escapeDeviceName]
  split
  · exact ⟨.marked .device :: ps, rfl, rfl⟩
  · exact ⟨ps, rfl, rfl⟩

theorem rewritten_reading (ps : List Piece) :
    ∃ qs, rewritten (write ps) = write qs ∧ reading qs = reading ps := by
  obtain ⟨dotted, hdots, hread⟩ := trailingDots_reading ps
  obtain ⟨temp, htemp, hread'⟩ := tempSuffix_reading dotted
  obtain ⟨qs, hdevice, hread''⟩ := deviceName_reading temp
  refine ⟨qs, ?_, hread''.trans (hread'.trans hread)⟩
  rw [rewritten, hdots, htemp, hdevice]

theorem hexText_length (digest : Digest) : (hexText digest).length = 32 := by
  have hbytes (l : Bytes) : (l.flatMap hexByte).length = 2 * l.length := by
    induction l with
    | nil => rfl
    | cons b l ih =>
      rw [List.flatMap_cons, List.length_append, ih, List.length_cons]
      simp only [hexByte, List.length_cons, List.length_nil]
      omega
  rw [hexText, hbytes, Vector.length_toList]
  rfl

/-- A component is left as it is, or cut to the bound, with the fingerprint at its end. -/
theorem bound_cases (encoded : Bytes) (digest : Digest) :
    (encoded.length ≤ maxComponentLen ∧ boundLength encoded (hexText digest) = encoded) ∨
      maxComponentLen < encoded.length ∧ boundLength encoded (hexText digest) =
        encoded.take 62 ++ tilde :: Mark.hashed.letter :: hexText digest := by
  rw [boundLength]
  split
  · rename_i h
    exact .inl ⟨h, rfl⟩
  · rename_i h
    refine .inr ⟨Nat.lt_of_not_le h, ?_⟩
    have hkept : maxComponentLen - (ascii ['~', 'h'] ++ hexText digest).length = 62 := by
      rw [List.length_append, hexText_length]
      rfl
    simp only [hkept]
    rfl

theorem bounded_length {encoded : Bytes} (h : maxComponentLen < encoded.length) (digest : Digest) :
    (encoded.take 62 ++ tilde :: Mark.hashed.letter :: hexText digest).length =
      maxComponentLen := by
  simp only [maxComponentLen] at h ⊢
  simp only [List.length_append, List.length_take, List.length_cons, hexText_length]
  omega

/-- What a component of a name is: the name rewritten, or a text the fingerprint ends. -/
theorem finish_cases (ps : List Piece) (digest : Digest) :
    (∃ qs, reading qs = reading ps ∧ finishComponent (write ps) (hexText digest) = write qs) ∨
      ∃ kept, finishComponent (write ps) (hexText digest) =
        kept ++ tilde :: Mark.hashed.letter :: hexText digest ∧ kept.length = 62 := by
  obtain ⟨qs, hrewritten, hread⟩ := rewritten_reading ps
  rw [finishComponent_eq, hrewritten]
  rcases bound_cases (write qs) digest with ⟨-, h⟩ | ⟨hlong, h⟩
  · exact .inl ⟨qs, hread, h⟩
  · refine .inr ⟨(write qs).take 62, h, ?_⟩
    simp only [maxComponentLen] at hlong
    rw [List.length_take]
    omega

theorem mark_of_reading {ps qs : List Piece} {m : Mark} {s t : Bytes} (hm : m ≠ .device)
    (hread : reading qs = reading ps) (h : write qs = s ++ tilde :: m.letter :: t) :
    .inr m ∈ reading ps := by
  rw [← hread]
  exact mark_read hm (write_cut_mark h)

/-- Two components of one text come from one reading, or from one fingerprint. -/
theorem finish_injective {ps qs : List Piece} {d e : Digest} (hps : .inr .hashed ∉ reading ps)
    (hqs : .inr .hashed ∉ reading qs)
    (h : finishComponent (write ps) (hexText d) = finishComponent (write qs) (hexText e)) :
    reading ps = reading qs ∨ hexText d = hexText e := by
  rcases finish_cases ps d with ⟨ps', hread, hps'⟩ | ⟨kept, hcut, hkept⟩ <;>
    rcases finish_cases qs e with ⟨qs', hread', hqs'⟩ | ⟨kept', hcut', hkept'⟩
  · rw [hps', hqs'] at h
    obtain rfl := write_injective h
    exact .inl (hread.symm.trans hread')
  · rw [hps', hcut'] at h
    exact absurd (mark_of_reading (m := .hashed) (by decide) hread h) hps
  · rw [hcut, hqs'] at h
    exact absurd (mark_of_reading (m := .hashed) (by decide) hread' h.symm) hqs
  · rw [hcut, hcut'] at h
    obtain ⟨-, hend⟩ := List.append_inj h (hkept.trans hkept'.symm)
    exact .inr (List.cons.inj (List.cons.inj hend).2).2

end CachePaths
