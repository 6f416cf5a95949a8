import Kithara.FinishedComponents

/-! A finished component is one that every file system takes as it is: a short word over lower-case
letters, digits and four signs, with no ending and no stem that means something else somewhere. -/
namespace CachePaths

def isSafe (b : UInt8) : Bool := isPlain b || b == tilde

structure Portable (component : Bytes) : Prop where
  nonempty : component ≠ []
  bounded : component.length ≤ maxComponentLen
  safe : ∀ b ∈ component, isSafe b = true
  undotted : component.getLast? ≠ some dot
  permanent : hasTempSuffix component = false
  undeviced : isWindowsDeviceName component = false

theorem safe_bounds {b : UInt8} (h : isSafe b = true) :
    b < 128 ∧ 31 < b ∧ isUppercase b = false := by
  simp only [isSafe, isPlain, isLowercase, isDigit, Bool.or_eq_true, Bool.and_eq_true,
    decide_eq_true_eq, beq_iff_eq] at h
  simp only [isUppercase, Bool.and_eq_false_iff, decide_eq_false_iff_not]
  grind

theorem not_safe {b c : UInt8} (h : isSafe b = true) (hc : isSafe c = false) : b ≠ c := by
  rintro rfl
  rw [h] at hc
  cases hc

theorem not_forbidden {b : UInt8} (h : b ∈ forbidden) : isSafe b = false := by
  have hall : forbidden.all (fun b => !isSafe b) = true := by decide
  simpa using List.all_eq_true.mp hall b h

theorem lowercase_safe {text : Bytes} (h : ∀ b ∈ text, isSafe b = true) :
    lowercase text = text := by
  refine (List.map_congr_left fun b hb => ?_).trans (List.map_id text)
  rw [toLowercase, (safe_bounds (h b hb)).2.2]
  rfl

theorem Portable.valid {component : Bytes} (h : Portable component) :
    validatePathComponent component = .ok () := by
  have hlast : component.getLast? ≠ some 32 := fun hlast =>
    not_safe (h.safe _ (List.mem_of_getLast? hlast)) (by decide) rfl
  have hascii : component.all (· < 128) = true :=
    List.all_eq_true.mpr fun b hb => decide_eq_true (safe_bounds (h.safe b hb)).1
  have hallowed : component.any (fun b => b ≤ 31 || b == 127 || forbidden.contains b) = false := by
    refine List.any_eq_false.mpr fun b hb => ?_
    have hsafe := h.safe b hb
    have hlow : ¬ b ≤ 31 := UInt8.not_le.mpr (safe_bounds hsafe).2.1
    have hdelete : b ≠ 127 := not_safe hsafe (by decide)
    have hforbidden : b ∉ forbidden := fun hmem => not_safe hsafe (not_forbidden hmem) rfl
    simp [hlow, hdelete, hforbidden]
  have hcomponent : validateComponent component = .ok () := by
    rw [validateComponent, if_neg]
    rintro (hnil | rfl | rfl | hlong | hnonascii | hdot | hspace | hbyte | hdevice)
    · exact h.nonempty hnil
    · exact h.undotted rfl
    · exact h.undotted rfl
    · exact absurd h.bounded (Nat.not_le_of_lt hlong)
    · exact hnonascii hascii
    · exact h.undotted hdot
    · exact hlast hspace
    · rw [hallowed] at hbyte
      cases hbyte
    · rw [h.undeviced] at hdevice
      cases hdevice
  rw [validatePathComponent, hcomponent, h.permanent]
  rfl

theorem isSafe_of_isPlain {b : UInt8} (h : isPlain b = true) : isSafe b = true := by
  rw [isSafe, h]
  rfl

theorem safe_of_isLowerHex {b : UInt8} (h : isLowerHex b = true) : isSafe b = true :=
  isSafe_of_isPlain (isPlain_of_isLowerHex h)

theorem letter_safe (m : Mark) : isSafe m.letter = true := by cases m <;> decide

theorem text_safe (p : Piece) : ∀ b ∈ p.text, isSafe b = true := by
  have htilde : isSafe tilde = true := by decide
  have hletter : isSafe 112 = true := by decide
  have hdigit (n : Fin 16) : isSafe (hexDigit n) = true :=
    safe_of_isLowerHex (hexDigit_isLowerHex n)
  cases p with
  | plain b => simpa [Piece.text] using isSafe_of_isPlain b.2
  | escaped b => simp [Piece.text, pushByteEscape, hexByte, htilde, hdigit]
  | triplet x y =>
    simp [Piece.text, htilde, hletter, safe_of_isLowerHex x.2, safe_of_isLowerHex y.2]
  | marked m => simp [Piece.text, htilde, letter_safe]

theorem write_safe (ps : List Piece) : ∀ b ∈ write ps, isSafe b = true := by
  intro b hb
  obtain ⟨p, -, hp⟩ := List.mem_flatMap.mp hb
  exact text_safe p b hp

theorem hexText_isLowerHex (digest : Digest) : ∀ b ∈ hexText digest, isLowerHex b = true := by
  intro b hb
  obtain ⟨byte, -, hbyte⟩ := List.mem_flatMap.mp hb
  simp only [hexByte, List.mem_cons, List.not_mem_nil, or_false] at hbyte
  rcases hbyte with rfl | rfl <;> exact hexDigit_isLowerHex _

theorem escapedDot_safe : ∀ b ∈ escapedDot, isSafe b = true := List.all_eq_true.mp (by decide)

theorem trailingDots_safe {text : Bytes} (h : ∀ b ∈ text, isSafe b = true) :
    ∀ b ∈ escapeTrailingDots text, isSafe b = true := by
  intro b hb
  rcases List.mem_append.mp hb with hkept | hescaped
  · exact h b (List.mem_of_mem_take hkept)
  · obtain ⟨l, hl, hbl⟩ := List.mem_flatten.mp hescaped
    rw [List.eq_of_mem_replicate hl] at hbl
    exact escapedDot_safe b hbl

theorem tempSuffix_safe {text : Bytes} (h : ∀ b ∈ text, isSafe b = true) :
    ∀ b ∈ escapeTempSuffix text, isSafe b = true := by
  intro b hb
  rw [escapeTempSuffix] at hb
  split at hb
  · rcases List.mem_append.mp hb with hb | hrest
    · rcases List.mem_append.mp hb with hkept | hescaped
      · exact h b (List.mem_of_mem_take hkept)
      · exact escapedDot_safe b hescaped
    · exact h b (List.mem_of_mem_drop hrest)
  · exact h b hb

theorem deviceName_safe {text : Bytes} (h : ∀ b ∈ text, isSafe b = true) :
    ∀ b ∈ escapeDeviceName text, isSafe b = true := by
  intro b hb
  rw [escapeDeviceName] at hb
  split at hb
  · rcases List.mem_append.mp hb with hmark | hb
    · exact List.all_eq_true.mp (by decide) b hmark
    · exact h b hb
  · exact h b hb

theorem rewritten_safe {text : Bytes} (h : ∀ b ∈ text, isSafe b = true) :
    ∀ b ∈ rewritten text, isSafe b = true :=
  deviceName_safe (tempSuffix_safe (trailingDots_safe h))

theorem trailingDots_undotted (text : Bytes) : (escapeTrailingDots text).getLast? ≠ some dot := by
  obtain ⟨body, k, -, hbody, hescaped⟩ := dots_cut text
  rw [hescaped]
  cases k with
  | zero => simpa using hbody
  | succ k =>
    have hflat : (List.replicate (k + 1) escapedDot).flatten =
        (List.replicate k escapedDot).flatten ++ escapedDot := by
      rw [List.replicate_succ']
      simp
    rw [hflat, ← List.append_assoc, List.getLast?_append_of_ne_nil _ (by decide)]
    decide

/-- What a text that ends as a temporary file ends with. -/
theorem lowercase_last {rest : Bytes} (h : lowercase rest = ascii ['t', 'm', 'p']) :
    rest.length = 3 ∧ ∀ b, rest.getLast? = some b → isLowerHex b = false ∧ b ≠ dot := by
  refine ⟨by simpa [lowercase, ascii] using congrArg List.length h, fun b hb => ?_⟩
  have hlast : (lowercase rest).getLast? = some (toLowercase b) := by
    rw [lowercase, List.getLast?_map, hb]
    rfl
  have hp : toLowercase b = 112 := by
    rw [h] at hlast
    exact (Option.some.inj hlast).symm
  constructor
  · cases hhex : isLowerHex b with
    | false => rfl
    | true =>
      have hsafe := safe_bounds (safe_of_isLowerHex hhex)
      rw [toLowercase, hsafe.2.2] at hp
      have hb : b = 112 := hp
      subst hb
      exact absurd hhex (by decide)
  · rintro rfl
    exact absurd hp (by decide)

theorem getLast?_temp {body rest : Bytes} (h : rest.length = 3) :
    (body ++ rest).getLast? = rest.getLast? :=
  List.getLast?_append_of_ne_nil _ (by rintro rfl; cases h)

theorem not_temp_of_last {text : Bytes} {b : UInt8} (hlast : text.getLast? = some b)
    (hb : isLowerHex b = true) : hasTempSuffix text = false := by
  refine Bool.eq_false_iff.mpr fun htemp => ?_
  obtain ⟨body, rest, rfl, hrest⟩ := temp_cut.mp htemp
  obtain ⟨hlength, hend⟩ := lowercase_last hrest
  have hsame : (body ++ dot :: rest).getLast? = rest.getLast? := by
    rw [← List.singleton_append, ← List.append_assoc]
    exact getLast?_temp hlength
  rw [hsame] at hlast
  rw [(hend b hlast).1] at hb
  cases hb

theorem tempSuffix_endings {text : Bytes} (h : text.getLast? ≠ some dot) :
    (escapeTempSuffix text).getLast? ≠ some dot ∧
      hasTempSuffix (escapeTempSuffix text) = false := by
  cases htemp : hasTempSuffix text with
  | false =>
    rw [escapeTempSuffix, htemp]
    exact ⟨h, htemp⟩
  | true =>
    obtain ⟨body, rest, rfl, hrest⟩ := temp_cut.mp htemp
    obtain ⟨hlength, hend⟩ := lowercase_last hrest
    rw [temp_escaped hrest]
    constructor
    · rw [getLast?_temp hlength]
      exact fun hdot => (hend dot hdot).2 rfl
    · refine Bool.eq_false_iff.mpr fun htemp' => ?_
      obtain ⟨body', rest', heq, hrest'⟩ := temp_cut.mp htemp'
      have hcut : (body ++ [tilde, 50]) ++ (101 :: rest) = body' ++ dot :: rest' := by
        rw [← heq]
        simp [escapedDot, ascii]
      have htail := (List.append_inj' hcut (by simp [hlength, (lowercase_last hrest').1])).2
      exact absurd (List.cons.inj htail).1 (by decide)

theorem deviceName_endings {text : Bytes} (hne : text ≠ []) (hdot : text.getLast? ≠ some dot)
    (htemp : hasTempSuffix text = false) :
    (escapeDeviceName text).getLast? ≠ some dot ∧
      hasTempSuffix (escapeDeviceName text) = false := by
  rw [escapeDeviceName]
  split
  · constructor
    · rwa [List.getLast?_append_of_ne_nil _ hne]
    · refine Bool.eq_false_iff.mpr fun htemp' => ?_
      obtain ⟨body, rest, heq, hrest⟩ := temp_cut.mp htemp'
      have hhead : tilde :: 114 :: text = body ++ dot :: rest := heq
      rcases List.cons_eq_append_iff.mp hhead with ⟨-, hbad⟩ | ⟨cut, -, hletter⟩
      · exact absurd (List.cons.inj hbad).1 (by decide)
      rcases List.cons_eq_append_iff.mp hletter with ⟨-, hbad⟩ | ⟨cut', -, htext⟩
      · exact absurd (List.cons.inj hbad).1 (by decide)
      rw [temp_cut.mpr ⟨cut', rest, htext, hrest⟩] at htemp
      cases htemp
  · exact ⟨hdot, htemp⟩

theorem isReserved_bounds {stem : Bytes} (h : isReserved stem = true) :
    stem.length ≤ 7 ∧ stem.head? ≠ some tilde := by
  have hnames : ∀ name ∈ reservedNames, name.length ≤ 7 ∧ (lowercase name).head? ≠ some tilde := by
    decide
  have hhead {a b : Bytes} (hab : lowercase a = lowercase b)
      (hb : (lowercase b).head? ≠ some tilde) : a.head? ≠ some tilde := by
    intro ha
    rw [← hab, lowercase, List.head?_map, ha] at hb
    exact hb (by decide)
  rw [isReserved, Bool.or_eq_true] at h
  rcases h with h | h
  · obtain ⟨name, hmem, heq⟩ := List.any_eq_true.mp h
    have hlower : lowercase stem = lowercase name := beq_iff_eq.mp heq
    have hlength : stem.length = name.length := by
      simpa [lowercase] using congrArg List.length hlower
    exact ⟨hlength ▸ (hnames name hmem).1, hhead hlower (hnames name hmem).2⟩
  · simp only [Bool.and_eq_true, Bool.or_eq_true, beq_iff_eq] at h
    obtain ⟨⟨hlength, hport⟩, -⟩ := h
    refine ⟨by omega, fun hstem => ?_⟩
    have htake : (stem.take 3).head? = some tilde := by
      rw [List.head?_take, if_neg (by decide), hstem]
    rcases hport with hcom | hlpt
    · exact hhead (beq_iff_eq.mp hcom) (by decide) htake
    · exact hhead (beq_iff_eq.mp hlpt) (by decide) htake

theorem marked_undeviced (text : Bytes) : isWindowsDeviceName (tilde :: text) = false := by
  refine Bool.eq_false_iff.mpr fun hdevice => (isReserved_bounds hdevice).2 ?_
  have hword : (tilde :: text).takeWhile (· != dot) = tilde :: text.takeWhile (· != dot) := rfl
  rw [deviceStem, hword]
  generalize text.takeWhile (· != dot) = word
  cases hstem : (tilde :: word).rdropWhile fun b => b == 32 || b == dot with
  | nil =>
    have hall := List.rdropWhile_eq_nil_iff.mp hstem tilde List.mem_cons_self
    exact absurd hall (by decide)
  | cons b stem =>
    have hpre := List.rdropWhile_prefix (fun b => b == 32 || b == dot) (l := tilde :: word)
    rw [hstem] at hpre
    rw [(List.cons_prefix_cons.mp hpre).1]
    rfl

theorem deviceName_undeviced (text : Bytes) :
    isWindowsDeviceName (escapeDeviceName text) = false := by
  cases hdevice : isWindowsDeviceName text with
  | false =>
    rw [escapeDeviceName, hdevice]
    exact hdevice
  | true =>
    rw [escapeDeviceName, hdevice]
    exact marked_undeviced (114 :: text)

/-- A cut component names a device no more than the one it was cut from. -/
theorem cut_undeviced {text rest : Bytes} (hsafe : ∀ b ∈ text, isSafe b = true)
    (hlong : 62 ≤ text.length) (h : isWindowsDeviceName text = false) :
    isWindowsDeviceName (text.take 62 ++ rest) = false := by
  by_cases hdot : dot ∈ text.take 62
  · obtain ⟨word, tail, hkept, hword⟩ := List.eq_append_cons_of_mem hdot
    have hstem (rest : Bytes) : (text.take 62 ++ rest).takeWhile (· != dot) = word := by
      rw [hkept, List.append_assoc, List.takeWhile_append_of_pos]
      · exact List.append_nil word
      · intro b hb
        exact bne_iff_ne.mpr fun heq => hword (heq ▸ hb)
    have hwhole := hstem (text.drop 62)
    rw [List.take_append_drop] at hwhole
    rwa [isWindowsDeviceName, deviceStem, hstem, ← hwhole]
  · refine Bool.eq_false_iff.mpr fun hdevice => ?_
    have hword : (text.take 62 ++ rest).takeWhile (· != dot) =
        text.take 62 ++ rest.takeWhile (· != dot) :=
      List.takeWhile_append_of_pos fun b hb => bne_iff_ne.mpr fun heq => hdot (heq ▸ hb)
    have hshort := (isReserved_bounds hdevice).1
    have hparts := List.rdropWhile_append_rtakeWhile (p := fun b => b == 32 || b == dot)
      (l := text.take 62 ++ rest.takeWhile (· != dot))
    rw [deviceStem, hword] at hshort
    rcases List.append_eq_append_iff.mp hparts with ⟨u, hkept, htrimmed⟩ | ⟨u, hkept, -⟩
    · cases u with
      | nil =>
        have := congrArg List.length hkept
        simp at this
        omega
      | cons b u =>
        have htrim := List.mem_rtakeWhile_imp (htrimmed ▸ List.mem_append_left _ List.mem_cons_self)
        have hmem : b ∈ text.take 62 := hkept ▸ List.mem_append_right _ List.mem_cons_self
        have hspace : b ≠ 32 := not_safe (hsafe b (List.mem_of_mem_take hmem)) (by decide)
        have hb : b ≠ dot := fun heq => hdot (heq ▸ hmem)
        simp [hspace, hb] at htrim
    · have := congrArg List.length hkept
      simp at this
      omega

theorem trailingDots_ne_nil {text : Bytes} (h : text ≠ []) : escapeTrailingDots text ≠ [] := by
  obtain ⟨body, k, hwhole, -, hescaped⟩ := dots_cut text
  rw [hescaped]
  intro hnil
  obtain ⟨rfl, hdots⟩ := List.append_eq_nil_iff.mp hnil
  cases k with
  | zero => exact h hwhole
  | succ k => cases hdots

theorem tempSuffix_ne_nil {text : Bytes} (h : text ≠ []) : escapeTempSuffix text ≠ [] := by
  rw [escapeTempSuffix]
  split
  · simp [escapedDot, ascii]
  · exact h

theorem hexText_last (digest : Digest) :
    ∃ b, (∀ text, (text ++ hexText digest).getLast? = some b) ∧ isLowerHex b = true := by
  have hne : hexText digest ≠ [] := List.ne_nil_of_length_eq_add_one (hexText_length digest)
  refine ⟨(hexText digest).getLast hne, fun text => ?_,
    hexText_isLowerHex _ _ (List.getLast_mem hne)⟩
  rw [List.getLast?_append_of_ne_nil _ hne, List.getLast?_eq_getLast_of_ne_nil hne]

theorem finish_portable {text : Bytes} (hne : text ≠ []) (hsafe : ∀ b ∈ text, isSafe b = true)
    (digest : Digest) : Portable (finishComponent text (hexText digest)) := by
  have htemp := tempSuffix_endings (trailingDots_undotted text)
  have hdevice := deviceName_endings (tempSuffix_ne_nil (trailingDots_ne_nil hne)) htemp.1 htemp.2
  have hundeviced := deviceName_undeviced (escapeTempSuffix (escapeTrailingDots text))
  have hrewritten := rewritten_safe hsafe
  rw [finishComponent_eq]
  rcases bound_cases (rewritten text) digest with ⟨hshort, h⟩ | ⟨hlong, h⟩
  · rw [h]
    refine ⟨?_, hshort, hrewritten, hdevice.1, hdevice.2, hundeviced⟩
    rw [rewritten, escapeDeviceName]
    split
    · exact List.cons_ne_nil _ _
    · exact tempSuffix_ne_nil (trailingDots_ne_nil hne)
  · obtain ⟨b, hhex, hb⟩ := hexText_last digest
    have hlast := hhex ((rewritten text).take 62 ++ [tilde, Mark.hashed.letter])
    rw [List.append_assoc] at hlast
    rw [h]
    refine ⟨by simp, (bounded_length hlong digest).le, ?_, ?_, not_temp_of_last hlast hb, ?_⟩
    · intro c hc
      simp only [List.mem_append, List.mem_cons] at hc
      rcases hc with hkept | rfl | rfl | hhex
      · exact hrewritten c (List.mem_of_mem_take hkept)
      · decide
      · decide
      · exact safe_of_isLowerHex (hexText_isLowerHex digest c hhex)
    · refine fun hdot => ?_
      obtain rfl := Option.some.inj (hlast.symm.trans hdot)
      exact absurd hb (by decide)
    · refine cut_undeviced hrewritten ?_ hundeviced
      simp only [maxComponentLen] at hlong
      omega

end CachePaths
