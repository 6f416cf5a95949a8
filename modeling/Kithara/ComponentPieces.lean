import Kithara.ComponentText
import Kithara.PrefixCodes

/-! The pieces an encoded name is written from: bytes left as they are, byte escapes, percent
triplets, and the marks the layout sets. They are a prefix code, and what a piece stands for is
read off it, so an encoded name is read back. -/
namespace CachePaths

open PrefixCodes

def isLowerHex (b : UInt8) : Bool := isDigit b || 97 ≤ b && b ≤ 102

/-- The marks that no name can spell. -/
inductive Mark where
  | query
  | device
  | origin
  | hashed
  | named
  deriving DecidableEq

def Mark.letter : Mark → UInt8
  | .query => 113
  | .device => 114
  | .origin => 111
  | .hashed => 104
  | .named => 110

inductive Piece where
  | plain (b : { b : UInt8 // isPlain b })
  | escaped (b : UInt8)
  | triplet (x y : { b : UInt8 // isLowerHex b })
  | marked (m : Mark)

def Piece.text : Piece → Bytes
  | .plain b => [b]
  | .escaped b => pushByteEscape b
  | .triplet x y => [tilde, 112, x, y]
  | .marked m => [tilde, m.letter]

/-- What a piece stands for. The mark of a device name stands for nothing. -/
def Piece.reading : Piece → List (UInt8 ⊕ Mark)
  | .plain b => [.inl b]
  | .escaped b => [.inl b]
  | .triplet x y => [.inl percent, .inl x, .inl y]
  | .marked .device => []
  | .marked m => [.inr m]

def write (pieces : List Piece) : Bytes := pieces.flatMap Piece.text
def reading (pieces : List Piece) : List (UInt8 ⊕ Mark) := pieces.flatMap Piece.reading

@[simp] theorem write_nil : write [] = [] := rfl
@[simp] theorem write_cons (p : Piece) (ps : List Piece) : write (p :: ps) = p.text ++ write ps :=
  List.flatMap_cons
@[simp] theorem write_append (ps qs : List Piece) : write (ps ++ qs) = write ps ++ write qs :=
  List.flatMap_append
@[simp] theorem reading_nil : reading [] = [] := rfl
@[simp] theorem reading_cons (p : Piece) (ps : List Piece) :
    reading (p :: ps) = p.reading ++ reading ps := List.flatMap_cons
@[simp] theorem reading_append (ps qs : List Piece) :
    reading (ps ++ qs) = reading ps ++ reading qs := List.flatMap_append

theorem hexDigit_injective : Function.Injective hexDigit := by
  have h : ∀ m n, hexDigit m = hexDigit n → m = n := by decide
  exact fun m n => h m n

theorem hexDigit_isLowerHex : ∀ n, isLowerHex (hexDigit n) = true := by decide

theorem hexByte_injective : Function.Injective hexByte := by
  intro b c h
  obtain ⟨hhigh, hlow, -⟩ : hexDigit (high b) = hexDigit (high c) ∧
      hexDigit (low b) = hexDigit (low c) ∧ True := by simpa [hexByte] using h
  have hh := congrArg Fin.val (hexDigit_injective hhigh)
  have hl := congrArg Fin.val (hexDigit_injective hlow)
  simp only [high, low] at hh hl
  exact UInt8.toNat_inj.mp (by omega)

theorem isPlain_of_isLowerHex {b : UInt8} (h : isLowerHex b = true) : isPlain b = true := by
  simp only [isLowerHex, isPlain, isLowercase, Bool.or_eq_true, Bool.and_eq_true,
    decide_eq_true_eq] at h ⊢
  grind

theorem tilde_not_plain {b : UInt8} (h : isPlain b = true) : b ≠ tilde := by
  rintro rfl
  exact absurd h (by decide)

theorem letter_not_hex (m : Mark) : isLowerHex m.letter = false ∧ m.letter ≠ 112 := by
  cases m <;> decide

theorem letter_injective : Function.Injective Mark.letter := by
  intro a b
  cases a <;> cases b <;> decide

theorem ne_of_isLowerHex {b c : UInt8} (hb : isLowerHex b = true) (hc : isLowerHex c = false) :
    b ≠ c := by
  rintro rfl
  rw [hb] at hc
  cases hc

theorem piece_code : PrefixCode Piece.text where
  nonempty p := by cases p <;> exact List.cons_ne_nil _ _
  cancel := by
    have hp : isLowerHex 112 = false := by decide
    intro a b s t h
    cases a with
    | plain x =>
      cases b with
      | plain y =>
        have hxy : x.1 = y.1 := (List.cons.inj h).1
        exact congrArg Piece.plain (Subtype.ext hxy)
      | escaped y => exact absurd (List.cons.inj h).1 (tilde_not_plain x.2)
      | triplet y z => exact absurd (List.cons.inj h).1 (tilde_not_plain x.2)
      | marked m => exact absurd (List.cons.inj h).1 (tilde_not_plain x.2)
    | escaped x =>
      cases b with
      | plain y => exact absurd (List.cons.inj h).1.symm (tilde_not_plain y.2)
      | escaped y =>
        have hdigits := List.append_inj_left (List.cons.inj h).2 rfl
        exact congrArg Piece.escaped (hexByte_injective hdigits)
      | triplet y z =>
        have hletter := (List.cons.inj (List.cons.inj h).2).1
        exact absurd hletter (ne_of_isLowerHex (hexDigit_isLowerHex _) hp)
      | marked m =>
        have hletter := (List.cons.inj (List.cons.inj h).2).1
        exact absurd hletter (ne_of_isLowerHex (hexDigit_isLowerHex _) (letter_not_hex m).1)
    | triplet x y =>
      cases b with
      | plain z => exact absurd (List.cons.inj h).1.symm (tilde_not_plain z.2)
      | escaped z =>
        have hletter := (List.cons.inj (List.cons.inj h).2).1
        exact absurd hletter.symm (ne_of_isLowerHex (hexDigit_isLowerHex _) hp)
      | triplet z w =>
        obtain ⟨hx, hrest⟩ := List.cons.inj (List.cons.inj (List.cons.inj h).2).2
        have hy : y.1 = w.1 := (List.cons.inj hrest).1
        rw [Subtype.ext hx, Subtype.ext hy]
      | marked m =>
        have hletter := (List.cons.inj (List.cons.inj h).2).1
        exact absurd hletter.symm (letter_not_hex m).2
    | marked m =>
      cases b with
      | plain y => exact absurd (List.cons.inj h).1.symm (tilde_not_plain y.2)
      | escaped y =>
        have hletter := (List.cons.inj (List.cons.inj h).2).1
        exact absurd hletter.symm
          (ne_of_isLowerHex (hexDigit_isLowerHex _) (letter_not_hex m).1)
      | triplet y z =>
        have hletter := (List.cons.inj (List.cons.inj h).2).1
        exact absurd hletter (letter_not_hex m).2
      | marked n =>
        have hletter := (List.cons.inj (List.cons.inj h).2).1
        exact congrArg Piece.marked (letter_injective hletter)

theorem write_injective : Function.Injective write := piece_code.flatMap_injective

theorem not_mem_tail {c : UInt8} (hc : isLowerHex c = false) (hp : c ≠ 112)
    (hm : ∀ m : Mark, c ≠ m.letter) (p : Piece) : c ∉ p.text.tail := by
  have hne {b : UInt8} (hb : isLowerHex b = true) : c ≠ b := (ne_of_isLowerHex hb hc).symm
  cases p with
  | plain b => exact List.not_mem_nil
  | escaped b =>
    simp [Piece.text, pushByteEscape, hexByte, hne (hexDigit_isLowerHex _)]
  | triplet x y => simp [Piece.text, hp, hne x.2, hne y.2]
  | marked m => simp [Piece.text, hm m]

theorem write_cut_dot {ps : List Piece} {s t : Bytes} (h : write ps = s ++ dot :: t) :
    ∃ before after, ps = before ++ .plain ⟨dot, by decide⟩ :: after ∧ write before = s ∧
      write after = t := by
  have hhead := not_mem_tail (c := dot) (by decide) (by decide) fun m => by cases m <;> decide
  obtain ⟨before, p, after, rfl, hbefore, hat⟩ := flatMap_cut hhead h
  have hpiece : p = .plain ⟨dot, by decide⟩ :=
    piece_code.cancel (s := after.flatMap Piece.text) (t := t) hat
  subst hpiece
  exact ⟨before, after, rfl, hbefore, (List.cons.inj hat).2⟩

/-- A mark that stands in a text was set by a piece. -/
theorem write_cut_mark {ps : List Piece} {s t : Bytes} {m : Mark}
    (h : write ps = s ++ tilde :: m.letter :: t) : .marked m ∈ ps := by
  have hhead := not_mem_tail (c := tilde) (by decide) (by decide) fun m => by cases m <;> decide
  obtain ⟨before, p, after, rfl, -, hat⟩ := flatMap_cut hhead h
  have hpiece : p = .marked m := piece_code.cancel (s := after.flatMap Piece.text) (t := t) hat
  rw [hpiece]
  exact List.mem_append_right _ List.mem_cons_self

/-- A mark but the one of device names is read. -/
theorem mark_read {ps : List Piece} {m : Mark} (hm : m ≠ .device) (h : .marked m ∈ ps) :
    .inr m ∈ reading ps := by
  refine List.mem_flatMap.mpr ⟨_, h, ?_⟩
  cases m with
  | device => exact absurd rfl hm
  | query | origin | hashed | named => exact List.mem_singleton_self _

def piece (b : UInt8) : Piece := if h : isPlain b then .plain ⟨b, h⟩ else .escaped b

theorem text_piece (b : UInt8) : (piece b).text = encodeByte b := by
  rw [piece, encodeByte]
  split <;> rfl

theorem reading_piece (b : UInt8) : (piece b).reading = [.inl b] := by
  rw [piece]
  split <;> rfl

theorem isLowerHex_toLowercase {b : UInt8} (h : isHexdigit b = true) :
    isLowerHex (toLowercase b) = true := by
  simp only [isHexdigit, isDigit, Bool.or_eq_true, Bool.and_eq_true, decide_eq_true_eq] at h
  simp only [isLowerHex, toLowercase, isUppercase, isDigit, Bool.or_eq_true, Bool.and_eq_true,
    decide_eq_true_eq]
  split <;> grind

def pieces (preservePercentTriplets : Bool) : Bytes → List Piece
  | [] => []
  | [b] => [piece b]
  | [b, x] => [piece b, piece x]
  | b :: x :: y :: rest =>
    if h : preservePercentTriplets ∧ b = percent ∧ isHexdigit x ∧ isHexdigit y then
      .triplet ⟨toLowercase x, isLowerHex_toLowercase h.2.2.1⟩
        ⟨toLowercase y, isLowerHex_toLowercase h.2.2.2⟩ :: pieces preservePercentTriplets rest
    else piece b :: pieces preservePercentTriplets (x :: y :: rest)

/-- A URL text with the hex digits of its percent triplets in lower case. -/
def lowerTriplets : Bytes → Bytes
  | [] => []
  | [b] => [b]
  | [b, x] => [b, x]
  | b :: x :: y :: rest =>
    if isTriplet b x y then b :: toLowercase x :: toLowercase y :: lowerTriplets rest
    else b :: lowerTriplets (x :: y :: rest)

theorem isTriplet_iff {b x y : UInt8} :
    isTriplet b x y = true ↔ b = percent ∧ isHexdigit x = true ∧ isHexdigit y = true := by
  simp [isTriplet, and_assoc]

theorem write_pieces (preserve : Bool) (value : Bytes) :
    write (pieces preserve value) = encodeBytes preserve value := by
  fun_induction pieces preserve value with
  | case1 => rfl
  | case2 b => simp [encodeBytes, text_piece]
  | case3 b x => simp [encodeBytes, text_piece]
  | case4 b x y rest h ih =>
    obtain ⟨rfl, h⟩ := h
    simp [encodeBytes, isTriplet_iff, h, ih, Piece.text]
  | case5 b x y rest h ih => simp [encodeBytes, isTriplet_iff, h, ih, text_piece]

theorem reading_pieces_url (value : Bytes) :
    reading (pieces true value) = (lowerTriplets value).map .inl := by
  fun_induction lowerTriplets value with
  | case1 => rfl
  | case2 b => simp [pieces, reading_piece]
  | case3 b x => simp [pieces, reading_piece]
  | case4 b x y rest h ih =>
    obtain ⟨rfl, hx, hy⟩ := isTriplet_iff.mp h
    simp [pieces, hx, hy, ih, Piece.reading]
  | case5 b x y rest h ih =>
    rw [isTriplet_iff] at h
    simp [pieces, h, ih, reading_piece]

theorem reading_pieces_name (value : Bytes) :
    reading (pieces false value) = value.map .inl := by
  fun_induction pieces false value with
  | case1 => rfl
  | case2 b => simp [reading_piece]
  | case3 b x => simp [reading_piece]
  | case4 b x y rest h ih => exact absurd h.1 Bool.false_ne_true
  | case5 b x y rest h ih => simp [ih, reading_piece]

theorem pieces_eq_nil {preserve : Bool} {value : Bytes} :
    pieces preserve value = [] ↔ value = [] := by
  fun_cases pieces preserve value <;> simp

end CachePaths
