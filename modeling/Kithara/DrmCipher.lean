import Kithara.FeedbackCode

/-! The symmetric cipher of protected streams: a keystream that mixes the position and the
ciphertext sent so far, added to the plaintext and rotated by its own low bits. -/
namespace DrmCipher

open FeedbackCode

/-- The state is one word; byte strings are lists of bytes. -/
structure UniqueBinaryCipher where
  seed : UInt64
  deriving DecidableEq

namespace UniqueBinaryCipher

def rotationMask : UInt8 := 7
def splitmixIncrement : UInt64 := 0x9e3779b97f4a7c15
def splitmixMix1 : UInt64 := 0xbf58476d1ce4e5b9
def splitmixMix2 : UInt64 := 0x94d049bb133111eb
def splitmixShift1 : UInt64 := 30
def splitmixShift2 : UInt64 := 27
def splitmixShift3 : UInt64 := 31
def xorshiftShiftA : UInt64 := 12
def xorshiftShiftB : UInt64 := 25
def xorshiftShiftC : UInt64 := 27
def xorshiftStarMul : UInt64 := 0x2545f4914f6cdd1d
def fnvOffsetBasis : UInt64 := 0xcbf29ce484222325
def fnvPrime : UInt64 := 0x100000001b3

def deriveSeedFromKey (keyBytes : List UInt8) : UInt64 :=
  let h := keyBytes.foldl (fun h b => (h ^^^ b.toUInt64) * fnvPrime) fnvOffsetBasis
  let z := h + splitmixIncrement
  let z := (z ^^^ (z >>> splitmixShift1)) * splitmixMix1
  let z := (z ^^^ (z >>> splitmixShift2)) * splitmixMix2
  z ^^^ (z >>> splitmixShift3)

def new (key : String) : UniqueBinaryCipher where
  seed := deriveSeedFromKey key.toUTF8.data.toList

def xorshift64Star (x : UInt64) : UInt64 :=
  let x := x ^^^ (x >>> xorshiftShiftA)
  let x := x ^^^ (x <<< xorshiftShiftB)
  let x := x ^^^ (x >>> xorshiftShiftC)
  x * xorshiftStarMul

def ror8 (v r : UInt8) : UInt8 := ⟨v.toBitVec.rotateRight (r &&& rotationMask).toNat⟩

def rol8 (v r : UInt8) : UInt8 := ⟨v.toBitVec.rotateLeft (r &&& rotationMask).toNat⟩

/-- The first byte of the state in big-endian order. -/
def keystreamByte (state : UInt64) : UInt8 := (state >>> 56).toUInt8

/-- The low bits of the first byte in little-endian order. -/
def rotation (state : UInt64) : UInt8 := state.toUInt8 &&& rotationMask

/-- The loop over the bytes from position `i` on. -/
def decryptFrom (state : UInt64) (i : ℕ) : List UInt8 → List UInt8
  | [] => []
  | b :: bs =>
    let state := xorshift64Star (state ^^^ UInt64.ofNat i)
    let mixed := ror8 b (rotation state)
    let plainByte := mixed - keystreamByte state
    plainByte :: decryptFrom (state ^^^ b.toUInt64) (i + 1) bs

def decrypt (cipher : UniqueBinaryCipher) (data : List UInt8) : List UInt8 :=
  decryptFrom cipher.seed 0 data

/-- The reference encryption of the cipher's tests. -/
def encryptFrom (state : UInt64) (i : ℕ) : List UInt8 → List UInt8
  | [] => []
  | b :: bs =>
    let state := xorshift64Star (state ^^^ UInt64.ofNat i)
    let mixed := b + keystreamByte state
    let cipherByte := rol8 mixed (rotation state)
    cipherByte :: encryptFrom (state ^^^ cipherByte.toUInt64) (i + 1) bs

def encrypt (cipher : UniqueBinaryCipher) (data : List UInt8) : List UInt8 :=
  encryptFrom cipher.seed 0 data

theorem rotateRight_rotateLeft {w : ℕ} (x : BitVec w) (r : ℕ) :
    (x.rotateLeft r).rotateRight r = x := by
  ext i hi
  have hr : r % w < w := Nat.mod_lt r (by omega)
  rw [BitVec.getElem_rotateRight]
  split
  · rw [BitVec.getElem_rotateLeft, dif_neg (by omega)]
    congr 1
    omega
  · rw [BitVec.getElem_rotateLeft, dif_pos (by omega)]
    congr 1
    omega

theorem rotateLeft_rotateRight {w : ℕ} (x : BitVec w) (r : ℕ) :
    (x.rotateRight r).rotateLeft r = x := by
  ext i hi
  have hr : r % w < w := Nat.mod_lt r (by omega)
  rw [BitVec.getElem_rotateLeft]
  split
  · rw [BitVec.getElem_rotateRight, dif_neg (by omega)]
    congr 1
    omega
  · rw [BitVec.getElem_rotateRight, dif_pos (by omega)]
    congr 1
    omega

theorem ror8_rol8 (v r : UInt8) : ror8 (rol8 v r) r = v :=
  congrArg UInt8.ofBitVec (rotateRight_rotateLeft v.toBitVec _)

theorem rol8_ror8 (v r : UInt8) : rol8 (ror8 v r) r = v :=
  congrArg UInt8.ofBitVec (rotateLeft_rotateRight v.toBitVec _)

/-- What one state does to a byte: add the keystream, then rotate. -/
def mixing (state : UInt64) : Equiv.Perm UInt8 where
  toFun b := rol8 (b + keystreamByte state) (rotation state)
  invFun b := ror8 b (rotation state) - keystreamByte state
  left_inv b := by
    simp only [ror8_rol8]
    exact UInt8.add_sub_cancel b _
  right_inv b := by
    simp only [UInt8.sub_add_cancel]
    exact rol8_ror8 b _

/-- The cipher as a code with ciphertext feedback. -/
def code : Code UInt64 UInt8 where
  enter state i := xorshift64Star (state ^^^ UInt64.ofNat i)
  perm := mixing
  feed state b := state ^^^ b.toUInt64

theorem decryptFrom_eq (state : UInt64) (i : ℕ) (data : List UInt8) :
    decryptFrom state i data = code.decodeFrom state i data := by
  induction data generalizing state i with
  | nil => rfl
  | cons b bs ih =>
    simp only [decryptFrom, Code.decodeFrom]
    rw [ih]
    rfl

theorem encryptFrom_eq (state : UInt64) (i : ℕ) (data : List UInt8) :
    encryptFrom state i data = code.encodeFrom state i data := by
  induction data generalizing state i with
  | nil => rfl
  | cons b bs ih =>
    simp only [encryptFrom, Code.encodeFrom]
    rw [ih]
    rfl

variable (cipher : UniqueBinaryCipher)

theorem length_decrypt (c : List UInt8) : (cipher.decrypt c).length = c.length := by
  rw [decrypt, decryptFrom_eq, Code.length_decodeFrom]

theorem length_encrypt (p : List UInt8) : (cipher.encrypt p).length = p.length := by
  rw [encrypt, encryptFrom_eq, Code.length_encodeFrom]

theorem decrypt_encrypt (p : List UInt8) : cipher.decrypt (cipher.encrypt p) = p := by
  rw [decrypt, encrypt, encryptFrom_eq, decryptFrom_eq, Code.decodeFrom_encodeFrom]

theorem encrypt_decrypt (c : List UInt8) : cipher.encrypt (cipher.decrypt c) = c := by
  rw [decrypt, encrypt, decryptFrom_eq, encryptFrom_eq, Code.encodeFrom_decodeFrom]

theorem decrypt_take (n : ℕ) (c : List UInt8) :
    cipher.decrypt (c.take n) = (cipher.decrypt c).take n := by
  rw [decrypt, decrypt, decryptFrom_eq, decryptFrom_eq, Code.decodeFrom_take]

theorem decrypt_eq_iff (p c : List UInt8) : cipher.decrypt c = p ↔ c = cipher.encrypt p := by
  rw [decrypt, encrypt, decryptFrom_eq, encryptFrom_eq]
  exact Code.decodeFrom_eq_iff p c

/-- Decryption under any key is a bijection of the byte strings of each length, inverted by the
reference encryption, and causal. -/
theorem decrypt_prefix_bijection (key : String) :
    (∀ p, ∃! c, c.length = p.length ∧ (new key).decrypt c = p) ∧
      (∀ p, ((new key).encrypt p).length = p.length ∧
        (new key).decrypt ((new key).encrypt p) = p) ∧
      (∀ c, ((new key).decrypt c).length = c.length ∧
        (new key).encrypt ((new key).decrypt c) = c) ∧
      ∀ c pre, pre <+: c → (new key).decrypt pre = ((new key).decrypt c).take pre.length := by
  have hencrypt : ∀ p, ((new key).encrypt p).length = p.length ∧
      (new key).decrypt ((new key).encrypt p) = p := by
    intro p
    constructor
    · exact length_encrypt _ p
    · exact decrypt_encrypt _ p
  refine ⟨?_, hencrypt, ?_, ?_⟩
  · intro p
    refine ⟨(new key).encrypt p, hencrypt p, ?_⟩
    rintro c ⟨-, hc⟩
    exact (decrypt_eq_iff _ p c).mp hc
  · intro c
    constructor
    · exact length_decrypt _ c
    · exact encrypt_decrypt _ c
  · intro c pre h
    rw [← decrypt_take, ← List.prefix_iff_eq_take.mp h]

end UniqueBinaryCipher

end DrmCipher
