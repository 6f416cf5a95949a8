import Mathlib.Data.Nat.Notation

/-! Cipher block chaining over byte strings, and the padding that closes a message. The block
cipher is a parameter: nothing here depends on what one block decrypts to. -/
namespace BlockChaining

abbrev Block (n : ℕ) := Vector UInt8 n

variable {n : ℕ} {decrypt : Block n → Block n} {iv : Block n} {a b bytes : List UInt8}

/-- The first block of a byte string; what is missing reads as zero. -/
def firstBlock (n : ℕ) (bytes : List UInt8) : Block n := Vector.ofFn fun i => bytes.getD i 0

def lastBlock (n : ℕ) (bytes : List UInt8) : Block n :=
  firstBlock n (bytes.drop (bytes.length - n))

def xorBlocks (x y : Block n) : Block n := Vector.zipWith (· ^^^ ·) x y

/-- Each block is decrypted and combined with the ciphertext of the block before it. -/
def chainDecrypt (decrypt : Block n → Block n) : ℕ → Block n → List UInt8 → List UInt8
  | 0, _, _ => []
  | k + 1, iv, bytes =>
    (xorBlocks (decrypt (firstBlock n bytes)) iv).toList ++
      chainDecrypt decrypt k (firstBlock n bytes) (bytes.drop n)

def cbcDecrypt (decrypt : Block n → Block n) (iv : Block n) (bytes : List UInt8) : List UInt8 :=
  chainDecrypt decrypt (bytes.length / n) iv bytes

/-- The message without its padding: the last byte counts the padding bytes, which all carry
that count. -/
def unpad (n : ℕ) (bytes : List UInt8) : Option (List UInt8) :=
  let pad := (bytes.getLastD 0).toNat
  if 0 < pad ∧ pad ≤ n ∧ pad ≤ bytes.length ∧
      (bytes.drop (bytes.length - pad)).all (·.toNat = pad) then
    some (bytes.take (bytes.length - pad))
  else none

theorem firstBlock_append (h : n ≤ a.length) : firstBlock n (a ++ b) = firstBlock n a := by
  rw [firstBlock, firstBlock]
  congr 1
  funext i
  have hi : i.val < a.length := Nat.lt_of_lt_of_le i.isLt h
  rw [List.getD_eq_getElem?_getD, List.getD_eq_getElem?_getD, List.getElem?_append_left hi]

theorem lastBlock_append (h : n ≤ b.length) : lastBlock n (a ++ b) = lastBlock n b := by
  have hdrop : (a ++ b).length - n = a.length + (b.length - n) := by
    rw [List.length_append]
    omega
  rw [lastBlock, lastBlock, hdrop, List.drop_append]
  congr 1
  rw [List.drop_of_length_le (by omega), Nat.add_sub_cancel_left, List.nil_append]

theorem chainDecrypt_length (k : ℕ) (iv : Block n) (bytes : List UInt8) :
    (chainDecrypt decrypt k iv bytes).length = k * n := by
  induction k generalizing iv bytes with
  | zero => rw [chainDecrypt, List.length_nil, Nat.zero_mul]
  | succ k ih =>
    rw [chainDecrypt, List.length_append, ih, Vector.length_toList, Nat.succ_mul, Nat.add_comm]

theorem cbcDecrypt_length (hn : n ∣ bytes.length) :
    (cbcDecrypt decrypt iv bytes).length = bytes.length := by
  rw [cbcDecrypt, chainDecrypt_length, Nat.div_mul_cancel hn]

theorem chainDecrypt_append (k j : ℕ) (ha : a.length = (k + 1) * n) :
    chainDecrypt decrypt (k + 1 + j) iv (a ++ b) =
      chainDecrypt decrypt (k + 1) iv a ++ chainDecrypt decrypt j (lastBlock n a) b := by
  induction k generalizing iv a with
  | zero =>
    have hlen : a.length = n := by omega
    have hlast : lastBlock n a = firstBlock n a := by
      rw [lastBlock, hlen, Nat.sub_self, List.drop_zero]
    have hnone : a.drop n = [] := List.drop_of_length_le (Nat.le_of_eq hlen)
    rw [Nat.add_comm (0 + 1) j, chainDecrypt, chainDecrypt, chainDecrypt, hlast,
      firstBlock_append (Nat.le_of_eq hlen.symm), List.drop_append_of_le_length
      (Nat.le_of_eq hlen.symm), hnone, List.append_nil, List.nil_append]
  | succ k ih =>
    have hlen : a.length = (k + 1) * n + n := by rw [ha, Nat.succ_mul]
    have hrest : (a.drop n).length = (k + 1) * n := by rw [List.length_drop]; omega
    have hle : n ≤ a.length := by omega
    have hlast : lastBlock n (a.drop n) = lastBlock n a := by
      have hblock : n ≤ (a.drop n).length := by
        rw [hrest, Nat.succ_mul]
        exact Nat.le_add_left ..
      have hwhole := lastBlock_append (a := a.take n) hblock
      rw [List.take_append_drop] at hwhole
      exact hwhole.symm
    rw [Nat.add_right_comm (k + 1) 1 j, chainDecrypt, chainDecrypt, firstBlock_append hle,
      List.drop_append_of_le_length hle, ih hrest, hlast, List.append_assoc]

theorem cbcDecrypt_append (hn : 0 < n) (ha : n ∣ a.length) (hpos : 0 < a.length) :
    cbcDecrypt decrypt iv (a ++ b) =
      cbcDecrypt decrypt iv a ++ cbcDecrypt decrypt (lastBlock n a) b := by
  obtain ⟨m, hm⟩ := ha
  obtain ⟨k, rfl⟩ : ∃ k, m = k + 1 := by
    cases m with
    | zero => omega
    | succ k => exact ⟨k, rfl⟩
  have hcount : a.length / n = k + 1 := by rw [hm, Nat.mul_div_cancel_left _ hn]
  have hall : (a ++ b).length / n = k + 1 + b.length / n := by
    rw [List.length_append, hm, Nat.mul_add_div hn]
  rw [cbcDecrypt, cbcDecrypt, cbcDecrypt, hall, hcount]
  exact chainDecrypt_append k _ (by rw [hm, Nat.mul_comm])

theorem unpad_append (hn : 0 < n) (hb : n ≤ b.length) :
    unpad n (a ++ b) = (unpad n b).map (a ++ ·) := by
  have hlast : (a ++ b).getLastD 0 = b.getLastD 0 := by
    have hne : b ≠ [] := by
      rintro rfl
      exact absurd hb (by rw [List.length_nil]; omega)
    rw [List.getLastD_eq_getLast?, List.getLastD_eq_getLast?, List.getLast?_append,
      List.getLast?_eq_some_getLast hne, Option.some_or]
  rw [unpad, unpad, hlast]
  generalize (b.getLastD 0).toNat = pad
  by_cases hpad : pad ≤ n
  · have hcut : (a ++ b).length - pad = a.length + (b.length - pad) := by
      rw [List.length_append]
      omega
    have htake : (a ++ b).take ((a ++ b).length - pad) = a ++ b.take (b.length - pad) := by
      rw [hcut, List.take_length_add_append]
    have hdrop : (a ++ b).drop ((a ++ b).length - pad) = b.drop (b.length - pad) := by
      rw [hcut, List.drop_length_add_append]
    have hfits : pad ≤ (a ++ b).length ↔ pad ≤ b.length := by
      rw [List.length_append]
      omega
    rw [htake, hdrop]
    simp only [hfits]
    split
    · rw [Option.map_some]
    · rfl
  · rw [if_neg fun h => hpad h.2.1, if_neg fun h => hpad h.2.1, Option.map_none]

theorem unpad_shorter {out : List UInt8} (h : unpad n bytes = some out) :
    out.length < bytes.length := by
  rw [unpad] at h
  simp only [Option.ite_none_right_eq_some, Option.some.injEq] at h
  obtain ⟨⟨hpos, -, hle, -⟩, rfl⟩ := h
  rw [List.length_take]
  omega

end BlockChaining
