import Mathlib.Algebra.Group.Nat.Defs
import Mathlib.Data.List.Basic

/-! Readers that take bytes off the front of a blob, and the writers they undo. A reader reads a
writer's output when it consumes exactly that output, whatever follows it. -/
namespace ByteReaders

variable {ε ε' α β γ : Type}

/-- A computation that went through went through its first part. -/
theorem bind_eq_ok {x : Except ε α} {f : α → Except ε β} {y : β} :
    x >>= f = .ok y ↔ ∃ a, x = .ok a ∧ f a = .ok y := by
  cases x with
  | error e => simp [Bind.bind, Except.bind]
  | ok a => simp [Bind.bind, Except.bind]

theorem mapError_eq_ok {x : Except ε α} {g : ε → ε'} {y : α} :
    x.mapError g = .ok y ↔ x = .ok y := by
  cases x <;> simp [Except.mapError]

theorem map_eq_ok {x : Except ε α} {g : α → β} {y : β} :
    x.map g = .ok y ↔ ∃ a, x = .ok a ∧ g a = y := by
  cases x <;> simp [Except.map]

abbrev Reader (ε α : Type) := StateT (List UInt8) (Except ε) α

/-- The reader takes exactly these bytes off the front and gives this value. -/
def Reads (r : Reader ε α) (bytes : List UInt8) (x : α) : Prop :=
  ∀ rest, r (bytes ++ rest) = .ok (x, rest)

/-- The reader gives this fault on these bytes, whatever follows. -/
def Fails (r : Reader ε α) (bytes : List UInt8) (e : ε) : Prop :=
  ∀ rest, r (bytes ++ rest) = .error e

theorem Reads.pure (x : α) : Reads (Pure.pure x : Reader ε α) [] x := fun _ => rfl

theorem Reads.bind {r : Reader ε α} {f : α → Reader ε β} {bytes more : List UInt8} {x : α} {y : β}
    (hr : Reads r bytes x) (hf : Reads (f x) more y) : Reads (r >>= f) (bytes ++ more) y := by
  intro rest
  change (r (bytes ++ more ++ rest) >>= fun p => f p.1 p.2) = _
  rw [List.append_assoc, hr]
  exact hf rest

/-- A step that reads nothing leaves the bytes of the rest. -/
theorem Reads.skip {r : Reader ε α} {f : α → Reader ε β} {bytes : List UInt8} {x : α} {y : β}
    (hr : Reads r [] x) (hf : Reads (f x) bytes y) : Reads (r >>= f) bytes y := hr.bind hf

/-- What is read first does not hide a later fault. -/
theorem Reads.fails {r : Reader ε α} {f : α → Reader ε β} {bytes more : List UInt8} {x : α} {e : ε}
    (hr : Reads r bytes x) (hf : Fails (f x) more e) : Fails (r >>= f) (bytes ++ more) e := by
  intro rest
  change (r (bytes ++ more ++ rest) >>= fun p => f p.1 p.2) = _
  rw [List.append_assoc, hr]
  exact hf rest

/-- The last read of a reader that puts its results together. -/
theorem Reads.last {r : Reader ε α} {f : α → β} {bytes : List UInt8} {x : α}
    (hr : Reads r bytes x) : Reads (r >>= fun a => Pure.pure (f a)) bytes (f x) := by
  rw [← List.append_nil bytes]
  exact hr.bind (Reads.pure (f x))

theorem Reads.map {r : Reader ε α} {f : α → β} {bytes : List UInt8} {x : α}
    (hr : Reads r bytes x) : Reads (f <$> r) bytes (f x) := by
  intro rest
  change (r (bytes ++ rest) >>= fun p => Except.ok (f p.1, p.2)) = _
  rw [hr]
  rfl

theorem Reads.run {r : Reader ε α} {bytes : List UInt8} {x : α} (hr : Reads r bytes x) :
    r bytes = .ok (x, []) := by
  simpa using hr []

/-- Every answer of the reader took exactly the writer's bytes for it off the front. -/
def Undoes (r : Reader ε α) (write : α → List UInt8) : Prop :=
  ∀ bytes x rest, r bytes = .ok (x, rest) → bytes = write x ++ rest

theorem reader_bind_ok {r : Reader ε α} {f : α → Reader ε β} {bytes rest : List UInt8} {y : β} :
    (r >>= f) bytes = .ok (y, rest) ↔
      ∃ x more, r bytes = .ok (x, more) ∧ f x more = .ok (y, rest) := by
  change (r bytes >>= fun p => f p.1 p.2) = _ ↔ _
  rw [bind_eq_ok]
  exact Prod.exists

theorem reader_map_ok {r : Reader ε α} {f : α → β} {bytes rest : List UInt8} {y : β} :
    (f <$> r) bytes = .ok (y, rest) ↔ ∃ x, r bytes = .ok (x, rest) ∧ f x = y := by
  change (r bytes >>= fun p => Except.ok (f p.1, p.2)) = _ ↔ _
  rw [bind_eq_ok]
  constructor
  · rintro ⟨⟨x, more⟩, hr, h⟩
    cases h
    exact ⟨x, hr, rfl⟩
  · rintro ⟨x, hr, rfl⟩
    exact ⟨(x, rest), hr, rfl⟩

def take (short : ε) (n : ℕ) : Reader ε (List UInt8) := fun bytes =>
  if n ≤ bytes.length then .ok (bytes.take n, bytes.drop n) else .error short

def remaining : Reader ε ℕ := fun bytes => .ok (bytes.length, bytes)

def finish (garbage : ε) : Reader ε Unit := fun bytes =>
  if bytes = [] then .ok ((), bytes) else .error garbage

def check (fault : ε) (p : Prop) [Decidable p] : Reader ε Unit :=
  if p then Pure.pure () else throw fault

def ofResult (r : Except ε α) : Reader ε α := fun bytes => r.map (·, bytes)

def mapError (g : ε → ε') (r : Reader ε α) : Reader ε' α := fun bytes => (r bytes).mapError g

/-- A whole blob: the reader, then nothing left. -/
def whole (garbage : ε) (r : Reader ε α) (bytes : List UInt8) : Except ε α :=
  ((do let x ← r; finish garbage; Pure.pure x) : Reader ε α) bytes |>.map Prod.fst

theorem reads_take {short : ε} {n : ℕ} {bytes : List UInt8} (h : bytes.length = n) :
    Reads (take short n) bytes bytes := by
  intro rest
  subst h
  simp [take]

theorem take_ok {short : ε} {n : ℕ} {bytes front rest : List UInt8}
    (h : take short n bytes = .ok (front, rest)) : front.length = n ∧ bytes = front ++ rest := by
  unfold take at h
  split at h
  · next hle =>
    cases h
    exact ⟨List.length_take_of_le hle, (List.take_append_drop n bytes).symm⟩
  · cases h

theorem check_ok {fault : ε} {p : Prop} [Decidable p] {bytes rest : List UInt8} {u : Unit}
    (h : check fault p bytes = .ok (u, rest)) : p ∧ rest = bytes := by
  unfold check at h
  split at h
  · next hp =>
    cases h
    exact ⟨hp, rfl⟩
  · cases h

theorem reads_check {fault : ε} {p : Prop} [Decidable p] (h : p) : Reads (check fault p) [] () := by
  intro rest
  simp only [check, if_pos h]
  rfl

theorem reads_ofResult {x : α} : Reads (ofResult (.ok x : Except ε α)) [] x := fun _ => rfl

theorem Reads.mapError {g : ε → ε'} {r : Reader ε α} {bytes : List UInt8} {x : α}
    (h : Reads r bytes x) : Reads (ByteReaders.mapError g r) bytes x := by
  intro rest
  change (r (bytes ++ rest)).mapError g = _
  rw [h rest]
  rfl

theorem fails_ofResult {e : ε} {f : α → Reader ε β} {bytes : List UInt8} :
    Fails (ofResult (.error e : Except ε α) >>= f) bytes e := fun _ => rfl

theorem reads_remaining {f : ℕ → Reader ε β} {bytes : List UInt8} {y : β}
    (h : ∀ n, bytes.length ≤ n → Reads (f n) bytes y) : Reads (remaining >>= f) bytes y := by
  intro rest
  exact h (bytes ++ rest).length (by simp) rest

theorem whole_of_reads {garbage : ε} {r : Reader ε α} {bytes : List UInt8} {x : α}
    (h : Reads r bytes x) : whole garbage r bytes = .ok x := by
  change ((r bytes >>= fun p => _) : Except ε _).map _ = _
  rw [h.run]
  rfl

theorem whole_of_fails {garbage e : ε} {r : Reader ε α} {bytes : List UInt8}
    (h : Fails r bytes e) : whole garbage r bytes = .error e := by
  change ((r bytes >>= fun p => _) : Except ε _).map _ = _
  have hrun : r bytes = .error e := by simpa using h []
  rw [hrun]
  rfl

def littleEndian : ℕ → ℕ → List UInt8
  | 0, _ => []
  | n + 1, v => UInt8.ofNat v :: littleEndian n (v / 256)

def ofLittleEndian : List UInt8 → ℕ
  | [] => 0
  | b :: bytes => b.toNat + 256 * ofLittleEndian bytes

@[simp] theorem littleEndian_length (n v : ℕ) : (littleEndian n v).length = n := by
  induction n generalizing v with
  | zero => rfl
  | succ n ih => simp [littleEndian, ih]

theorem ofLittleEndian_littleEndian {n v : ℕ} (h : v < 256 ^ n) :
    ofLittleEndian (littleEndian n v) = v := by
  induction n generalizing v with
  | zero =>
    rw [pow_zero] at h
    simp only [littleEndian, ofLittleEndian]
    omega
  | succ n ih =>
    have hdiv : v / 256 < 256 ^ n := by
      rw [pow_succ] at h
      omega
    simp only [littleEndian, ofLittleEndian, ih hdiv, UInt8.toNat_ofNat']
    omega

def readNat (short : ε) (n : ℕ) : Reader ε ℕ := ofLittleEndian <$> take short n

/-- Bytes are determined by their count and the number they stand for. -/
theorem littleEndian_ofLittleEndian (bytes : List UInt8) :
    littleEndian bytes.length (ofLittleEndian bytes) = bytes := by
  induction bytes with
  | nil => rfl
  | cons b bytes ih =>
    have hbyte := b.toNat_lt
    have hdiv : (b.toNat + 256 * ofLittleEndian bytes) / 256 = ofLittleEndian bytes := by omega
    have hlow : UInt8.ofNat (b.toNat + 256 * ofLittleEndian bytes) = b := by
      refine UInt8.toNat_inj.mp ?_
      rw [UInt8.toNat_ofNat']
      omega
    rw [List.length_cons, ofLittleEndian, littleEndian, hdiv, hlow, ih]

theorem ofLittleEndian_lt (bytes : List UInt8) : ofLittleEndian bytes < 256 ^ bytes.length := by
  induction bytes with
  | nil => exact Nat.one_pos
  | cons b bytes ih =>
    have hbyte := b.toNat_lt
    rw [List.length_cons, pow_succ, ofLittleEndian]
    omega

theorem reads_readNat {short : ε} {n v : ℕ} (h : v < 256 ^ n) :
    Reads (readNat short n) (littleEndian n v) v := by
  have hr : Reads (readNat short n) (littleEndian n v) (ofLittleEndian (littleEndian n v)) :=
    (reads_take (littleEndian_length n v)).map
  rwa [ofLittleEndian_littleEndian h] at hr

theorem readNat_undoes {short : ε} {n : ℕ} :
    Undoes (readNat short n) (littleEndian n) := by
  intro bytes x rest h
  obtain ⟨front, htake, rfl⟩ := reader_map_ok.mp h
  obtain ⟨rfl, rfl⟩ := take_ok htake
  rw [littleEndian_ofLittleEndian]

theorem readNat_lt {short : ε} {n x : ℕ} {bytes rest : List UInt8}
    (h : readNat short n bytes = .ok (x, rest)) : x < 256 ^ n := by
  obtain ⟨front, htake, rfl⟩ := reader_map_ok.mp h
  obtain ⟨rfl, rfl⟩ := take_ok htake
  exact ofLittleEndian_lt front

def readMany (item : Reader ε α) : ℕ → Reader ε (List α)
  | 0 => Pure.pure []
  | n + 1 => do
    let x ← item
    let xs ← readMany item n
    Pure.pure (x :: xs)

theorem reads_readMany {item : Reader ε β} {write : α → List UInt8} {back : α → β} {xs : List α}
    (h : ∀ x ∈ xs, Reads item (write x) (back x)) :
    Reads (readMany item xs.length) (xs.flatMap write) (xs.map back) := by
  induction xs with
  | nil => exact Reads.pure []
  | cons x xs ih =>
    have htail := ih fun y hy => h y (List.mem_cons_of_mem x hy)
    rw [List.flatMap_cons, List.map_cons]
    exact (h x List.mem_cons_self).bind htail.last

end ByteReaders
