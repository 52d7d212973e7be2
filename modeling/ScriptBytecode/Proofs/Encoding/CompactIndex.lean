/-
Module: ScriptBytecode.Proofs.Encoding.CompactIndex
Purpose: Which bytes are a compact index. Up to five bytes spell an index if each of them but the last says that another
  one follows and the bits that they hold make a magnitude of at most 31 bits. Main statement: reading gives the index
  that the next bytes spell, rejects bytes that go on too long or hold too large a magnitude, and otherwise wants more
  bytes. Every index but the least one is spelled by its compact form and by nothing shorter.
Main exports: CompactIndex.Continues, CompactIndex.magnitude, CompactIndex.Terminated, CompactIndex.Spells,
  compactIndex_characterised
-/
import ScriptBytecode.Proofs.Encoding.Bytes

namespace ScriptBytecode

namespace CompactIndex

/-- The byte with the given number says that another one follows: by its second highest bit if it is the first one,
    whose highest bit is the sign, and by its highest bit otherwise. -/
def Continues : (k : Nat) → UInt8 → Prop
  | 0, byte => byte &&& 0x40 ≠ 0
  | _ + 1, byte => byte &&& 0x80 ≠ 0

instance : (k : Nat) → (byte : UInt8) → Decidable (Continues k byte)
  | 0, byte => inferInstanceAs (Decidable (byte &&& 0x40 ≠ 0))
  | _ + 1, byte => inferInstanceAs (Decidable (byte &&& 0x80 ≠ 0))

/-- What the byte with the given number adds to the magnitude. -/
def part : (k : Nat) → UInt8 → Nat
  | 0, byte => (byte &&& 0x3F).toNat
  | k + 1, byte => (byte &&& 0x7F).toNat <<< (6 + 7 * k)

/-- The magnitude in bytes that are numbered from `k` on. -/
def magnitude (k : Nat) : List UInt8 → Nat
  | [] => 0
  | byte :: rest => part k byte + magnitude (k + 1) rest

/-- Each of the bytes, numbered from `k` on, says that another one follows. -/
def Chained (k : Nat) : List UInt8 → Prop
  | [] => True
  | byte :: rest => Continues k byte ∧ Chained (k + 1) rest

/-- The bytes end where they say so: each but the last one says that another one follows. -/
def Terminated (bytes : List UInt8) : Prop :=
  bytes.length ≤ 5 ∧
    ∃ leading last, bytes = leading ++ [last] ∧ Chained 0 leading ∧ ¬ Continues leading.length last

/-- The first five bytes all say that another one follows. -/
def Unending (bytes : List UInt8) : Prop :=
  5 ≤ bytes.length ∧ Chained 0 (bytes.take 5)

/-- The bytes start with too many that go on, or end where they say so but hold too large a magnitude. -/
def Rejected (bytes : List UInt8) : Prop :=
  Unending bytes ∨ ∃ spelled rest, bytes = spelled ++ rest ∧ Terminated spelled ∧ 2 ^ 31 - 1 < magnitude 0 spelled

/-- The first byte has the sign bit set. -/
def Negative (bytes : List UInt8) : Prop :=
  ∃ first ∈ bytes.head?, first &&& 0x80 ≠ 0

/-- The bytes are a compact index with the given value. -/
structure Spells (bytes : List UInt8) (value : Int32) : Prop where
  terminated : Terminated bytes
  bounded : magnitude 0 bytes ≤ 2 ^ 31 - 1
  negative : Negative bytes → value.toInt = -(magnitude 0 bytes : Int)
  positive : ¬ Negative bytes → value.toInt = magnitude 0 bytes

/-!
### Bits
-/

/-- The masks of a byte as arithmetic. -/
theorem masks (byte : UInt8) :
    (byte &&& 0x3F).toNat = byte.toNat % 0x40 ∧ (byte &&& 0x7F).toNat = byte.toNat % 0x80 ∧
      (byte &&& 0x40 ≠ 0 ↔ 0x40 ≤ byte.toNat % 0x80) ∧ (byte &&& 0x80 ≠ 0 ↔ 0x80 ≤ byte.toNat) := by
  have hbytes : ∀ n : Fin 256, (UInt8.ofNat n &&& 0x3F).toNat = (UInt8.ofNat n).toNat % 0x40 ∧
      (UInt8.ofNat n &&& 0x7F).toNat = (UInt8.ofNat n).toNat % 0x80 ∧
      (UInt8.ofNat n &&& 0x40 ≠ 0 ↔ 0x40 ≤ (UInt8.ofNat n).toNat % 0x80) ∧
      (UInt8.ofNat n &&& 0x80 ≠ 0 ↔ 0x80 ≤ (UInt8.ofNat n).toNat) := by
    decide +kernel
  have hbyte := hbytes ⟨byte.toNat, byte.toNat_lt⟩
  rwa [UInt8.ofNat_toNat] at hbyte

theorem continues_zero {byte : UInt8} : Continues 0 byte ↔ 0x40 ≤ byte.toNat % 0x80 :=
  (masks byte).2.2.1

theorem continues_succ {k : Nat} {byte : UInt8} : Continues (k + 1) byte ↔ 0x80 ≤ byte.toNat :=
  (masks byte).2.2.2

theorem part_zero (byte : UInt8) : part 0 byte = byte.toNat % 0x40 :=
  (masks byte).1

theorem part_succ (k : Nat) (byte : UInt8) : part (k + 1) byte = byte.toNat % 0x80 * (0x40 * 0x80 ^ k) := by
  have hscale : (2 : Nat) ^ (6 + 7 * k) = 0x40 * 0x80 ^ k := by rw [Nat.pow_add, Nat.pow_mul]
  rw [part, (masks byte).2.1, Nat.shiftLeft_eq, hscale]

theorem negative_cons {first : UInt8} {rest : List UInt8} : Negative (first :: rest) ↔ 0x80 ≤ first.toNat := by
  simp [Negative, ← (masks first).2.2.2]

theorem add_length_cons (k : Nat) (byte : UInt8) (rest : List UInt8) :
    k + (byte :: rest).length = k + 1 + rest.length := by
  rw [List.length_cons, Nat.add_right_comm, Nat.add_assoc]

theorem magnitude_append (k : Nat) (first second : List UInt8) :
    magnitude k (first ++ second) = magnitude k first + magnitude (k + first.length) second := by
  induction first generalizing k with
  | nil => simp [magnitude]
  | cons byte rest ih =>
      rw [List.cons_append, magnitude, ih, magnitude, add_length_cons, ← Nat.add_assoc (part k byte)]

/-- Later bytes hold seven bits each. -/
theorem magnitude_succ_le (k : Nat) (bytes : List UInt8) :
    magnitude (k + 1) bytes + 0x40 * 0x80 ^ k ≤ 0x40 * 0x80 ^ (k + bytes.length) := by
  induction bytes generalizing k with
  | nil => simp [magnitude]
  | cons byte rest ih =>
      have hrest := ih (k + 1)
      have hdigit : byte.toNat % 0x80 * (0x40 * 0x80 ^ k) ≤ 0x7F * (0x40 * 0x80 ^ k) :=
        Nat.mul_le_mul_right _ (by omega)
      have hscale : 0x40 * 0x80 ^ (k + 1) = 0x80 * (0x40 * 0x80 ^ k) := by
        rw [Nat.pow_succ, Nat.mul_comm (0x80 ^ k), Nat.mul_left_comm]
      rw [magnitude, part_succ, add_length_cons]
      omega

/-- All bytes of an index together hold six bits and then seven for each later byte. -/
theorem magnitude_lt (first : UInt8) (rest : List UInt8) :
    magnitude 0 (first :: rest) < 0x40 * 0x80 ^ rest.length := by
  have hrest := magnitude_succ_le 0 rest
  rw [Nat.zero_add 1, Nat.zero_add rest.length] at hrest
  rw [magnitude, part_zero, Nat.zero_add]
  omega

/-!
### Reading
-/

theorem compactMagnitude_of_continues {start : Nat} {first : UInt8} (h : Continues 0 first) :
    Reader.compactMagnitude start first =
      Reader.compactTail start 4 0x40 >>= fun higher => pure (part 0 first + higher) := by
  rw [part_zero]
  exact if_pos (continues_zero.1 h)

theorem compactMagnitude_of_not_continues {start : Nat} {first : UInt8} (h : ¬ Continues 0 first) :
    Reader.compactMagnitude start first = pure (part 0 first) := by
  rw [part_zero]
  exact if_neg (mt continues_zero.2 h)

theorem compactTail_of_continues {start left k offset : Nat} {byte : UInt8} {rest : List UInt8}
    (h : Continues (k + 1) byte) :
    Reader.compactTail start (left + 1) (0x40 * 0x80 ^ k) ⟨offset, byte :: rest⟩ =
      (Reader.compactTail start left (0x40 * 0x80 ^ (k + 1)) >>= fun higher => pure (part (k + 1) byte + higher))
        ⟨offset + 1, rest⟩ := by
  have hscale : 0x40 * 0x80 ^ (k + 1) = 0x40 * 0x80 ^ k * 0x80 := by rw [Nat.pow_succ, Nat.mul_assoc]
  rw [part_succ, hscale]
  exact congrFun (if_pos (continues_succ.1 h)) _

theorem compactTail_of_not_continues {start left k offset : Nat} {byte : UInt8} {rest : List UInt8}
    (h : ¬ Continues (k + 1) byte) :
    Reader.compactTail start (left + 1) (0x40 * 0x80 ^ k) ⟨offset, byte :: rest⟩ =
      .ok (part (k + 1) byte) ⟨offset + 1, rest⟩ := by
  rw [part_succ]
  exact congrFun (if_neg (mt continues_succ.2 h)) _

/-- A digit is added to what a reader gives, which has added others before. -/
theorem bind_add {first later : Reader Nat} {state middle : Input} {b : Nat} (a : Nat)
    (h : first state = (later >>= fun higher => pure (b + higher)) middle) :
    (first >>= fun higher => pure (a + higher)) state = (later >>= fun higher => pure (a + b + higher)) middle := by
  rw [bind_apply, h, bind_apply, bind_apply]
  cases later middle with
  | ok value next => exact congrArg (EStateM.Result.ok · next) (Nat.add_assoc a b value).symm
  | error e next => rfl

/-- Reading goes on after bytes that say so. -/
theorem compactTail_chained (start left offset : Nat) {k : Nat} {leading : List UInt8} (rest : List UInt8)
    (h : Chained (k + 1) leading) :
    Reader.compactTail start (left + leading.length) (0x40 * 0x80 ^ k) ⟨offset, leading ++ rest⟩ =
      (Reader.compactTail start left (0x40 * 0x80 ^ (k + leading.length)) >>= fun higher =>
        pure (magnitude (k + 1) leading + higher)) ⟨offset + leading.length, rest⟩ := by
  induction leading generalizing k offset with
  | nil =>
      simp only [magnitude, Nat.zero_add, bind_pure]
      rfl
  | cons byte later ih =>
      obtain ⟨hcontinues, hlater⟩ := h
      rw [add_length_cons k, add_length_cons offset, magnitude]
      exact (compactTail_of_continues hcontinues).trans (bind_add _ (ih _ hlater))

/-- The bytes of an index that say that another one follows, as many as there may be. -/
theorem compactMagnitude_chained (start offset : Nat) {first : UInt8} {leading : List UInt8} (rest : List UInt8)
    (h : Chained 0 (first :: leading)) (hlength : leading.length ≤ 4) :
    Reader.compactMagnitude start first ⟨offset, leading ++ rest⟩ =
      (Reader.compactTail start (4 - leading.length) (0x40 * 0x80 ^ leading.length) >>= fun higher =>
        pure (magnitude 0 (first :: leading) + higher)) ⟨offset + leading.length, rest⟩ := by
  obtain ⟨hcontinues, hleading⟩ := h
  have htail := compactTail_chained start (4 - leading.length) offset rest hleading
  rw [Nat.sub_add_cancel hlength, Nat.zero_add] at htail
  rw [compactMagnitude_of_continues hcontinues, magnitude]
  exact bind_add _ htail

/-- Bytes that end where they say so give their magnitude. -/
theorem recovers_compactMagnitude (start : Nat) {first : UInt8} {later : List UInt8} (h : Terminated (first :: later)) :
    Recovers (Reader.compactMagnitude start first) later (magnitude 0 (first :: later)) := by
  obtain ⟨hlength, leading, last, heq, hchained, hlast⟩ := h
  intro offset rest
  cases leading with
  | nil =>
      cases heq
      rw [compactMagnitude_of_not_continues hlast]
      rfl
  | cons byte leading =>
      rw [List.cons_append] at heq
      obtain ⟨rfl, rfl⟩ := List.cons.inj heq
      have hmagnitude : magnitude 0 (first :: leading ++ [last]) =
          magnitude 0 (first :: leading) + part (leading.length + 1) last := by
        rw [magnitude_append, Nat.zero_add]
        rfl
      rw [List.length_cons, List.length_append, List.length_singleton] at hlength
      obtain ⟨left, hleft⟩ : ∃ left, 4 - leading.length = left + 1 := ⟨3 - leading.length, by omega⟩
      rw [← List.cons_append, hmagnitude, List.append_assoc, List.length_append,
        compactMagnitude_chained start offset _ hchained (by omega), hleft, bind_apply, List.singleton_append,
        compactTail_of_not_continues hlast]
      rfl

theorem compactIndex_cons (offset : Nat) (first : UInt8) (rest : List UInt8) :
    Reader.compactIndex ⟨offset, first :: rest⟩ =
      (Reader.compactMagnitude offset first >>= Reader.compactValue offset first) ⟨offset + 1, rest⟩ :=
  rfl

theorem Terminated.exists_cons {bytes : List UInt8} (h : Terminated bytes) :
    ∃ first later, bytes = first :: later := by
  obtain ⟨-, leading, last, rfl, -⟩ := h
  cases leading with
  | nil => exact ⟨last, [], rfl⟩
  | cons first leading => exact ⟨first, leading ++ [last], rfl⟩

/-- Bytes that end where they say so are read together, and what becomes of their magnitude is the result. -/
theorem compactIndex_terminated (offset : Nat) {first : UInt8} {later : List UInt8} (rest : List UInt8)
    (h : Terminated (first :: later)) :
    Reader.compactIndex ⟨offset, first :: later ++ rest⟩ =
      Reader.compactValue offset first (magnitude 0 (first :: later))
        ⟨offset + (first :: later).length, rest⟩ := by
  rw [List.cons_append, compactIndex_cons, bind_apply, recovers_compactMagnitude offset h, add_length_cons]

/-- A magnitude of 31 bits and a sign are an index. -/
theorem compactValue_eq {start : Nat} {first : UInt8} {later : List UInt8} {value : Int32}
    (h : Spells (first :: later) value) :
    Reader.compactValue start first (magnitude 0 (first :: later)) = pure value := by
  have hbounded := h.bounded
  unfold Reader.compactValue
  rw [if_neg (by omega)]
  by_cases hsign : 0x80 ≤ first.toNat
  · have hvalue := h.negative (negative_cons.2 hsign)
    rw [if_pos hsign, ← hvalue, Int32.ofInt_toInt]
  · have hvalue := h.positive (mt negative_cons.1 hsign)
    rw [if_neg hsign, ← Int32.ofInt_eq_ofNat, ← hvalue, Int32.ofInt_toInt]

/-- Every magnitude of 31 bits has an index for either sign. -/
theorem exists_spells {bytes : List UInt8} (h : Terminated bytes) (hbounded : magnitude 0 bytes ≤ 2 ^ 31 - 1) :
    ∃ value, Spells bytes value := by
  by_cases hnegative : Negative bytes
  · refine ⟨Int32.ofInt (-(magnitude 0 bytes : Int)), h, hbounded, fun _ => ?_, fun hsign => absurd hnegative hsign⟩
    exact Int32.toInt_ofInt_of_le (by omega) (by omega)
  · refine ⟨Int32.ofNat (magnitude 0 bytes), h, hbounded, fun hsign => absurd hsign hnegative, fun _ => ?_⟩
    exact Int32.toInt_ofNat_of_lt (by omega)

/-- What is spelled is read, whatever follows it. -/
theorem Spells.recovers {bytes : List UInt8} {value : Int32} (h : Spells bytes value) :
    Recovers Reader.compactIndex bytes value := by
  intro offset rest
  obtain ⟨first, later, rfl⟩ := h.terminated.exists_cons
  rw [compactIndex_terminated offset rest h.terminated, compactValue_eq h]
  rfl

/-- A magnitude of more than 31 bits is rejected. -/
theorem compactIndex_of_large (offset : Nat) {bytes : List UInt8} (rest : List UInt8) (h : Terminated bytes)
    (hlarge : 2 ^ 31 - 1 < magnitude 0 bytes) :
    ∃ next, Reader.compactIndex ⟨offset, bytes ++ rest⟩ = .error (.invalidCompactIndex offset) next := by
  obtain ⟨first, later, rfl⟩ := h.exists_cons
  rw [compactIndex_terminated offset rest h]
  exact ⟨_, congrFun (if_pos hlarge) _⟩

/-- Five bytes that go on are rejected. -/
theorem compactIndex_of_unending (offset : Nat) {bytes : List UInt8} (h : Unending bytes) :
    ∃ next, Reader.compactIndex ⟨offset, bytes⟩ = .error (.invalidCompactIndex offset) next := by
  obtain ⟨hlength, hchained⟩ := h
  have hsplit : bytes = bytes.take 5 ++ bytes.drop 5 := (List.take_append_drop 5 bytes).symm
  have hfive : (bytes.take 5).length = 5 := List.length_take_of_le hlength
  rw [hsplit]
  generalize bytes.take 5 = five at hchained hfive
  cases five with
  | nil => cases hfive
  | cons first leading =>
      rw [List.length_cons, Nat.add_right_cancel_iff] at hfive
      rw [List.cons_append, compactIndex_cons, bind_apply,
        compactMagnitude_chained offset _ _ hchained (Nat.le_of_eq hfive), hfive]
      exact ⟨_, rfl⟩

/-- Bytes that go on up to their end, fewer than five, leave the next byte to be wanted. -/
theorem compactIndex_of_cut (offset : Nat) {bytes : List UInt8} (h : Chained 0 bytes) (hlength : bytes.length < 5) :
    ∃ next, Reader.compactIndex ⟨offset, bytes⟩ = .error (.truncated (offset + bytes.length) 1) next := by
  cases bytes with
  | nil => exact ⟨_, rfl⟩
  | cons first leading =>
      obtain ⟨left, hleft⟩ : ∃ left, 4 - leading.length = left + 1 := by
        rw [List.length_cons] at hlength
        exact ⟨3 - leading.length, by omega⟩
      have hread := compactMagnitude_chained offset (offset + 1) [] h (by omega)
      rw [List.append_nil, hleft] at hread
      rw [compactIndex_cons, bind_apply, hread, add_length_cons]
      exact ⟨_, rfl⟩

/-- Bytes end where they say so, go on for too long or are all there is. -/
theorem chained_cases (k limit : Nat) (bytes : List UInt8) :
    (∃ leading last rest, bytes = leading ++ last :: rest ∧ leading.length < limit ∧ Chained k leading ∧
      ¬ Continues (k + leading.length) last) ∨
    (limit ≤ bytes.length ∧ Chained k (bytes.take limit)) ∨ (bytes.length < limit ∧ Chained k bytes) := by
  induction limit generalizing k bytes with
  | zero => exact .inr (.inl ⟨Nat.zero_le _, trivial⟩)
  | succ limit ih =>
      cases bytes with
      | nil => exact .inr (.inr ⟨Nat.succ_pos limit, trivial⟩)
      | cons byte bytes =>
          by_cases hcontinues : Continues k byte
          · rcases ih (k + 1) bytes with ⟨leading, last, rest, rfl, hlength, hchained, hlast⟩ | ⟨hlength, hchained⟩ |
              ⟨hlength, hchained⟩
            · refine .inl ⟨byte :: leading, last, rest, rfl, Nat.succ_lt_succ hlength, ⟨hcontinues, hchained⟩, ?_⟩
              rwa [add_length_cons]
            · exact .inr (.inl ⟨Nat.succ_le_succ hlength, hcontinues, hchained⟩)
            · exact .inr (.inr ⟨Nat.succ_lt_succ hlength, hcontinues, hchained⟩)
          · exact .inl ⟨[], byte, bytes, rfl, Nat.succ_pos limit, trivial, hcontinues⟩

/-- What reading gives, and the bytes it gives it for. -/
theorem compactIndex_cases (offset : Nat) (bytes : List UInt8) :
    (∃ spelled rest value, bytes = spelled ++ rest ∧ Spells spelled value ∧
      Reader.compactIndex ⟨offset, bytes⟩ = .ok value ⟨offset + spelled.length, rest⟩) ∨
    (Rejected bytes ∧ ∃ next, Reader.compactIndex ⟨offset, bytes⟩ = .error (.invalidCompactIndex offset) next) ∨
    ∃ next, Reader.compactIndex ⟨offset, bytes⟩ = .error (.truncated (offset + bytes.length) 1) next := by
  rcases chained_cases 0 5 bytes with ⟨leading, last, rest, hbytes, hlength, hchained, hlast⟩ | hunending |
    ⟨hlength, hchained⟩
  · rw [Nat.zero_add] at hlast
    rw [List.append_cons] at hbytes
    have hterminated : Terminated (leading ++ [last]) :=
      ⟨by simpa using Nat.succ_le_of_lt hlength, leading, last, rfl, hchained, hlast⟩
    generalize leading ++ [last] = spelled at hbytes hterminated
    subst hbytes
    rcases Nat.lt_or_ge (2 ^ 31 - 1) (magnitude 0 spelled) with hlarge | hbounded
    · have hread := compactIndex_of_large offset rest hterminated hlarge
      exact .inr (.inl ⟨.inr ⟨spelled, rest, rfl, hterminated, hlarge⟩, hread⟩)
    · obtain ⟨value, hspells⟩ := exists_spells hterminated hbounded
      exact .inl ⟨spelled, rest, value, rfl, hspells, hspells.recovers offset rest⟩
  · exact .inr (.inl ⟨.inl hunending, compactIndex_of_unending offset hunending⟩)
  · exact .inr (.inr (compactIndex_of_cut offset hchained hlength))

/-- Reading succeeds on what is spelled and on nothing else. -/
theorem compactIndex_eq_ok_iff {offset : Nat} {bytes : List UInt8} {value : Int32} {next : Input} :
    Reader.compactIndex ⟨offset, bytes⟩ = .ok value next ↔
      ∃ spelled rest, bytes = spelled ++ rest ∧ Spells spelled value ∧ next = ⟨offset + spelled.length, rest⟩ := by
  constructor
  · intro h
    rcases compactIndex_cases offset bytes with ⟨spelled, rest, value', hbytes, hspells, hread⟩ | ⟨-, stop, hread⟩ |
      ⟨stop, hread⟩
    · cases h.symm.trans hread
      exact ⟨spelled, rest, hbytes, hspells, rfl⟩
    · cases h.symm.trans hread
    · cases h.symm.trans hread
  · rintro ⟨spelled, rest, rfl, hspells, rfl⟩
    exact hspells.recovers offset rest

theorem Rejected.compactIndex {bytes : List UInt8} (h : Rejected bytes) (offset : Nat) :
    ∃ next, Reader.compactIndex ⟨offset, bytes⟩ = .error (.invalidCompactIndex offset) next := by
  rcases h with hunending | ⟨spelled, rest, rfl, hterminated, hlarge⟩
  · exact compactIndex_of_unending offset hunending
  · exact compactIndex_of_large offset rest hterminated hlarge

/-- Bytes are rejected, with the place of the first one, if they go on for too long or hold too much. -/
theorem compactIndex_eq_invalid_iff {offset start : Nat} {bytes : List UInt8} :
    (∃ next, Reader.compactIndex ⟨offset, bytes⟩ = .error (.invalidCompactIndex start) next) ↔
      start = offset ∧ Rejected bytes := by
  constructor
  · rintro ⟨next, h⟩
    rcases compactIndex_cases offset bytes with ⟨spelled, rest, value, -, -, hread⟩ | ⟨hrejected, stop, hread⟩ |
      ⟨stop, hread⟩
    · cases h.symm.trans hread
    · cases h.symm.trans hread
      exact ⟨rfl, hrejected⟩
    · cases h.symm.trans hread
  · rintro ⟨rfl, hrejected⟩
    exact hrejected.compactIndex start

/-- Another byte is wanted, at the end of the bytes, if they neither end where they say so nor go on for too long. -/
theorem compactIndex_eq_truncated_iff {offset stop wanted : Nat} {bytes : List UInt8} :
    (∃ next, Reader.compactIndex ⟨offset, bytes⟩ = .error (.truncated stop wanted) next) ↔
      (stop = offset + bytes.length ∧ wanted = 1) ∧
        ¬ Rejected bytes ∧ ¬ ∃ spelled rest value, bytes = spelled ++ rest ∧ Spells spelled value := by
  constructor
  · rintro ⟨next, h⟩
    have hrejected : ¬ Rejected bytes := by
      intro hrejected
      obtain ⟨_, hread⟩ := hrejected.compactIndex offset
      cases h.symm.trans hread
    rcases compactIndex_cases offset bytes with ⟨spelled, rest, value, -, -, hread⟩ | ⟨-, _, hread⟩ | ⟨_, hread⟩
    · cases h.symm.trans hread
    · cases h.symm.trans hread
    · cases h.symm.trans hread
      refine ⟨⟨rfl, rfl⟩, hrejected, ?_⟩
      rintro ⟨spelled, rest, value, rfl, hspells⟩
      cases h.symm.trans (hspells.recovers offset rest)
  · rintro ⟨⟨rfl, rfl⟩, hrejected, hspelled⟩
    rcases compactIndex_cases offset bytes with ⟨spelled, rest, value, hbytes, hspells, -⟩ | ⟨hrejects, -⟩ | hread
    · exact absurd ⟨spelled, rest, value, hbytes, hspells⟩ hspelled
    · exact absurd hrejects hrejected
    · exact hread

/-!
### Compact forms
-/

theorem length_compactDigits_le {count n : Nat} (h : n < 0x80 ^ (count + 1)) :
    (compactDigits n).length ≤ count + 1 := by
  induction count generalizing n with
  | zero =>
      rw [Nat.zero_add, Nat.pow_one] at h
      rw [compactDigits, if_pos h]
      exact Nat.le_refl 1
  | succ count ih =>
      rw [compactDigits]
      split
      · exact Nat.succ_le_succ (Nat.zero_le _)
      · have hrest : n / 0x80 < 0x80 ^ (count + 1) := by
          rw [Nat.pow_succ] at h
          exact Nat.div_lt_of_lt_mul (by omega)
        exact Nat.succ_le_succ (ih hrest)

theorem length_compactBytes_le {value : Int32} {count : Nat} (h : value.toInt.natAbs < 0x40 * 0x80 ^ count) :
    (compactBytes value).length ≤ count + 1 := by
  unfold compactBytes
  dsimp only
  split
  · exact Nat.succ_le_succ (Nat.zero_le _)
  · cases count with
    | zero => omega
    | succ count => exact Nat.succ_le_succ (length_compactDigits_le (Nat.div_lt_of_lt_mul h))

theorem Spells.natAbs {bytes : List UInt8} {value : Int32} (h : Spells bytes value) :
    value.toInt.natAbs = magnitude 0 bytes := by
  by_cases hnegative : Negative bytes
  · rw [h.negative hnegative, Int.natAbs_neg, Int.natAbs_natCast]
  · rw [h.positive hnegative, Int.natAbs_natCast]

/-- No bytes spell an index in fewer bytes than its compact form. -/
theorem Spells.length_le {bytes : List UInt8} {value : Int32} (h : Spells bytes value) :
    (compactBytes value).length ≤ bytes.length := by
  obtain ⟨first, later, rfl⟩ := h.terminated.exists_cons
  apply length_compactBytes_le
  rw [h.natAbs]
  exact magnitude_lt first later

/-- The compact form of an index spells it. -/
theorem spells_compactBytes {value : Int32} (h : value ≠ Int32.minValue) : Spells (compactBytes value) value := by
  obtain ⟨spelled, rest, heq, hspells, hnext⟩ := compactIndex_eq_ok_iff.1 (recovers_compactIndex h 0 [])
  obtain ⟨-, rfl⟩ := Input.mk.inj hnext
  rwa [List.append_cancel_right heq]

/-- The least index has no magnitude of 31 bits. -/
theorem not_spells_minValue (bytes : List UInt8) : ¬ Spells bytes Int32.minValue := by
  intro h
  have hbounded := h.bounded
  rw [← h.natAbs, Int32.toInt_minValue] at hbounded
  omega

end CompactIndex

open CompactIndex in
/-- What reading a compact index does, for all bytes. It gives an index if the next bytes spell it; it rejects them if
    the first five all say that another one follows or if they hold too large a magnitude; and otherwise it wants
    another byte. Compact forms are read whatever follows them, nothing shorter stands for the same index, and only
    the least index has none. -/
theorem compactIndex_characterised (offset : Nat) (bytes : List UInt8) :
    (∀ value next, Reader.compactIndex ⟨offset, bytes⟩ = .ok value next ↔
      ∃ spelled rest, bytes = spelled ++ rest ∧ Spells spelled value ∧ next = ⟨offset + spelled.length, rest⟩) ∧
    (∀ start, (∃ next, Reader.compactIndex ⟨offset, bytes⟩ = .error (.invalidCompactIndex start) next) ↔
      start = offset ∧ Rejected bytes) ∧
    (∀ stop wanted, (∃ next, Reader.compactIndex ⟨offset, bytes⟩ = .error (.truncated stop wanted) next) ↔
      (stop = offset + bytes.length ∧ wanted = 1) ∧
        ¬ Rejected bytes ∧ ¬ ∃ spelled rest value, bytes = spelled ++ rest ∧ Spells spelled value) ∧
    (∀ value, value ≠ Int32.minValue →
      Reader.compactIndex ⟨offset, compactBytes value ++ bytes⟩ =
          .ok value ⟨offset + (compactBytes value).length, bytes⟩ ∧
        Spells (compactBytes value) value ∧
        ∀ spelled, Spells spelled value → (compactBytes value).length ≤ spelled.length) ∧
    ∀ next, Reader.compactIndex ⟨offset, bytes⟩ ≠ .ok Int32.minValue next := by
  refine ⟨fun _ _ => compactIndex_eq_ok_iff, fun _ => compactIndex_eq_invalid_iff,
    fun _ _ => compactIndex_eq_truncated_iff, ?_, ?_⟩
  · intro value hvalue
    have hspells := spells_compactBytes hvalue
    exact ⟨hspells.recovers offset bytes, hspells, fun spelled hspelled => hspelled.length_le⟩
  · intro next hread
    obtain ⟨spelled, rest, -, hspells, -⟩ := compactIndex_eq_ok_iff.1 hread
    exact not_spells_minValue spelled hspells

open CompactIndex in
theorem compactIndex_characterised_endless :
    (Int32.ofInt (-300) ≠ Int32.minValue ∧
      Reader.compactIndex ⟨7, compactBytes (Int32.ofInt (-300)) ++ [0xFF]⟩ =
        .ok (Int32.ofInt (-300)) ⟨7 + (compactBytes (Int32.ofInt (-300))).length, [0xFF]⟩) ∧
    Rejected [0x40, 0x80, 0x80, 0x80, 0x80] ∧
      ∃ next, Reader.compactIndex ⟨7, [0x40, 0x80, 0x80, 0x80, 0x80]⟩ = .error (.invalidCompactIndex 7) next := by
  have hleast : Int32.ofInt (-300) ≠ Int32.minValue := by decide
  have hrejected : Rejected [0x40, 0x80, 0x80, 0x80, 0x80] :=
    .inl ⟨by decide, by decide, by decide, by decide, by decide, by decide, trivial⟩
  obtain ⟨-, -, -, hcompact, -⟩ := compactIndex_characterised 7 [0xFF]
  obtain ⟨-, hinvalid, -⟩ := compactIndex_characterised 7 [0x40, 0x80, 0x80, 0x80, 0x80]
  exact ⟨⟨hleast, (hcompact _ hleast).1⟩, hrejected, (hinvalid 7).2 ⟨rfl, hrejected⟩⟩

end ScriptBytecode
