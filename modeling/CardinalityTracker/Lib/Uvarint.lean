import Mathlib

/-!
# Base-128 varints of 64-bit numbers

The unsigned varints of Go's `encoding/binary`: seven payload bits a byte, lowest first,
the high bit set on every byte but the last. `uvarint` keeps the library's own return
convention, a value and a byte count whose sign reports the failure (`0` for a buffer that
ends inside a number, negative for a number that does not fit 64 bits), because callers
test that count.

* `Encodes v x`: the bytes `v` are a varint of `x`, the shortest one or not; a reader that
  succeeds has read one of them and not looked further (`exists_encodes`, `Encodes.uvarint_append`);
* `uvarint_appendUvarint`: reading what was written gives the number back and consumes
  exactly its bytes, whatever follows them;
* `readMany n`: the longest list of at most `n` varints at the start of a buffer
  (`reads_readMany`, `Reads.isPrefix`).
-/

namespace Lib.Uvarint

/-- The longest varint of a 64-bit number. -/
def maxVarintLen64 : ℕ := 10

/-- The writer's loop; `x` loses seven bits a round, so nine rounds reach its last byte. -/
def appendLoop : ℕ → List UInt8 → UInt64 → List UInt8
  | 0, buf, x => buf ++ [x.toUInt8]
  | fuel + 1, buf, x =>
    if 0x80 ≤ x then appendLoop fuel (buf ++ [x.toUInt8 ||| 0x80]) (x >>> 7)
    else buf ++ [x.toUInt8]

/-- `binary.AppendUvarint`. -/
def appendUvarint (buf : List UInt8) (x : UInt64) : List UInt8 :=
  appendLoop (maxVarintLen64 - 1) buf x

/-- The reader's loop: `i` bytes read so far, the next one goes to bit `s` of `x`. -/
def uvarintLoop (i s : ℕ) (x : UInt64) : List UInt8 → UInt64 × ℤ
  | [] => (0, 0)
  | b :: bs =>
    if i = maxVarintLen64 then (0, -(i + 1))
    else if b < 0x80 then
      if i = maxVarintLen64 - 1 ∧ 1 < b then (0, -(i + 1))
      else (x ||| b.toUInt64 <<< UInt64.ofNat s, i + 1)
    else uvarintLoop (i + 1) (s + 7) (x ||| (b &&& 0x7f).toUInt64 <<< UInt64.ofNat s) bs

/-- `binary.Uvarint`: the number at the start of `buf` and how many bytes it takes. -/
def uvarint (buf : List UInt8) : UInt64 × ℤ := uvarintLoop 0 0 0 buf

/-! ## Bytes and bits -/

theorem toNat_low7 (x : UInt64) : (x.toUInt8 &&& 0x7f).toNat = x.toNat % 128 := by
  have h : (0x7f : UInt8).toNat = 2 ^ 7 - 1 := rfl
  rw [UInt8.toNat_and, h, Nat.and_two_pow_sub_one_eq_mod, UInt64.toNat_toUInt8]
  omega

/-- The continuation byte of `x` carries the low seven bits of `x`. -/
theorem toNat_cont_low7 (x : UInt64) :
    ((x.toUInt8 ||| 0x80) &&& 0x7f).toNat = x.toNat % 128 := by
  have h : (x.toUInt8 ||| 0x80) &&& 0x7f = x.toUInt8 &&& 0x7f := by
    apply UInt8.eq_of_toBitVec_eq
    simp only [UInt8.toBitVec_and, UInt8.toBitVec_or]
    ext i hi
    have : i < 8 := hi
    interval_cases i <;> simp [BitVec.getElem_and, BitVec.getElem_or]
  rw [h, toNat_low7]

theorem cont_not_lt (b : UInt8) : ¬ (b ||| 0x80) < 0x80 := by
  rw [UInt8.lt_iff_toNat_lt, UInt8.toNat_or]
  exact not_lt.mpr Nat.right_le_or

theorem toNat_shiftRight_seven (x : UInt64) : (x >>> 7).toNat = x.toNat / 128 := by
  simp [UInt64.toNat_shiftRight, Nat.shiftRight_eq_div_pow]

/-- Or-ing a byte in above the bits already read adds it at its place. -/
theorem toNat_or_shiftLeft {x : UInt64} {b : UInt8} {s : ℕ} (hs : s < 64)
    (hx : x.toNat < 2 ^ s) (hb : b.toNat * 2 ^ s < 2 ^ 64) :
    (x ||| b.toUInt64 <<< UInt64.ofNat s).toNat = x.toNat + b.toNat * 2 ^ s := by
  have hs' : (UInt64.ofNat s).toNat % 64 = s := by
    rw [UInt64.toNat_ofNat', Nat.mod_eq_of_lt (show s < 2 ^ 64 by omega), Nat.mod_eq_of_lt hs]
  rw [UInt64.toNat_or, UInt64.toNat_shiftLeft, hs', UInt8.toNat_toUInt64, Nat.shiftLeft_eq,
    Nat.mod_eq_of_lt hb, Nat.or_comm, Nat.mul_comm, ← Nat.two_pow_add_eq_or_of_lt hx,
    Nat.add_comm]

/-! ## Reading what was written -/

/-- The writer only appends. -/
theorem appendLoop_eq (fuel : ℕ) (buf : List UInt8) (x : UInt64) :
    appendLoop fuel buf x = buf ++ appendLoop fuel [] x := by
  induction fuel generalizing buf x with
  | zero => rfl
  | succ fuel ih =>
    rw [appendLoop, appendLoop]
    split
    · rw [ih, List.nil_append, ih [x.toUInt8 ||| 0x80], List.append_assoc]
    · rfl

theorem appendUvarint_eq (buf : List UInt8) (x : UInt64) :
    appendUvarint buf x = buf ++ appendUvarint [] x :=
  appendLoop_eq _ buf x

theorem appendUvarint_ne_nil (x : UInt64) : appendUvarint [] x ≠ [] := by
  rw [appendUvarint, maxVarintLen64, appendLoop]
  split
  · rw [appendLoop_eq]
    simp
  · simp

/-- With `7 * i` bits of a 64-bit number read, the `64 - 7 * i` bits left go above them. -/
theorem add_mul_two_pow_lt {i acc v : ℕ} (hi : i ≤ 9) (hacc : acc < 2 ^ (7 * i))
    (hv : v < 2 ^ (64 - 7 * i)) : acc + v * 2 ^ (7 * i) < 2 ^ 64 := by
  calc acc + v * 2 ^ (7 * i)
      < 2 ^ (7 * i) + v * 2 ^ (7 * i) := by omega
    _ = (v + 1) * 2 ^ (7 * i) := by ring
    _ ≤ 2 ^ (64 - 7 * i) * 2 ^ (7 * i) := Nat.mul_le_mul_right _ hv
    _ = 2 ^ 64 := by rw [← pow_add]; congr 1; omega

/-- The reader at the last byte of a number: what is left of it fits seven bits, one bit
in the tenth byte. -/
theorem uvarintLoop_last {i : ℕ} (hi : i ≤ 9) (acc v : UInt64) (rest : List UInt8)
    (hacc : acc.toNat < 2 ^ (7 * i)) (hv : v.toNat < 2 ^ (64 - 7 * i)) (hlt : v.toNat < 128) :
    uvarintLoop i (7 * i) acc (v.toUInt8 :: rest)
      = (UInt64.ofNat (acc.toNat + v.toNat * 2 ^ (7 * i)), ((i + 1 : ℕ) : ℤ)) := by
  have hb : v.toUInt8.toNat = v.toNat := by
    rw [UInt64.toNat_toUInt8]
    omega
  have hb80 : v.toUInt8 < 0x80 := UInt8.lt_iff_toNat_lt.mpr (by rw [hb]; exact hlt)
  -- the overflow test of the tenth byte: only one bit is left there
  have htenth : ¬ (i = 10 - 1 ∧ 1 < v.toUInt8) := by
    rintro ⟨rfl, h1⟩
    rw [UInt8.lt_iff_toNat_lt, hb] at h1
    have h1' : (1 : UInt8).toNat = 1 := rfl
    omega
  have hsum := add_mul_two_pow_lt hi hacc hv
  rw [uvarintLoop, maxVarintLen64, if_neg (by omega), if_pos hb80, if_neg htenth, Prod.mk.injEq]
  refine ⟨UInt64.toNat_inj.mp ?_, by push_cast; rfl⟩
  rw [toNat_or_shiftLeft (by omega) hacc (by rw [hb]; omega), hb, UInt64.toNat_ofNat',
    Nat.mod_eq_of_lt hsum]

/-- The reader, having read the low `7 * i` bits of a number, reads the remaining bits `v`
that the writer left, for any tail. The induction is on the rounds the writer has left. -/
theorem uvarintLoop_appendLoop (fuel i : ℕ) (hi : i + fuel = 9) (acc v : UInt64)
    (rest : List UInt8) (hacc : acc.toNat < 2 ^ (7 * i)) (hv : v.toNat < 2 ^ (64 - 7 * i)) :
    uvarintLoop i (7 * i) acc (appendLoop fuel [] v ++ rest)
      = (UInt64.ofNat (acc.toNat + v.toNat * 2 ^ (7 * i)),
          ((i + (appendLoop fuel [] v).length : ℕ) : ℤ)) := by
  induction fuel generalizing i acc v with
  | zero =>
    obtain rfl : i = 9 := by omega
    have h2 : v.toNat < 2 := by simpa using hv
    exact uvarintLoop_last (by omega) acc v rest hacc hv (by omega)
  | succ fuel ih =>
    rw [appendLoop]
    split
    case isFalse hlt =>
      have hlt' : v.toNat < 128 := UInt64.lt_iff_toNat_lt.mp (UInt64.not_le.mp hlt)
      exact uvarintLoop_last (by omega) acc v rest hacc hv hlt'
    case isTrue hge =>
      -- the next byte fits above the bits that have been read
      have hlow : v.toNat % 128 * 2 ^ (7 * i) < 2 ^ 64 := by
        have h := add_mul_two_pow_lt (by omega) hacc hv
        have hle := Nat.mul_le_mul_right (2 ^ (7 * i)) (Nat.mod_le v.toNat 128)
        omega
      have hacc' : (acc ||| ((v.toUInt8 ||| 0x80) &&& 0x7f).toUInt64
          <<< UInt64.ofNat (7 * i)).toNat = acc.toNat + v.toNat % 128 * 2 ^ (7 * i) := by
        rw [toNat_or_shiftLeft (by omega) hacc (by rw [toNat_cont_low7]; exact hlow),
          toNat_cont_low7]
      -- and takes the place of seven bits
      have hstep : (2 : ℕ) ^ (7 * (i + 1)) = 128 * 2 ^ (7 * i) := by
        rw [show 7 * (i + 1) = 7 * i + 7 by ring, pow_add]
        ring
      rw [List.nil_append, appendLoop_eq, List.append_assoc, List.singleton_append, uvarintLoop,
        maxVarintLen64, if_neg (by omega), if_neg (cont_not_lt _),
        show 7 * i + 7 = 7 * (i + 1) by ring, ih (i + 1) (by omega)]
      · rw [hacc', toNat_shiftRight_seven, hstep, Prod.mk.injEq]
        refine ⟨congrArg UInt64.ofNat ?_, ?_⟩
        · -- the low seven bits and the shifted rest recombine
          have hdm := Nat.mod_add_div v.toNat 128
          calc acc.toNat + v.toNat % 128 * 2 ^ (7 * i) + v.toNat / 128 * (128 * 2 ^ (7 * i))
              = acc.toNat + (v.toNat % 128 + 128 * (v.toNat / 128)) * 2 ^ (7 * i) := by ring
            _ = acc.toNat + v.toNat * 2 ^ (7 * i) := by rw [hdm]
        · rw [List.singleton_append, List.length_cons]
          push_cast
          ring
      · -- the accumulator keeps within the bits read
        rw [hacc', hstep]
        have hmod : v.toNat % 128 + 1 ≤ 128 := Nat.mod_lt _ (by norm_num)
        calc acc.toNat + v.toNat % 128 * 2 ^ (7 * i)
            < 2 ^ (7 * i) + v.toNat % 128 * 2 ^ (7 * i) := by omega
          _ = (v.toNat % 128 + 1) * 2 ^ (7 * i) := by ring
          _ ≤ 128 * 2 ^ (7 * i) := Nat.mul_le_mul_right _ hmod
      · -- and what remains of the number within those that are left
        rw [toNat_shiftRight_seven, Nat.div_lt_iff_lt_mul (by norm_num)]
        refine lt_of_lt_of_le hv ?_
        rw [show (128 : ℕ) = 2 ^ 7 by norm_num, ← pow_add]
        exact Nat.pow_le_pow_right (by norm_num) (by omega)

/-- **Round trip.** Reading a written number gives it back and consumes exactly its bytes. -/
theorem uvarint_appendUvarint (x : UInt64) (rest : List UInt8) :
    uvarint (appendUvarint [] x ++ rest) = (x, ((appendUvarint [] x).length : ℤ)) := by
  have hx : x.toNat < 2 ^ (64 - 7 * 0) := x.toNat_lt
  have h := uvarintLoop_appendLoop 9 0 rfl 0 x rest (by simp) hx
  simpa [uvarint, appendUvarint, maxVarintLen64] using h

/-! ## What a reader that succeeds has read -/

/-- The bytes `v` are one varint, of the number `x`. -/
def Encodes (v : List UInt8) (x : UInt64) : Prop := v ≠ [] ∧ uvarint v = (x, (v.length : ℤ))

theorem encodes_appendUvarint (x : UInt64) : Encodes (appendUvarint [] x) x := by
  have h := uvarint_appendUvarint x []
  rw [List.append_nil] at h
  exact ⟨appendUvarint_ne_nil x, h⟩

/-- A reader that succeeds does not look at the bytes behind the number. -/
theorem uvarintLoop_append {i s : ℕ} {x : UInt64} {buf : List UInt8}
    (h : 0 < (uvarintLoop i s x buf).2) (rest : List UInt8) :
    uvarintLoop i s x (buf ++ rest) = uvarintLoop i s x buf := by
  induction buf generalizing i s x with
  | nil => exact absurd h (lt_irrefl 0)
  | cons b bs ih =>
    rw [List.cons_append, uvarintLoop, uvarintLoop]
    rw [uvarintLoop] at h
    split
    · rfl
    · split
      · rfl
      · rw [if_neg (by assumption), if_neg (by assumption)] at h
        exact ih h

theorem Encodes.length_pos {v : List UInt8} {x : UInt64} (h : Encodes v x) :
    (0 : ℤ) < v.length :=
  Int.natCast_pos.mpr (List.length_pos_iff.mpr h.1)

theorem Encodes.uvarint_append {v : List UInt8} {x : UInt64} (h : Encodes v x)
    (rest : List UInt8) : uvarint (v ++ rest) = (x, (v.length : ℤ)) := by
  have hpos : 0 < (uvarintLoop 0 0 0 v).2 := by
    show 0 < (uvarint v).2
    rw [h.2]
    exact h.length_pos
  exact (uvarintLoop_append hpos rest).trans h.2

/-- The bytes that the loop has read, and the count it returns for them. -/
theorem exists_append_uvarintLoop {i s : ℕ} {x : UInt64} {buf : List UInt8}
    (h : 0 < (uvarintLoop i s x buf).2) :
    ∃ v rest, buf = v ++ rest ∧ v ≠ [] ∧
      uvarintLoop i s x v = ((uvarintLoop i s x buf).1, ((i + v.length : ℕ) : ℤ)) := by
  induction buf generalizing i s x with
  | nil => exact absurd h (lt_irrefl 0)
  | cons b bs ih =>
    rw [uvarintLoop] at h ⊢
    by_cases hmax : i = maxVarintLen64
    · rw [if_pos hmax] at h
      exact absurd h (by simp only; omega)
    rw [if_neg hmax] at h ⊢
    by_cases hlast : b < 0x80
    · rw [if_pos hlast] at h ⊢
      by_cases hover : i = maxVarintLen64 - 1 ∧ 1 < b
      · rw [if_pos hover] at h
        exact absurd h (by simp only; omega)
      · -- the last byte of the number
        refine ⟨[b], bs, rfl, List.cons_ne_nil _ _, ?_⟩
        rw [uvarintLoop, if_neg hmax, if_pos hlast, if_neg hover]
        rfl
    · rw [if_neg hlast] at h ⊢
      obtain ⟨v, rest, hbuf, -, hv⟩ := ih h
      refine ⟨b :: v, rest, by rw [hbuf, List.cons_append], List.cons_ne_nil _ _, ?_⟩
      rw [uvarintLoop, if_neg hmax, if_neg hlast, hv, List.length_cons, Nat.add_right_comm,
        Nat.add_assoc]

/-- **A reader that succeeds has read a varint** at the start of the buffer. -/
theorem exists_encodes {buf : List UInt8} (h : 0 < (uvarint buf).2) :
    ∃ v rest, buf = v ++ rest ∧ Encodes v (uvarint buf).1 := by
  obtain ⟨v, rest, hbuf, hne, hv⟩ := exists_append_uvarintLoop h
  rw [Nat.zero_add] at hv
  exact ⟨v, rest, hbuf, hne, hv⟩

/-- It has not read past the end. -/
theorem uvarint_snd_le_length {buf : List UInt8} (h : 0 < (uvarint buf).2) :
    (uvarint buf).2.toNat ≤ buf.length := by
  obtain ⟨v, rest, hbuf, hv⟩ := exists_encodes h
  rw [hbuf, hv.uvarint_append, Int.toNat_natCast, List.length_append]
  exact Nat.le_add_right _ _

/-! ## Several numbers -/

/-- The buffer starts with varints of the numbers, one right after the other; `rest` follows. -/
def Reads : List UInt64 → List UInt8 → List UInt8 → Prop
  | [], buf, rest => buf = rest
  | x :: xs, buf, rest => ∃ v buf', Encodes v x ∧ buf = v ++ buf' ∧ Reads xs buf' rest

theorem Reads.append {xs : List UInt64} {buf rest : List UInt8} (h : Reads xs buf rest)
    (t : List UInt8) : Reads xs (buf ++ t) (rest ++ t) := by
  induction xs generalizing buf with
  | nil => exact congrArg (· ++ t) h
  | cons x xs ih =>
    obtain ⟨v, buf', hv, rfl, hreads⟩ := h
    exact ⟨v, buf' ++ t, hv, List.append_assoc v buf' t, ih hreads⟩

/-- The longest list of at most `n` varints at the start of `buf`, and what follows it. -/
def readMany : ℕ → List UInt8 → List UInt64 × List UInt8
  | 0, buf => ([], buf)
  | n + 1, buf =>
    if (uvarint buf).2 ≤ 0 then ([], buf)
    else
      let r := readMany n (buf.drop (uvarint buf).2.toNat)
      ((uvarint buf).1 :: r.1, r.2)

theorem length_readMany_le (n : ℕ) (buf : List UInt8) : (readMany n buf).1.length ≤ n := by
  induction n generalizing buf with
  | zero => exact le_rfl
  | succ n ih =>
    unfold readMany
    split
    · exact Nat.zero_le _
    · exact Nat.succ_le_succ (ih _)

/-- The varints of a list of numbers, one after the other. -/
def appendMany (buf : List UInt8) (xs : List UInt64) : List UInt8 := xs.foldl appendUvarint buf

@[simp] theorem appendMany_cons (buf : List UInt8) (x : UInt64) (xs : List UInt64) :
    appendMany buf (x :: xs) = appendMany (appendUvarint buf x) xs := rfl

theorem appendMany_eq (buf : List UInt8) (xs : List UInt64) :
    appendMany buf xs = buf ++ appendMany [] xs := by
  induction xs generalizing buf with
  | nil => exact (List.append_nil buf).symm
  | cons x xs ih =>
    rw [appendMany_cons, appendMany_cons, ih, ih (appendUvarint [] x), appendUvarint_eq,
      List.append_assoc]

/-- One round of the reader on a buffer that starts with a varint. -/
theorem readMany_encodes {v : List UInt8} {x : UInt64} (hv : Encodes v x) (n : ℕ)
    (buf : List UInt8) :
    readMany (n + 1) (v ++ buf) = (x :: (readMany n buf).1, (readMany n buf).2) := by
  rw [readMany, hv.uvarint_append, if_neg (not_le.mpr hv.length_pos)]
  simp only [Int.toNat_natCast, List.drop_left]

/-- What is read are varints that stand one after the other. -/
theorem reads_readMany (n : ℕ) (buf : List UInt8) :
    Reads (readMany n buf).1 buf (readMany n buf).2 := by
  induction n generalizing buf with
  | zero => rfl
  | succ n ih =>
    by_cases hpos : (uvarint buf).2 ≤ 0
    · rw [readMany, if_pos hpos]
      rfl
    · obtain ⟨v, rest, hbuf, hv⟩ := exists_encodes (not_le.mp hpos)
      rw [hbuf, readMany_encodes hv]
      exact ⟨v, rest, hv, rfl, ih rest⟩

/-- Nothing longer can be read: every list of at most `n` varints at the start of the buffer
is at the start of the one that is read. -/
theorem Reads.isPrefix {xs : List UInt64} {buf rest : List UInt8} (h : Reads xs buf rest) {n : ℕ}
    (hn : xs.length ≤ n) : xs <+: (readMany n buf).1 := by
  induction xs generalizing buf n with
  | nil => exact List.nil_prefix
  | cons x xs ih =>
    obtain ⟨v, buf', hv, rfl, hreads⟩ := h
    obtain ⟨m, rfl⟩ := Nat.exists_eq_add_of_le' hn
    rw [List.length_cons, ← Nat.add_assoc, readMany_encodes hv, List.cons_prefix_cons]
    exact ⟨rfl, ih hreads (Nat.le_add_left _ _)⟩

/-- Reading as many numbers as there are gives them all. -/
theorem readMany_of_reads {xs : List UInt64} {buf rest : List UInt8} (h : Reads xs buf rest) :
    readMany xs.length buf = (xs, rest) := by
  induction xs generalizing buf with
  | nil => exact congrArg (Prod.mk []) h
  | cons x xs ih =>
    obtain ⟨v, buf', hv, rfl, hreads⟩ := h
    rw [List.length_cons, readMany_encodes hv, ih hreads]

theorem reads_appendMany (xs : List UInt64) (rest : List UInt8) :
    Reads xs (appendMany [] xs ++ rest) rest := by
  induction xs with
  | nil => rfl
  | cons x xs ih =>
    refine ⟨appendUvarint [] x, appendMany [] xs ++ rest, encodes_appendUvarint x, ?_, ih⟩
    rw [appendMany_cons, appendMany_eq, List.append_assoc]

/-- Reading as many numbers as were written gives them all back. -/
theorem readMany_appendMany (xs : List UInt64) (rest : List UInt8) :
    readMany xs.length (appendMany [] xs ++ rest) = (xs, rest) :=
  readMany_of_reads (reads_appendMany xs rest)

end Lib.Uvarint
