import Mathlib.Tactic

/-!
# Byte strings

Little-endian integers, subranges and in-place writes on byte lists. A write
never changes the length of a buffer it fits into, and adjacent writes combine.

* `toLe_ofLe`, `ofLe_toLe_of_lt`: encoding and decoding undo each other, at the width of the
  field.
* `eq_toLe_iff`: a field holds the encoding of a value exactly when it decodes to it.
* `slice_field`, `slice_append_slice`: fields behind a prefix are found again, and adjacent
  ones join.
* `write_write`: two writes, the second right behind the first, are one write.
-/

namespace Bytes

/-! ## Little-endian integers -/

/-- The low `k` bytes of `v`, least significant first. -/
def toLe : Nat → Nat → List UInt8
  | 0, _ => []
  | k + 1, v => UInt8.ofNat v :: toLe k (v / 256)

def ofLe : List UInt8 → Nat
  | [] => 0
  | b :: bs => b.toNat + 256 * ofLe bs

@[simp] theorem length_toLe (k v : Nat) : (toLe k v).length = k := by
  induction k generalizing v with
  | zero => rfl
  | succ k ih => simp [toLe, ih]

theorem ofLe_toLe (k v : Nat) : ofLe (toLe k v) = v % 256 ^ k := by
  induction k generalizing v with
  | zero => simp [toLe, ofLe, Nat.mod_one]
  | succ k ih =>
    have hb : (UInt8.ofNat v).toNat = v % 256 := by simp
    simp only [toLe, ofLe, ih, hb]
    rw [Nat.pow_succ', Nat.mod_mul]

theorem ofLe_toLe_of_lt {k v : Nat} (h : v < 256 ^ k) : ofLe (toLe k v) = v := by
  rw [ofLe_toLe, Nat.mod_eq_of_lt h]

theorem ofLe_lt (bs : List UInt8) : ofLe bs < 256 ^ bs.length := by
  induction bs with
  | nil => simp [ofLe]
  | cons b bs ih =>
    have hb := b.toNat_lt
    simp only [ofLe, List.length_cons, Nat.pow_succ']
    omega

theorem toLe_ofLe (bs : List UInt8) : toLe bs.length (ofLe bs) = bs := by
  induction bs with
  | nil => rfl
  | cons b bs ih =>
    have hb := b.toNat_lt
    have hdiv : (b.toNat + 256 * ofLe bs) / 256 = ofLe bs := by omega
    have hmod : UInt8.ofNat (b.toNat + 256 * ofLe bs) = b := by
      apply UInt8.toNat_inj.mp
      simp only [UInt8.toNat_ofNat']
      omega
    simp only [ofLe, List.length_cons, toLe, hdiv, hmod, ih]

/-- A field of `k` bytes holds the encoding of `v` exactly when it decodes to `v`. -/
theorem eq_toLe_iff {bs : List UInt8} {k v : Nat} (hlen : bs.length = k) (hv : v < 256 ^ k) :
    bs = toLe k v ↔ ofLe bs = v := by
  constructor
  · rintro rfl
    exact ofLe_toLe_of_lt hv
  · rintro rfl
    rw [← hlen, toLe_ofLe]

/-! ## Subranges and writes -/

/-- The bytes at positions `first` up to, not including, `last`. -/
def slice (bs : List UInt8) (first last : Nat) : List UInt8 := (bs.drop first).take (last - first)

/-- Copies `src` over the bytes of `dst` from position `start`. -/
def write (dst : List UInt8) (start : Nat) (src : List UInt8) : List UInt8 :=
  dst.take start ++ src ++ dst.drop (start + src.length)

theorem slice_append_left {a b : List UInt8} {first last : Nat} (h : last ≤ a.length) :
    slice (a ++ b) first last = slice a first last := by
  unfold slice
  by_cases hf : first ≤ a.length
  · rw [List.drop_append_of_le_length hf, List.take_append_of_le_length]
    rw [List.length_drop]
    omega
  · have hz : last - first = 0 := by omega
    simp [hz]

theorem slice_append_right {a b : List UInt8} {first last : Nat} (h : a.length ≤ first) :
    slice (a ++ b) first last = slice b (first - a.length) (last - a.length) := by
  unfold slice
  rw [List.drop_append, List.drop_of_length_le h, List.nil_append]
  congr 1
  omega

/-- A field between a prefix and the rest of a byte string. -/
theorem slice_field {a b c : List UInt8} {first last : Nat} (hf : first = a.length)
    (hl : last = a.length + b.length) : slice (a ++ b ++ c) first last = b := by
  rw [slice_append_left (by rw [List.length_append, hl]), slice_append_right (by omega)]
  subst hf hl
  simp [slice]

theorem slice_self {a : List UInt8} {n : Nat} (h : n = a.length) : slice a 0 n = a := by
  simp [slice, h]

theorem length_slice (bs : List UInt8) (first last : Nat) :
    (slice bs first last).length = min last bs.length - first := by
  simp only [slice, List.length_take, List.length_drop]
  omega

theorem slice_eq_drop_take (bs : List UInt8) (first last : Nat) :
    slice bs first last = (bs.take last).drop first := by
  rw [slice, List.drop_take]

theorem slice_take {bs : List UInt8} {n first last : Nat} (h : last ≤ n) :
    slice (bs.take n) first last = slice bs first last := by
  simp only [slice_eq_drop_take, List.take_take, Nat.min_eq_left h]

theorem take_slice (bs : List UInt8) (n first last : Nat) :
    (slice bs first last).take n = slice bs first (min (first + n) last) := by
  simp only [slice, List.take_take]
  congr 1
  omega

theorem drop_slice (bs : List UInt8) (n first last : Nat) :
    (slice bs first last).drop n = slice bs (first + n) last := by
  simp only [slice_eq_drop_take, List.drop_drop]

/-- Adjacent subranges join. -/
theorem slice_append_slice {bs : List UInt8} {a b c : Nat} (hab : a ≤ b) (hbc : b ≤ c) :
    slice bs a b ++ slice bs b c = slice bs a c := by
  have h : (bs.take b) = (bs.take c).take b := by rw [List.take_take, Nat.min_eq_left hbc]
  simp only [slice_eq_drop_take, h]
  by_cases hl : a ≤ ((bs.take c).take b).length
  · rw [← List.drop_append_of_le_length hl, List.take_append_drop]
  · have hle : (bs.take c).length ≤ a := by
      simp only [List.length_take] at hl ⊢
      omega
    have hle' : ((bs.take c).take b).length ≤ a := by
      simp only [List.length_take] at hl ⊢
      omega
    rw [List.drop_of_length_le hle, List.drop_of_length_le hle',
      List.drop_of_length_le (by omega)]
    rfl

theorem take_append_slice {bs : List UInt8} {a b : Nat} (h : a ≤ b) :
    bs.take a ++ slice bs a b = bs.take b := by
  have := @slice_append_slice bs 0 a b (Nat.zero_le a) h
  simpa [slice_eq_drop_take] using this

@[simp] theorem slice_same (bs : List UInt8) (a : Nat) : slice bs a a = [] := by simp [slice]

@[simp] theorem length_write {dst src : List UInt8} {start : Nat}
    (h : start + src.length ≤ dst.length) : (write dst start src).length = dst.length := by
  simp only [write, List.length_append, List.length_take, List.length_drop]
  omega

theorem take_write {dst src : List UInt8} {start : Nat} (h : start ≤ dst.length) :
    (write dst start src).take (start + src.length) = dst.take start ++ src := by
  unfold write
  rw [List.take_append_of_le_length]
  · rw [List.take_of_length_le]
    simp [h]
  · simp [h]

theorem drop_write {dst src : List UInt8} {start : Nat} (h : start ≤ dst.length) :
    (write dst start src).drop (start + src.length) = dst.drop (start + src.length) := by
  unfold write
  rw [List.drop_append]
  simp [h]

/-- Two writes, the second right after the first, are one write. -/
theorem write_write {dst a b : List UInt8} {start : Nat}
    (h : start + a.length ≤ dst.length) :
    write (write dst start a) (start + a.length) b = write dst start (a ++ b) := by
  conv_lhs => rw [write]
  rw [take_write (by omega), ← List.drop_drop, drop_write (by omega), List.drop_drop]
  simp only [write, List.length_append, List.append_assoc]
  congr 4
  omega

end Bytes
