import Mathlib.Tactic.FinCases
import Mathlib.Tactic.IntervalCases
import SP2022.Booking

/-!
# The bytes of `bookingRecord`

A `record` is four `int`s, each with its least byte first, so `sizeof(record)` is `16`. A file
is the bytes at its offsets. As records it is the file of the servers (`records`). A record that
is written and read again is the same (`decode_encode`), and writing one at its offset changes
this record and no other (`records_writeAt`).
-/

namespace SP2022.Booking

/-- The byte `j` of an `int`. -/
def byteOf (n : ℤ) (j : ℕ) : UInt8 :=
  UInt8.ofNat (n / 256 ^ j % 256).toNat

/-- The bytes of an `int`. -/
def encodeInt (n : ℤ) : Bytes :=
  [byteOf n 0, byteOf n 1, byteOf n 2, byteOf n 3]

/-- The `int` at an offset of these bytes. -/
def decodeInt (data : Bytes) (offset : ℕ) : ℤ :=
  int32 ((data.getD offset 0).toNat + 256 * (data.getD (offset + 1) 0).toNat +
    65536 * (data.getD (offset + 2) 0).toNat + 16777216 * (data.getD (offset + 3) 0).toNat)

/-- The bytes of a `record`. -/
def Record.encode (r : Record) : Bytes :=
  encodeInt r.id ++ (List.finRange OBJ_NUM).flatMap fun j => encodeInt (r.bookingState j)

/-- The `record` with these bytes. -/
def Record.decode (data : Bytes) : Record where
  id := decodeInt data 0
  bookingState j := decodeInt data (4 * j + 4)

/-- `read` at an offset. -/
def readAt (content : ℤ → UInt8) (offset : ℤ) (n : ℕ) : Bytes :=
  (List.range n).map fun j : ℕ => content (offset + j)

/-- `write` at an offset. -/
def writeAt (content : ℤ → UInt8) (offset : ℤ) (data : Bytes) : ℤ → UInt8 :=
  fun b =>
    if offset ≤ b ∧ b < offset + data.length then data.getD (b - offset).toNat 0 else content b

/-- The records of a file. -/
def records (content : ℤ → UInt8) : File :=
  fun k => .decode (readAt content (sizeofRecord * k) sizeofRecord.toNat)

/-- The fields of a record are `int`s. -/
structure Record.IsInt (r : Record) : Prop where
  id : SP2022.IsInt r.id
  bookingState : ∀ j, SP2022.IsInt (r.bookingState j)

/-! ## Round trips -/

theorem toNat_byteOf (n : ℤ) (j : ℕ) : ((byteOf n j).toNat : ℤ) = n / 256 ^ j % 256 := by
  have h0 : 0 ≤ n / 256 ^ j % 256 := Int.emod_nonneg _ (by omega)
  have h1 : n / 256 ^ j % 256 < 256 := Int.emod_lt_of_pos _ (by omega)
  unfold byteOf
  rw [UInt8.toNat_ofNat', Nat.mod_eq_of_lt (by omega)]
  omega

/-- An `int` with its four bytes. -/
theorem decodeInt_of_bytes {data : Bytes} {offset : ℕ} {n : ℤ} (hn : IsInt n)
    (h : ∀ j < 4, data.getD (offset + j) 0 = byteOf n j) : decodeInt data offset = n := by
  have h0 := h 0 (by omega)
  rw [Nat.add_zero] at h0
  unfold decodeInt
  rw [h0, h 1 (by omega), h 2 (by omega), h 3 (by omega)]
  simp only [toNat_byteOf]
  conv_rhs => rw [← int32_eq hn]
  refine int32_congr ?_
  omega

theorem length_encode (r : Record) : r.encode.length = 16 :=
  rfl

/-- A `record` that is written can be read. -/
theorem decode_encode {r : Record} (hr : r.IsInt) : Record.decode r.encode = r := by
  obtain ⟨hid, hstate⟩ := hr
  refine Record.mk.injEq _ _ _ _ |>.mpr ⟨?_, funext fun j => ?_⟩
  · refine decodeInt_of_bytes hid fun j hj => ?_
    interval_cases j <;> rfl
  · refine decodeInt_of_bytes (hstate j) fun i hi => ?_
    fin_cases j <;> interval_cases i <;> rfl

theorem Record.IsInt.update {r : Record} (h : r.IsInt) {c : Counts}
    (hc : ∀ j, SP2022.IsInt (c j)) : Record.IsInt { r with bookingState := c } :=
  ⟨h.id, hc⟩

theorem isInt_decodeInt (data : Bytes) (offset : ℕ) : IsInt (decodeInt data offset) :=
  int32_isInt _

theorem isInt_decode (data : Bytes) : (Record.decode data).IsInt := by
  constructor <;> simp only [Record.decode]
  · exact isInt_decodeInt data 0
  · exact fun j => isInt_decodeInt data _

section Files

variable {content : ℤ → UInt8} {offset offset' : ℤ} {data data' : Bytes} {n : ℕ}

@[simp] theorem length_readAt : (readAt content offset n).length = n := by
  simp [readAt]

/-- What was written is read. -/
theorem readAt_writeAt_self : readAt (writeAt content offset data) offset data.length = data := by
  refine List.ext_getElem (by simp) fun j hj hj' => ?_
  have hrange : offset ≤ offset + j ∧ offset + j < offset + data.length := by omega
  simp only [readAt, List.getElem_map, List.getElem_range, writeAt, if_pos hrange,
    add_sub_cancel_left, Int.toNat_natCast]
  simp [hj']

/-- Elsewhere nothing changes. -/
theorem readAt_writeAt_of_disjoint
    (h : offset' + n ≤ offset ∨ offset + data.length ≤ offset') :
    readAt (writeAt content offset data) offset' n = readAt content offset' n := by
  refine List.map_congr_left fun j hj => ?_
  have hj' := List.mem_range.1 hj
  exact if_neg (by omega)

/-- Two writes at different places. -/
theorem writeAt_comm
    (h : offset' + data'.length ≤ offset ∨ offset + data.length ≤ offset') :
    writeAt (writeAt content offset data) offset' data' =
      writeAt (writeAt content offset' data') offset data := by
  funext b
  unfold writeAt
  split_ifs <;> first | rfl | omega

/-- Writing a record changes this record. -/
theorem records_writeAt {k : ℤ} {r : Record} (hr : r.IsInt) :
    records (writeAt content (sizeofRecord * k) r.encode) =
      Function.update (records content) k r := by
  funext m
  unfold records
  by_cases hm : m = k
  · subst hm
    rw [Function.update_self]
    exact (congrArg Record.decode readAt_writeAt_self).trans (decode_encode hr)
  · rw [Function.update_of_ne hm, readAt_writeAt_of_disjoint]
    simp only [length_encode, sizeofRecord]
    omega

theorem isInt_records (k : ℤ) : (records content k).IsInt :=
  isInt_decode _

end Files

end SP2022.Booking
