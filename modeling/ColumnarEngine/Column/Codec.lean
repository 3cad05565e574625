import ColumnarEngine.Found.Codec
import ColumnarEngine.Found.Runs
import ColumnarEngine.Types.Value

/-!
# Run-length coding

`RLECodec` of `column/Codec.h`, for a type of integers. `Encode` carries the run that is open, a
count and a value, and appends a record when it ends; `Decode` reads records until its buffer is
used up. The records are the maximal runs of the data (`encode_eq`), which decoding expands again.
-/

namespace ColumnarEngine

open Found

/-! ## Integer types -/

/-- A type of integers: `sizeof(T)`, and whether it has a sign. -/
structure IntType where
  size : ℕ
  signed : Bool
  deriving DecidableEq, Repr

namespace IntType

variable {T : IntType} {n : ℤ}

/-- The integer is a value of the type. -/
def Holds (T : IntType) (n : ℤ) : Prop :=
  if T.signed then InWidth T.size n else 0 ≤ n ∧ n < 256 ^ T.size

instance (T : IntType) (n : ℤ) : Decidable (T.Holds n) := by unfold Holds; infer_instance

/-- The bytes that `memcpy` copies out of a value. -/
def toBytes (T : IntType) (n : ℤ) : Bytes := encodeInt T.size n

/-- The value that `memcpy` copies bytes into. -/
def ofBytes (T : IntType) (bytes : Bytes) : ℤ :=
  if T.signed then decodeInt bytes else ofLE bytes

@[simp] theorem length_toBytes (T : IntType) (n : ℤ) : (T.toBytes n).length = T.size :=
  length_encodeInt T.size n

/-- A value of the type is read back from its bytes. -/
theorem ofBytes_toBytes (h : T.Holds n) : T.ofBytes (T.toBytes n) = n := by
  unfold Holds at h
  unfold ofBytes toBytes
  split_ifs at h ⊢
  · exact decodeInt_encodeInt_of_inWidth h
  · rw [encodeInt, ofLE_toLE, Int.emod_eq_of_lt h.1 h.2, Nat.mod_eq_of_lt, Int.toNat_of_nonneg h.1]
    apply (Int.toNat_lt h.1).mpr
    exact_mod_cast h.2

end IntType

/-- `std::vector<T>` for a type of integers. -/
structure IntVector (T : IntType) where
  elems : List ℤ
  /-- The elements are values of the type. -/
  holds : ∀ n ∈ elems, T.Holds n
  /-- The size is a `size_t`. -/
  small : elems.length < 256 ^ 8

namespace RLECodec

variable (T : IntType)

/-! ## The codec -/

/-- `AppendEncoded`. -/
def appendEncoded (result : Bytes) (count : ℕ) (value : ℤ) : Bytes :=
  result ++ (toLE 8 count ++ T.toBytes value)

/-- The loop of `Encode`, and the `AppendEncoded` behind it. `count` is a `size_t`. -/
def encodeLoop (result : Bytes) (count : ℕ) (current : ℤ) : List ℤ → Bytes
  | [] => appendEncoded T result count current
  | value :: data =>
      if value = current then encodeLoop result ((count + 1) % 256 ^ 8) current data
      else encodeLoop (appendEncoded T result count current) 1 value data

/-- `Encode`. -/
def encode : List ℤ → Bytes
  | [] => []
  | value :: data => encodeLoop T [] 1 value data

/-- The two `memcpy` calls of the loop of `Decode`. -/
def recordDecoder : Decoder (ℕ × ℤ) := do
  let count ← Decoder.natLE 8
  let value ← Decoder.bytes T.size
  return (count, T.ofBytes value)

/-- `Decode`; a record that is cut off is read past the end of the buffer, which is undefined. -/
def decode (encodedData : Bytes) : Option (List ℤ) :=
  (Decoder.many (recordDecoder T) encodedData.length encodedData).map expand

/-! ## Records and runs -/

/-- The bytes of a run. -/
def record (run : ℕ × ℤ) : Bytes := toLE 8 run.1 ++ T.toBytes run.2

variable {T}

/-- The loop appends the records of the runs, where counting does not wrap. -/
theorem encodeLoop_eq {result : Bytes} {count : ℕ} {current : ℤ} {data : List ℤ}
    (h : count + data.length < 256 ^ 8) :
    encodeLoop T result count current data =
      result ++ (runsFrom count current data).flatMap (record T) := by
  induction data generalizing result count current with
  | nil =>
      unfold encodeLoop appendEncoded runsFrom
      rw [List.flatMap_singleton, record]
  | cons value data ih =>
      rw [List.length_cons] at h
      unfold encodeLoop runsFrom
      split_ifs
      · rw [Nat.mod_eq_of_lt (by omega)]
        apply ih
        omega
      · rw [List.flatMap_cons, ← List.append_assoc, ih (by omega)]
        rfl

/-- The encoding is the records of the runs. -/
theorem encode_eq (data : IntVector T) :
    encode T data.elems = (runs data.elems).flatMap (record T) := by
  have hsmall := data.small
  cases hdata : data.elems with
  | nil => rfl
  | cons value rest =>
      rw [hdata, List.length_cons] at hsmall
      have hloop := @encodeLoop_eq T [] 1 value rest (by omega)
      rwa [List.nil_append] at hloop

/-- The runs of a vector have counts of type `size_t` and values of the type. -/
theorem runs_fit (data : IntVector T) {run : ℕ × ℤ} (hrun : run ∈ runs data.elems) :
    run.1 < 256 ^ 8 ∧ T.Holds run.2 := by
  have hcount := count_le_length hrun
  have hmem := (maximal_runs data.elems).mem_expand hrun
  rw [expand_runs] at hcount hmem
  exact ⟨hcount.trans_lt data.small, data.holds _ hmem⟩

/-- A record is read back. -/
theorem decodes_recordDecoder {run : ℕ × ℤ} (hcount : run.1 < 256 ^ 8) (hvalue : T.Holds run.2) :
    (recordDecoder T).Decodes (record T run) run := by
  have hbytes := (Decoder.decodes_bytes (T.toBytes run.2)).map fun bytes => (run.1, T.ofBytes bytes)
  rw [T.length_toBytes, IntType.ofBytes_toBytes hvalue] at hbytes
  apply Decoder.Decodes.bind (Decoder.decodes_natLE hcount)
  exact hbytes

/-- Decoding an encoding gives the data. -/
theorem decode_encode (data : IntVector T) : decode T (encode T data.elems) = some data.elems := by
  have hrecord : ∀ run ∈ runs data.elems,
      (recordDecoder T).Decodes (record T run) (id run) ∧ record T run ≠ [] := by
    intro run hrun
    obtain ⟨hcount, hvalue⟩ := runs_fit data hrun
    refine ⟨decodes_recordDecoder hcount hvalue, ?_⟩
    simp [record, toLE]
  have hfuel := Decoder.length_le_length_flatMap fun run hrun => (hrecord run hrun).2
  unfold decode
  rw [encode_eq, Decoder.many_flatMap hrecord hfuel, List.map_id, Option.map_some, expand_runs]

/-- **Run-length coding is lossless**: the data are decoded from their encoding, the encoding is
that of maximal runs whose counts add up to the length of the data, and equal encodings are those
of equal data. -/
theorem encode_lossless (data : IntVector T) :
    decode T (encode T data.elems) = some data.elems ∧
      (∃ rs, encode T data.elems = rs.flatMap (record T) ∧ Maximal rs ∧
        (rs.map Prod.fst).sum = data.elems.length ∧ expand rs = data.elems ∧
        ∀ run ∈ rs, run.1 < 256 ^ 8 ∧ T.Holds run.2) ∧
      ∀ data' : IntVector T, encode T data'.elems = encode T data.elems →
        data'.elems = data.elems := by
  refine ⟨decode_encode data, ⟨runs data.elems, encode_eq data, maximal_runs _, ?_, expand_runs _,
    fun run hrun => runs_fit data hrun⟩, ?_⟩
  · rw [sum_counts, expand_runs]
  · intro data' hencode
    have hdecode := decode_encode data'
    rw [hencode, decode_encode data] at hdecode
    exact (Option.some.inj hdecode).symm

/-- A run of two and a run of one `int16_t`. -/
example : encode ⟨2, true⟩ [5, 5, -1] =
    [2, 0, 0, 0, 0, 0, 0, 0, 5, 0, 1, 0, 0, 0, 0, 0, 0, 0, 255, 255] := by decide

end RLECodec

end ColumnarEngine
