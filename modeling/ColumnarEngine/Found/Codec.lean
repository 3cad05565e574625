import ColumnarEngine.Found.TwosComplement

/-!
# Reading bytes back

A `Decoder` reads a value from the front of a byte buffer and leaves the rest; it has no result
when it would read past the end. `Decodes d enc a` says that `d` reads `a` from the bytes `enc`,
whatever follows them, and is closed under sequencing and repetition; `Sound d enc valid` is the
other direction, that what `d` reads is the encoding of its result. `many` reads until nothing is
left. `Stored file off bytes` says that `bytes` are found in `file` at `off`, which appending to the
file does not change.
-/

namespace ColumnarEngine.Found

variable {α β : Type}

/-- A reader of a byte buffer. -/
abbrev Decoder (α : Type) := StateT (List UInt8) Option α

namespace Decoder

/-- The next `n` bytes. -/
def bytes (n : ℕ) : Decoder (List UInt8) := fun buffer =>
  if n ≤ buffer.length then some (buffer.take n, buffer.drop n) else none

/-- The next `w` bytes as a little-endian natural. -/
def natLE (w : ℕ) : Decoder ℕ := do return ofLE (← bytes w)

/-- The reader `n` times in a row. -/
def times (d : Decoder α) : ℕ → Decoder (List α)
  | 0 => return []
  | n + 1 => do
      let a ← d
      let as ← times d n
      return a :: as

/-- The reader until the buffer is empty, at most `fuel` times. -/
def many (d : Decoder α) : ℕ → List UInt8 → Option (List α)
  | _, [] => some []
  | 0, _ :: _ => none
  | fuel + 1, b :: bs => (d (b :: bs)).bind fun (a, rest) => (many d fuel rest).map (a :: ·)

/-- The reader reads `a` from `enc` and leaves what follows. -/
def Decodes (d : Decoder α) (enc : List UInt8) (a : α) : Prop :=
  ∀ rest, d (enc ++ rest) = some (a, rest)

/-- Reading nothing. -/
theorem Decodes.pure (a : α) : Decodes (Pure.pure a) [] a := fun _ => rfl

/-- Reading two things in a row. -/
theorem Decodes.bind {d : Decoder α} {k : α → Decoder β} {enc enc' : List UInt8} {a : α} {b : β}
    (hd : Decodes d enc a) (hk : Decodes (k a) enc' b) : Decodes (d >>= k) (enc ++ enc') b := by
  intro rest
  show (d (enc ++ enc' ++ rest)).bind (fun p => k p.1 p.2) = some (b, rest)
  rw [List.append_assoc, hd, Option.bind_some, hk]

/-- Reading with a function applied to the result. -/
theorem Decodes.map {d : Decoder α} {enc : List UInt8} {a : α} (hd : Decodes d enc a) (f : α → β) :
    Decodes (do return f (← d)) enc (f a) := by
  have hreturn := hd.bind (k := fun a => (Pure.pure (f a) : Decoder β)) (Decodes.pure (f a))
  rwa [List.append_nil] at hreturn

theorem decodes_bytes (bs : List UInt8) : Decodes (bytes bs.length) bs bs := by
  intro rest
  simp [bytes]

/-- A natural that fits is read back. -/
theorem decodes_natLE {w n : ℕ} (h : n < 256 ^ w) : Decodes (natLE w) (toLE w n) n := by
  have := (decodes_bytes (toLE w n)).map ofLE
  rwa [length_toLE, ofLE_toLE_of_lt h] at this

/-- A list of encodings is read back by the reader repeated. -/
theorem decodes_times {γ : Type*} {d : Decoder α} {enc : γ → List UInt8} {val : γ → α} {l : List γ}
    (h : ∀ x ∈ l, Decodes d (enc x) (val x)) :
    Decodes (times d l.length) (l.flatMap enc) (l.map val) := by
  induction l with
  | nil => exact Decodes.pure []
  | cons x l ih =>
      have hrest := ih fun y hy => h y (List.mem_cons_of_mem x hy)
      exact (h x List.mem_cons_self).bind (hrest.map (val x :: ·))

/-- Non-empty encodings have at least a byte for each element. -/
theorem length_le_length_flatMap {γ : Type*} {enc : γ → List UInt8} {l : List γ}
    (h : ∀ x ∈ l, enc x ≠ []) : l.length ≤ (l.flatMap enc).length := by
  induction l with
  | nil => exact Nat.le_refl 0
  | cons x l ih =>
      have hx : 0 < (enc x).length := List.length_pos_iff.mpr (h x List.mem_cons_self)
      have hl := ih fun y hy => h y (List.mem_cons_of_mem x hy)
      rw [List.flatMap_cons, List.length_append, List.length_cons]
      omega

/-- A list of non-empty encodings is read back by reading until the end. -/
theorem many_flatMap {γ : Type*} {d : Decoder α} {enc : γ → List UInt8} {val : γ → α} {l : List γ}
    {fuel : ℕ} (h : ∀ x ∈ l, Decodes d (enc x) (val x) ∧ enc x ≠ []) (hfuel : l.length ≤ fuel) :
    many d fuel (l.flatMap enc) = some (l.map val) := by
  induction l generalizing fuel with
  | nil => cases fuel <;> rfl
  | cons x l ih =>
      obtain ⟨hx, hne⟩ := h x List.mem_cons_self
      cases fuel with
      | zero => simp at hfuel
      | succ fuel =>
          have hrest :=
            @ih fuel (fun y hy => h y (List.mem_cons_of_mem x hy)) (by simpa using hfuel)
          have hread := hx (l.flatMap enc)
          rw [List.flatMap_cons, List.map_cons]
          cases henc : enc x ++ l.flatMap enc with
          | nil => exact absurd (List.append_eq_nil_iff.mp henc).1 hne
          | cons b bs => simp [many, ← henc, hread, hrest]

/-! ### What is read is an encoding -/

/-- What the reader takes off the buffer is the encoding of its result, which is valid. -/
def Sound (d : Decoder α) (enc : α → List UInt8) (valid : α → Prop) : Prop :=
  ∀ ⦃buffer a rest⦄, d buffer = some (a, rest) → valid a ∧ buffer = enc a ++ rest

/-- Two things are read in a row if the second is read behind the first. -/
theorem bind_eq_some {d : Decoder α} {k : α → Decoder β} {buffer rest : List UInt8} {b : β} :
    (d >>= k) buffer = some (b, rest) ↔
      ∃ a mid, d buffer = some (a, mid) ∧ k a mid = some (b, rest) := by
  show (d buffer).bind (fun p => k p.1 p.2) = some (b, rest) ↔ _
  rw [Option.bind_eq_some_iff]
  exact ⟨fun ⟨p, hp, hb⟩ => ⟨p.1, p.2, hp, hb⟩, fun ⟨a, mid, hd, hk⟩ => ⟨(a, mid), hd, hk⟩⟩

theorem pure_eq_some {a b : α} {buffer rest : List UInt8} :
    (Pure.pure a : Decoder α) buffer = some (b, rest) ↔ a = b ∧ buffer = rest := by
  show some (a, buffer) = some (b, rest) ↔ _
  rw [Option.some_inj, Prod.mk.injEq]

theorem sound_bytes (n : ℕ) : Sound (bytes n) id fun bs => bs.length = n := by
  intro buffer bs rest h
  unfold bytes at h
  split_ifs at h with hle
  obtain ⟨rfl, rfl⟩ := Prod.mk.inj (Option.some.inj h)
  exact ⟨List.length_take_of_le hle, (List.take_append_drop n buffer).symm⟩

/-- A natural fits its bytes. -/
theorem sound_natLE (w : ℕ) : Sound (natLE w) (toLE w) fun n => n < 256 ^ w := by
  intro buffer n rest h
  obtain ⟨bs, mid, hbytes, hreturn⟩ := bind_eq_some.mp h
  obtain ⟨rfl, rfl⟩ := pure_eq_some.mp hreturn
  obtain ⟨hlength, hbuffer⟩ := sound_bytes w hbytes
  constructor
  · rw [← hlength]
    exact ofLE_lt bs
  · rw [hbuffer, ← hlength, toLE_ofLE]
    rfl

/-- The results of the reader repeated are valid, and read off their encodings. -/
theorem Sound.times {d : Decoder α} {enc : α → List UInt8} {valid : α → Prop}
    (hd : Sound d enc valid) (n : ℕ) :
    Sound (times d n) (fun as => as.flatMap enc) fun as => as.length = n ∧ ∀ a ∈ as, valid a := by
  induction n with
  | zero =>
      intro buffer as rest h
      obtain ⟨rfl, rfl⟩ := pure_eq_some.mp h
      exact ⟨⟨rfl, List.forall_mem_nil _⟩, rfl⟩
  | succ n ih =>
      intro buffer as rest h
      obtain ⟨a, mid, ha, hrest⟩ := bind_eq_some.mp h
      obtain ⟨as', mid', has', hreturn⟩ := bind_eq_some.mp hrest
      obtain ⟨rfl, rfl⟩ := pure_eq_some.mp hreturn
      obtain ⟨hvalid, hbuffer⟩ := hd ha
      obtain ⟨⟨hlength, hall⟩, hmid⟩ := ih has'
      refine ⟨⟨?_, List.forall_mem_cons.mpr ⟨hvalid, hall⟩⟩, ?_⟩
      · rw [List.length_cons, hlength]
      · show buffer = (a :: as').flatMap enc ++ mid'
        rw [List.flatMap_cons, List.append_assoc, hbuffer, hmid]

/-- The results of reading until the end are valid, and the buffer is their encodings. -/
theorem Sound.many {d : Decoder α} {enc : α → List UInt8} {valid : α → Prop}
    (hd : Sound d enc valid) {fuel : ℕ} {buffer : List UInt8} {as : List α}
    (h : many d fuel buffer = some as) : (∀ a ∈ as, valid a) ∧ buffer = as.flatMap enc := by
  induction fuel generalizing buffer as with
  | zero =>
      cases buffer with
      | nil =>
          obtain rfl := Option.some.inj h
          exact ⟨List.forall_mem_nil _, rfl⟩
      | cons b bs => exact absurd h (by simp [Decoder.many])
  | succ fuel ih =>
      cases buffer with
      | nil =>
          obtain rfl := Option.some.inj h
          exact ⟨List.forall_mem_nil _, rfl⟩
      | cons b bs =>
          unfold Decoder.many at h
          obtain ⟨⟨a, rest⟩, ha, hmap⟩ := Option.bind_eq_some_iff.mp h
          obtain ⟨as', has', rfl⟩ := Option.map_eq_some_iff.mp hmap
          obtain ⟨hvalid, hbuffer⟩ := hd ha
          obtain ⟨hall, hrest⟩ := ih has'
          refine ⟨List.forall_mem_cons.mpr ⟨hvalid, hall⟩, ?_⟩
          rw [List.flatMap_cons, hbuffer, hrest]

end Decoder

/-! ## Fixed-width integers in a row -/

/-- The `n` two's complement integers of `w` bytes at the front of a buffer. -/
def decodeInts (w : ℕ) : ℕ → List UInt8 → List ℤ
  | 0, _ => []
  | n + 1, buffer => decodeInt (buffer.take w) :: decodeInts w n (buffer.drop w)

/-- Integers that fit are read back. -/
theorem decodeInts_flatMap {w : ℕ} {ns : List ℤ} (h : ∀ n ∈ ns, InWidth w n) :
    decodeInts w ns.length (ns.flatMap (encodeInt w)) = ns := by
  induction ns with
  | nil => rfl
  | cons n ns ih =>
      have htake : (encodeInt w n ++ ns.flatMap (encodeInt w)).take w = encodeInt w n :=
        List.take_left' (by simp)
      have hdrop : (encodeInt w n ++ ns.flatMap (encodeInt w)).drop w = ns.flatMap (encodeInt w) :=
        List.drop_left' (by simp)
      simp only [List.length_cons, List.flatMap_cons, decodeInts, htake, hdrop]
      rw [decodeInt_encodeInt_of_inWidth (h n List.mem_cons_self),
        ih fun m hm => h m (List.mem_cons_of_mem n hm)]

/-! ## Bytes at a place of a file -/

/-- The bytes are in the file at the offset. -/
def Stored (file : List UInt8) (off : ℕ) (bytes : List UInt8) : Prop := bytes <+: file.drop off

/-- What is appended is stored at the old end. -/
theorem stored_length_append (file bytes : List UInt8) :
    Stored (file ++ bytes) file.length bytes := by
  simp [Stored]

/-- Appending keeps what is stored. -/
theorem Stored.append {file bytes : List UInt8} {off : ℕ} (h : Stored file off bytes)
    (more : List UInt8) : Stored (file ++ more) off bytes := by
  unfold Stored
  rw [List.drop_append]
  exact h.trans (List.prefix_append _ _)

/-- Reading as many bytes at the offset gives what is stored there. -/
theorem Stored.take_drop {file bytes : List UInt8} {off : ℕ} (h : Stored file off bytes) :
    (file.drop off).take bytes.length = bytes :=
  (List.prefix_iff_eq_take.mp h).symm

end ColumnarEngine.Found
