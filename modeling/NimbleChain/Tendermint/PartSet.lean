import NimbleChain.Common.Execution
import NimbleChain.Common.ListSum
import NimbleChain.Tendermint.BitArray
import NimbleChain.Tendermint.MerkleProof

/-!
# Part sets

`types/part_set.go`. The proposer splits the bytes of a block into parts and signs the header of the
part set: the number of parts and the root of their Merkle tree. The other nodes start from an empty
part set with that header and add the parts that peers send them. A part is filed in the slot that
it names itself, and its proof is verified for the index and the total that the proof names;
`AddPart` does not compare the two.
-/

namespace NimbleChain.Tendermint

open Common List Option UInt32 BitArray

/-- `Part`. -/
structure Part where
  index : UInt32
  bytes : Bytes
  proof : MerkleProof
  deriving DecidableEq

/-- `PartSet`. -/
structure PartSet where
  total : UInt32
  hash : Bytes
  parts : List (Option Part)
  partsBitArray : Option BitArray
  count : UInt32
  byteSize : Int
  deriving DecidableEq

/-- The errors of `AddPart`. -/
inductive PartSetError where
  /-- `ErrPartSetUnexpectedIndex`. -/
  | unexpectedIndex
  /-- `ErrPartSetInvalidProof`. -/
  | invalidProof
  deriving DecidableEq

namespace PartSet

variable (H : HashFunction) (data : Bytes) (partSize : UInt32)

/-- The slice for the part with an index: `data[i*partSize : tmmath.MinInt(len(data),
int((i+1)*partSize))]`, in the arithmetic of `uint32`. -/
def slice (i : UInt32) : Bytes :=
  let high := ((i + 1) * partSize).toNat
  (data.take (if data.length < high then data.length else high)).drop (i * partSize).toNat

/-- The number of parts, in the arithmetic of `uint32`. -/
def totalOf : UInt32 :=
  (ofNat data.length + partSize - 1) / partSize

/-- The slices of all parts. -/
def slices : List Bytes :=
  (List.range (totalOf data partSize).toNat).map fun i => slice data partSize (ofNat i)

/-- Set the bits with the given indices. -/
def setBits (bA : Option BitArray) : List Nat → Option (Option BitArray)
  | [] => some bA
  | i :: rest => (setIndexOf bA i true).bind fun result => setBits result.1 rest

/-- `NewPartSetFromData`, for a positive part size. -/
def newPartSetFromData : Option PartSet := do
  let total := totalOf data partSize
  let partsBytes := slices data partSize
  let partsBitArray ← setBits (newBitArray total.toNat) (List.range total.toNat)
  let (root, proofs) := MerkleProof.proofsFromByteSlices H partsBytes
  let parts := (partsBytes.zip proofs).mapIdx fun i part =>
    some { index := ofNat i, bytes := part.1, proof := part.2 }
  some { total, hash := root, parts, partsBitArray, count := total, byteSize := data.length }

variable (ps : PartSet)

/-- `Header`. -/
def header : PartSetHeader :=
  { total := ps.total, hash := ps.hash }

/-- `NewPartSetFromHeader`. -/
def newPartSetFromHeader (header : PartSetHeader) : PartSet where
  total := header.total
  hash := header.hash
  parts := List.replicate header.total.toNat none
  partsBitArray := newBitArray header.total.toNat
  count := 0
  byteSize := 0

variable (part : Part)

/-- `AddPart`: the part set afterwards, and what is returned. -/
def addPart : Option (PartSet × Except PartSetError Bool) :=
  if ps.total ≤ part.index then some (ps, .error .unexpectedIndex)
  else do
    let slot ← ps.parts[part.index.toNat]?
    if slot.isSome then some (ps, .ok false)
    else
      match part.proof.verify H ps.hash part.bytes with
      | .error _ => some (ps, .error .invalidProof)
      | .ok () => do
        let (partsBitArray, _) ← setIndexOf ps.partsBitArray part.index.toNat true
        some ({ ps with
          parts := ps.parts.set part.index.toNat (some part)
          partsBitArray
          count := ps.count + 1
          byteSize := ps.byteSize + part.bytes.length }, .ok true)

/-- `IsComplete`. -/
def isComplete : Bool :=
  ps.count == ps.total

/-- `PartSetReader`: the unread bytes of the current part, and the parts after it. -/
structure Reader where
  current : Bytes
  rest : List (Option Part)

/-- `NewPartSetReader` of the parts of a set, which must be complete. -/
def getReader : Option Reader :=
  if ps.isComplete then
    match ps.parts with
    | some part :: rest => some { current := part.bytes, rest }
    | _ => none
  else none

/-- What `Read` returns: the bytes, whether the error is `io.EOF`, and the reader afterwards. -/
structure ReadResult where
  bytes : Bytes
  eof : Bool
  reader : Reader

/-- `PartSetReader.Read` into a buffer with room for some bytes. -/
def read (current : Bytes) (rest : List (Option Part)) (room : Nat) : Option ReadResult :=
  if room ≤ current.length then
    -- `bytes.Reader.Read`, which reports the end before it looks at the buffer
    if current = [] then some ⟨[], true, ⟨[], rest⟩⟩
    else some ⟨current.take room, false, ⟨current.drop room, rest⟩⟩
  else
    match rest with
    | [] => some ⟨current, true, ⟨[], []⟩⟩
    | none :: _ => none
    | some part :: rest =>
      (read part.bytes rest (room - current.length)).map fun result =>
        { result with bytes := current ++ result.bytes }

/-- `io.ReadAll`, with the room of the buffer at each call of `Read` and a bound on their number. -/
def readAll (room : Nat → Nat) : (reads : Nat) → Reader → Option Bytes
  | 0, _ => none
  | reads + 1, reader => do
    let result ← read reader.current reader.rest (room 0)
    if result.eof then some result.bytes
    else
      let more ← readAll (fun k => room (k + 1)) reads result.reader
      some (result.bytes ++ more)

section Slices

/-- The bytes of the data that belong to an index. -/
def chunk (partSize i : Nat) : Bytes :=
  (data.drop (i * partSize)).take partSize

/-- Consecutive chunks make up the beginning of the data. -/
theorem flatten_chunks (partSize n : Nat) :
    ((range n).map (chunk data partSize)).flatten = data.take (n * partSize) := by
  induction n with
  | zero => simp
  | succ n ih =>
    rw [range_succ, map_append, flatten_append, ih, map_singleton,
      flatten_singleton, chunk, ← take_add, Nat.add_mul, Nat.one_mul]

variable {data : Bytes} {partSize : UInt32}

theorem totalOf_eq (hfits : data.length + partSize.toNat ≤ 2 ^ 32) (hdata : data ≠ []) :
    (totalOf data partSize).toNat = (data.length + partSize.toNat - 1) / partSize.toNat := by
  have hlength : 0 < data.length := length_pos_iff.mpr hdata
  have hsum :
      (UInt32.ofNat data.length + partSize - 1).toNat = data.length + partSize.toNat - 1 := by
    rw [UInt32.toNat_sub, UInt32.toNat_add, UInt32.toNat_ofNat']
    have hone : (1 : UInt32).toNat = 1 := rfl
    omega
  rw [totalOf, UInt32.toNat_div, hsum]

variable (hpos : 0 < partSize) (hfits : data.length + partSize.toNat ≤ 2 ^ 32) (hdata : data ≠ [])

include hpos hfits hdata

/-- The parts cover the data, and the last one starts within it. -/
theorem total_bounds :
    0 < (totalOf data partSize).toNat ∧
      data.length ≤ (totalOf data partSize).toNat * partSize.toNat ∧
      (totalOf data partSize).toNat * partSize.toNat < 2 ^ 32 := by
  have hlength : 0 < data.length := length_pos_iff.mpr hdata
  have hpart : 0 < partSize.toNat := hpos
  rw [totalOf_eq hfits hdata]
  have hdiv := Nat.div_add_mod (data.length + partSize.toNat - 1) partSize.toNat
  have hmod := Nat.mod_lt (data.length + partSize.toNat - 1) hpart
  rw [Nat.mul_comm] at hdiv
  refine ⟨Nat.div_pos (by omega) hpart, by omega, by omega⟩

theorem slice_eq {i : Nat} (hi : i < (totalOf data partSize).toNat) :
    slice data partSize (ofNat i) = chunk data partSize.toNat i := by
  obtain ⟨-, -, hbound⟩ := total_bounds hpos hfits hdata
  have hpart : 0 < partSize.toNat := hpos
  have hupper : (i + 1) * partSize.toNat ≤ (totalOf data partSize).toNat * partSize.toNat :=
    Nat.mul_le_mul_right _ hi
  have hsucc : (i + 1) * partSize.toNat = i * partSize.toNat + partSize.toNat := by
    rw [Nat.add_mul, Nat.one_mul]
  have hindex : (ofNat i).toNat = i := by
    rw [toNat_ofNat']
    have : i ≤ i * partSize.toNat := Nat.le_mul_of_pos_right i hpart
    omega
  have hlow : (ofNat i * partSize).toNat = i * partSize.toNat := by
    rw [UInt32.toNat_mul, hindex]
    omega
  have hhigh : ((ofNat i + 1) * partSize).toNat = (i + 1) * partSize.toNat := by
    have hone : (1 : UInt32).toNat = 1 := rfl
    have : i + 1 ≤ (i + 1) * partSize.toNat := Nat.le_mul_of_pos_right _ hpart
    have hnext : (i + 1) % 2 ^ 32 = i + 1 := Nat.mod_eq_of_lt (by omega)
    rw [UInt32.toNat_mul, UInt32.toNat_add, hindex, hone, hnext, Nat.mod_eq_of_lt (by omega)]
  simp only [slice, hlow, hhigh, chunk, drop_take]
  by_cases hend : data.length < (i + 1) * partSize.toNat
  · have hrest : (data.drop (i * partSize.toNat)).length ≤ partSize.toNat := by
      rw [length_drop]
      omega
    rw [if_pos hend, take_of_length_le hrest, take_of_length_le]
    exact length_drop ▸ Nat.le_refl _
  · rw [if_neg hend, hsucc, Nat.add_sub_cancel_left]

theorem slices_eq : slices data partSize =
    (range (totalOf data partSize).toNat).map (chunk data partSize.toNat) :=
  map_congr_left fun _ hi => slice_eq hpos hfits hdata (mem_range.mp hi)

/-- The slices of all parts make up the data. -/
theorem flatten_slices : (slices data partSize).flatten = data := by
  rw [slices_eq hpos hfits hdata, flatten_chunks]
  exact take_of_length_le (total_bounds hpos hfits hdata).2.1

end Slices

section Reading

/-- The bytes that a reader has not returned yet. -/
def Reader.content (reader : Reader) : Bytes :=
  reader.current ++ reader.rest.flatMap fun slot => slot.elim [] Part.bytes

/-- A call of `Read` returns the next bytes. It fills the buffer unless the end is reached. -/
theorem read_spec {current : Bytes} {rest : List (Option Part)} {room : Nat}
    (hrest : ∀ slot ∈ rest, slot.isSome) (hroom : 0 < room) :
    ∃ result, read current rest room = some result ∧
      Reader.content ⟨current, rest⟩ = result.bytes ++ result.reader.content ∧
      (∀ slot ∈ result.reader.rest, slot.isSome) ∧
      (if result.eof then result.reader.content = [] else result.bytes.length = room) := by
  induction rest generalizing current room with
  | nil =>
    unfold read
    by_cases hle : room ≤ current.length
    · have hne : current ≠ [] := length_pos_iff.mp (by omega)
      rw [if_pos hle, if_neg hne]
      refine ⟨_, rfl, ?_, hrest, ?_⟩
      · simp [Reader.content]
      · simp [hle]
    · rw [if_neg hle]
      exact ⟨_, rfl, by simp [Reader.content], by simp, by simp [Reader.content]⟩
  | cons slot rest ih =>
    obtain ⟨hslot, hrest'⟩ := forall_mem_cons.mp hrest
    obtain ⟨part, rfl⟩ := isSome_iff_exists.mp hslot
    unfold read
    by_cases hle : room ≤ current.length
    · have hne : current ≠ [] := length_pos_iff.mp (by omega)
      rw [if_pos hle, if_neg hne]
      refine ⟨_, rfl, ?_, hrest, ?_⟩
      · simp only [Reader.content]
        rw [← append_assoc, take_append_drop]
      · simp [hle]
    · rw [if_neg hle]
      have hmore : 0 < room - current.length := by omega
      obtain ⟨result, hread, hcontent, hsome, hend⟩ := @ih part.bytes _ hrest' hmore
      refine ⟨{ result with bytes := current ++ result.bytes }, ?_, ?_, hsome, ?_⟩
      · dsimp only
        rw [hread]
        rfl
      · have hstart : Reader.content ⟨current, some part :: rest⟩ =
            current ++ Reader.content ⟨part.bytes, rest⟩ := by
          simp [Reader.content]
        rw [hstart, hcontent, append_assoc]
      · by_cases heof : result.eof = true
        · rw [if_pos heof] at hend ⊢
          exact hend
        · rw [if_neg heof] at hend ⊢
          rw [length_append, hend]
          omega

/-- Reading until the end returns all bytes, whatever the buffer. -/
theorem readAll_eq {reader : Reader} (hrest : ∀ slot ∈ reader.rest, slot.isSome)
    (room : Nat → Nat) (hroom : ∀ k, 0 < room k) :
    ∃ reads, readAll room reads reader = some reader.content := by
  suffices hbound : ∀ n, ∀ reader : Reader, (∀ slot ∈ reader.rest, slot.isSome) →
      ∀ room : Nat → Nat, (∀ k, 0 < room k) → reader.content.length ≤ n →
      readAll room (n + 1) reader = some reader.content from
    ⟨_, hbound _ reader hrest room hroom (Nat.le_refl _)⟩
  intro n
  -- each call returns at least one byte or reports the end
  induction n with
  | zero =>
    intro reader hrest room hroom hlength
    obtain ⟨result, hread, hcontent, -, hend⟩ := @read_spec reader.current _ _ hrest (hroom 0)
    have hempty : reader.content = [] := length_eq_zero_iff.mp (by omega)
    have hbytes := append_eq_nil_iff.mp (hcontent.symm.trans hempty)
    have heof : result.eof = true := by
      by_contra hno
      rw [if_neg hno, hbytes.1] at hend
      exact absurd hend (Nat.ne_of_lt (hroom 0))
    rw [readAll, hread, hempty]
    simp [heof, hbytes.1]
  | succ n ih =>
    intro reader hrest room hroom hlength
    obtain ⟨result, hread, hcontent, hsome, hend⟩ :=
      @read_spec reader.current _ _ hrest (hroom 0)
    have hall : reader.content = result.bytes ++ result.reader.content := hcontent
    rw [readAll, hread]
    by_cases heof : result.eof = true
    · rw [if_pos heof] at hend
      simp [heof, hall, hend]
    · rw [if_neg heof] at hend
      have hpos := hroom 0
      have hshorter : result.reader.content.length ≤ n := by
        rw [hall, length_append] at hlength
        omega
      have hmore := ih result.reader hsome (fun k => room (k + 1)) (fun k => hroom (k + 1)) hshorter
      simp [heof, hmore, hall]

end Reading

section Adding

variable {H}

theorem setBits_isSome {bA : Option BitArray} (h : ∀ b, bA = some b → b.WellFormed)
    (indices : List Nat) : ∃ bA', setBits bA indices = some bA' := by
  induction indices generalizing bA with
  | nil => exact ⟨bA, rfl⟩
  | cons i rest ih =>
    obtain ⟨bA', set, hset, hwell⟩ := setIndexOf_wellFormed h (Int.natCast_nonneg i) true
    obtain ⟨bA'', hrest⟩ := ih hwell
    exact ⟨bA'', by rw [setBits, hset]; exact hrest⟩

/-- The part set of the proposer exists; its header has the number of slices and their root. -/
theorem newPartSetFromData_header :
    ∃ full, newPartSetFromData H data partSize = some full ∧
      full.header = ⟨totalOf data partSize, hashFromByteSlices H (slices data partSize)⟩ := by
  obtain ⟨bA, hbits⟩ := setBits_isSome (fun b hb => wellFormed_newBitArray hb)
    (range (totalOf data partSize).toNat)
  refine ⟨_, by rw [newPartSetFromData, hbits]; rfl, ?_⟩
  exact congrArg (PartSetHeader.mk (totalOf data partSize)) (MerkleProof.trailsWithin_root _ _)

variable (H)

/-- The parts that have been accepted. -/
def accepted : List Part :=
  ps.parts.filterMap id

/-- `AddPart` accepts the part: its slot is one of the set and free, and its proof verifies. -/
def Accepts : Prop :=
  part.index < ps.total ∧ ps.parts[part.index.toNat]? = some none ∧
    part.proof.verify H ps.hash part.bytes = .ok ()

instance (ps : PartSet) (part : Part) : Decidable (ps.Accepts H part) :=
  inferInstanceAs (Decidable (_ ∧ _ ∧ _))

/-- A part that is accepted comes with a proof for the slot in which it is filed. -/
def Addressed : Prop :=
  ps.Accepts H part →
    part.proof.index.toInt = part.index.toNat ∧ part.proof.total.toInt = ps.total.toNat

instance (ps : PartSet) (part : Part) : Decidable (ps.Addressed H part) :=
  inferInstanceAs (Decidable (_ → _ ∧ _))

/-- The receiver of the parts: from the header, one call of `AddPart` after the other. -/
def receiver (header : PartSetHeader) : Machine PartSet Part where
  init := newPartSetFromHeader header
  step ps part := (addPart H ps part).map Prod.fst

/-- The sum of a quantity over the slots that are filled. -/
def weigh (f : Part → Int) (slots : List (Option Part)) : Int :=
  sumOf (fun slot : Option Part => slot.elim 0 f) slots

/-- What holds of a part set with the header of given slices: a slot for each, counters that agree
with the slots, and their slices in the filled ones. -/
structure Genuine (items : List Bytes) (ps : PartSet) : Prop where
  total_eq : ps.total.toNat = items.length
  hash_eq : ps.hash = hashFromByteSlices H items
  length_parts : ps.parts.length = items.length
  wellFormed : ∀ bA, ps.partsBitArray = some bA → bA.WellFormed
  count_eq : (ps.count.toNat : Int) = weigh (fun _ => 1) ps.parts
  byteSize_eq : ps.byteSize = weigh (fun part : Part => part.bytes.length) ps.parts
  bytes_eq : ∀ (i : Nat) (part : Part), ps.parts[i]? = some (some part) →
    items[i]? = some part.bytes

variable {H} {items : List Bytes} {ps : PartSet}

section Slots

variable {slots : List (Option Part)} {f : Part → Int}

theorem weigh_eq (f : Part → Int) (slots : List (Option Part)) :
    weigh f slots = sumOf f (slots.filterMap id) := by
  induction slots with
  | nil => rfl
  | cons slot slots ih =>
    rw [weigh] at ih ⊢
    cases slot with
    | none => rw [sumOf, ih, elim_none, Int.zero_add]; rfl
    | some part => rw [sumOf, ih, elim_some]; rfl

theorem weigh_empty (f : Part → Int) (n : Nat) : weigh f (replicate n none) = 0 := by
  rw [weigh_eq, filterMap_replicate_of_none rfl]
  rfl

theorem weigh_set {i : Nat} (h : slots[i]? = some none) (part : Part) :
    weigh f (slots.set i (some part)) = weigh f slots + f part := by
  rw [weigh, sumOf_set h, elim_none, elim_some, Int.sub_zero, weigh]

theorem isSome_of_weigh_eq_length (h : weigh (fun _ => 1) slots = slots.length) :
    ∀ slot ∈ slots, slot.isSome := by
  intro slot hslot
  have hone := eq_one_of_sumOf_eq_length (by intro slot _; cases slot <;> simp) h slot hslot
  cases slot with
  | none => exact absurd hone (by simp)
  | some part => rfl

theorem weigh_lt_length {i : Nat} (h : slots[i]? = some none) :
    weigh (fun _ => 1) slots < slots.length := by
  have hle : weigh (fun _ => 1) slots ≤ sumOf (fun _ => 1) slots :=
    sumOf_le (by intro slot _; cases slot <;> simp)
  rw [sumOf_const, Int.mul_one] at hle
  have hne : weigh (fun _ => 1) slots ≠ slots.length := fun hfull =>
    absurd (isSome_of_weigh_eq_length hfull none (mem_of_getElem? h)) (by simp)
  omega

end Slots

theorem genuine_newPartSetFromHeader {header : PartSetHeader}
    (htotal : header.total.toNat = items.length)
    (hhash : header.hash = hashFromByteSlices H items) :
    Genuine H items (newPartSetFromHeader header) where
  total_eq := htotal
  hash_eq := hhash
  length_parts := by rw [newPartSetFromHeader, length_replicate, htotal]
  wellFormed := fun bA hbA => wellFormed_newBitArray hbA
  count_eq := (weigh_empty _ _).symm
  byteSize_eq := (weigh_empty _ _).symm
  bytes_eq := by
    intro i part hpart
    rw [newPartSetFromHeader, getElem?_replicate] at hpart
    split at hpart <;> simp at hpart

/-- Either `AddPart` leaves the part set alone, or it accepts the part. -/
theorem addPart_cases (hgenuine : Genuine H items ps) (part : Part) :
    (∃ returned, addPart H ps part = some (ps, returned) ∧ ¬ ps.Accepts H part) ∨
    (ps.Accepts H part ∧ ∃ bA, (∀ b, bA = some b → b.WellFormed) ∧
      addPart H ps part = some ({ ps with
        parts := ps.parts.set part.index.toNat (some part)
        partsBitArray := bA
        count := ps.count + 1
        byteSize := ps.byteSize + part.bytes.length }, .ok true)) := by
  by_cases hindex : ps.total ≤ part.index
  · exact .inl ⟨_, by rw [addPart, if_pos hindex],
      fun haccepts => UInt32.not_lt.mpr hindex haccepts.1⟩
  · have hrange : part.index.toNat < ps.parts.length := by
      rw [hgenuine.length_parts, ← hgenuine.total_eq]
      exact UInt32.lt_iff_toNat_lt.mp (UInt32.not_le.mp hindex)
    have hslot := getElem?_eq_getElem hrange
    cases hfree : ps.parts[part.index.toNat] with
    | some old =>
      rw [hfree] at hslot
      refine .inl ⟨.ok false, by rw [addPart, if_neg hindex, hslot]; rfl, fun haccepts => ?_⟩
      exact absurd (hslot.symm.trans haccepts.2.1) (by simp)
    | none =>
      rw [hfree] at hslot
      cases hverify : part.proof.verify H ps.hash part.bytes with
      | error failure =>
        refine .inl ⟨.error .invalidProof, ?_, fun haccepts => ?_⟩
        · rw [addPart, if_neg hindex, hslot, hverify]
          rfl
        · exact absurd (hverify.symm.trans haccepts.2.2) (by simp)
      | ok =>
        obtain ⟨bA, set, hset, hwell⟩ := setIndexOf_wellFormed hgenuine.wellFormed
          (Int.natCast_nonneg part.index.toNat) true
        refine .inr ⟨⟨UInt32.not_le.mp hindex, hslot, hverify⟩, bA, hwell, ?_⟩
        rw [addPart, if_neg hindex, hslot, hverify, hset]
        rfl

/-- `AddPart` returns, and keeps the slots genuine if the part is addressed. -/
theorem genuine_addPart (hgenuine : Genuine H items ps) {part : Part}
    (haddressed : ps.Addressed H part)
    (hfree : H.CollisionFree (merkleInputs H items) (part.proof.verifyInputs H part.bytes)) :
    ∃ ps' returned, addPart H ps part = some (ps', returned) ∧ Genuine H items ps' := by
  obtain ⟨returned, hadd, -⟩ | ⟨haccepts, bA, hwell, hadd⟩ := addPart_cases hgenuine part
  · exact ⟨ps, returned, hadd, hgenuine⟩
  · obtain ⟨hindex, htotal⟩ := haddressed haccepts
    obtain ⟨hlt, hslot, hverify⟩ := haccepts
    have hrange : part.index.toNat < items.length := by
      rw [← hgenuine.total_eq]
      exact lt_iff_toNat_lt.mp hlt
    have hbound : items.length < 2 ^ 32 := by
      rw [← hgenuine.total_eq]
      exact ps.total.toNat_lt
    rw [hgenuine.hash_eq] at hverify
    have hitem := MerkleProof.verify_sound hfree (by rw [htotal, hgenuine.total_eq])
      (by rw [hindex]; omega) hverify
    rw [hindex, Int.toNat_natCast] at hitem
    refine ⟨_, _, hadd, hgenuine.total_eq, hgenuine.hash_eq, ?_, hwell, ?_, ?_, ?_⟩
    · rw [length_set, hgenuine.length_parts]
    · -- a free slot is left, so the counter does not overflow
      have hcount := hgenuine.count_eq
      have hfreeSlot := weigh_lt_length hslot
      have hlength := hgenuine.length_parts
      have hone : (1 : UInt32).toNat = 1 := rfl
      rw [weigh_set hslot, UInt32.toNat_add]
      omega
    · rw [weigh_set hslot, ← hgenuine.byteSize_eq]
    · intro i other hother
      by_cases hi : part.index.toNat = i
      · subst hi
        rw [getElem?_set_self (by rw [hgenuine.length_parts]; exact hrange)] at hother
        rw [hitem, some.inj (some.inj hother)]
      · rw [getElem?_set_ne hi] at hother
        exact hgenuine.bytes_eq i other hother

/-- A part of the proposer is added as long as its slot is free. -/
theorem adds_genuine_part {data : Bytes} {partSize : UInt32} {full : PartSet}
    (hgenuine : Genuine H (slices data partSize) ps)
    (hfull : newPartSetFromData H data partSize = some full) {i : Nat} {part : Part}
    (hpart : full.parts[i]? = some (some part)) (hslot : ps.parts[i]? = some none) :
    ∃ ps', addPart H ps part = some (ps', .ok true) ∧
      ps'.parts = ps.parts.set i (some part) := by
  obtain ⟨bA, hbits⟩ := setBits_isSome (fun b hb => wellFormed_newBitArray hb)
    (range (totalOf data partSize).toNat)
  rw [newPartSetFromData, hbits] at hfull
  cases hfull
  rw [getElem?_mapIdx] at hpart
  obtain ⟨⟨bytes, proof⟩, hzip, hmade⟩ := map_eq_some_iff.mp hpart
  obtain ⟨hbytes, hproof⟩ := getElem?_zip_eq_some.mp hzip
  have hrange : i < (slices data partSize).length := (List.getElem_of_getElem? hbytes).1
  have hbound : (slices data partSize).length < 2 ^ 32 := by
    rw [← hgenuine.total_eq]
    exact ps.total.toNat_lt
  have hindex : (ofNat i).toNat = i := by
    exact Nat.mod_eq_of_lt (by omega)
  cases hmade
  obtain ⟨-, -, hverify⟩ := MerkleProof.proofsFromByteSlices_spec (by omega) hproof hbytes
  obtain ⟨_, -, hno⟩ | ⟨-, _, -, hadd⟩ := addPart_cases hgenuine ⟨ofNat i, bytes, proof⟩
  · refine absurd ⟨?_, ?_, ?_⟩ hno
    · rw [lt_iff_toNat_lt, hindex, hgenuine.total_eq]
      exact hrange
    · rw [hindex]
      exact hslot
    · rw [hgenuine.hash_eq]
      exact hverify
  · exact ⟨_, hadd, by rw [hindex]⟩

theorem adds_part_of_two : ∃ part ps', addPart (.polynomial 4) (newPartSetFromHeader
    ⟨2, hashFromByteSlices (.polynomial 4) [[1], [2]]⟩) part = some (ps', .ok true) ∧
      ps'.parts = [none, some part] := by
  obtain ⟨full, part, hfull, hpart⟩ : ∃ full part,
      newPartSetFromData (.polynomial 4) [1, 2] 1 = some full ∧
        full.parts[1]? = some (some part) := ⟨_, _, rfl, rfl⟩
  exact ⟨part, adds_genuine_part (genuine_newPartSetFromHeader rfl rfl) hfull hpart rfl⟩

/-- A complete part set has a part in every slot. -/
theorem isSome_of_isComplete (hgenuine : Genuine H items ps) (hcomplete : ps.isComplete) :
    ∀ slot ∈ ps.parts, slot.isSome := by
  have hcount := hgenuine.count_eq
  rw [eq_of_beq hcomplete, hgenuine.total_eq, ← hgenuine.length_parts] at hcount
  exact isSome_of_weigh_eq_length hcount.symm

/-- A complete part set reads as the concatenated slices. -/
theorem content_of_isComplete (hgenuine : Genuine H items ps) (hcomplete : ps.isComplete)
    (hitems : items ≠ []) :
    ∃ reader, ps.getReader = some reader ∧ (∀ slot ∈ reader.rest, slot.isSome) ∧
      reader.content = items.flatten := by
  have hsome := isSome_of_isComplete hgenuine hcomplete
  have hbytes : ps.parts.map (fun slot => slot.elim [] Part.bytes) = items := by
    refine ext_getElem? fun i => ?_
    rw [getElem?_map]
    cases hslot : ps.parts[i]? with
    | none =>
      rw [getElem?_eq_none_iff, hgenuine.length_parts, ← getElem?_eq_none_iff] at hslot
      rw [hslot]
      rfl
    | some slot =>
      obtain ⟨part, rfl⟩ := isSome_iff_exists.mp (hsome slot (mem_of_getElem? hslot))
      rw [hgenuine.bytes_eq i part hslot]
      rfl
  have hflat : items.flatten = ps.parts.flatMap fun slot => slot.elim [] Part.bytes := by
    rw [← hbytes, flatMap_def]
  match hparts : ps.parts with
  | [] => exact absurd (by rw [← hbytes, hparts]; rfl) hitems
  | slot :: rest =>
    rw [hparts] at hsome hflat
    obtain ⟨hslot, hrest⟩ := forall_mem_cons.mp hsome
    obtain ⟨part, rfl⟩ := isSome_iff_exists.mp hslot
    refine ⟨⟨part.bytes, rest⟩, ?_, hrest, ?_⟩
    · rw [getReader, if_pos hcomplete, hparts]
    · rw [hflat]
      rfl

/-- Whatever parts are added in whatever order: if every accepted part comes with a proof for its
slot, the slots hold their bytes of the data, the counters agree with the accepted parts, and a
complete part set reads as the data. -/
theorem addressed_parts_read_as_data (H : HashFunction) {data : Bytes} {partSize : UInt32}
    (hpos : 0 < partSize) (hdata : data ≠ []) (hfits : data.length + partSize.toNat ≤ 2 ^ 32) :
    ∃ full, newPartSetFromData H data partSize = some full ∧ ∀ parts : List Part,
      (∀ part ∈ parts, H.CollisionFree (merkleInputs H (slices data partSize))
        (part.proof.verifyInputs H part.bytes)) →
      (receiver H full.header).Meets (Addressed H) (newPartSetFromHeader full.header) parts →
      ∃ ps, (receiver H full.header).run parts = some ps ∧
        (∀ i part, ps.parts[i]? = some (some part) → part.bytes = chunk data partSize.toNat i) ∧
        (ps.count.toNat : Int) = ps.accepted.length ∧
        ps.byteSize = sumOf (fun part => (part.bytes.length : Int)) ps.accepted ∧
        (ps.isComplete → ∃ reader, ps.getReader = some reader ∧ ∀ room : Nat → Nat,
          (∀ k, 0 < room k) → ∃ reads, readAll room reads reader = some data) := by
  obtain ⟨full, hfull, hheader⟩ := newPartSetFromData_header (H := H) data partSize
  refine ⟨full, hfull, fun parts hfree hmeets => ?_⟩
  have hinit : Genuine H (slices data partSize) (newPartSetFromHeader full.header) := by
    apply genuine_newPartSetFromHeader
    · rw [hheader, slices, length_map, length_range]
    · rw [hheader]
  obtain ⟨ps, hrun, hgenuine, -⟩ := Machine.exists_runFrom (R := fun _ _ => True)
    (fun _ => trivial) (fun _ _ _ _ _ => trivial) hinit
    (by
      intro ps part hgenuine ⟨haddressed, hpart⟩
      obtain ⟨ps', returned, hadd, hnext⟩ := genuine_addPart hgenuine haddressed hpart
      exact ⟨ps', congrArg (Option.map Prod.fst) hadd, hnext, trivial⟩)
    (hmeets.and_forall hfree)
  refine ⟨ps, hrun, ?_, ?_, ?_, ?_⟩
  · intro i part hpart
    have hslice := hgenuine.bytes_eq i part hpart
    rw [slices_eq hpos hfits hdata, getElem?_map] at hslice
    obtain ⟨j, hj, hchunk⟩ := map_eq_some_iff.mp hslice
    obtain ⟨hlt, rfl⟩ := List.getElem_of_getElem? hj
    rw [getElem_range] at hchunk
    exact hchunk.symm
  · rw [hgenuine.count_eq, weigh_eq, sumOf_const, Int.mul_one, accepted]
  · rw [hgenuine.byteSize_eq, weigh_eq, accepted]
  · intro hcomplete
    have hne : slices data partSize ≠ [] := by
      intro hnil
      exact hdata (by rw [← flatten_slices hpos hfits hdata, hnil]; rfl)
    obtain ⟨reader, hreader, hsome, hcontent⟩ := content_of_isComplete hgenuine hcomplete hne
    rw [flatten_slices hpos hfits hdata] at hcontent
    exact ⟨reader, hreader, fun room hroom => hcontent ▸ readAll_eq hsome room hroom⟩

end Adding

section Sample

/-- A digest of four bytes that can be evaluated. -/
def sampleDigest : HashFunction := .polynomial 4

/-- The part of the data with an index as the proposer makes it, filed under any index. -/
def sampleParts (slots : List UInt32) : List Part :=
  match newPartSetFromData sampleDigest data partSize with
  | none => []
  | some full =>
    (full.accepted.zip slots).map fun entry => { entry.1 with index := entry.2 }

/-- Two parts that are added in the wrong order are filed in the slots of the proposer. -/
theorem addressed_parts_read_as_data_sample :
    ∃ ps, (receiver sampleDigest ⟨2, hashFromByteSlices sampleDigest [[1], [2]]⟩).run
        (sampleParts [1, 2] 1 [0, 1]).reverse = some ps ∧ ps.isComplete ∧
      ∃ reader, ps.getReader = some reader ∧ ∀ room : Nat → Nat,
        (∀ k, 0 < room k) → ∃ reads, readAll room reads reader = some [1, 2] := by
  have hpos : (0 : UInt32) < 1 := by decide
  have hdata : ([1, 2] : Bytes) ≠ [] := by decide
  obtain ⟨full, hfull, hall⟩ := addressed_parts_read_as_data sampleDigest hpos hdata (by decide)
  have hheader : full.header = ⟨2, hashFromByteSlices sampleDigest [[1], [2]]⟩ := by
    have hsome : (newPartSetFromData sampleDigest [1, 2] 1).map header =
        some ⟨2, hashFromByteSlices sampleDigest [[1], [2]]⟩ := by decide +kernel
    rw [hfull] at hsome
    exact some.inj hsome
  rw [hheader] at hall
  obtain ⟨ps, hrun, -, -, -, hread⟩ := hall (sampleParts [1, 2] 1 [0, 1]).reverse
    (by decide +kernel) (by decide +kernel)
  have hcomplete : ((receiver sampleDigest ⟨2, hashFromByteSlices sampleDigest [[1], [2]]⟩).run
      (sampleParts [1, 2] 1 [0, 1]).reverse).map isComplete = some true := by decide +kernel
  rw [hrun] at hcomplete
  exact ⟨ps, hrun, some.inj hcomplete, hread (some.inj hcomplete)⟩

/-- The second part of `[1, 2]`, with its genuine proof, in the slot of the first, and then in its
own. -/
def misfiledParts : List Part :=
  (sampleParts [1, 2] 1 [0, 0]).drop 1 ++ (sampleParts [1, 2] 1 [0, 1]).drop 1

/-- The third part of `[1, 2, 3]` in the slot of the second, with a proof that names the second of
two leaves, on the same path. -/
def miscountedParts : List Part :=
  ((sampleParts [1, 2, 3] 1 [0, 1, 1]).drop 2).map fun part =>
    { part with proof := { part.proof with index := 1, total := 2 } }

/-- The second part with its genuine proof is accepted in the first slot, and the complete part set
reads as `[2, 2]`, not `[1, 2]`; a proof for the slot but another total is accepted with the bytes
of another slot. No hashes collide. The part sets of no data, and of three bytes with a part size
for which the number of parts overflows to zero, are complete at once, and their readers panic. -/
theorem misfiled_part_corrupts_data :
    (∀ part ∈ misfiledParts, sampleDigest.CollisionFree
      (merkleInputs sampleDigest (slices [1, 2] 1))
    (part.proof.verifyInputs sampleDigest part.bytes)) ∧
    ((newPartSetFromData sampleDigest [1, 2] 1).bind fun full =>
      ((receiver sampleDigest full.header).run misfiledParts).bind fun ps =>
      ps.getReader.bind fun reader => readAll (fun _ => 512) 2 reader) = some [2, 2] ∧
    (∀ part ∈ miscountedParts, sampleDigest.CollisionFree
      (merkleInputs sampleDigest (slices [1, 2, 3] 1))
      (part.proof.verifyInputs sampleDigest part.bytes)) ∧
    ((newPartSetFromData sampleDigest [1, 2, 3] 1).bind fun full =>
      ((receiver sampleDigest full.header).run miscountedParts).map fun ps =>
      ps.accepted.map fun part => (part.index, part.bytes)) = some [(1, [3])] ∧
    ((newPartSetFromData sampleDigest [] 1).map fun full =>
      ((newPartSetFromHeader full.header).isComplete,
        (newPartSetFromHeader full.header).getReader.isSome)) = some (true, false) ∧
    ((newPartSetFromData sampleDigest [1, 2, 3] 4294967294).map fun full =>
      ((newPartSetFromHeader full.header).isComplete,
        (newPartSetFromHeader full.header).getReader.isSome)) = some (true, false) := by
  decide +kernel

end Sample

end PartSet

end NimbleChain.Tendermint
