import NimbleChain.Common.Bytes

/-!
# The tag-length-value wire format

A message is a list of slots: a field number with the values written under it, none for an absent
field, one for a singular and any number for a repeated field. Each value is preceded by a tag with
its field number and wire type. Two messages with the same field numbers and the same bytes agree in
every slot, whatever is absent.
-/

namespace NimbleChain.Common.Wire

open Common List Option

variable (n : Nat) {α : Type} (input : Bytes)

/-- Groups of seven bits, lowest first; all bytes but the last have the high bit set. The first
argument bounds their number. -/
def varintGroups : Nat → Nat → Bytes
  | 0, n => [UInt8.ofNat n]
  | bound + 1, n =>
    if n < 128 then [UInt8.ofNat n]
    else UInt8.ofNat (n % 128 + 128) :: varintGroups bound (n / 128)

/-- A number as a varint. -/
def varint : Bytes :=
  varintGroups n n

/-- Any bound that is not smaller than the number is large enough. -/
theorem varintGroups_eq {bound n : Nat} (h : n ≤ bound) : varintGroups bound n = varint n := by
  unfold varint
  induction n using Nat.strongRecOn generalizing bound with
  | ind n ih =>
    cases bound with
    | zero =>
      obtain rfl : n = 0 := by omega
      rfl
    | succ bound =>
      cases n with
      | zero => rfl
      | succ n =>
        simp only [varintGroups]
        split
        · rfl
        · have hbound := ih ((n + 1) / 128) (by omega) (show (n + 1) / 128 ≤ bound by omega)
          have hself := ih ((n + 1) / 128) (by omega) (show (n + 1) / 128 ≤ n by omega)
          rw [hbound, hself]

theorem varint_eq :
    varint n = if n < 128 then [UInt8.ofNat n]
      else UInt8.ofNat (n % 128 + 128) :: varint (n / 128) := by
  cases n with
  | zero => rfl
  | succ n =>
    rw [varint, varintGroups]
    split
    · rfl
    · rw [varintGroups_eq (by omega)]

theorem varint_ne_nil : varint n ≠ [] := by
  rw [varint_eq]
  split <;> simp

/-- A number of at most seven times as many bits takes at most that many bytes. -/
theorem length_varint_le {n k : Nat} (h : n < 128 ^ (k + 1)) : (varint n).length ≤ k + 1 := by
  induction k generalizing n with
  | zero =>
    rw [varint_eq, if_pos (by omega)]
    simp
  | succ k ih =>
    rw [varint_eq]
    split
    · simp
    · have hrest := ih (n := n / 128) (by
        rw [Nat.div_lt_iff_lt_mul (by decide), ← Nat.pow_succ]
        exact h)
      rw [length_cons]
      omega

/-- A value with its wire type. -/
inductive Value where
  | varint (n : Nat)
  | fixed64 (bits : UInt64)
  | bytes (content : Bytes)
  deriving DecidableEq

variable (field : Nat × Value) (content : Bytes)

namespace Value

/-- The number of the wire type. -/
def wireType : Value → Nat
  | varint _ => 0
  | fixed64 _ => 1
  | bytes _ => 2

/-- What follows the tag. -/
def payload : Value → Bytes
  | varint n => Wire.varint n
  | fixed64 bits => littleEndian 8 bits.toNat
  | bytes content => Wire.varint content.length ++ content

theorem wireType_lt (v : Value) : v.wireType < 8 := by
  cases v <;> simp [wireType]

end Value

open Value

/-- A tagged value. -/
def tagged : Bytes :=
  varint (8 * field.1 + field.2.wireType) ++ field.2.payload

theorem tagged_ne_nil : tagged field ≠ [] :=
  fun hnil => varint_ne_nil _ (append_eq_nil_iff.mp hnil).1

/-- A field number and the values written under it. -/
structure Slot where
  number : Nat
  values : List Value

variable (message : List Slot)

/-- The tagged values of a message, in order. -/
def fields : List (Nat × Value) :=
  message.flatMap fun slot => slot.values.map (Prod.mk slot.number)

/-- The bytes of a message. -/
def marshal : Bytes :=
  (fields message).flatMap tagged

/-- The slots are written one after another. -/
theorem marshal_append (m m' : List Slot) : marshal (m ++ m') = marshal m ++ marshal m' := by
  simp [marshal, fields]

variable {message m m' : List Slot} {slot : Slot} {fs : List (Nat × Value)}

/-- A message with a value has bytes. -/
theorem marshal_ne_nil (hslot : slot ∈ message) (hvalues : slot.values ≠ []) :
    marshal message ≠ [] := by
  obtain ⟨value, hvalue⟩ := exists_mem_of_ne_nil _ hvalues
  have hfield : (slot.number, value) ∈ fields message :=
    mem_flatMap.mpr ⟨slot, hslot, mem_map.mpr ⟨value, hvalue, rfl⟩⟩
  intro hnil
  exact tagged_ne_nil _ (flatMap_eq_nil_iff.mp hnil _ hfield)

/-- Read a varint from the front of a string. -/
def readVarint : Bytes → Option (Nat × Bytes)
  | [] => none
  | byte :: rest =>
    if byte.toNat < 128 then some (byte.toNat, rest)
    else (readVarint rest).map fun (n, rest) => (byte.toNat - 128 + 128 * n, rest)

theorem readVarint_varint (rest : Bytes) :
    readVarint (varint n ++ rest) = some (n, rest) := by
  induction n using Nat.strongRecOn with
  | ind n ih =>
    rw [varint_eq]
    split
    case isTrue hsmall =>
      have hbyte : (UInt8.ofNat n).toNat = n := by
        rw [UInt8.toNat_ofNat']
        omega
      simp [readVarint, hbyte, hsmall]
    case isFalse hlarge =>
      have hbyte : (UInt8.ofNat (n % 128 + 128)).toNat = n % 128 + 128 := by
        rw [UInt8.toNat_ofNat']
        omega
      have hcontinued : ¬ n % 128 + 128 < 128 := by omega
      have hsum : n % 128 + 128 - 128 + 128 * (n / 128) = n := by omega
      rw [cons_append, readVarint, hbyte, if_neg hcontinued, ih (n / 128) (by omega)]
      simp only [map_some, hsum]

/-- Read as many bytes as are asked for. -/
def readBytes (length : Nat) (input : Bytes) : Option (Bytes × Bytes) :=
  if length ≤ input.length then some (input.take length, input.drop length) else none

theorem readBytes_append (content rest : Bytes) :
    readBytes content.length (content ++ rest) = some (content, rest) := by
  simp [readBytes]

/-- Read a value of the given wire type. -/
def readValue (wireType : Nat) (input : Bytes) : Option (Value × Bytes) :=
  match wireType with
  | 0 => (readVarint input).map fun (n, rest) => (.varint n, rest)
  | 1 => (readBytes 8 input).map fun (content, rest) =>
      (.fixed64 (UInt64.ofNat (ofLittleEndian content)), rest)
  | 2 => do
    let (length, rest) ← readVarint input
    let (content, rest) ← readBytes length rest
    return (.bytes content, rest)
  | _ => none

theorem readValue_payload (v : Value) (rest : Bytes) :
    readValue v.wireType (v.payload ++ rest) = some (v, rest) := by
  cases v with
  | varint n =>
    simp only [wireType, payload, readValue, readVarint_varint, map_some]
  | fixed64 bits =>
    have hread := readBytes_append (littleEndian 8 bits.toNat) rest
    rw [length_littleEndian] at hread
    have hbits : bits.toNat < 256 ^ 8 := by simpa using bits.toNat_lt
    simp only [wireType, payload, readValue, hread, map_some,
      ofLittleEndian_littleEndian hbits, UInt64.ofNat_toNat]
  | bytes content =>
    simp only [wireType, payload, readValue, append_assoc, readVarint_varint,
      Option.bind_eq_bind, Option.bind_some, readBytes_append, Option.pure_def]

/-- Read one tagged value. -/
def readField : Option ((Nat × Value) × Bytes) := do
  let (tag, rest) ← readVarint input
  let (value, rest) ← readValue (tag % 8) rest
  return ((tag / 8, value), rest)

theorem readField_tagged (rest : Bytes) :
    readField (tagged field ++ rest) = some (field, rest) := by
  have hlt := field.2.wireType_lt
  have hnumber : (8 * field.1 + field.2.wireType) / 8 = field.1 := by omega
  have htype : (8 * field.1 + field.2.wireType) % 8 = field.2.wireType := by omega
  simp only [readField, tagged, append_assoc, readVarint_varint, bind_eq_bind,
    Option.bind_some, htype, readValue_payload, hnumber, Option.pure_def]

/-- Read items up to the end of the input; the number bounds how many. -/
def readMany (read : Bytes → Option (α × Bytes)) : Nat → Bytes → Option (List α)
  | _, [] => some []
  | 0, _ :: _ => none
  | bound + 1, input => do
    let (x, rest) ← read input
    let xs ← readMany read bound rest
    return x :: xs

/-- Items that were written one after another are read back. -/
theorem readMany_flatMap {read : Bytes → Option (α × Bytes)} {write : α → Bytes}
    (hread : ∀ x rest, read (write x ++ rest) = some (x, rest)) (hne : ∀ x, write x ≠ [])
    (xs : List α) : readMany read (xs.flatMap write).length (xs.flatMap write) = some xs := by
  suffices h : ∀ bound, xs.length ≤ bound → readMany read bound (xs.flatMap write) = some xs from
    h _ (length_le_length_flatMap hne xs)
  induction xs with
  | nil => intro bound _; cases bound <;> rfl
  | cons x xs ih =>
    intro bound hbound
    cases bound with
    | zero => simp at hbound
    | succ bound =>
      rw [flatMap_cons, readMany]
      · rw [hread]
        simp only [bind_eq_bind, bind_some, ih bound (Nat.le_of_succ_le_succ hbound),
          Option.pure_def]
      · exact fun hnil => hne x (append_eq_nil_iff.mp hnil).1

/-- The tagged values of an encoded message. -/
def unmarshal : Option (List (Nat × Value)) :=
  readMany readField input.length input

/-- Reading a marshalled message gives its tagged values back. -/
@[simp] theorem unmarshal_marshal (message : List Slot) :
    unmarshal (marshal message) = some (fields message) :=
  readMany_flatMap readField_tagged tagged_ne_nil _

/-- The values that a decoder finds under a field number. -/
def valuesAt (number : Nat) (fs : List (Nat × Value)) : List Value :=
  (fs.filter (·.1 = number)).map Prod.snd

/-- A decoder finds what the slots with that number hold. -/
@[simp] theorem valuesAt_fields (number : Nat) (message : List Slot) :
    valuesAt number (fields message) =
      (message.filter (·.number = number)).flatMap Slot.values := by
  induction message with
  | nil => rfl
  | cons slot rest ih =>
    have hslot : valuesAt number (slot.values.map (Prod.mk slot.number)) =
        if slot.number = number then slot.values else [] := by
      unfold valuesAt
      rw [List.filter_map, List.map_map]
      split <;> simp_all [Function.comp_def]
    have happend : valuesAt number (fields (slot :: rest)) =
        valuesAt number (slot.values.map (Prod.mk slot.number)) ++
          valuesAt number (fields rest) := by
      simp [valuesAt, fields]
    rw [happend, hslot, ih, filter_cons]
    split <;> simp_all

/-- The values of a message by field number. -/
def slots (input : Bytes) : Option (Nat → List Value) :=
  (unmarshal input).map fun fs number => valuesAt number fs

@[simp] theorem slots_marshal (message : List Slot) : slots (marshal message) =
    some fun number => (message.filter (·.number = number)).flatMap Slot.values := by
  simp [slots]

theorem filter_number (hmem : slot ∈ message) (hnodup : (message.map Slot.number).Nodup) :
    message.filter (·.number = slot.number) = [slot] := by
  induction message with
  | nil => cases hmem
  | cons first rest ih =>
    obtain ⟨hfirst, hrest⟩ := nodup_cons.mp hnodup
    rcases mem_cons.mp hmem with rfl | hmem
    · rw [filter_cons_of_pos (by simp), filter_eq_nil_iff.mpr]
      intro other hother heq
      exact hfirst (mem_map.mpr ⟨other, hother, by simpa using heq⟩)
    · have hne : first.number ≠ slot.number := fun heq => hfirst (heq ▸ mem_map_of_mem hmem)
      rw [filter_cons_of_neg (by simpa using hne)]
      exact ih hmem hrest

/-- With distinct field numbers, a decoder finds what the slot holds. -/
theorem valuesAt_slot (hfs : fields message = fs)
    (hnodup : (message.map Slot.number).Nodup) :
    ∀ slot ∈ message, valuesAt slot.number fs = slot.values := by
  intro slot hslot
  rw [← hfs, valuesAt_fields, filter_number hslot hnodup, flatMap_singleton]

/-- Messages with the same distinct field numbers and the same bytes agree in every slot. -/
theorem eq_of_marshal_eq (h : marshal m = marshal m')
    (hnumbers : m.map Slot.number = m'.map Slot.number) (hnodup : (m.map Slot.number).Nodup) :
    m = m' := by
  have hfields : fields m = fields m' := by
    rw [← some_inj, ← unmarshal_marshal, h, unmarshal_marshal]
  have hlength : m.length = m'.length := by simpa using congrArg length hnumbers
  apply ext_getElem hlength
  intro i hi hi'
  have hnumber : m[i].number = m'[i].number := by
    rw [← getElem_map Slot.number (h := by simpa using hi),
      ← getElem_map Slot.number (h := by simpa using hi')]
    exact getElem_of_eq hnumbers _
  have hvalues := valuesAt_slot hfields hnodup _ (getElem_mem hi)
  have hvalues' := valuesAt_slot rfl (hnumbers ▸ hnodup) _ (getElem_mem hi')
  cases hslot : m[i]
  cases hslot' : m'[i]
  simp_all

section Values

/-- A number, absent if it is zero. -/
def scalar : List Value :=
  if n = 0 then [] else [.varint n]

/-- A string of bytes, absent if it is empty. -/
def blob : List Value :=
  if content = [] then [] else [.bytes content]

/-- Eight bytes, absent if they are zero. -/
def double (bits : UInt64) : List Value :=
  if bits = 0 then [] else [.fixed64 bits]

/-- A number of 64 bits takes at most eleven bytes behind a small tag. -/
theorem length_marshal_scalar (front rest : List Slot) {number n : Nat} (hnumber : number < 16)
    (hn : n < 2 ^ 64) :
    (marshal (front ++ ⟨number, scalar n⟩ :: rest)).length ≤
      (marshal (front ++ ⟨number, []⟩ :: rest)).length + 11 := by
  have hslot : (marshal [⟨number, scalar n⟩]).length ≤ 11 := by
    have htag : (varint (8 * number + (Value.varint n).wireType)).length ≤ 1 :=
      @length_varint_le _ 0 (by simp only [wireType]; omega)
    have hvarint : (varint n).length ≤ 10 :=
      @length_varint_le _ 9 (Nat.lt_trans hn (by decide))
    unfold scalar
    split
    · simp [marshal, fields]
    · simp only [marshal, fields, tagged, payload, flatMap_cons, flatMap_nil,
        map_cons, map_nil, append_nil, length_append]
      omega
  have hsplit : ∀ slot : Slot, (marshal (front ++ slot :: rest)).length =
      (marshal front).length + ((marshal [slot]).length + (marshal rest).length) := by
    intro slot
    rw [← length_append, ← marshal_append, ← length_append, ← marshal_append]
    rfl
  rw [hsplit, hsplit]
  omega

@[simp] theorem scalar_inj {n m : Nat} : scalar n = scalar m ↔ n = m := by
  unfold scalar
  split <;> split <;> simp_all [eq_comm]

@[simp] theorem blob_inj {c d : Bytes} : blob c = blob d ↔ c = d := by
  unfold blob
  split <;> split <;> simp_all [eq_comm]

@[simp] theorem map_bytes_inj {cs ds : List Bytes} :
    cs.map bytes = ds.map bytes ↔ cs = ds :=
  map_inj_right fun _ _ h => bytes.inj h

end Values

section Faithful

variable {α : Type}

/-- An encoding that may fail, and whose results determine what was encoded. -/
def Faithful (encode : α → Option Bytes) : Prop :=
  ∀ x y b, encode x = some b → encode y = some b → x = y

variable {f : α → Option Bytes} {xs ys : List α} {bs : List Bytes}

/-- The encodings of a list determine the list if they determine its members. -/
theorem eq_of_mapM_eq (hf : ∀ x ∈ xs, ∀ y ∈ ys, ∀ b, f x = some b → f y = some b → x = y)
    (hx : xs.mapM f = some bs) (hy : ys.mapM f = some bs) : xs = ys := by
  induction xs generalizing ys bs with
  | nil =>
    obtain rfl : [] = bs := by simpa using hx
    cases ys with
    | nil => rfl
    | cons y ys => simp [mapM_cons, bind_eq_some_iff] at hy
  | cons x xs ih =>
    rw [mapM_cons] at hx
    obtain ⟨b, hb, hx⟩ := bind_eq_some_iff.mp hx
    obtain ⟨rest, hrest, hx⟩ := bind_eq_some_iff.mp hx
    cases hx
    cases ys with
    | nil => simp at hy
    | cons y ys =>
      rw [mapM_cons] at hy
      obtain ⟨b', hb', hy⟩ := bind_eq_some_iff.mp hy
      obtain ⟨rest', hrest', hy⟩ := bind_eq_some_iff.mp hy
      obtain ⟨rfl, rfl⟩ := cons.inj (some.inj hy)
      rw [hf x (by simp) y (by simp) _ hb hb',
        ih (fun x hx y hy => hf x (by simp [hx]) y (by simp [hy])) hrest hrest']

theorem Faithful.mapM_inj (hf : Faithful f) (hx : xs.mapM f = some bs) (hy : ys.mapM f = some bs) :
    xs = ys :=
  eq_of_mapM_eq (fun x _ y _ b => hf x y b) hx hy

/-- The value of an optional field, absent for `none`. -/
def optional (encode : α → Option Bytes) : Option α → Option (List Value)
  | none => some []
  | some x => (encode x).map fun b => [.bytes b]

end Faithful

variable (message : Bytes)

section Reading

variable {α : Type} {fs : List (Nat × Value)} {decode : Bytes → Option α}
  {encode : α → Bytes}

/-- A number; an absent one is zero. -/
def asScalar : List Value → Option Nat
  | [] => some 0
  | [.varint n] => some n
  | _ => none

/-- A string of bytes; an absent one is empty. -/
def asBlob : List Value → Option Bytes
  | [] => some []
  | [.bytes content] => some content
  | _ => none

/-- Eight bytes; absent ones are zero. -/
def asDouble : List Value → Option UInt64
  | [] => some 0
  | [.fixed64 bits] => some bits
  | _ => none

@[simp] theorem asScalar_scalar : asScalar (scalar n) = some n := by
  unfold scalar
  split <;> simp [asScalar, *]

@[simp] theorem asBlob_blob : asBlob (blob content) = some content := by
  unfold blob
  split <;> simp [asBlob, *]

@[simp] theorem asDouble_double (bits : UInt64) : asDouble (double bits) = some bits := by
  unfold double
  split <;> simp [asDouble, *]

/-- A list of numbers in one field, absent if it is empty. -/
def packed (ns : List Nat) : List Value :=
  blob (ns.flatMap varint)

/-- A list of numbers in one field. -/
def asPacked (values : List Value) : Option (List Nat) := do
  let content ← asBlob values
  readMany readVarint content.length content

@[simp] theorem asPacked_packed (ns : List Nat) : asPacked (packed ns) = some ns := by
  rw [packed, asPacked, asBlob_blob]
  exact readMany_flatMap readVarint_varint varint_ne_nil ns

/-- The strings of a repeated field. -/
def asBlobs : List Value → Option (List Bytes)
  | [] => some []
  | .bytes content :: rest => (asBlobs rest).map (content :: ·)
  | _ => none

@[simp] theorem asBlobs_map_bytes (contents : List Bytes) :
    asBlobs (contents.map bytes) = some contents := by
  induction contents with
  | nil => rfl
  | cons content contents ih => simp [asBlobs, ih]

/-- An embedded message, if it is there. -/
def asMessage (decode : Bytes → Option α) : List Value → Option (Option α)
  | [] => some none
  | [.bytes content] => (decode content).map some
  | _ => none

@[simp] theorem asMessage_bytes (decode : Bytes → Option α) (content : Bytes) :
    asMessage decode [.bytes content] = (decode content).map some :=
  rfl

theorem asMessage_elim (h : ∀ x, decode (encode x) = some x) (x : Option α) :
    asMessage decode (x.elim [] fun y => [.bytes (encode y)]) = some x := by
  cases x with
  | none => rfl
  | some y => simp [h]

/-- The messages of a repeated field. -/
def asMessages (decode : Bytes → Option α) : List Value → Option (List α)
  | [] => some []
  | .bytes content :: rest => do
    let x ← decode content
    let xs ← asMessages decode rest
    return x :: xs
  | _ => none

/-- The decoder reads back whatever the encoder writes. -/
def Inverts (decode : Bytes → Option α) (encode : α → Option Bytes) : Prop :=
  ∀ x b, encode x = some b → decode b = some x

section Inverts

variable {encode : α → Option Bytes} (h : Inverts decode encode)

include h

theorem Inverts.faithful : Faithful encode :=
  fun x y b hx hy => some.inj ((h x b hx).symm.trans (h y b hy))

theorem Inverts.asMessage_optional {x : Option α} {vs : List Value}
    (hvs : optional encode x = some vs) : asMessage decode vs = some x := by
  cases x with
  | none =>
    cases hvs
    rfl
  | some x =>
    obtain ⟨b, hb, rfl⟩ := map_eq_some_iff.mp hvs
    rw [asMessage_bytes, h x b hb, map_some]

theorem Inverts.asMessages {xs : List α} {bs : List Bytes} (hbs : xs.mapM encode = some bs) :
    asMessages decode (bs.map .bytes) = some xs := by
  induction xs generalizing bs with
  | nil =>
    obtain rfl : [] = bs := by simpa using hbs
    rfl
  | cons x xs ih =>
    rw [mapM_cons] at hbs
    obtain ⟨b, hb, hbs⟩ := bind_eq_some_iff.mp hbs
    obtain ⟨rest, hrest, hbs⟩ := bind_eq_some_iff.mp hbs
    cases hbs
    simp [Wire.asMessages, h x b hb, ih hrest]

end Inverts

/-- What can be read back determines what was written. -/
theorem eq_iff_of_reads (h : ∀ x, decode (encode x) = some x) {x y : α} :
    encode x = encode y ↔ x = y := by
  refine ⟨fun heq => ?_, congrArg encode⟩
  rw [← some_inj, ← h x, heq, h y]

/-- The alternative of a `oneof` that was written last, if any. The decoder fails, skips a field
that is no alternative, or returns one. -/
def asOneof (decode : Nat × Value → Option (Option α)) (fs : List (Nat × Value)) :
    Option (Option α) := do
  let alternatives ← fs.mapM decode
  return alternatives.reverse.findSome? id

theorem asOneof_singleton {decode : Nat × Value → Option (Option α)} {number : Nat} {value : Value}
    {x : α} (h : decode (number, value) = some (some x)) :
    asOneof decode (fields [⟨number, [value]⟩]) = some (some x) := by
  simp [asOneof, fields, h]

/-- The message behind its length. -/
def delimited : Bytes :=
  varint message.length ++ message

theorem delimited_ne_nil : delimited message ≠ [] :=
  fun hnil => varint_ne_nil _ (append_eq_nil_iff.mp hnil).1

/-- Read a message behind its length. -/
def readDelimited : Option Bytes := do
  let (length, rest) ← readVarint input
  let (content, _) ← readBytes length rest
  return content

@[simp] theorem readDelimited_delimited :
    readDelimited (delimited message) = some message := by
  have hread := readBytes_append message []
  rw [append_nil] at hread
  simp only [readDelimited, delimited, readVarint_varint, bind_eq_bind, bind_some,
    hread, Option.pure_def]

end Reading

end NimbleChain.Common.Wire
