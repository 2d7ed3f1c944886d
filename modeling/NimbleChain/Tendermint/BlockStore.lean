import NimbleChain.Common.Decimal
import NimbleChain.Common.KeyValue
import NimbleChain.Tendermint.BlockCodec
import NimbleChain.Tendermint.BlockHash

/-!
# The block store

`store/store.go`: saving, loading and pruning blocks. Saving and pruning are sequences of single
database writes; a crash may come before or after any of them, whereupon the store is reopened.
Pruning writes its batch out whenever it has collected the deletions of 1000 blocks, and records the
height of the last of these as the new base before: this block is no longer there until the next
record is written.
-/

namespace NimbleChain.Tendermint.Store

open Common Common.Wire Common.KeyValue List Int64 Check Nat Decimal

/-- The keys of the database. -/
inductive Key where
  /-- `H:%v`. -/
  | blockMeta (height : Int64)
  /-- `P:%v:%v`. -/
  | blockPart (height : Int64) (partIndex : Nat)
  /-- `C:%v`. -/
  | blockCommit (height : Int64)
  /-- `SC:%v`. -/
  | seenCommit (height : Int64)
  /-- `BH:%x`. -/
  | blockHash (hash : Bytes)
  /-- `blockStore`. -/
  | blockStore
  deriving DecidableEq

/-- `BlockStore`. -/
structure BlockStore where
  db : DB Key
  base : Int64
  height : Int64

/-! ### The state record -/

/-- `BlockStoreState.Marshal`. -/
def marshalState (base height : Int64) : Bytes :=
  Wire.marshal [⟨1, scalar (int64 base)⟩, ⟨2, scalar (int64 height)⟩]

/-- `SaveBlockStoreState`. -/
def saveState (base height : Int64) : Write Key :=
  .set .blockStore (marshalState base height)

/-- `LoadBlockStoreState`. -/
def loadBlockStoreState (db : DB Key) : Except Failure (Int64 × Int64) := do
  if db .blockStore = [] then return (0, 0)
  let slot ← orPanic (Wire.slots (db .blockStore))
  let base ← orPanic (asScalar (slot 1))
  let height ← orPanic (asScalar (slot 2))
  if toInt64 height > 0 ∧ toInt64 base = 0 then return (1, toInt64 height)
  return (toInt64 base, toInt64 height)

/-- `NewBlockStore`. -/
def newBlockStore (db : DB Key) : Except Failure BlockStore := do
  let (base, height) ← loadBlockStoreState db
  return { db, base, height }

/-! ### Loading -/

section Loading

variable (H : HashFunction) (db : DB Key) (height : Int64)

/-- Load an entry: nil if it is empty, a panic if it cannot be decoded or converted. -/
def load {α : Type} (unmarshal : Bytes → Option α) (fromProto : α → Check) (bz : Bytes) :
    Except Failure (Option α) :=
  if bz = [] then .ok none
  else
    match unmarshal bz with
    | none => .error .panic
    | some x =>
      match fromProto x with
      | .error _ => .error .panic
      | .ok _ => .ok (some x)

/-- `LoadBlockMeta`. -/
def loadBlockMeta : Except Failure (Option BlockMeta) :=
  load BlockMeta.unmarshal (BlockMeta.fromProto H) (db (.blockMeta height))

/-- `LoadBlockPart`. -/
def loadBlockPart (index : Nat) : Except Failure (Option Part) :=
  load Part.unmarshal (partFromProto H) (db (.blockPart height index))

/-- `LoadBlockCommit`. -/
def loadBlockCommit : Except Failure (Option Commit) :=
  load Commit.unmarshal (commitFromProto H) (db (.blockCommit height))

/-- `LoadSeenCommit`. -/
def loadSeenCommit : Except Failure (Option Commit) :=
  load Commit.unmarshal (commitFromProto H) (db (.seenCommit height))

/-- The loop of `LoadBlock` over the parts from an index on, behind the bytes read so far. -/
def loadBlockParts :
    (remaining : Nat) → (i : Nat) → (buf : Bytes) → Except Failure (Option Bytes)
  | 0, _, buf => .ok (some buf)
  | remaining + 1, i, buf => do
    match ← loadBlockPart H db height i with
    | none => return none
    | some part => loadBlockParts remaining (i + 1) (buf ++ part.bytes)

/-- `LoadBlock`. -/
def loadBlock : Except Failure (Option Block) := do
  match ← loadBlockMeta H db height with
  | none => return none
  | some blockMeta =>
    match ← loadBlockParts H db height blockMeta.blockID.partSetHeader.total.toNat 0 [] with
    | none => return none
    | some buf =>
      match decodeBlock H buf with
      | .error _ => .error .panic
      | .ok block => return some block

/-- `LoadBlockByHash`. -/
def loadBlockByHash (hash : Bytes) : Except Failure (Option Block) :=
  if db (.blockHash hash) = [] then .ok none
  else
    match parseInt (db (.blockHash hash)) with
    | none => .error .panic
    | some height => loadBlock H db height

end Loading

/-! ### Saving -/

section Saving

variable (H : HashFunction)

/-- `Block.Size`. -/
def blockSize (block : Block) : Int64 :=
  ofInt (block.marshal.elim 0 List.length : Nat)

/-- `NewBlockMeta` of a block whose hash was computed, which fills in its header. -/
def newBlockMeta (block : Block) (hash : Bytes) (blockParts : PartSet) : BlockMeta where
  blockID := ⟨hash, blockParts.header⟩
  blockSize := blockSize block
  header := (block.lastCommit.bind (block.fillHeader H)).getD block.header
  numTxs := ofInt block.txs.length

/-- `saveBlockPart` of the part with an index; `none` where it panics. -/
def saveBlockPart (height : Int64) (blockParts : PartSet) (index : Nat) : Option (Write Key) :=
  (blockParts.parts[index]?.bind id).map fun part =>
    .set (.blockPart height index) part.marshal

/-- The writes of `SaveBlock` in their order; `none` where it panics. -/
def saveBlockSteps (bs : BlockStore) (block : Block) (hash : Bytes) (blockParts : PartSet)
    (seenCommit : Commit) : List (Option (Write Key)) :=
  let height := block.header.height
  (List.range blockParts.total.toNat).map (saveBlockPart height blockParts) ++
    [(newBlockMeta H block hash blockParts).marshal.map (.set (.blockMeta height)),
      some (.set (.blockHash hash) (formatInt height)),
      (block.lastCommit.bind Commit.marshal).map (.set (.blockCommit (height - 1))),
      seenCommit.marshal.map (.set (.seenCommit height)),
      some (saveState (if bs.base = 0 then height else bs.base) height)]

/-- `SaveBlock` up to its first write: the writes that follow, or a panic. -/
def saveBlock (bs : BlockStore) (block : Block) (blockParts : PartSet) (seenCommit : Commit) :
    Except Failure (List (Option (Write Key))) := do
  let hash ← orPanic (block.hash H)
  if bs.base > 0 ∧ block.header.height ≠ bs.height + 1 then .error .panic
  if !blockParts.isComplete then .error .panic
  return saveBlockSteps H bs block hash blockParts seenCommit

/-- The writes that are made before a panic, if there is one. -/
def madeBeforePanic : List (Option (Write Key)) → List (Write Key)
  | some w :: rest => w :: madeBeforePanic rest
  | _ => []

end Saving

/-! ### Pruning -/

section Pruning

variable (H : HashFunction)

/-- The deletions of a block. -/
def blockDeletions (h : Int64) (blockMeta : BlockMeta) : List (Write Key) :=
  [.delete (.blockMeta h), .delete (.blockHash blockMeta.blockID.hash), .delete (.blockCommit h),
    .delete (.seenCommit h)] ++
    (List.range blockMeta.blockID.partSetHeader.total.toNat).map fun p => .delete (.blockPart h p)

/-- A flush: the base that is recorded, and the batch by blocks. -/
structure Flush where
  base : Int64
  batch : List (List (Write Key))
  deriving DecidableEq

/-- The writes of a flush: the state record, then the batch. -/
def Flush.writes (height : Int64) (f : Flush) : List (Write Key) :=
  saveState f.base height :: f.batch.flatten

/-- The loop of `PruneBlocks` from height `h` on, with the number of pruned blocks and the batch:
the flushes within the loop, and the batch that is left. -/
def pruneLoop (height : Int64) : (remaining : Nat) → DB Key → (h : Int64) → (pruned : Nat) →
    (batch : List (List (Write Key))) → Except Failure (List Flush × List (List (Write Key)))
  | 0, _, _, _, batch => .ok ([], batch)
  | remaining + 1, db, h, pruned, batch => do
    match ← loadBlockMeta H db h with
    | none => pruneLoop height remaining db (h + 1) pruned batch
    | some blockMeta =>
      let batch := batch ++ [blockDeletions h blockMeta]
      if (pruned + 1) % 1000 = 0 then
        let flush : Flush := ⟨h, batch⟩
        let (flushes, rest) ←
          pruneLoop height remaining (applyAll db (flush.writes height)) (h + 1) (pruned + 1) []
        return (flush :: flushes, rest)
      else pruneLoop height remaining db (h + 1) (pruned + 1) batch

/-- `PruneBlocks`: the flushes. -/
def pruneBlocks (bs : BlockStore) (height : Int64) : Except Failure (List Flush) := do
  failIf (height ≤ 0) "height must be greater than 0" [] []
  failIf (height > bs.height) "cannot prune beyond the latest height %v" [bs.height.toInt] []
  failIf (height < bs.base) "cannot prune to height %v, it is lower than base height %v"
    [height.toInt, bs.base.toInt] []
  let (flushes, batch) ←
    pruneLoop H bs.height (height.toInt - bs.base.toInt).toNat bs.db bs.base 0 []
  return flushes ++ [⟨height, batch⟩]

end Pruning

/-! ### Runs with crashes -/

section Runs

variable (H : HashFunction)

/-- The arguments of a call of `SaveBlock`. -/
structure Saved where
  block : Block
  blockParts : PartSet
  seenCommit : Commit

/-- The height of a saved block. -/
abbrev Saved.height (args : Saved) : Int64 :=
  args.block.header.height

/-- A block store, and which block was saved at a height. -/
structure System where
  store : BlockStore
  saved : Int64 → Option Saved

/-- A call, which may be stopped by a crash after some of its writes. -/
inductive Call where
  | saveBlock (args : Saved) (crash : Option Nat)
  | pruneBlocks (height : Int64) (crash : Option Nat)

/-- The store is reopened after some writes. -/
def reopen (db : DB Key) (writes : List (Write Key)) : Option BlockStore :=
  (newBlockStore (applyAll db writes)).toOption

/-- A call of `SaveBlock`. A panic stops the program like a crash. -/
def System.save (s : System) (args : Saved) (crash : Option Nat) : Option System :=
  let steps := match saveBlock H s.store args.block args.blockParts args.seenCommit with
    | .ok steps => steps
    | .error _ => [none]
  let made := madeBeforePanic steps
  let saved := fun h =>
    if h = args.height then some args else s.saved h
  match crash with
  | none =>
    if made.length = steps.length then
      let height := args.height
      some ⟨⟨applyAll s.store.db made, if s.store.base = 0 then height else s.store.base, height⟩,
        saved⟩
    else (reopen s.store.db made).map fun store => ⟨store, s.saved⟩
  | some k =>
    if made.length < k then none
    else (reopen s.store.db (made.take k)).map fun store =>
      ⟨store, if k = steps.length then saved else s.saved⟩

/-- A call of `PruneBlocks`. An error leaves everything as it is, a panic stops the program. -/
def System.prune (s : System) (height : Int64) (crash : Option Nat) : Option System :=
  let writes := match pruneBlocks H s.store height with
    | .ok flushes => flushes.flatMap (Flush.writes s.store.height)
    | .error _ => []
  match crash with
  | none =>
    match pruneBlocks H s.store height with
    | .ok _ =>
      some { s with store := { s.store with db := applyAll s.store.db writes, base := height } }
    | .error (.error _) => some s
    | .error .panic => (reopen s.store.db []).map fun store => ⟨store, s.saved⟩
  | some k =>
    if writes.length < k then none
    else (reopen s.store.db (writes.take k)).map fun store => ⟨store, s.saved⟩

/-- The runs of a store that starts with an empty database. -/
def system : Machine System Call where
  init := ⟨⟨fun _ => [], 0, 0⟩, fun _ => none⟩
  step s
    | .saveBlock args crash => s.save H args crash
    | .pruneBlocks height crash => s.prune H height crash

end Runs

/-! ### What can be loaded -/

section Stored

variable (H : HashFunction)

namespace Saved

/-- The hash of the block. -/
def hash (args : Saved) : Bytes :=
  args.block.header.hash H

/-- The meta of the block. -/
def blockMeta (args : Saved) : BlockMeta :=
  newBlockMeta H args.block (args.hash H) args.blockParts

/-- The contract of `SaveBlock`: valid parts of the block, whose validators are hashed, and a valid
commit. -/
structure Proper (args : Saved) : Prop where
  parts : ∃ parts : List Part, args.blockParts.parts = parts.map some ∧
    parts.length = args.blockParts.total.toNat ∧ (∀ part ∈ parts, partFromProto H part = .ok ()) ∧
    decodeBlock H (parts.flatMap Part.bytes) = .ok args.block
  header : args.blockParts.header.validateBasic H = .ok ()
  seenCommit : commitFromProto H args.seenCommit = .ok ()
  hashed : args.block.header.validatorsHash ≠ []

/-- The entries of a saved block. -/
structure Stored (db : DB Key) (args : Saved) : Prop where
  blockMeta : (args.blockMeta H).marshal = some (db (.blockMeta args.height))
  parts : ∀ (i : Nat) (part : Part), args.blockParts.parts[i]? = some (some part) →
    db (.blockPart args.height i) = part.marshal
  hash : db (.blockHash (args.hash H)) = formatInt args.height
  seenCommit : args.seenCommit.marshal = some (db (.seenCommit args.height))

end Saved

variable {H} {db : DB Key} {bz : Bytes}

theorem load_eq {α : Type} {unmarshal : Bytes → Option α} {marshal : α → Option Bytes}
    {fromProto : α → Check} (hinverts : Inverts unmarshal marshal) {x : α}
    (hmarshal : marshal x = some bz) (hne : bz ≠ []) (hvalid : fromProto x = .ok ()) :
    load unmarshal fromProto bz = .ok (some x) := by
  simp only [load, if_neg hne, hinverts x bz hmarshal, hvalid]

theorem blockMeta_marshal_ne_nil {bm : BlockMeta} (h : bm.marshal = some bz) : bz ≠ [] := by
  obtain ⟨header, -, rfl⟩ := Option.map_eq_some_iff.mp h
  exact marshal_ne_nil (mem_cons_self ..) (by simp)

theorem commit_marshal_ne_nil {commit : Commit} (h : commit.marshal = some bz) : bz ≠ [] := by
  obtain ⟨signatures, -, rfl⟩ := Option.map_eq_some_iff.mp h
  have hslot : (⟨3, [.bytes commit.blockID.marshal]⟩ : Slot) ∈
      [⟨1, scalar (int64 commit.height)⟩, ⟨2, scalar (int32 commit.round)⟩,
        ⟨3, [.bytes commit.blockID.marshal]⟩, ⟨4, signatures.map .bytes⟩] := by simp
  exact marshal_ne_nil hslot (by simp)

theorem part_marshal_ne_nil (part : Part) : part.marshal ≠ [] := by
  have hslot : (⟨3, [.bytes part.proof.marshal]⟩ : Slot) ∈
      [⟨1, scalar part.index.toNat⟩, ⟨2, blob part.bytes⟩, ⟨3, [.bytes part.proof.marshal]⟩] := by
    simp
  exact marshal_ne_nil hslot (by simp)

/-- The loop over the parts appends their bytes. -/
theorem loadBlockParts_eq {height : Int64} {parts : List Part}
    (hvalid : ∀ part ∈ parts, partFromProto H part = .ok ()) {i : Nat} (buf : Bytes)
    (hentries : ∀ (j : Nat) (part : Part), parts[j]? = some part →
      db (.blockPart height (i + j)) = part.marshal) :
    loadBlockParts H db height parts.length i buf =
      .ok (some (buf ++ parts.flatMap Part.bytes)) := by
  induction parts generalizing i buf with
  | nil => simp [loadBlockParts]
  | cons part parts ih =>
    obtain ⟨hpart, hparts⟩ := forall_mem_cons.mp hvalid
    have hload : loadBlockPart H db height i = .ok (some part) := by
      have hentry : db (.blockPart height i) = part.marshal := hentries 0 part rfl
      have hinverts : Inverts Part.unmarshal fun part => some part.marshal :=
        fun part b h => Option.some.inj h ▸ Part.unmarshal_marshal part
      rw [loadBlockPart, hentry]
      exact load_eq hinverts rfl (part_marshal_ne_nil part) hpart
    have hrest := ih hparts (buf ++ part.bytes) (i := i + 1) fun j part' hj => by
      have := hentries (j + 1) part' hj
      rwa [add_comm j 1, ← add_assoc] at this
    rw [length_cons, loadBlockParts, hload]
    simp only [bind, Except.bind, hrest, flatMap_cons, append_assoc]

namespace Saved

/-- A digest or nothing. -/
theorem length_hash (args : Saved) : validateHash H (args.hash H) = .ok () := by
  apply failIf_eq_ok.mpr
  rintro ⟨hpos, hne⟩
  apply hne
  unfold hash Header.hash at hpos ⊢
  split at hpos
  · simp at hpos
  · rename_i hhashed
    rw [if_neg hhashed]
    cases hleaves : args.block.header.hashLeaves with
    | none => simp [hleaves] at hpos
    | some leaves => exact length_hashFromByteSlices leaves

variable {args : Saved} (h : args.Proper H)
include h

theorem Proper.decoded : Decoded H args.block := by
  obtain ⟨parts, -, -, -, hdecode⟩ := h.parts
  exact decoded_of_decodeBlock hdecode

theorem Proper.hash_eq : args.block.hash H = some (args.hash H) :=
  Block.hash_of_validateBasic h.decoded.valid

theorem Proper.height_pos : 0 < args.height :=
  Header.height_pos (seq_eq_ok.mp h.decoded.header).2

/-- The header that is saved is that of the block. -/
theorem Proper.blockMeta_header : (args.blockMeta H).header = args.block.header := by
  obtain ⟨lastCommit, hlast, hfill⟩ := Block.fillHeader_of_validateBasic h.decoded.valid
  rw [blockMeta, newBlockMeta, hlast, Option.bind_some, hfill, Option.getD_some]

/-- The meta that is saved passes its checks. -/
theorem Proper.blockMeta_valid : BlockMeta.fromProto H (args.blockMeta H) = .ok () := by
  have hheader := h.blockMeta_header
  have hid : (args.blockMeta H).blockID.validateBasic H = .ok () := by
    rw [BlockID.validateBasic]
    have hhash : validateHash H (args.blockMeta H).blockID.hash = .ok () := args.length_hash
    rw [hhash]
    exact within_eq_ok.mpr h.header
  refine seq_eq_ok.mpr ⟨blockIDFromProto_of_validateBasic hid, seq_eq_ok.mpr ⟨?_, ?_⟩⟩
  · rw [hheader]
    exact h.decoded.header
  · refine seq_eq_ok.mpr ⟨hid, failIf_eq_ok.mpr ?_⟩
    rw [hheader]
    exact not_not.mpr rfl

variable (hstored : args.Stored H db)

include hstored

/-- The entries of a saved block can be loaded. -/
theorem Stored.loadBlockMeta :
    loadBlockMeta H db args.height = .ok (some (args.blockMeta H)) :=
  load_eq BlockMeta.unmarshal_inverts hstored.blockMeta
    (blockMeta_marshal_ne_nil hstored.blockMeta) h.blockMeta_valid

theorem Stored.loadBlock : loadBlock H db args.height = .ok (some args.block) := by
  obtain ⟨parts, hparts, hlength, hvalid, hdecode⟩ := h.parts
  have hload : loadBlockParts H db args.height parts.length 0 [] = _ :=
    loadBlockParts_eq hvalid [] fun j part hj => by
      rw [zero_add]
      exact hstored.parts j part (by rw [hparts, getElem?_map, hj]; rfl)
  rw [hlength, nil_append] at hload
  rw [Store.loadBlock, hstored.loadBlockMeta h]
  have htotal : (args.blockMeta H).blockID.partSetHeader.total = args.blockParts.total := rfl
  simp only [bind, Except.bind, htotal, hload, hdecode, pure, Except.pure]

theorem Stored.loadBlockByHash : loadBlockByHash H db (args.hash H) = .ok (some args.block) := by
  have hpos := h.height_pos
  have hnonneg : 0 ≤ args.height := by
    rw [lt_iff_toInt_lt] at hpos
    rw [le_iff_toInt_le]
    omega
  rw [Store.loadBlockByHash, hstored.hash, if_neg (formatInt_ne_nil _), parseInt_formatInt hnonneg]
  exact hstored.loadBlock h

theorem Stored.loadSeenCommit :
    loadSeenCommit H db args.height = .ok (some args.seenCommit) :=
  load_eq Commit.unmarshal_inverts hstored.seenCommit (commit_marshal_ne_nil hstored.seenCommit)
    h.seenCommit

end Saved

end Stored

/-! ### The invariant -/

section Invariant

variable (H : HashFunction)

/-- The keys under which a saved block is found. -/
def Saved.Owns (args : Saved) (key : Key) : Prop :=
  key = .blockMeta args.height ∨
    (∃ i, key = .blockPart args.height i) ∨ key = .blockHash (args.hash H) ∨
    key = .seenCommit args.height

/-- The blocks of the list from base to height are stored, with the commits of all but the last, and
the state record is current. -/
structure Intact (blocks : List Block) (s : System) : Prop where
  record : loadBlockStoreState s.store.db = .ok (s.store.base, s.store.height)
  range : s.store.base = 0 ∧ s.store.height = 0 ∨
    0 < s.store.base ∧ s.store.base ≤ s.store.height
  saved : ∀ h, 0 < h → s.store.base ≤ h → h ≤ s.store.height → ∃ args : Saved,
    s.saved h = some args ∧ args.Proper H ∧ args.block ∈ blocks ∧ args.height = h ∧
      args.Stored H s.store.db
  commits : ∀ h, 0 < h → s.store.base ≤ h → h < s.store.height → ∃ (args : Saved) (commit : Commit),
    s.saved (h + 1) = some args ∧ args.block.lastCommit = some commit ∧
      commitFromProto H commit = .ok () ∧ commit.marshal = some (s.store.db (.blockCommit h))

variable {H} {blocks : List Block} {s : System} {db db' : DB Key} {base : Int64}

theorem Saved.Stored.frame {args : Saved} (h : args.Stored H db)
    (heq : ∀ key, args.Owns H key → db' key = db key) : args.Stored H db' where
  blockMeta := by
    rw [heq _ (.inl rfl)]
    exact h.blockMeta
  parts i part hpart := by
    rw [heq _ (.inr (.inl ⟨i, rfl⟩))]
    exact h.parts i part hpart
  hash := by
    rw [heq _ (.inr (.inr (.inl rfl)))]
    exact h.hash
  seenCommit := by
    rw [heq _ (.inr (.inr (.inr rfl)))]
    exact h.seenCommit

/-- The record is read back. -/
theorem loadBlockStoreState_record {height : Int64} (hbase : 0 < base)
    (h : db .blockStore = marshalState base height) :
    loadBlockStoreState db = .ok (base, height) := by
  have hne : base ≠ 0 := by
    rintro rfl
    exact absurd hbase (by decide)
  have hbytes : marshalState base height ≠ [] := by
    refine marshal_ne_nil (mem_cons_self ..) ?_
    have : int64 base ≠ 0 := fun h0 => hne (int64_inj.mp h0)
    simp [scalar, this]
  rw [loadBlockStoreState, h, if_neg hbytes]
  simp [marshalState, orPanic, hne, bind, Except.bind, pure, Except.pure]

/-- Writes that leave alone the blocks from the new base on keep the store intact. -/
theorem Intact.applyAll (hintact : Intact H blocks s) {ws : List (Write Key)}
    (hrecord : loadBlockStoreState (applyAll s.store.db ws) = .ok (base, s.store.height))
    (hbase : base = s.store.base ∨ 0 < base ∧ s.store.base ≤ base ∧ base ≤ s.store.height)
    (hfree : ∀ w ∈ ws, ∀ args : Saved, args.Proper H → args.block ∈ blocks →
      base ≤ args.height → args.height ≤ s.store.height →
      ¬ args.Owns H w.key)
    (hcommits : ∀ w ∈ ws, ∀ h, 0 < h → base ≤ h → h < s.store.height → w.key ≠ .blockCommit h) :
    Intact H blocks ⟨⟨KeyValue.applyAll s.store.db ws, base, s.store.height⟩, s.saved⟩ := by
  have hle : s.store.base ≤ base := by
    rcases hbase with rfl | hbase
    · exact Int64.le_refl _
    · exact hbase.2.1
  refine ⟨hrecord, ?_, ?_, ?_⟩
  · rcases hbase with rfl | hbase
    · exact hintact.range
    · exact .inr ⟨hbase.1, hbase.2.2⟩
  · intro h hpos hlo hhi
    obtain ⟨args, hargs, hproper, hmem, rfl, hstored⟩ :=
      hintact.saved h hpos (Int64.le_trans hle hlo) hhi
    refine ⟨args, hargs, hproper, hmem, rfl, hstored.frame ?_⟩
    intro key howns
    apply applyAll_frame
    intro w hw heq
    exact hfree w hw args hproper hmem hlo hhi (heq ▸ howns)
  · intro h hpos hlo hhi
    obtain ⟨args, commit, hargs, hlast, hvalid, hmarshal⟩ :=
      hintact.commits h hpos (Int64.le_trans hle hlo) hhi
    have hkept : KeyValue.applyAll s.store.db ws (.blockCommit h) = s.store.db (.blockCommit h) :=
      applyAll_frame fun w hw => hcommits w hw h hpos hlo hhi
    exact ⟨args, commit, hargs, hlast, hvalid, hmarshal.trans (congrArg some hkept.symm)⟩

/-- No two blocks of the list that can be saved have the same hash at different heights. -/
def DistinctHashes (H : HashFunction) (blocks : List Block) : Prop :=
  ∀ args args' : Saved, args.Proper H → args'.Proper H → args.block ∈ blocks →
    args'.block ∈ blocks → args.hash H = args'.hash H → args.height = args'.height

/-- Without collisions, the hash determines the height. -/
theorem distinctHashes_of_collisionFree
    (hfree : ∀ b ∈ blocks, ∀ b' ∈ blocks, H.CollisionFree (b.hashInputs H) (b'.hashInputs H)) :
    DistinctHashes H blocks := by
  intro args args' hproper hproper' hmem hmem' heq
  have hhash : args.block.hash H = args'.block.hash H := by
    rw [hproper.hash_eq, hproper'.hash_eq, heq]
  have hheader := (Block.eq_of_hash_eq hproper.decoded.valid hproper'.decoded.valid hproper.hashed
    hproper'.hashed hproper.decoded.time hproper'.decoded.time (hfree _ hmem _ hmem') hhash).1
  rw [Saved.height, hheader]

end Invariant

/-! ### Saving keeps the invariant -/

section SaveStep

variable {H : HashFunction} {blocks : List Block} {s s' : System}

/-- The keys that `SaveBlock` writes before the state record. -/
def SaveKey (H : HashFunction) (args : Saved) (key : Key) : Prop :=
  args.Owns H key ∨ key = .blockCommit (args.height - 1)

/-- The writes of `SaveBlock` before the state record; `none` where it panics. -/
def saveFront (H : HashFunction) (args : Saved) : List (Option (Write Key)) :=
  let height := args.height
  (List.range args.blockParts.total.toNat).map (saveBlockPart height args.blockParts) ++
    [(args.blockMeta H).marshal.map (.set (.blockMeta height)),
      some (.set (.blockHash (args.hash H)) (formatInt height)),
      (args.block.lastCommit.bind Commit.marshal).map (.set (.blockCommit (height - 1))),
      args.seenCommit.marshal.map (.set (.seenCommit height))]

theorem saveBlockSteps_eq (bs : BlockStore) (args : Saved) :
    saveBlockSteps H bs args.block (args.hash H) args.blockParts args.seenCommit =
      saveFront H args ++
        [some (saveState (if bs.base = 0 then args.height else bs.base) args.height)] := by
  simp [saveBlockSteps, saveFront, Saved.blockMeta]

variable {args : Saved} {w : Write Key} {ws made : List (Write Key)} {base height : Int64}

/-- The writes before the state record. -/
theorem mem_saveFront (h : some w ∈ saveFront H args) :
    (∃ (i : Nat) (part : Part), args.blockParts.parts[i]? = some (some part) ∧
        w = .set (.blockPart args.height i) part.marshal) ∨
      (∃ b, (args.blockMeta H).marshal = some b ∧
        w = .set (.blockMeta args.height) b) ∨
      w = .set (.blockHash (args.hash H)) (formatInt args.height) ∨
      (∃ b, args.block.lastCommit.bind Commit.marshal = some b ∧
        w = .set (.blockCommit (args.height - 1)) b) ∨
      ∃ b, args.seenCommit.marshal = some b ∧
        w = .set (.seenCommit args.height) b := by
  rcases mem_append.mp h with hpart | hrest
  · left
    obtain ⟨i, -, hi⟩ := mem_map.mp hpart
    obtain ⟨part, hfound, rfl⟩ := Option.map_eq_some_iff.mp hi
    obtain ⟨slot, hslot, rfl⟩ := Option.bind_eq_some_iff.mp hfound
    exact ⟨i, part, hslot, rfl⟩
  · right
    simp only [mem_cons, not_mem_nil, or_false] at hrest
    rcases hrest with hmeta | hhash | hcommit | hseen
    · obtain ⟨b, hb, rfl⟩ := Option.map_eq_some_iff.mp hmeta.symm
      exact .inl ⟨b, hb, rfl⟩
    · exact .inr (.inl (Option.some.inj hhash))
    · obtain ⟨b, hb, rfl⟩ := Option.map_eq_some_iff.mp hcommit.symm
      exact .inr (.inr (.inl ⟨b, hb, rfl⟩))
    · obtain ⟨b, hb, rfl⟩ := Option.map_eq_some_iff.mp hseen.symm
      exact .inr (.inr (.inr ⟨b, hb, rfl⟩))

theorem saveKey_of_mem (h : some w ∈ saveFront H args) : SaveKey H args w.key := by
  rcases mem_saveFront h with ⟨i, part, -, rfl⟩ | ⟨b, -, rfl⟩ | rfl | ⟨b, -, rfl⟩ | ⟨b, -, rfl⟩
  · exact .inl (.inr (.inl ⟨i, rfl⟩))
  · exact .inl (.inl rfl)
  · exact .inl (.inr (.inr (.inl rfl)))
  · exact .inr rfl
  · exact .inl (.inr (.inr (.inr rfl)))

theorem not_saveKey_blockStore : ¬ SaveKey H args .blockStore := by
  simp [SaveKey, Saved.Owns]

theorem saveKey_blockCommit {h : Int64} :
    SaveKey H args (.blockCommit h) ↔ h = args.height - 1 := by
  simp [SaveKey, Saved.Owns]

/-- What was made before a panic stands at the front of the writes. -/
theorem madeBeforePanic_spec (steps : List (Option (Write Key))) :
    ∃ rest, steps = (madeBeforePanic steps).map some ++ rest := by
  induction steps with
  | nil => exact ⟨[], rfl⟩
  | cons step steps ih =>
    cases step with
    | none => exact ⟨none :: steps, rfl⟩
    | some w =>
      obtain ⟨rest, hrest⟩ := ih
      exact ⟨rest, congrArg (some w :: ·) hrest⟩

/-- A write that is made before the last one is one of the front. -/
theorem mem_front_of_mem_take {front : List (Option (Write Key))} {last : Option (Write Key)}
    {k : Nat} (hk : k ≤ front.length) (hw : w ∈ (madeBeforePanic (front ++ [last])).take k) :
    some w ∈ front := by
  obtain ⟨rest, hrest⟩ := madeBeforePanic_spec (front ++ [last])
  have hmem : some w ∈ (front ++ [last]).take k := by
    rw [hrest, take_append, ← map_take]
    exact mem_append_left _ (mem_map_of_mem hw)
  rw [take_append_of_le_length hk] at hmem
  exact mem_of_mem_take hmem

/-- All writes were made if as many were made as there are. -/
theorem eq_map_some_of_length {steps : List (Option (Write Key))}
    (h : (madeBeforePanic steps).length = steps.length) :
    steps = (madeBeforePanic steps).map some := by
  obtain ⟨rest, hrest⟩ := madeBeforePanic_spec steps
  have hlength := congrArg length hrest
  rw [length_append, length_map] at hlength
  obtain rfl : rest = [] := length_eq_zero_iff.mp (by omega)
  rwa [append_nil] at hrest

theorem length_madeBeforePanic_le (steps : List (Option (Write Key))) :
    (madeBeforePanic steps).length ≤ steps.length := by
  obtain ⟨rest, hrest⟩ := madeBeforePanic_spec steps
  have hlength := congrArg length hrest
  rw [length_append, length_map] at hlength
  omega

/-- The writes of `SaveBlock` for a block at a new height leave the stored blocks alone. -/
theorem not_owns_of_saveKey (hdistinct : DistinctHashes H blocks) {other : Saved}
    (hproper : args.Proper H) (hother : other.Proper H) (hmem : args.block ∈ blocks)
    (hmem' : other.block ∈ blocks) (hne : other.height ≠ args.height)
    {key : Key} (hkey : SaveKey H args key) : ¬ other.Owns H key := by
  have hhash : args.hash H ≠ other.hash H :=
    fun heq => hne (hdistinct args other hproper hother hmem hmem' heq).symm
  have hne' := hne.symm
  rcases hkey with (rfl | ⟨i, rfl⟩ | rfl | rfl) | rfl <;> simp [Saved.Owns, hne', hhash]

/-- What is read when the store is reopened. -/
theorem reopen_eq {db : DB Key} (h : loadBlockStoreState (applyAll db ws) = .ok (base, height)) :
    reopen db ws = some ⟨applyAll db ws, base, height⟩ := by
  rw [reopen, newBlockStore, h]
  rfl

/-- Reopening the store changes nothing. -/
theorem Intact.reopen_nil (hintact : Intact H blocks s) : reopen s.store.db [] = some s.store :=
  reopen_eq hintact.record

/-- The heights below that of a block that is saved behind the last one. -/
theorem height_lt_of_succ (hproper : args.Proper H) {h : Int64}
    (hsucc : args.height = height + 1) :
    h < args.height ↔ h ≤ height := by
  have hpos := hproper.height_pos
  rw [lt_iff_toInt_lt, hsucc] at hpos
  rw [lt_iff_toInt_lt, le_iff_toInt_le, hsucc, Exact.toInt_succ hpos]
  omega

/-- Writes under one key before the state record agree. -/
theorem value_of_mem_saveFront {w' : Write Key} (hw : some w ∈ saveFront H args)
    (hw' : some w' ∈ saveFront H args) (hkey : w.key = w'.key) : w.value = w'.value := by
  rcases mem_saveFront hw with ⟨i, part, hi, rfl⟩ | ⟨b, hb, rfl⟩ | rfl | ⟨b, hb, rfl⟩ | ⟨b, hb, rfl⟩
    <;> rcases mem_saveFront hw' with ⟨j, part', hj, rfl⟩ | ⟨b', hb', rfl⟩ | rfl | ⟨b', hb', rfl⟩ |
      ⟨b', hb', rfl⟩ <;> simp_all [Write.key, Write.value]

/-- If all writes before the state record are made, an entry is what is written under its key. -/
theorem entry_of_front {args : Saved} {made : List (Write Key)}
    (hmade : saveFront H args = made.map some) (db : DB Key) (base height : Int64) {key : Key}
    {value : Option Bytes} (hstep : value.map (.set key) ∈ saveFront H args) :
    value = some (applyAll db (made ++ [saveState base height]) key) := by
  have hfront : ∀ w ∈ made, some w ∈ saveFront H args := by
    intro w hw
    rw [hmade]
    exact mem_map_of_mem hw
  have hmem := hstep
  rw [hmade] at hmem
  obtain ⟨w, hw, hvalue⟩ := mem_map.mp hmem
  obtain ⟨b, rfl, rfl⟩ := Option.map_eq_some_iff.mp hvalue.symm
  congr 1
  symm
  apply applyAll_agree
  · exact ⟨_, mem_append_left _ hw, rfl⟩
  · intro w' hw' hk
    rcases mem_append.mp hw' with hw' | hlast
    · exact value_of_mem_saveFront (hfront w' hw') hstep hk
    · obtain rfl := mem_singleton.mp hlast
      exact (not_saveKey_blockStore (hk ▸ saveKey_of_mem (hfront _ hw))).elim

/-- After all writes, the block is stored and the commit of the block before it is there. -/
theorem stored_of_complete (hproper : args.Proper H) (hmade : saveFront H args = made.map some)
    (db : DB Key) (base : Int64) :
    args.Stored H (applyAll db (made ++ [saveState base args.height])) ∧
      args.block.lastCommit.bind Commit.marshal =
        some (applyAll db (made ++ [saveState base args.height])
          (.blockCommit (args.height - 1))) := by
  have hentry := fun {key value} =>
    @entry_of_front H args made hmade db base args.height key value
  refine ⟨⟨hentry (by simp [saveFront]), ?_, ?_, hentry (by simp [saveFront])⟩,
    hentry (by simp [saveFront])⟩
  · intro i part hpart
    obtain ⟨parts, hparts, hlength, -⟩ := hproper.parts
    have hi : i < args.blockParts.total.toNat := by
      rw [← hlength]
      have := (List.getElem_of_getElem? hpart).1
      rwa [hparts, length_map] at this
    have hstep : (some part.marshal).map (.set (.blockPart args.height i)) ∈ saveFront H args := by
      apply mem_append_left
      refine mem_map.mpr ⟨i, mem_range.mpr hi, ?_⟩
      simp [saveBlockPart, hpart]
    exact (Option.some.inj (hentry hstep)).symm
  · have hstep : (some (formatInt args.height)).map
        (.set (.blockHash (args.hash H))) ∈ saveFront H args := by
      simp [saveFront]
    exact (Option.some.inj (hentry hstep)).symm

/-- All writes leave the other entries as they are. -/
theorem applyAll_saved (hmade : saveFront H args = made.map some) (db : DB Key) {key : Key}
    (hkey : ¬ SaveKey H args key) (hne : key ≠ .blockStore) :
    applyAll db (made ++ [saveState base height]) key = db key := by
  apply applyAll_frame
  intro w hw heq
  rcases mem_append.mp hw with hfront | hlast
  · have hmem : some w ∈ saveFront H args := hmade ▸ mem_map_of_mem hfront
    exact hkey (heq ▸ saveKey_of_mem hmem)
  · obtain rfl := mem_singleton.mp hlast
    exact hne heq.symm

section Saving

variable (hdistinct : DistinctHashes H blocks) (hintact : Intact H blocks s)
  (hproper : args.Proper H) (hmem : args.block ∈ blocks)
  (hheight : 0 < s.store.base → args.height = s.store.height + 1)
include hdistinct hintact hproper hmem hheight

/-- A call of `SaveBlock` that does not get to the state record changes nothing that is stored. -/
theorem intact_of_interrupted (hws : ∀ w ∈ ws, some w ∈ saveFront H args) {store : BlockStore}
    (hreopen : reopen s.store.db ws = some store) : Intact H blocks ⟨store, s.saved⟩ := by
  have hsame : loadBlockStoreState (applyAll s.store.db ws) =
      .ok (s.store.base, s.store.height) := by
    rw [← hintact.record, loadBlockStoreState, loadBlockStoreState, applyAll_frame]
    intro w hw hkey
    exact not_saveKey_blockStore (hkey ▸ saveKey_of_mem (hws w hw))
  cases (reopen_eq hsame).symm.trans hreopen
  have hpositive : ∀ h, 0 < h → h ≤ s.store.height → 0 < s.store.base := by
    intro h hpos hle
    rcases hintact.range with ⟨-, hzero⟩ | ⟨hbase, -⟩
    · rw [hzero] at hle
      exact absurd (Int64.lt_of_lt_of_le hpos hle) (by decide)
    · exact hbase
  refine hintact.applyAll hsame (.inl rfl) ?_ ?_
  · intro w hw other hother hmem' hlo hhi
    have hsucc := hheight (hpositive _ hother.height_pos hhi)
    have hlt := (height_lt_of_succ hproper hsucc).mpr hhi
    exact not_owns_of_saveKey hdistinct hproper hother hmem hmem' (Int64.ne_of_lt hlt)
      (saveKey_of_mem (hws w hw))
  · intro w hw h hpos hlo hhi hkey
    have hsave := saveKey_of_mem (hws w hw)
    rw [hkey, saveKey_blockCommit, hheight (hpositive h hpos (Int64.le_of_lt hhi)),
      Int64.add_sub_cancel] at hsave
    exact Int64.ne_of_lt hhi hsave

/-- A call of `SaveBlock` that makes all its writes adds the block. -/
theorem intact_of_complete (hmade : saveFront H args = made.map some)
    (hbase : base = if s.store.base = 0 then args.height else s.store.base) :
    Intact H blocks
      ⟨⟨applyAll s.store.db (made ++ [saveState base args.height]), base,
          args.height⟩,
        fun h => if h = args.height then some args else s.saved h⟩ := by
  have hpos := hproper.height_pos
  obtain ⟨hstored, hcommit⟩ := stored_of_complete hproper hmade s.store.db base
  -- the store was empty, or the block stands right behind the last one
  have hcases : base = args.height ∨ base = s.store.base ∧ 0 < s.store.base ∧
      s.store.base ≤ s.store.height ∧ args.height = s.store.height + 1 := by
    rcases hintact.range with ⟨hzero, -⟩ | ⟨hb, hle⟩
    · rw [if_pos hzero] at hbase
      exact .inl hbase
    · rw [if_neg (Int64.ne_of_lt hb).symm] at hbase
      exact .inr ⟨hbase, hb, hle, hheight hb⟩
  have hold : ∀ h, base ≤ h → h < args.height →
      s.store.base ≤ h ∧ h ≤ s.store.height ∧ args.height = s.store.height + 1 := by
    intro h hlo hlt
    rcases hcases with rfl | ⟨rfl, -, -, hsucc⟩
    · exact (Int64.lt_irrefl (Int64.lt_of_le_of_lt hlo hlt)).elim
    · exact ⟨hlo, (height_lt_of_succ hproper hsucc).mp hlt, hsucc⟩
  refine ⟨?_, .inr ?_, ?_, ?_⟩
  · apply loadBlockStoreState_record
    · rcases hcases with rfl | ⟨rfl, hb, -⟩
      · exact hpos
      · exact hb
    · rw [applyAll_append]
      rfl
  · rcases hcases with rfl | ⟨rfl, hb, hle, hsucc⟩
    · exact ⟨hpos, Int64.le_refl _⟩
    · exact ⟨hb, Int64.le_of_lt ((height_lt_of_succ hproper hsucc).mpr hle)⟩
  · intro h hh hlo hhi
    by_cases heq : h = args.height
    · exact ⟨args, if_pos heq, hproper, hmem, heq.symm, hstored⟩
    · have hlt := Int64.lt_of_le_of_ne hhi heq
      obtain ⟨hlo', hhi', hsucc⟩ := hold h hlo hlt
      obtain ⟨other, hother, hproper', hmem', rfl, hstored'⟩ := hintact.saved h hh hlo' hhi'
      refine ⟨other, (if_neg heq).trans hother, hproper', hmem', rfl, hstored'.frame ?_⟩
      intro key howns
      refine applyAll_saved hmade _ (fun hsave => ?_) ?_
      · exact not_owns_of_saveKey hdistinct hproper hproper' hmem hmem' heq hsave howns
      · rintro rfl
        simp [Saved.Owns] at howns
  · intro h hh hlo hlt
    obtain ⟨hlo', hhi', hsucc⟩ := hold h hlo hlt
    have hlast : args.height - 1 = s.store.height := by
      rw [hsucc, Int64.add_sub_cancel]
    by_cases heq : h = s.store.height
    · subst heq
      obtain ⟨commit, hcommit', hvalid⟩ := hproper.decoded.lastCommit
      refine ⟨args, commit, if_pos hsucc.symm, hcommit', hvalid, ?_⟩
      rw [hcommit', Option.bind_some, hlast] at hcommit
      exact hcommit
    · have hlt' := Int64.lt_of_le_of_ne hhi' heq
      obtain ⟨other, commit, hother, hcommit', hvalid, hmarshal⟩ := hintact.commits h hh hlo' hlt'
      have hne : h + 1 ≠ args.height := by
        intro hcontra
        apply heq
        rw [← hlast, ← hcontra, Int64.add_sub_cancel]
      have hkey : ¬ SaveKey H args (.blockCommit h) := by rwa [saveKey_blockCommit, hlast]
      refine ⟨other, commit, (if_neg hne).trans hother, hcommit', hvalid, ?_⟩
      exact hmarshal.trans (congrArg some (applyAll_saved hmade _ hkey nofun).symm)

end Saving

/-- The writes of `SaveBlock` for a complete block behind the last one. -/
theorem saveBlock_eq_ok (hproper : args.Proper H) {bs : BlockStore}
    (hgap : ¬ (bs.base > 0 ∧ args.height ≠ bs.height + 1))
    (hcomplete : args.blockParts.isComplete = true) :
    saveBlock H bs args.block args.blockParts args.seenCommit =
      .ok (saveBlockSteps H bs args.block (args.hash H) args.blockParts args.seenCommit) := by
  rw [saveBlock, hproper.hash_eq]
  simp [orPanic, bind, Except.bind, if_neg hgap, hcomplete, pure, Except.pure]

/-- `SaveBlock` panics before its first write, or the block may be saved. -/
theorem saveBlock_cases (hproper : args.Proper H) (bs : BlockStore) :
    (∃ failure, saveBlock H bs args.block args.blockParts args.seenCommit = .error failure) ∨
      (0 < bs.base → args.height = bs.height + 1) ∧
        saveBlock H bs args.block args.blockParts args.seenCommit =
          .ok (saveBlockSteps H bs args.block (args.hash H) args.blockParts args.seenCommit) := by
  by_cases hgap : bs.base > 0 ∧ args.height ≠ bs.height + 1
  · left
    rw [saveBlock, hproper.hash_eq]
    exact ⟨.panic, by simp only [orPanic, bind, Except.bind, if_pos hgap]⟩
  · by_cases hcomplete : args.blockParts.isComplete = true
    · right
      refine ⟨fun hpos => ?_, saveBlock_eq_ok hproper hgap hcomplete⟩
      by_contra hne
      exact hgap ⟨hpos, hne⟩
    · left
      rw [saveBlock, hproper.hash_eq]
      refine ⟨.panic, ?_⟩
      simp [orPanic, bind, Except.bind, hcomplete]

/-- Saving keeps the store intact, whether it is interrupted or not. -/
theorem intact_save (hdistinct : DistinctHashes H blocks) (hintact : Intact H blocks s)
    (hproper : args.Proper H) (hmem : args.block ∈ blocks) {crash : Option Nat}
    (hstep : s.save H args crash = some s') : Intact H blocks s' := by
  unfold System.save at hstep
  rcases saveBlock_cases hproper s.store with ⟨failure, herror⟩ | ⟨hheight, hok⟩
  · simp only [herror, madeBeforePanic] at hstep
    rcases crash with _ | _ | k <;> simp [hintact.reopen_nil] at hstep <;> exact hstep ▸ hintact
  · simp only [hok, saveBlockSteps_eq] at hstep
    generalize hlast : saveState _ _ = last at hstep
    have hcomplete : ∀ made : List (Write Key), saveFront H args ++ [some last] = made.map some →
        Intact H blocks
          ⟨⟨applyAll s.store.db made,
              if s.store.base = 0 then args.height else s.store.base,
              args.height⟩,
            fun h => if h = args.height then some args else s.saved h⟩ := by
      intro made hmade
      obtain ⟨front, tail, rfl, hfront, htail⟩ := map_eq_append_iff.mp hmade.symm
      obtain rfl : tail = [last] := by
        cases tail with
        | nil => cases htail
        | cons w tail =>
          obtain ⟨hw, hnil⟩ := cons.inj htail
          rw [Option.some.inj hw, map_eq_nil_iff.mp hnil]
      rw [← hlast]
      exact intact_of_complete hdistinct hintact hproper hmem hheight hfront.symm rfl
    have hlength := length_madeBeforePanic_le (saveFront H args ++ [some last])
    cases crash with
    | none =>
      simp only at hstep
      split at hstep
      case isTrue hall =>
        cases hstep
        exact hcomplete _ (eq_map_some_of_length hall)
      case isFalse hsome =>
        obtain ⟨store, hreopen, rfl⟩ := Option.map_eq_some_iff.mp hstep
        refine intact_of_interrupted hdistinct hintact hproper hmem hheight ?_ hreopen
        intro w hw
        rw [length_append, length_singleton] at hlength hsome
        have hfront : w ∈ (madeBeforePanic (saveFront H args ++ [some last])).take
            (saveFront H args).length := by
          rwa [take_of_length_le (by omega)]
        exact mem_front_of_mem_take (le_refl _) hfront
    | some k =>
      simp only at hstep
      split at hstep
      · cases hstep
      · obtain ⟨store, hreopen, rfl⟩ := Option.map_eq_some_iff.mp hstep
        by_cases hall : k = (saveFront H args ++ [some last]).length
        · have hmade := hcomplete _ (eq_map_some_of_length (by omega))
          rw [take_of_length_le (by omega)] at hreopen
          cases (reopen_eq hmade.record).symm.trans hreopen
          simp only [if_pos hall]
          exact hmade
        · simp only [if_neg hall]
          refine intact_of_interrupted hdistinct hintact hproper hmem hheight ?_ hreopen
          intro w hw
          rw [length_append, length_singleton] at hlength hall
          exact mem_front_of_mem_take (by omega) hw

end SaveStep

/-! ### Pruning keeps the invariant -/

section PruneStep

variable {H : HashFunction} {blocks : List Block} {s s' : System}

/-- The crash does not come between the first deletion of the last block of a flush in the loop and
the next state record. -/
def Undisturbed : List Flush → (made : Nat) → Prop
  | [], _ => True
  | [_], _ => True
  | f :: rest, made =>
    made ≤ 1 + f.batch.dropLast.flatten.length ∨
      1 + f.batch.flatten.length < made ∧ Undisturbed rest (made - (1 + f.batch.flatten.length))

/-- The deletions of a block that is stored at a height below another one. -/
def DeletesBelow (H : HashFunction) (blocks : List Block) (limit : Int64)
    (ws : List (Write Key)) : Prop :=
  ∃ args : Saved, args.Proper H ∧ args.block ∈ blocks ∧ args.height < limit ∧
    ws = blockDeletions args.height (args.blockMeta H)

variable {limit height base : Int64} {ws : List (Write Key)} {w : Write Key}
  {batch : List (List (Write Key))}

/-- Deletions of lower blocks leave a block alone. -/
theorem not_owns_of_deletesBelow (hdistinct : DistinctHashes H blocks)
    (h : DeletesBelow H blocks limit ws) (hw : w ∈ ws) {other : Saved} (hother : other.Proper H)
    (hmem : other.block ∈ blocks) (hlimit : limit ≤ other.height) :
    ¬ other.Owns H w.key := by
  obtain ⟨args, hproper, hmem', hlt, rfl⟩ := h
  have hne : args.height ≠ other.height :=
    Int64.ne_of_lt (Int64.lt_of_lt_of_le hlt hlimit)
  have hhash : args.hash H ≠ other.hash H :=
    fun heq => hne (hdistinct args other hproper hother hmem' hmem heq)
  have hid : (args.blockMeta H).blockID.hash = args.hash H := rfl
  simp only [blockDeletions, mem_append, mem_cons, not_mem_nil, or_false, mem_map] at hw
  rcases hw with (rfl | rfl | rfl | rfl) | ⟨p, -, rfl⟩
  all_goals simp [Saved.Owns, Write.key, hne, hhash, hid]

/-- Deletions of lower blocks leave the commits of higher ones and the state record alone. -/
theorem key_ne_of_deletesBelow (h : DeletesBelow H blocks limit ws) (hw : w ∈ ws) :
    w.key ≠ .blockStore ∧ ∀ height, limit ≤ height → w.key ≠ .blockCommit height := by
  obtain ⟨args, -, -, hlt, rfl⟩ := h
  simp only [blockDeletions, mem_append, mem_cons, not_mem_nil, or_false, mem_map] at hw
  rcases hw with (rfl | rfl | rfl | rfl) | ⟨p, -, rfl⟩
  all_goals simp [Write.key]
  intro height hle heq
  rw [heq] at hlt
  exact Int64.lt_irrefl (Int64.lt_of_le_of_lt hle hlt)

theorem DeletesBelow.mono {limit' : Int64} (h : DeletesBelow H blocks limit ws)
    (hle : limit ≤ limit') : DeletesBelow H blocks limit' ws := by
  obtain ⟨args, hproper, hmem, hlt, hws⟩ := h
  exact ⟨args, hproper, hmem, Int64.lt_of_lt_of_le hlt hle, hws⟩

/-- A flush within the loop: all blocks but the last are below the base that is recorded, and the
last is at this base. -/
def LoopFlush (H : HashFunction) (blocks : List Block) (f : Flush) : Prop :=
  ∃ front last, f.batch = front ++ [last] ∧ (∀ ws ∈ front, DeletesBelow H blocks f.base ws) ∧
    ∀ limit, f.base < limit → DeletesBelow H blocks limit last

/-- The metas of the heights from one on are those of saved blocks. -/
def MetasFrom (H : HashFunction) (blocks : List Block) (db : DB Key) (low limit : Int64) : Prop :=
  ∀ p, low ≤ p → p < limit → ∃ args : Saved, args.Proper H ∧ args.block ∈ blocks ∧
    args.height = p ∧ loadBlockMeta H db p = .ok (some (args.blockMeta H))

/-- What the loop flushes and what it leaves in the batch. -/
theorem pruneLoop_spec (hdistinct : DistinctHashes H blocks) (height : Int64) {limit : Int64}
    {remaining : Nat} {db : DB Key} {h : Int64} {pruned : Nat} {batch : List (List (Write Key))}
    (hremaining : h.toInt + remaining = limit.toInt) (hmetas : MetasFrom H blocks db h limit)
    (hbatch : ∀ ws ∈ batch, DeletesBelow H blocks h ws) :
    ∃ flushes rest, pruneLoop H height remaining db h pruned batch = .ok (flushes, rest) ∧
      (∀ f ∈ flushes, LoopFlush H blocks f ∧ h ≤ f.base ∧ f.base < limit) ∧
      flushes.Pairwise (fun f g => f.base < g.base) ∧
      ∀ ws ∈ rest, DeletesBelow H blocks limit ws := by
  induction remaining generalizing db h pruned batch with
  | zero =>
    obtain rfl : h = limit := toInt_inj.mp (by omega)
    exact ⟨[], batch, rfl, by simp, List.Pairwise.nil, hbatch⟩
  | succ remaining ih =>
    have hlt : h < limit := by
      rw [lt_iff_toInt_lt]
      omega
    have hsucc : (h + 1).toInt = h.toInt + 1 := by
      have hlo := h.le_toInt
      have hhi := limit.toInt_lt
      have hone : (1 : Int64).toInt = 1 := rfl
      rw [Exact.toInt_add, hone]
      unfold Exact.Fits
      omega
    have hstep : ∀ p, h + 1 ≤ p ↔ h < p := by
      intro p
      rw [le_iff_toInt_le, lt_iff_toInt_lt, hsucc]
      omega
    obtain ⟨args, hproper, hmem, hheight, hload⟩ := hmetas h (Int64.le_refl h) hlt
    have hnew : ∀ limit, h < limit →
        DeletesBelow H blocks limit (blockDeletions h (args.blockMeta H)) :=
      fun limit hlimit => ⟨args, hproper, hmem, hheight ▸ hlimit, by rw [hheight]⟩
    have hbatch' : ∀ ws ∈ batch ++ [blockDeletions h (args.blockMeta H)],
        DeletesBelow H blocks (h + 1) ws := by
      intro ws hws
      rcases mem_append.mp hws with hold | hlast
      · exact (hbatch ws hold).mono (Int64.le_of_lt ((hstep _).mp (Int64.le_refl _)))
      · obtain rfl := mem_singleton.mp hlast
        exact hnew _ ((hstep _).mp (Int64.le_refl _))
    have hmetas' : MetasFrom H blocks db (h + 1) limit :=
      fun p hlo hhi => hmetas p (Int64.le_of_lt ((hstep p).mp hlo)) hhi
    rw [pruneLoop, hload]
    simp only [bind, Except.bind]
    split
    case isTrue hflush =>
      have hkept : MetasFrom H blocks
          (applyAll db (Flush.writes height ⟨h, batch ++ [blockDeletions h (args.blockMeta H)]⟩))
          (h + 1) limit := by
        intro p hlo hhi
        obtain ⟨other, hproper', hmem', rfl, hload'⟩ := hmetas' p hlo hhi
        refine ⟨other, hproper', hmem', rfl, ?_⟩
        rw [← hload', loadBlockMeta, loadBlockMeta, applyAll_frame]
        intro w hw hkey
        rcases mem_cons.mp hw with rfl | hw
        · cases hkey
        · obtain ⟨ws, hws, hw⟩ := mem_flatten.mp hw
          exact not_owns_of_deletesBelow hdistinct (hbatch' ws hws) hw hproper' hmem' hlo
            (.inl hkey)
      obtain ⟨flushes, rest, hrun, hflushes, hsorted, hrest⟩ :=
        @ih _ _ (pruned + 1) [] (by omega) hkept (by simp)
      refine ⟨⟨h, batch ++ [blockDeletions h (args.blockMeta H)]⟩ :: flushes, rest, ?_, ?_, ?_,
        hrest⟩
      · simp only [hrun, pure, Except.pure]
      · intro f hf
        rcases mem_cons.mp hf with rfl | hf
        · exact ⟨⟨batch, _, rfl, hbatch, hnew⟩, Int64.le_refl _, hlt⟩
        · obtain ⟨hloop, hlo, hhi⟩ := hflushes f hf
          exact ⟨hloop, Int64.le_of_lt ((hstep _).mp hlo), hhi⟩
      · exact pairwise_cons.mpr ⟨fun f hf => (hstep _).mp (hflushes f hf).2.1, hsorted⟩
    case isFalse hnone =>
      obtain ⟨flushes, rest, hrun, hflushes, hsorted, hrest⟩ :=
        @ih _ _ (pruned + 1) _ (by omega) hmetas' hbatch'
      refine ⟨flushes, rest, hrun, ?_, hsorted, hrest⟩
      intro f hf
      obtain ⟨hloop, hlo, hhi⟩ := hflushes f hf
      exact ⟨hloop, Int64.le_of_lt ((hstep _).mp hlo), hhi⟩

/-- The flushes of a call of `PruneBlocks`: those within the loop, at increasing heights, and the
last one. -/
structure Flushes (H : HashFunction) (blocks : List Block) (low limit : Int64)
    (within : List Flush) (last : Flush) : Prop where
  loop : ∀ f ∈ within, LoopFlush H blocks f ∧ low ≤ f.base ∧ f.base < limit
  sorted : within.Pairwise fun f g => f.base < g.base
  base : last.base = limit
  batch : ∀ ws ∈ last.batch, DeletesBelow H blocks limit ws

/-- A write of `PruneBlocks` is that of a state record or deletes a block below a height. -/
def PruneWrite (H : HashFunction) (blocks : List Block) (limit : Int64) (w : Write Key) : Prop :=
  w.key = .blockStore ∨ ∃ ws, DeletesBelow H blocks limit ws ∧ w ∈ ws

theorem pruneWrite_of_mem_flatten (h : ∀ ws ∈ batch, DeletesBelow H blocks limit ws)
    (hw : w ∈ batch.flatten) : PruneWrite H blocks limit w := by
  obtain ⟨ws, hws, hw⟩ := mem_flatten.mp hw
  exact .inr ⟨ws, h ws hws, hw⟩

/-- The writes of a flush within the loop are below any later base. -/
theorem LoopFlush.pruneWrite {f : Flush} (h : LoopFlush H blocks f) (hlt : f.base < limit)
    (hw : w ∈ f.writes height) : PruneWrite H blocks limit w := by
  obtain ⟨front, last, hbatch, hfront, hlast⟩ := h
  rcases mem_cons.mp hw with rfl | hw
  · exact .inl rfl
  · rw [hbatch] at hw
    refine pruneWrite_of_mem_flatten ?_ hw
    intro ws hws
    rcases mem_append.mp hws with hold | hnew
    · exact (hfront ws hold).mono (Int64.le_of_lt hlt)
    · obtain rfl := mem_singleton.mp hnew
      exact hlast limit hlt

/-- After the state record, deletions leave it there. -/
theorem record_of_saveState (db : DB Key) (hbatch : ∀ ds ∈ batch, DeletesBelow H blocks limit ds)
    (hws : ∀ w ∈ ws, w ∈ batch.flatten) :
    applyAll db (saveState base height :: ws) .blockStore = marshalState base height := by
  rw [applyAll_cons, applyAll_frame]
  · rfl
  · intro w hw
    obtain ⟨ds, hds, hw⟩ := mem_flatten.mp (hws w hw)
    exact (key_ne_of_deletesBelow (hbatch ds hds) hw).1

/-- The deletions of a flush below the base that it records, if some flushes come after it. -/
def Flush.below (f : Flush) (after : List Flush) : List (List (Write Key)) :=
  if after = [] then f.batch else f.batch.dropLast

/-- A crash that comes at no bad moment comes while a flush deletes below its base. -/
theorem Undisturbed.split {flushes : List Flush} {k : Nat} (h : Undisturbed flushes k)
    (hne : flushes ≠ []) (hk : k ≠ 0) :
    ∃ before f after ws, flushes = before ++ f :: after ∧
      (flushes.flatMap (Flush.writes height)).take k =
        before.flatMap (Flush.writes height) ++ saveState f.base height :: ws ∧
      ∀ w ∈ ws, w ∈ (f.below after).flatten := by
  induction flushes generalizing k with
  | nil => exact absurd rfl hne
  | cons f rest ih =>
    obtain ⟨made, rfl⟩ := exists_eq_succ_of_ne_zero hk
    cases rest with
    | nil =>
      refine ⟨[], f, [], f.batch.flatten.take made, rfl, ?_, fun w hw => mem_of_mem_take hw⟩
      simp [Flush.writes]
    | cons g rest =>
      rw [flatMap_cons]
      rcases h with hearly | ⟨hlate, hrest⟩
      · obtain ⟨t, ht⟩ : ∃ t, f.batch.flatten = f.batch.dropLast.flatten ++ t := by
          rcases eq_nil_or_concat' f.batch with hbatch | ⟨front, ws, hbatch⟩ <;> simp [hbatch]
        refine ⟨[], f, g :: rest, f.batch.dropLast.flatten.take made, rfl, ?_,
          fun w hw => mem_of_mem_take hw⟩
        rw [Flush.writes, ht, cons_append, succ_eq_add_one, take_succ_cons, append_assoc,
          take_append_of_le_length (by omega)]
        rfl
      · obtain ⟨before, f', after, ws, hsplit, htake, hws⟩ := ih hrest (by simp) (by omega)
        refine ⟨f :: before, f', after, ws, congrArg (f :: ·) hsplit, ?_, hws⟩
        have hsize : (f.writes height).length = 1 + f.batch.flatten.length := by
          rw [Flush.writes, length_cons, add_comm]
        rw [take_append, hsize, htake, take_of_length_le (by omega), flatMap_cons, append_assoc]

/-- After writes up to deletions of a flush below its base, the base is recorded, and all deletions
are below it. -/
theorem Flushes.writes_spec {low : Int64} {within before after : List Flush} {last f : Flush}
    (h : Flushes H blocks low limit within last) (hle : low ≤ limit)
    (hsplit : within ++ [last] = before ++ f :: after) (hws : ∀ w ∈ ws, w ∈ (f.below after).flatten)
    (db : DB Key) (height : Int64) :
    let made := before.flatMap (Flush.writes height) ++ saveState f.base height :: ws
    low ≤ f.base ∧ f.base ≤ limit ∧ applyAll db made .blockStore = marshalState f.base height ∧
      ∀ w ∈ made, PruneWrite H blocks f.base w := by
  obtain ⟨hlow, hhigh, hbelow, hbefore⟩ : low ≤ f.base ∧ f.base ≤ limit ∧
      (∀ ds ∈ f.below after, DeletesBelow H blocks f.base ds) ∧
      ∀ g ∈ before, LoopFlush H blocks g ∧ g.base < f.base := by
    rcases eq_nil_or_concat' after with rfl | ⟨rest, final, rfl⟩
    · obtain ⟨rfl, hlast⟩ := append_inj' hsplit rfl
      obtain rfl : last = f := by simpa using hlast
      rw [h.base]
      refine ⟨hle, Int64.le_refl _, h.batch, fun g hg => ?_⟩
      obtain ⟨hloop, -, hlt⟩ := h.loop g hg
      exact ⟨hloop, hlt⟩
    · rw [← cons_append, ← append_assoc] at hsplit
      obtain ⟨rfl, -⟩ := append_inj' hsplit rfl
      obtain ⟨⟨front, final, hbatch, hfront, -⟩, hlow, hlt⟩ := h.loop f (by simp)
      refine ⟨hlow, Int64.le_of_lt hlt, by simpa [Flush.below, hbatch] using hfront, fun g hg => ?_⟩
      exact ⟨(h.loop g (by simp [hg])).1, (pairwise_append.mp h.sorted).2.2 g hg f (by simp)⟩
  refine ⟨hlow, hhigh, ?_, ?_⟩
  · rw [applyAll_append]
    exact record_of_saveState _ hbelow hws
  · intro w hw
    rcases mem_append.mp hw with hw | hw
    · obtain ⟨g, hg, hw⟩ := mem_flatMap.mp hw
      obtain ⟨hloop, hlt⟩ := hbefore g hg
      exact hloop.pruneWrite hlt hw
    · rcases mem_cons.mp hw with rfl | hw
      · exact .inl rfl
      · exact pruneWrite_of_mem_flatten hbelow (hws w hw)

/-- The flushes of `PruneBlocks` on a store that is intact. -/
theorem pruneBlocks_spec (hdistinct : DistinctHashes H blocks) (hintact : Intact H blocks s)
    {flushes : List Flush} (h : pruneBlocks H s.store height = .ok flushes) :
    0 < s.store.base ∧ s.store.base ≤ height ∧ height ≤ s.store.height ∧
      ∃ within last, flushes = within ++ [last] ∧
        Flushes H blocks s.store.base height within last := by
  simp only [pruneBlocks, bind_eq_ok] at h
  obtain ⟨⟨⟩, hpos, ⟨⟩, hbeyond, ⟨⟩, hbelow, ⟨within, rest⟩, hloop, hflushes⟩ := h
  have hle := Int64.not_lt.mp (failIf_eq_ok.mp hbelow)
  have hge := Int64.not_lt.mp (failIf_eq_ok.mp hbeyond)
  have hbase : 0 < s.store.base := by
    rcases hintact.range with ⟨-, hzero⟩ | ⟨hbase, -⟩
    · rw [hzero] at hge
      exact absurd hge (failIf_eq_ok.mp hpos)
    · exact hbase
  refine ⟨hbase, hle, hge, within, ⟨height, rest⟩, (Except.ok.inj hflushes).symm, ?_⟩
  have hmetas : MetasFrom H blocks s.store.db s.store.base height := by
    intro p hlo hhi
    obtain ⟨args, -, hproper, hmem, rfl, hstored⟩ :=
      hintact.saved p (Int64.lt_of_lt_of_le hbase hlo) hlo
        (Int64.le_of_lt (Int64.lt_of_lt_of_le hhi hge))
    exact ⟨args, hproper, hmem, rfl, hstored.loadBlockMeta hproper⟩
  have hremaining : s.store.base.toInt + ((height.toInt - s.store.base.toInt).toNat : Int) =
      height.toInt := by
    rw [le_iff_toInt_le] at hle
    omega
  obtain ⟨flushes', rest', hrun, hwithin, hsorted, hrest⟩ :=
    @pruneLoop_spec H blocks hdistinct s.store.height height _ _ _ 0 [] hremaining hmetas (by simp)
  cases hloop.symm.trans hrun
  exact ⟨hwithin, hsorted, rfl, hrest⟩

/-- Writes of `PruneBlocks` up to a recorded base keep the store intact. -/
theorem intact_of_pruneWrites (hdistinct : DistinctHashes H blocks) (hintact : Intact H blocks s)
    (hpos : 0 < s.store.base) (hlo : s.store.base ≤ base) (hhi : base ≤ s.store.height)
    (hrecord : applyAll s.store.db ws .blockStore = marshalState base s.store.height)
    (hws : ∀ w ∈ ws, PruneWrite H blocks base w) :
    Intact H blocks ⟨⟨applyAll s.store.db ws, base, s.store.height⟩, s.saved⟩ := by
  have hbase := Int64.lt_of_lt_of_le hpos hlo
  refine hintact.applyAll (loadBlockStoreState_record hbase hrecord) (.inr ⟨hbase, hlo, hhi⟩) ?_ ?_
  · intro w hw args hproper hmem hle _ howns
    rcases hws w hw with hkey | ⟨ds, hds, hw⟩
    · simp [Saved.Owns, hkey] at howns
    · exact not_owns_of_deletesBelow hdistinct hds hw hproper hmem hle howns
  · intro w hw h _ hle _ hkey
    rcases hws w hw with hrec | ⟨ds, hds, hw⟩
    · rw [hrec] at hkey
      cases hkey
    · exact (key_ne_of_deletesBelow hds hw).2 h hle hkey

/-- The condition on a crash: it comes at no bad moment of a call of `PruneBlocks`. -/
def WellTimed (H : HashFunction) (s : System) : Call → Prop
  | .saveBlock _ _ => True
  | .pruneBlocks _ none => True
  | .pruneBlocks height (some k) =>
    ∀ flushes, pruneBlocks H s.store height = .ok flushes → Undisturbed flushes k

/-- Pruning keeps the store intact, unless a crash comes at a bad moment. -/
theorem intact_prune (hdistinct : DistinctHashes H blocks) (hintact : Intact H blocks s)
    {crash : Option Nat} (htimed : WellTimed H s (.pruneBlocks height crash))
    (hstep : s.prune H height crash = some s') : Intact H blocks s' := by
  unfold System.prune at hstep
  cases hprune : pruneBlocks H s.store height with
  | error failure =>
    simp only [hprune] at hstep
    rcases crash with _ | _ | k <;> cases failure <;> simp [hintact.reopen_nil] at hstep <;>
      exact hstep ▸ hintact
  | ok flushes =>
    obtain ⟨hpos, hlo, hhi, within, last, rfl, hflushes⟩ :=
      pruneBlocks_spec hdistinct hintact hprune
    simp only [hprune] at hstep
    cases crash with
    | none =>
      cases hstep
      obtain ⟨-, -, hrecord, hws⟩ :=
        hflushes.writes_spec hlo rfl (fun _ hw => hw) s.store.db s.store.height
      rw [hflushes.base] at hrecord hws
      rw [flatMap_append, flatMap_singleton, Flush.writes, hflushes.base]
      exact intact_of_pruneWrites hdistinct hintact hpos hlo hhi hrecord hws
    | some k =>
      simp only at hstep
      split at hstep
      · cases hstep
      · obtain ⟨store, hreopen, rfl⟩ := Option.map_eq_some_iff.mp hstep
        by_cases hk : k = 0
        · subst hk
          cases hintact.reopen_nil.symm.trans hreopen
          exact hintact
        · obtain ⟨before, f, after, ws, hsplit, htake, hbelow⟩ :=
            (htimed _ hprune).split (by simp) hk
          rw [htake] at hreopen
          obtain ⟨hlo', hhi', hrecord, hws⟩ :=
            hflushes.writes_spec hlo hsplit hbelow s.store.db s.store.height
          have hnew := intact_of_pruneWrites hdistinct hintact hpos hlo'
            (Int64.le_trans hhi' hhi) hrecord hws
          cases (reopen_eq hnew.record).symm.trans hreopen
          exact hnew

end PruneStep

/-! ### Runs -/

section Contiguity

/-- The blocks from base to height can be loaded as they were saved, with the commits of all but the
last and the one seen for the last. An empty store has base and height 0. -/
structure Contiguous (H : HashFunction) (s : System) : Prop where
  reopened : newBlockStore s.store.db = .ok s.store
  blocks : ∀ h, 0 < h → s.store.base ≤ h → h ≤ s.store.height → ∃ (args : Saved) (hash : Bytes),
    s.saved h = some args ∧ args.block.hash H = some hash ∧
      loadBlock H s.store.db h = .ok (some args.block) ∧
      loadBlockMeta H s.store.db h = .ok (some (newBlockMeta H args.block hash args.blockParts)) ∧
      loadBlockByHash H s.store.db hash = .ok (some args.block)
  commits : ∀ h, 0 < h → s.store.base ≤ h → h < s.store.height → ∃ (args : Saved) (commit : Commit),
    s.saved (h + 1) = some args ∧ args.block.lastCommit = some commit ∧
      loadBlockCommit H s.store.db h = .ok (some commit)
  seenCommit : 0 < s.store.height → ∃ args : Saved, s.saved s.store.height = some args ∧
    loadSeenCommit H s.store.db s.store.height = .ok (some args.seenCommit)

variable {H : HashFunction} {blocks : List Block} {s : System}

theorem contiguous_of_intact (hintact : Intact H blocks s) : Contiguous H s where
  reopened := by
    rw [newBlockStore, hintact.record]
    rfl
  blocks h hpos hlo hhi := by
    obtain ⟨args, hargs, hproper, -, rfl, hstored⟩ := hintact.saved h hpos hlo hhi
    exact ⟨args, args.hash H, hargs, hproper.hash_eq, hstored.loadBlock hproper,
      hstored.loadBlockMeta hproper, hstored.loadBlockByHash hproper⟩
  commits h hpos hlo hlt := by
    obtain ⟨args, commit, hargs, hlast, hvalid, hmarshal⟩ := hintact.commits h hpos hlo hlt
    exact ⟨args, commit, hargs, hlast,
      load_eq Commit.unmarshal_inverts hmarshal (commit_marshal_ne_nil hmarshal) hvalid⟩
  seenCommit hpos := by
    have hle : s.store.base ≤ s.store.height := by
      rcases hintact.range with ⟨hbase, hheight⟩ | ⟨-, hle⟩
      · rw [hbase, hheight]
        exact Int64.le_refl _
      · exact hle
    obtain ⟨args, hargs, hproper, -, hheight, hstored⟩ :=
      hintact.saved s.store.height hpos hle (Int64.le_refl _)
    have hload := hstored.loadSeenCommit hproper
    rw [hheight] at hload
    exact ⟨args, hargs, hload⟩

/-- Nothing is stored in an empty store. -/
theorem intact_init : Intact H blocks (system H).init where
  record := rfl
  range := .inl ⟨rfl, rfl⟩
  saved h hpos _ hle := absurd (Int64.lt_of_lt_of_le hpos hle) (by decide : ¬ (0 : Int64) < 0)
  commits h hpos _ hlt :=
    absurd (Int64.lt_of_lt_of_le hpos (Int64.le_of_lt hlt)) (by decide : ¬ (0 : Int64) < 0)

/-- The calls of `SaveBlock` keep to its contract, with blocks of a list. -/
def ProperCall (H : HashFunction) (blocks : List Block) : Call → Prop
  | .saveBlock args _ => args.Proper H ∧ args.block ∈ blocks
  | .pruneBlocks _ _ => True

/-- The store is contiguous in every state that is reached, if no crash comes at a bad moment of
`PruneBlocks`. -/
theorem store_is_contiguous {calls : List Call} (hproper : ∀ call ∈ calls, ProperCall H blocks call)
    (hfree : ∀ b ∈ blocks, ∀ b' ∈ blocks, H.CollisionFree (b.hashInputs H) (b'.hashInputs H))
    (htimed : (system H).Meets (WellTimed H) (system H).init calls)
    (hrun : (system H).run calls = some s) : Contiguous H s := by
  have hdistinct := distinctHashes_of_collisionFree hfree
  suffices hintact : Intact H blocks s from contiguous_of_intact hintact
  refine Machine.run_invariant intact_init ?_ (htimed.and_forall hproper) hrun
  intro s call s' hintact hcall hstep
  cases call with
  | saveBlock args crash => exact intact_save hdistinct hintact hcall.2.1 hcall.2.2 hstep
  | pruneBlocks height crash => exact intact_prune hdistinct hintact hcall.1 hstep

end Contiguity

/-! ### Samples -/

section Sample

/-- A digest of two bytes that can be evaluated. -/
def smallHash : HashFunction := .polynomial 2

/-- The commit for the time before the first block. -/
def emptyCommit : Commit := ⟨0, 0, ⟨[], 0, []⟩, []⟩

/-- A block without transactions, at any height. -/
def plainBlock (height : Int64) : Block where
  header :=
    { version := ⟨11, 0⟩, chainID := [99], height := height
      time := .unix 1700000001, delayTime := ⟨0, Float64.zero_ne⟩
      deliverTime := ⟨0, Float64.zero_ne⟩
      lastBlockID := ⟨[], 0, []⟩
      lastCommitHash := (emptyCommit.hash smallHash).getD []
      dataHash := txsHash smallHash []
      validatorsHash := [3, 3], nextValidatorsHash := [3, 3], consensusHash := [4, 4], appHash := []
      lastResultsHash := []
      evidenceHash := (evidenceHash smallHash []).getD []
      proposerAddress := List.replicate 20 1 }
  txs := []
  evidence := []
  lastCommit := some emptyCommit

variable {n : Nat} {height : Int64} {s : System}

theorem plainBlock_header (hpos : 0 < height) :
    headerFromProto smallHash (plainBlock height).header = .ok () := by
  refine seq_eq_ok.mpr ⟨rfl, ?_⟩
  have hneg : ¬ height < 0 := by
    rw [Int64.not_lt]
    exact Int64.le_of_lt hpos
  have hzero : height ≠ 0 := (Int64.ne_of_lt hpos).symm
  -- the other fields are those of the block at height 1
  have hone : (plainBlock 1).header.validateBasic smallHash = .ok () := by decide +kernel
  simp only [Header.validateBasic, seq_eq_ok, failIf_eq_ok] at hone ⊢
  exact ⟨hone.1, hone.2.1, hneg, hzero, hone.2.2.2.2⟩

theorem plainBlock_valid (hpos : 0 < height) :
    (plainBlock height).validateBasic smallHash = .ok () := by
  refine seq_eq_ok.mpr ⟨within_eq_ok.mpr (seq_eq_ok.mp (plainBlock_header hpos)).2, ?_⟩
  have hone : (plainBlock 1).validateBasic smallHash = .ok () := by decide +kernel
  exact (seq_eq_ok.mp hone).2

theorem plainBlock_marshal (height : Int64) : ∃ bytes, (plainBlock height).marshal = some bytes ∧
    bytes.length ≤ blockPartSizeBytes := by
  obtain ⟨header, hheader, hlength⟩ : ∃ header, (plainBlock height).header.marshal = some header ∧
      header.length ≤ 1000 := by
    have hzero : ((plainBlock 0).header.marshal.getD []).length + 11 ≤ 1000 := by decide +kernel
    have htime : (plainBlock height).header.time.marshal = some _ :=
      if_pos (by decide : (plainBlock 0).header.time.Representable)
    refine ⟨_, by rw [Header.marshal, htime, Option.map_some], ?_⟩
    exact le_trans (length_marshal_scalar [_, _] _ (by decide) height.toUInt64.toNat_lt) hzero
  obtain ⟨rest, hmarshal, hrest⟩ : ∃ rest : List Slot, (plainBlock height).marshal =
      some (Wire.marshal ([⟨1, [.bytes header]⟩] ++ rest)) ∧ (Wire.marshal rest).length ≤ 1000 := by
    refine ⟨[⟨2, [.bytes (Wire.marshal [⟨1, []⟩])]⟩, ⟨3, [.bytes (Wire.marshal [⟨1, []⟩])]⟩,
      ⟨4, [.bytes (emptyCommit.marshal.getD [])]⟩], by rw [Block.marshal, hheader]; rfl, ?_⟩
    decide +kernel
  refine ⟨_, hmarshal, ?_⟩
  have htag : (varint (8 * 1 + (Value.bytes header).wireType)).length = 1 := rfl
  have hsize : (varint header.length).length ≤ 2 := @length_varint_le _ 1 (by omega)
  rw [marshal_append, length_append]
  simp only [Wire.marshal, fields, tagged, Value.payload, flatMap_cons, flatMap_nil,
    map_cons, map_nil, append_nil, length_append, htag, blockPartSizeBytes] at hrest ⊢
  omega

/-- The block in one part. -/
def plainParts (height : Int64) : PartSet :=
  let bytes := (plainBlock height).marshal.getD []
  { total := 1, hash := leafHash smallHash bytes
    parts := [some ⟨0, bytes, ⟨1, 0, leafHash smallHash bytes, []⟩⟩]
    partsBitArray := none, count := 1, byteSize := bytes.length }

/-- The arguments with which the block is saved. -/
def plainSaved (height : Int64) : Saved :=
  ⟨plainBlock height, plainParts height, emptyCommit⟩

theorem plainSaved_proper (hpos : 0 < height) : (plainSaved height).Proper smallHash := by
  obtain ⟨bytes, hbytes, hlength⟩ := plainBlock_marshal height
  have hleaf : (leafHash smallHash bytes).length = smallHash.size := smallHash.length_sum _
  have hproof :
      MerkleProof.validateBasic smallHash ⟨1, 0, leafHash smallHash bytes, []⟩ = .ok () := by
    simp [MerkleProof.validateBasic, seq_eq_ok, failIf_eq_ok, hleaf, validateEach]
  refine ⟨⟨[⟨0, bytes, ⟨1, 0, leafHash smallHash bytes, []⟩⟩], ?_, rfl, ?_, ?_⟩, ?_, ?_, ?_⟩
  · simp [plainSaved, plainParts, hbytes]
  · intro part hpart
    obtain rfl := mem_singleton.mp hpart
    refine seq_eq_ok.mpr ⟨hproof, seq_eq_ok.mpr ⟨?_, within_eq_ok.mpr hproof⟩⟩
    exact failIf_eq_ok.mpr (not_lt.mpr hlength)
  · rw [flatMap_singleton]
    exact decodeBlock_marshal (plainBlock_header hpos) rfl rfl (by decide +kernel)
      (plainBlock_valid hpos) hbytes
  · refine within_eq_ok.mpr (failIf_eq_ok.mpr fun hwrong => hwrong.2 ?_)
    simp [plainSaved, plainParts, hbytes, hleaf, PartSet.header]
  · show commitFromProto smallHash emptyCommit = .ok ()
    decide +kernel
  · simp [plainSaved, plainBlock]

/-- Two blocks are saved, the second one again after a crash, and the first one is pruned. -/
def savedTwice : List Call :=
  [.saveBlock (plainSaved 1) none, .saveBlock (plainSaved 2) (some 3),
    .saveBlock (plainSaved 2) none, .pruneBlocks 2 none]

theorem store_is_contiguous_sample :
    ∃ s, (system smallHash).run savedTwice = some s ∧ s.store.base = 2 ∧ s.store.height = 2 ∧
      Contiguous smallHash s := by
  have hends : ((system smallHash).run savedTwice).map (fun s => (s.store.base, s.store.height)) =
      some (2, 2) := by
    decide +kernel
  obtain ⟨s, hrun, hs⟩ := Option.map_eq_some_iff.mp hends
  obtain ⟨hbase, hheight⟩ := Prod.mk.inj hs
  have hproper : ∀ call ∈ savedTwice, ProperCall smallHash [plainBlock 1, plainBlock 2] call := by
    have hone := plainSaved_proper (by decide : (0 : Int64) < 1)
    have htwo := plainSaved_proper (by decide : (0 : Int64) < 2)
    simp [savedTwice, ProperCall, plainSaved]
    exact ⟨hone, htwo⟩
  have htimed : (system smallHash).Meets (WellTimed smallHash) (system smallHash).init savedTwice :=
    ⟨trivial, fun _ _ => ⟨trivial, fun _ _ => ⟨trivial, fun _ _ => ⟨trivial, fun _ _ => trivial⟩⟩⟩⟩
  exact ⟨s, hrun, hbase, hheight, store_is_contiguous hproper (by decide +kernel) htimed hrun⟩

/-- All writes are made if none of them panics. -/
theorem madeBeforePanic_map_some (ws : List (Write Key)) : madeBeforePanic (ws.map some) = ws := by
  induction ws with
  | nil => rfl
  | cons w ws ih => exact congrArg (w :: ·) ih

theorem plainSaved_front (height : Int64) :
    ∃ made : List (Write Key), saveFront smallHash (plainSaved height) = made.map some := by
  obtain ⟨time, htime⟩ : ∃ time, (plainBlock height).header.time.marshal = some time :=
    ⟨_, if_pos (by decide : (plainBlock 0).header.time.Representable)⟩
  obtain ⟨bm, hbm⟩ : ∃ bm, ((plainSaved height).blockMeta smallHash).marshal = some bm := by
    have hheader :
        ((plainSaved height).blockMeta smallHash).header.time.marshal = some time := htime
    exact ⟨_, by rw [BlockMeta.marshal, Header.marshal, hheader]; rfl⟩
  exact ⟨[_, .set _ bm, _, _, _], by rw [saveFront, hbm]; rfl⟩

/-- The store after the blocks up to a height were saved. -/
structure Filled (n : Nat) (s : System) : Prop where
  base : s.store.base = if n = 0 then 0 else 1
  height : s.store.height = ofNat n
  saved : ∀ p, 0 < p → p ≤ n → s.saved (ofNat p) = some (plainSaved (ofNat p))
  blockMeta : ∀ p, 0 < p → p ≤ n → loadBlockMeta smallHash s.store.db (ofNat p) =
    .ok (some ((plainSaved (ofNat p)).blockMeta smallHash))

theorem toInt_ofNat_small (h : n ≤ 1001) : (ofNat n).toInt = n :=
  toInt_ofNat_of_lt (by omega)

theorem ofNat_pos (hpos : 0 < n) (hn : n ≤ 1001) : 0 < ofNat n := by
  rw [lt_iff_toInt_lt, toInt_ofNat_small hn]
  exact Int.natCast_pos.mpr hpos

theorem ofNat_inj_small {m : Nat} (hn : n ≤ 1001) (hm : m ≤ 1001)
    (h : ofNat n = ofNat m) : n = m := by
  have hint := congrArg toInt h
  rw [toInt_ofNat_small hn, toInt_ofNat_small hm] at hint
  exact Int.ofNat_inj.mp hint

/-- One more block is saved. -/
theorem Filled.save (h : Filled n s) (hn : n ≤ 1000) :
    ∃ s', s.save smallHash (plainSaved (ofNat (n + 1))) none = some s' ∧
      Filled (n + 1) s' := by
  have hpos : 0 < ofNat (n + 1) := ofNat_pos (succ_pos n) (by omega)
  have hproper := plainSaved_proper hpos
  have hheight : (plainSaved (ofNat (n + 1))).height = ofNat (n + 1) := rfl
  have hsucc : ofNat (n + 1) = s.store.height + 1 := by
    rw [h.height, ofNat_add]
    rfl
  obtain ⟨made, hmade⟩ := plainSaved_front (ofNat (n + 1))
  have hbase : (if s.store.base = 0 then ofNat (n + 1) else s.store.base) = 1 := by
    rw [h.base]
    cases n with
    | zero => rfl
    | succ n => rfl
  have hsteps : saveBlock smallHash s.store (plainSaved (ofNat (n + 1))).block
      (plainSaved (ofNat (n + 1))).blockParts (plainSaved (ofNat (n + 1))).seenCommit =
      .ok ((made ++ [saveState 1 (ofNat (n + 1))]).map some) := by
    rw [saveBlock_eq_ok hproper (fun hgap => hgap.2 hsucc) rfl, saveBlockSteps_eq, hmade, hheight,
      hbase]
    simp
  obtain ⟨hstored, -⟩ := stored_of_complete hproper hmade s.store.db 1
  refine ⟨⟨⟨applyAll s.store.db (made ++ [saveState 1 (ofNat (n + 1))]), 1, ofNat (n + 1)⟩,
    fun h => if h = ofNat (n + 1) then some (plainSaved (ofNat (n + 1))) else s.saved h⟩,
    ?_, ⟨by simp, rfl, ?_, ?_⟩⟩
  · rw [System.save, hsteps]
    simp only [madeBeforePanic_map_some, length_map, if_true, hheight, hbase]
  · intro p hp hle
    by_cases heq : p = n + 1
    · simp [heq]
    · have hne : ofNat p ≠ ofNat (n + 1) :=
        fun hcontra => heq (ofNat_inj_small (by omega) (by omega) hcontra)
      exact (if_neg hne).trans (h.saved p hp (by omega))
  · intro p hp hle
    by_cases heq : p = n + 1
    · subst heq
      exact hstored.loadBlockMeta hproper
    · have hne : ofNat (n + 1) ≠ ofNat p :=
        fun hcontra => heq (ofNat_inj_small (by omega) (by omega) hcontra).symm
      have hkey : ¬ SaveKey smallHash (plainSaved (ofNat (n + 1))) (.blockMeta (ofNat p)) := by
        simp only [SaveKey, Saved.Owns, Key.blockMeta.injEq, reduceCtorEq, exists_false, or_false]
        exact hne.symm
      rw [← h.blockMeta p hp (by omega), loadBlockMeta, loadBlockMeta]
      exact congrArg _ (applyAll_saved hmade _ hkey nofun)

/-- The calls that save the blocks up to a height. -/
def plainSaves (n : Nat) : List Call :=
  (List.range n).map fun i => .saveBlock (plainSaved (ofNat (i + 1))) none

theorem filled_of_plainSaves {n : Nat} (hn : n ≤ 1001) :
    ∃ s, (system smallHash).run (plainSaves n) = some s ∧ Filled n s := by
  induction n with
  | zero => exact ⟨_, rfl, rfl, rfl, fun p hp hle => absurd hp (by omega),
      fun p hp hle => absurd hp (by omega)⟩
  | succ n ih =>
    obtain ⟨s, hrun, hfilled⟩ := ih (by omega)
    obtain ⟨s', hstep, hfilled'⟩ := hfilled.save (by omega)
    refine ⟨s', ?_, hfilled'⟩
    rw [plainSaves, range_succ, map_append, Machine.run, Machine.runFrom_append]
    exact Option.bind_eq_some_iff.mpr ⟨s, hrun, Machine.runFrom_cons.mpr ⟨s', hstep, rfl⟩⟩

/-- The deletions of the blocks up to a height. -/
def plainBatch (n : Nat) : List (List (Write Key)) :=
  (List.range n).map fun i => blockDeletions (ofNat (i + 1))
    ((plainSaved (ofNat (i + 1))).blockMeta smallHash)

theorem plainBatch_succ (n : Nat) : plainBatch (n + 1) = plainBatch n ++
    [blockDeletions (ofNat (n + 1)) ((plainSaved (ofNat (n + 1))).blockMeta smallHash)] := by
  simp [plainBatch, range_succ]

theorem length_plainBatch (n : Nat) : (plainBatch n).flatten.length = 5 * n := by
  induction n with
  | zero => rfl
  | succ n ih =>
    have hone : (blockDeletions (ofNat (n + 1))
        ((plainSaved (ofNat (n + 1))).blockMeta smallHash)).length = 5 := rfl
    rw [plainBatch_succ, flatten_append, length_append, ih, flatten_singleton, hone]
    omega

/-- The loop over the first 1000 blocks ends with a flush that records the height of the last. -/
theorem pruneLoop_plain {n : Nat} {s : System} (hfilled : Filled n s) (hn : 1000 ≤ n)
    (height : Int64) {count pruned : Nat} (hcount : pruned + (count + 1) = 1000) :
    pruneLoop smallHash height (count + 1) s.store.db (ofNat (pruned + 1)) pruned
      (plainBatch pruned) = .ok ([⟨1000, plainBatch 1000⟩], []) := by
  induction count generalizing pruned with
  | zero =>
    obtain rfl : pruned = 999 := by omega
    rw [pruneLoop, hfilled.blockMeta 1000 (by omega) hn]
    simp only [bind, Except.bind, ← plainBatch_succ, Nat.reduceAdd, Nat.reduceMod, if_true,
      pruneLoop, pure, Except.pure]
    rfl
  | succ count ih =>
    have hmore : ¬ (pruned + 1) % 1000 = 0 := by omega
    have hsucc : ofNat (pruned + 1) + 1 = ofNat (pruned + 1 + 1) := by
      rw [ofNat_add (pruned + 1) 1]
      rfl
    rw [pruneLoop, hfilled.blockMeta (pruned + 1) (by omega) (by omega)]
    simp only [bind, Except.bind, ← plainBatch_succ, if_neg hmore, hsucc]
    exact ih (by omega)

theorem pruneBlocks_plain (hfilled : Filled 1001 s) :
    pruneBlocks smallHash s.store 1001 = .ok [⟨1000, plainBatch 1000⟩, ⟨1001, []⟩] := by
  have hbase : s.store.base = 1 := hfilled.base
  have hheight : s.store.height = 1001 := hfilled.height
  have hcount : ((1001 : Int64).toInt - (1 : Int64).toInt).toNat = 999 + 1 := by decide
  have hloop : pruneLoop smallHash 1001 (999 + 1) s.store.db 1 0 [] = _ :=
    @pruneLoop_plain 1001 s hfilled (by decide) 1001 999 0 rfl
  rw [pruneBlocks, hbase, hheight, hcount, hloop]
  rfl

theorem plainBatch_deletesBelow (hn : n ≤ 1000) : ∀ ws ∈ plainBatch n,
    DeletesBelow smallHash ((range n).map fun i => plainBlock (ofNat (i + 1)))
      (ofNat (n + 1)) ws := by
  intro ws hws
  obtain ⟨i, hi, rfl⟩ := mem_map.mp hws
  have hlt := mem_range.mp hi
  refine ⟨plainSaved (ofNat (i + 1)),
    plainSaved_proper (ofNat_pos (succ_pos i) (by omega)), mem_map.mpr ⟨i, hi, rfl⟩, ?_, rfl⟩
  have hheight : (plainSaved (ofNat (i + 1))).height = ofNat (i + 1) := rfl
  rw [hheight, lt_iff_toInt_lt, toInt_ofNat_small (by omega), toInt_ofNat_small (by omega)]
  omega

/-- Every deletion of a block's meta is there, and nothing is written under its key. -/
theorem blockMeta_deleted (db : DB Key) (base height : Int64) {n p : Nat} (hpos : 0 < p)
    (hle : p ≤ n) : applyAll db (saveState base height :: (plainBatch n).flatten)
      (.blockMeta (ofNat p)) = [] := by
  apply applyAll_agree
  · refine ⟨.delete (.blockMeta (ofNat p)), ?_, rfl⟩
    apply mem_cons_of_mem
    refine mem_flatten.mpr ⟨_, mem_map.mpr ⟨p - 1, mem_range.mpr (by omega), rfl⟩, ?_⟩
    rw [Nat.sub_add_cancel hpos]
    exact mem_cons_self ..
  · intro w hw hkey
    rcases mem_cons.mp hw with rfl | hw
    · cases hkey
    · obtain ⟨ws, hws, hw⟩ := mem_flatten.mp hw
      obtain ⟨i, -, rfl⟩ := mem_map.mp hws
      simp only [blockDeletions, mem_append, mem_cons, not_mem_nil, or_false, mem_map] at hw
      rcases hw with (rfl | rfl | rfl | rfl) | ⟨j, -, rfl⟩ <;> rfl

/-- Saving 1001 blocks and pruning all but the last, with a crash right after the batch of the first
1000 blocks was written. -/
def crashedPruning : List Call :=
  plainSaves 1001 ++ [.pruneBlocks 1001 (some 5001)]

/-- The store is reopened with the base 1000, although the block at height 1000 is gone. -/
theorem base_is_missing_after_crash :
    (∀ call ∈ crashedPruning,
      ProperCall smallHash ((List.range 1001).map fun i => plainBlock (ofNat (i + 1))) call) ∧
    ∃ s, (system smallHash).run crashedPruning = some s ∧ s.store.base = 1000 ∧
      s.store.height = 1001 ∧ s.saved 1000 = some (plainSaved 1000) ∧
      loadBlockMeta smallHash s.store.db 1000 = .ok none ∧
      loadBlock smallHash s.store.db 1000 = .ok none ∧ ¬ Contiguous smallHash s := by
  constructor
  · intro call hcall
    rcases mem_append.mp hcall with hsave | hprune
    · obtain ⟨i, hi, rfl⟩ := mem_map.mp hsave
      have hlt := mem_range.mp hi
      exact ⟨plainSaved_proper (ofNat_pos (succ_pos i) (by omega)), mem_map.mpr ⟨i, hi, rfl⟩⟩
    · obtain rfl := mem_singleton.mp hprune
      trivial
  · obtain ⟨s, hrun, hfilled⟩ := @filled_of_plainSaves 1001 (le_refl _)
    have hheight : s.store.height = 1001 := hfilled.height
    have hprune := pruneBlocks_plain hfilled
    have hlength := length_plainBatch 1000
    have hrecord : applyAll s.store.db (saveState 1000 1001 :: (plainBatch 1000).flatten)
        .blockStore = marshalState 1000 1001 :=
      record_of_saveState s.store.db (plainBatch_deletesBelow (le_refl _)) fun w hw => hw
    have hgone : applyAll s.store.db (saveState 1000 1001 :: (plainBatch 1000).flatten)
        (.blockMeta 1000) = [] :=
      @blockMeta_deleted s.store.db 1000 1001 1000 1000 (by decide) (le_refl _)
    generalize plainBatch 1000 = batch at hprune hlength hrecord hgone
    generalize hws : saveState 1000 1001 :: batch.flatten = ws at hrecord hgone
    have hreopen : reopen s.store.db ws = some ⟨applyAll s.store.db ws, 1000, 1001⟩ :=
      reopen_eq (loadBlockStoreState_record (by decide : (0 : Int64) < 1000) hrecord)
    have hstep : s.prune smallHash 1001 (some 5001) =
        some ⟨⟨applyAll s.store.db ws, 1000, 1001⟩, s.saved⟩ := by
      have hwrites : [⟨1000, batch⟩, (⟨1001, []⟩ : Flush)].flatMap (Flush.writes 1001) =
          ws ++ [saveState 1001 1001] := by
        simp [Flush.writes, ← hws]
      have hsize : ws.length = 5001 := by
        rw [← hws, length_cons, hlength]
      have htake : (ws ++ [saveState 1001 1001]).take 5001 = ws := by
        rw [← hsize, take_left]
      have hmany : ¬ (ws ++ [saveState 1001 1001]).length < 5001 := by
        rw [length_append, hsize]
        omega
      rw [System.prune]
      simp only [hprune, hheight, hwrites, if_neg hmany, htake, hreopen, Option.map_some]
    have hmeta : loadBlockMeta smallHash (applyAll s.store.db ws) 1000 = .ok none := by
      rw [loadBlockMeta, hgone]
      rfl
    have hblock : loadBlock smallHash (applyAll s.store.db ws) 1000 = .ok none := by
      rw [loadBlock, hmeta]
      rfl
    refine ⟨⟨⟨applyAll s.store.db ws, 1000, 1001⟩, s.saved⟩, ?_, rfl, rfl,
      hfilled.saved 1000 (by decide) (by decide), hmeta, hblock, ?_⟩
    · rw [crashedPruning, Machine.run, Machine.runFrom_append]
      exact Option.bind_eq_some_iff.mpr ⟨s, hrun, Machine.runFrom_cons.mpr ⟨_, hstep, rfl⟩⟩
    · intro hcontiguous
      obtain ⟨args, hash, -, -, hload, -⟩ := hcontiguous.blocks 1000 (by decide)
        (by decide : (1000 : Int64) ≤ 1000) (by decide : (1000 : Int64) ≤ 1001)
      cases hload.symm.trans hblock

end Sample

end NimbleChain.Tendermint.Store
