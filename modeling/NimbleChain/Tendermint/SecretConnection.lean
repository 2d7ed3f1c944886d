import NimbleChain.Common.Program
import NimbleChain.Tendermint.BlockCodec

/-!
# Secret connections

The encrypted connection of `p2p/conn/secret_connection.go`. Data travels in frames of one size,
each with the length of its chunk, the chunk, and whatever the buffer held behind it, sealed under
the next nonce of its direction. The handshake derives one key for each direction from ephemeral
keys, and authenticates the other side by a signature of the challenge of the session.
-/

namespace NimbleChain.Tendermint

open Common Wire List

/-- `dataLenSize`. -/
def dataLenSize : Nat :=
  4

/-- `dataMaxSize`. -/
def dataMaxSize : Nat :=
  1024

/-- `totalFrameSize`. -/
def totalFrameSize : Nat :=
  dataMaxSize + dataLenSize

/-- `aeadSizeOverhead`. -/
def aeadSizeOverhead : Nat :=
  16

/-- `aeadKeySize`. -/
def aeadKeySize : Nat :=
  32

/-- `cipher.AEAD` with all its keys: `Seal` and `Open` without additional data. -/
structure Aead where
  sealed (key nonce plaintext : Bytes) : Bytes
  opened (key nonce ciphertext : Bytes) : Option Bytes
  length_sealed : ∀ key nonce plaintext,
    (sealed key nonce plaintext).length = plaintext.length + aeadSizeOverhead
  length_of_opened : ∀ key nonce ciphertext plaintext,
    opened key nonce ciphertext = some plaintext →
      ciphertext.length = plaintext.length + aeadSizeOverhead
  opened_sealed : ∀ key nonce plaintext,
    opened key nonce (sealed key nonce plaintext) = some plaintext

/-! ### Buffers -/

/-- The capacity of the buffers that `pool.Get` returns for a frame and for a sealed frame: the next
power of two. -/
def bufferSize : Nat :=
  2048

/-- The array behind a slice of the buffer pool. -/
structure Buffer where
  bytes : Bytes
  length_bytes : bytes.length = bufferSize
  deriving DecidableEq

variable (data : Bytes) (buffer : Buffer)

namespace Buffer

/-- A new buffer. -/
def fresh : Buffer :=
  ⟨replicate bufferSize 0, length_replicate⟩

/-- The buffer with its first bytes overwritten. -/
def overwrite (content : Bytes) : Buffer :=
  ⟨(content ++ buffer.bytes.drop content.length).take bufferSize, by
    have hlength := buffer.length_bytes
    simp only [length_take, length_append, length_drop]
    omega⟩

end Buffer

/-! ### Frames -/

/-- `SecretConnection`, with the keys of its two ciphers. -/
structure SecretConnection where
  recvKey : Bytes
  sendKey : Bytes
  recvBuffer : Bytes
  recvNonce : Bytes
  sendNonce : Bytes
  deriving DecidableEq

/-- `incrNonce`: the number behind the first four bytes is incremented. -/
def incrNonce (nonce : Bytes) : Except Failure Bytes :=
  let counter := ofLittleEndian (nonce.drop 4)
  if counter = 2 ^ 64 - 1 then .error .panic
  else .ok (nonce.take 4 ++ littleEndian 8 (counter + 1))

/-- The chunk that `Write` takes off its data, and the rest. -/
def nextChunk : Bytes × Bytes :=
  if dataMaxSize < data.length then (data.take dataMaxSize, data.drop dataMaxSize) else (data, [])

/-- The frame that `Write` makes in a buffer. -/
def fillFrame (chunk : Bytes) : Bytes :=
  (buffer.overwrite (littleEndian dataLenSize chunk.length ++ chunk)).bytes.take totalFrameSize

namespace SecretConnection

/-- What `Write` does with one chunk before it writes to the connection: the frame, and the sealed
frame. -/
def sealChunk (A : Aead) (buffer : Buffer) (chunk : Bytes) :
    Program Failure SecretConnection (Bytes × Bytes) := do
  let sc ← get
  let frame := fillFrame buffer chunk
  let sealedFrame := A.sealed sc.sendKey sc.sendNonce frame
  let nonce ← Program.lift (incrNonce sc.sendNonce)
  set { sc with sendNonce := nonce }
  return (frame, sealedFrame)

/-- `Read` into a slice of the given size, when the connection delivers the input and fails. -/
def read (A : Aead) (size : Nat) (input : Bytes) : Program Failure SecretConnection Bytes := do
  let sc ← get
  if sc.recvBuffer ≠ [] then do
    set { sc with recvBuffer := sc.recvBuffer.drop size }
    return sc.recvBuffer.take size
  else if input.length < aeadSizeOverhead + totalFrameSize then
    throw (.error (.new "unexpected EOF" [] []))
  else
    match A.opened sc.recvKey sc.recvNonce (input.take (aeadSizeOverhead + totalFrameSize)) with
    | none => throw (.error (.new "failed to decrypt SecretConnection: %w" [] []))
    | some frame => do
      let nonce ← Program.lift (incrNonce sc.recvNonce)
      set { sc with recvNonce := nonce }
      let chunkLength := ofLittleEndian (frame.take dataLenSize)
      if dataMaxSize < chunkLength then
        throw (.error (.new "chunkLength is greater than dataMaxSize" [] []))
      else do
        let chunk := (frame.drop dataLenSize).take chunkLength
        modify fun sc => { sc with recvBuffer := chunk.drop size }
        return chunk.take size

end SecretConnection

/-! ### Handshake -/

/-- The primitives of the handshake: `box.GenerateKey` as the public key of a private one, `X25519`,
HKDF with the protocol's label, the challenge of the transcript, and signatures. -/
structure HandshakePrimitives where
  ephPub (ephPriv : Bytes) : Bytes
  x25519 (priv pub : Bytes) : Option Bytes
  hkdf (dhSecret : Bytes) : Bytes
  challenge (loEphPub hiEphPub dhSecret : Bytes) : Bytes
  verifySignature (key : PubKey) (message signature : Bytes) : Bool

variable (P : HandshakePrimitives) (data : Bytes)

/-- `sort32`. -/
def sort32 (foo bar : Bytes) : Bytes × Bytes :=
  if foo < bar then (foo, bar) else (bar, foo)

/-- `deriveSecrets`: the secrets for receiving and for sending. -/
def deriveSecrets (dhSecret : Bytes) (locIsLeast : Bool) :
    Bytes × Bytes :=
  let res := P.hkdf dhSecret
  let first := res.take aeadKeySize
  let second := (res.drop aeadKeySize).take aeadKeySize
  if locIsLeast then (first, second) else (second, first)

/-- `MakeSecretConnection` up to the connection, with the challenge to sign. -/
def startSession (locEphPriv remEphPub : Bytes) :
    Except Failure (SecretConnection × Bytes) :=
  let locEphPub := P.ephPub locEphPriv
  let sorted := sort32 locEphPub remEphPub
  let locIsLeast := locEphPub == sorted.1
  match P.x25519 locEphPriv remEphPub with
  | none => .error (.error (.new "bad input point: low order point" [] []))
  | some dhSecret =>
    let secrets := deriveSecrets P dhSecret locIsLeast
    .ok (⟨secrets.1, secrets.2, [], replicate 12 0, replicate 12 0⟩,
      P.challenge sorted.1 sorted.2 dhSecret)

/-- `tmp2p.AuthSigMessage`, and `authSigMessage` once the key is converted. -/
structure AuthSigMessage where
  pubKey : Option PbPublicKey
  sig : Bytes
  deriving DecidableEq

/-- `AuthSigMessage.Unmarshal`. -/
def AuthSigMessage.unmarshal (input : Bytes) : Option AuthSigMessage := do
  let slot ← Wire.slots input
  let pubKey ← asMessage PbPublicKey.unmarshal (slot 1)
  let sig ← asBlob (slot 2)
  return ⟨pubKey.getD none, sig⟩

/-- `ReadMsg` of a delimited reader up to decoding, from the bytes that `Read` returns. -/
def readMsg (maxSize : Nat) (stream : Bytes) : Except Failure Bytes :=
  match readVarint stream with
  | none => .error (.error (.new "EOF" [] []))
  | some (length, rest) =>
    if 2 ^ 63 - 1 ≤ length then
      .error (.error (.new "invalid out-of-range message length %v" [length] []))
    else if maxSize < length then
      .error (.error (.new "message exceeds max size (%v > %v)" [length, maxSize] []))
    else
      match readBytes length rest with
      | none => .error (.error (.new "unexpected EOF" [] []))
      | some (content, _) => .ok content

/-- The rest of `MakeSecretConnection`: the remote key that the received message proves. -/
def finishSession (challenge stream : Bytes) : Except Failure PubKey := do
  let content ← readMsg (1024 * 1024) stream
  match AuthSigMessage.unmarshal content with
  | none => .error (.error (.new "proto: cannot parse invalid wire-format data" [] []))
  | some authSigMsg => do
    let remPubKey ← pubKeyFromProto authSigMsg.pubKey
    match remPubKey with
    | .ed25519 _ =>
      if P.verifySignature remPubKey challenge authSigMsg.sig then return remPubKey
      else .error (.error (.new "challenge verification failed" [] []))
    | _ => .error (.error (.new "expected ed25519 pubkey, got %T" [] []))

/-! ### What the functions compute -/

/-- The nonce with the given number. -/
def nonceOf (n : Nat) : Bytes :=
  replicate 4 0 ++ littleEndian 8 n

variable {chunk : Bytes} {n : Nat} (buffer : Buffer)

theorem nonceOf_inj {m : Nat} (hm : m < 2 ^ 64) (hn : n < 2 ^ 64) (h : nonceOf m = nonceOf n) :
    m = n :=
  littleEndian_inj (by omega) (by omega) (append_cancel_left h)

/-- The counter goes up by one, or the session ends. -/
theorem incrNonce_nonceOf (hn : n < 2 ^ 64) :
    incrNonce (nonceOf n) = if n + 1 = 2 ^ 64 then .error .panic else .ok (nonceOf (n + 1)) := by
  have hcounter : ofLittleEndian ((nonceOf n).drop 4) = n := by
    exact ofLittleEndian_littleEndian (by omega)
  have htake : (nonceOf n).take 4 = replicate 4 0 := by
    rw [nonceOf, take_left' length_replicate]
  simp only [incrNonce, hcounter, htake]
  by_cases hlast : n + 1 = 2 ^ 64
  · rw [if_pos (by omega), if_pos hlast]
  · rw [if_neg (by omega), if_neg hlast]
    rfl

/-- What it takes to seal a chunk, and what comes out. -/
theorem SecretConnection.sealChunk_eq_ok {A : Aead} {buffer : Buffer} {sc sc' : SecretConnection}
    {frames : Bytes × Bytes} :
    (sealChunk A buffer chunk).exec sc = (.ok frames, sc') ↔
      ∃ nonce, incrNonce sc.sendNonce = .ok nonce ∧
        frames = (fillFrame buffer chunk,
          A.sealed sc.sendKey sc.sendNonce (fillFrame buffer chunk)) ∧
        sc' = { sc with sendNonce := nonce } := by
  have hexec : (sealChunk A buffer chunk).exec sc =
      match incrNonce sc.sendNonce with
      | .ok nonce =>
        (.ok (fillFrame buffer chunk,
            A.sealed sc.sendKey sc.sendNonce (fillFrame buffer chunk)),
          { sc with sendNonce := nonce })
      | .error e => (.error e, sc) := by
    simp only [sealChunk, Program.exec_bind, Program.exec_get, Program.exec_lift, Program.exec_set,
      Program.exec_pure]
    cases incrNonce sc.sendNonce <;> rfl
  rw [hexec]
  cases incrNonce sc.sendNonce with
  | error e => simp
  | ok nonce =>
    simp only [Prod.mk.injEq, Except.ok.injEq, exists_eq_left']
    exact ⟨fun h => ⟨h.1.symm, h.2.symm⟩, fun h => ⟨h.1.symm, h.2.symm⟩⟩

theorem nextChunk_append : (nextChunk data).1 ++ (nextChunk data).2 = data := by
  unfold nextChunk
  split
  · exact take_append_drop ..
  · exact append_nil _

theorem length_nextChunk : (nextChunk data).1.length = min data.length dataMaxSize := by
  unfold nextChunk
  split
  · rw [length_take]
    exact Nat.min_comm ..
  · rename_i hshort
    exact (Nat.min_eq_left (Nat.not_lt.mp hshort)).symm

/-- The length, the chunk, and what the buffer held. -/
theorem fillFrame_eq (hchunk : chunk.length ≤ dataMaxSize) :
    fillFrame buffer chunk = littleEndian dataLenSize chunk.length ++ chunk ++
      (buffer.bytes.drop (dataLenSize + chunk.length)).take (dataMaxSize - chunk.length) := by
  simp only [dataMaxSize] at hchunk
  simp only [fillFrame, Buffer.overwrite, length_append, length_littleEndian, totalFrameSize,
    bufferSize, dataMaxSize, dataLenSize, take_take]
  rw [take_append]
  congr 1
  · rw [take_of_length_le]
    simp only [length_append, length_littleEndian]
    omega
  · congr 1
    simp only [length_append, length_littleEndian]
    omega

/-- The chunk can be read off its frame. -/
theorem chunk_of_fillFrame (hchunk : chunk.length ≤ dataMaxSize) :
    ofLittleEndian ((fillFrame buffer chunk).take dataLenSize) = chunk.length ∧
      ((fillFrame buffer chunk).drop dataLenSize).take chunk.length = chunk := by
  have hlength : chunk.length < 256 ^ dataLenSize := by
    simp only [dataMaxSize] at hchunk
    simp only [dataLenSize]
    omega
  rw [fillFrame_eq buffer hchunk, append_assoc]
  constructor
  · exact ofLittleEndian_littleEndian hlength
  · exact take_left' rfl

end NimbleChain.Tendermint
