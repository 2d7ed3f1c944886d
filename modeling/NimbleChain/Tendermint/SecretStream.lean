import NimbleChain.Tendermint.SecretConnection

/-!
# The stream of a secret connection

Two honest endpoints derive their keys from one exchange of ephemeral keys and then write and read
through a network that may show each of them any bytes. The cipher is ideal: what opens under a key
and a nonce was sealed under them by one of the two. Then each side reads a prefix of what the other
side wrote. If the ephemeral keys are equal, none of the frames opens.
-/

namespace NimbleChain.Tendermint

open Common List Option

/-! ### Model -/

/-- The arguments of a call of `Seal`. -/
structure SealedFrame where
  key : Bytes
  nonce : Bytes
  frame : Bytes
  deriving DecidableEq

/-- One side of a session: its connection, the data of a call of `Write` under way, whether one has
failed, what was passed to `Write` and returned by `Read`, and the calls of `Seal`. -/
structure Endpoint where
  conn : SecretConnection
  unsent : Bytes
  broken : Bool
  written : Bytes
  received : Bytes
  seals : List SealedFrame

namespace Endpoint

variable (A : Aead)

/-- A side that has made its connection. -/
def start (conn : SecretConnection) : Endpoint :=
  ⟨conn, [], false, [], [], []⟩

/-- `Write` is called when no other call is under way. The callers write through a buffer that
accepts nothing after an error. -/
def write (e : Endpoint) (data : Bytes) : Option Endpoint :=
  if e.unsent = [] ∧ e.broken = false then
    some { e with unsent := data, written := e.written ++ data }
  else none

/-- One round of the loop in `Write`, in a buffer with any content. The network may refuse the
frame. A panic has no successor. -/
def writeFrame (e : Endpoint) (buffer : Buffer) (accepted : Bool) : Option Endpoint :=
  if e.unsent = [] then none
  else
    match (SecretConnection.sealChunk A buffer (nextChunk e.unsent).1).exec e.conn with
    | (.ok (frame, _), sc) => some
        { e with
          conn := sc
          unsent := if accepted then (nextChunk e.unsent).2 else []
          broken := !accepted
          seals := e.seals ++ [⟨e.conn.sendKey, e.conn.sendNonce, frame⟩] }
    | (.error _, _) => none

/-- `Read` returns data or an error. A panic has no successor. -/
def read (e : Endpoint) (size : Nat) (input : Bytes) : Option Endpoint :=
  match (SecretConnection.read A size input).exec e.conn with
  | (.ok data, sc) => some { e with conn := sc, received := e.received ++ data }
  | (.error .panic, _) => none
  | (.error (.error _), sc) => some { e with conn := sc }

end Endpoint

/-- The two sides of a session. -/
abbrev Session := Bool → Endpoint

/-- What the sides do; the network chooses what `Read` is shown. -/
inductive SessionAction where
  | write (side : Bool) (data : Bytes)
  | frame (side : Bool) (buffer : Buffer) (accepted : Bool)
  | read (side : Bool) (size : Nat) (input : Bytes)

namespace Session

variable (A : Aead)

/-- All calls of `Seal`. -/
def seals (s : Session) : List SealedFrame :=
  (s false).seals ++ (s true).seals

/-- A session as a machine. -/
def machine (conns : Bool → SecretConnection) : Machine Session SessionAction where
  init side := .start (conns side)
  step s
    | .write side data => ((s side).write data).map (Function.update s side)
    | .frame side buffer accepted =>
      ((s side).writeFrame A buffer accepted).map (Function.update s side)
    | .read side size input => ((s side).read A size input).map (Function.update s side)

/-- What opens was sealed under the same key and nonce. -/
def Unforged (s : Session) : SessionAction → Prop
  | .read side _ input =>
    ∀ frame ∈ A.opened (s side).conn.recvKey (s side).conn.recvNonce
        (input.take (aeadSizeOverhead + totalFrameSize)),
      (⟨(s side).conn.recvKey, (s side).conn.recvNonce, frame⟩ : SealedFrame) ∈ s.seals
  | _ => True

instance (s : Session) (a : SessionAction) : Decidable (Unforged A s a) :=
  match a with
  | .read side _ input => inferInstanceAs (Decidable (∀ frame ∈
      A.opened (s side).conn.recvKey (s side).conn.recvNonce
        (input.take (aeadSizeOverhead + totalFrameSize)),
      (⟨(s side).conn.recvKey, (s side).conn.recvNonce, frame⟩ : SealedFrame) ∈ s.seals))
  | .write .. | .frame .. => isTrue trivial

end Session

open Session

/-! ### The sending side -/

namespace Endpoint

/-- An endpoint has sealed the chunks in order, and they are what was written. -/
structure Sends (e : Endpoint) (chunks : List Bytes) : Prop where
  counter : e.conn.sendNonce = nonceOf chunks.length
  below : chunks.length < 2 ^ 64
  length_seals : e.seals.length = chunks.length
  seals : ∀ i call, e.seals[i]? = some call → call.key = e.conn.sendKey ∧ call.nonce = nonceOf i ∧
    ∃ chunk buffer, chunks[i]? = some chunk ∧ chunk.length ≤ dataMaxSize ∧
      call.frame = fillFrame buffer chunk
  sent : chunks.flatten ++ e.unsent <+: e.written
  whole : e.broken = false → chunks.flatten ++ e.unsent = e.written
  idle : e.broken = true → e.unsent = []

variable {A : Aead} {e e' : Endpoint} {chunks : List Bytes}

theorem Sends.start {conn : SecretConnection} (h : conn.sendNonce = nonceOf 0) :
    (Endpoint.start conn).Sends [] :=
  ⟨h, by decide, rfl, nofun, nil_prefix, fun _ => rfl, fun _ => rfl⟩

theorem Sends.write {data : Bytes} (h : e.Sends chunks) (hwrite : e.write data = some e') :
    e'.Sends chunks := by
  simp only [Endpoint.write, ite_none_right_eq_some, some.injEq] at hwrite
  obtain ⟨⟨hidle, hintact⟩, rfl⟩ := hwrite
  have hwhole := h.whole hintact
  rw [hidle, append_nil] at hwhole
  exact ⟨h.counter, h.below, h.length_seals, h.seals, hwhole ▸ prefix_rfl,
    fun _ => hwhole ▸ rfl, fun hbroken => absurd (hintact.symm.trans hbroken) Bool.false_ne_true⟩

variable {size count : Nat} {input : Bytes} {buffer : Buffer} {accepted : Bool}

/-- What a round of `Write` does. -/
theorem writeFrame_spec (h : e.writeFrame A buffer accepted = some e') :
    e.unsent ≠ [] ∧ ∃ nonce, incrNonce e.conn.sendNonce = .ok nonce ∧
      e' = { e with
        conn := { e.conn with sendNonce := nonce }
        unsent := if accepted then (nextChunk e.unsent).2 else []
        broken := !accepted
        seals := e.seals ++ [⟨e.conn.sendKey, e.conn.sendNonce,
          fillFrame buffer (nextChunk e.unsent).1⟩] } := by
  simp only [Endpoint.writeFrame, ite_none_left_eq_some] at h
  obtain ⟨hidle, h⟩ := h
  split at h
  · rename_i frame sealedFrame sc hexec
    obtain ⟨nonce, hnonce, hframes, rfl⟩ := SecretConnection.sealChunk_eq_ok.mp hexec
    obtain ⟨rfl, -⟩ := Prod.mk.inj hframes
    exact ⟨hidle, nonce, hnonce, (some.inj h).symm⟩
  · cases h

/-- Sealing a chunk adds it to the chunks. -/
theorem Sends.writeFrame (h : e.Sends chunks) (hframe : e.writeFrame A buffer accepted = some e') :
    e'.Sends (chunks ++ [(nextChunk e.unsent).1]) := by
  obtain ⟨hbusy, nonce, hnonce, rfl⟩ := writeFrame_spec hframe
  have hintact : e.broken = false := Bool.eq_false_iff.mpr fun hbroken => hbusy (h.idle hbroken)
  rw [h.counter, incrNonce_nonceOf h.below] at hnonce
  split at hnonce
  · cases hnonce
  cases hnonce
  have hlength : (chunks ++ [(nextChunk e.unsent).1]).length = chunks.length + 1 :=
    length_append
  have hbelow := h.below
  have hdata : (chunks ++ [(nextChunk e.unsent).1]).flatten ++ (nextChunk e.unsent).2 =
      chunks.flatten ++ e.unsent := by
    rw [flatten_append, flatten_singleton, append_assoc, nextChunk_append]
  refine ⟨hlength ▸ rfl, by omega, by simp [h.length_seals], ?_, ?_, ?_, ?_⟩
  · intro i call hcall
    by_cases hold : i < e.seals.length
    · rw [getElem?_append_left hold] at hcall
      obtain ⟨hkey, hnonce, chunk, buffer, hchunk, hframe⟩ := h.seals i call hcall
      rw [h.length_seals] at hold
      exact ⟨hkey, hnonce, chunk, buffer, (getElem?_append_left hold).trans hchunk, hframe⟩
    · have hlast : i = e.seals.length := by
        have := (List.getElem_of_getElem? hcall).1
        rw [length_append, length_singleton] at this
        omega
      rw [hlast, getElem?_concat_length] at hcall
      cases hcall
      rw [hlast, h.length_seals]
      refine ⟨rfl, h.counter, _, buffer, getElem?_concat_length, ?_, rfl⟩
      rw [length_nextChunk]
      exact Nat.min_le_right ..
  · refine IsPrefix.trans ?_ h.sent
    rw [← hdata]
    cases accepted with
    | true => exact prefix_rfl
    | false => exact append_nil _ ▸ prefix_append ..
  · intro haccepted
    cases accepted with
    | true => exact hdata.trans (h.whole hintact)
    | false => cases haccepted
  · intro hrefused
    cases accepted with
    | true => cases hrefused
    | false => rfl

/-- The chunk of a frame, as `Read` finds it. -/
def chunkOf (frame : Bytes) : Bytes :=
  (frame.drop dataLenSize).take (ofLittleEndian (frame.take dataLenSize))

/-- What `Read` does: it takes bytes off its buffer, fails without an effect, or opens a frame and
takes its chunk. -/
theorem read_cases (h : e.read A size input = some e') :
    e' = { e with
        conn := { e.conn with recvBuffer := e.conn.recvBuffer.drop size }
        received := e.received ++ e.conn.recvBuffer.take size } ∨
    e' = e ∨
    e.conn.recvBuffer = [] ∧ ∃ frame nonce, A.opened e.conn.recvKey e.conn.recvNonce
        (input.take (aeadSizeOverhead + totalFrameSize)) = some frame ∧
      incrNonce e.conn.recvNonce = .ok nonce ∧
      (e' = { e with
          conn := { e.conn with recvBuffer := (chunkOf frame).drop size, recvNonce := nonce }
          received := e.received ++ (chunkOf frame).take size } ∨
        dataMaxSize < ofLittleEndian (frame.take dataLenSize) ∧
          e' = { e with conn := { e.conn with recvNonce := nonce } }) := by
  simp only [Endpoint.read, SecretConnection.read, Program.exec_bind, Program.exec_get] at h
  by_cases hbuffer : e.conn.recvBuffer ≠ []
  · rw [if_pos hbuffer] at h
    exact .inl (some.inj h).symm
  rw [if_neg hbuffer] at h
  by_cases hshort : input.length < aeadSizeOverhead + totalFrameSize
  · rw [if_pos hshort] at h
    exact .inr (.inl (some.inj h).symm)
  rw [if_neg hshort] at h
  cases hopened : A.opened e.conn.recvKey e.conn.recvNonce
      (input.take (aeadSizeOverhead + totalFrameSize)) with
  | none =>
    rw [hopened] at h
    exact .inr (.inl (some.inj h).symm)
  | some frame =>
    rw [hopened] at h
    cases hnonce : incrNonce e.conn.recvNonce with
    | error failure =>
      rw [hnonce] at h
      cases failure with
      | panic => cases h
      | error error => exact .inr (.inl (some.inj h).symm)
    | ok nonce =>
      rw [hnonce] at h
      refine .inr (.inr ⟨not_not.mp hbuffer, frame, nonce, rfl, rfl, ?_⟩)
      by_cases hlong : dataMaxSize < ofLittleEndian (frame.take dataLenSize)
      · simp only [if_pos hlong] at h
        exact .inr ⟨hlong, (some.inj h).symm⟩
      · simp only [if_neg hlong] at h
        exact .inl (some.inj h).symm

/-- `Read` does not touch the sending side, and no operation changes a key. -/
theorem Sends.read (h : e.Sends chunks) (hread : e.read A size input = some e') :
    e'.Sends chunks ∧ e'.conn.sendKey = e.conn.sendKey ∧ e'.conn.recvKey = e.conn.recvKey := by
  rcases read_cases hread with rfl | rfl | ⟨-, frame, nonce, -, -, rfl | ⟨-, rfl⟩⟩
  · exact ⟨⟨h.counter, h.below, h.length_seals, h.seals, h.sent, h.whole, h.idle⟩, rfl, rfl⟩
  · exact ⟨h, rfl, rfl⟩
  · exact ⟨⟨h.counter, h.below, h.length_seals, h.seals, h.sent, h.whole, h.idle⟩, rfl, rfl⟩
  · exact ⟨⟨h.counter, h.below, h.length_seals, h.seals, h.sent, h.whole, h.idle⟩, rfl, rfl⟩

/-! ### The receiving side -/

/-- An endpoint has opened the first of the chunks. -/
structure Receives (e : Endpoint) (chunks : List Bytes) (count : Nat) : Prop where
  counter : e.conn.recvNonce = nonceOf count
  count_le : count ≤ chunks.length
  data : e.received ++ e.conn.recvBuffer = (chunks.take count).flatten

theorem Receives.congr (h : e.Receives chunks count) (hnonce : e'.conn.recvNonce = e.conn.recvNonce)
    (hbuffer : e'.conn.recvBuffer = e.conn.recvBuffer) (hreceived : e'.received = e.received) :
    e'.Receives chunks count :=
  ⟨hnonce ▸ h.counter, h.count_le, hreceived ▸ hbuffer ▸ h.data⟩

theorem Receives.append (h : e.Receives chunks count) (more : List Bytes) :
    e.Receives (chunks ++ more) count := by
  refine ⟨h.counter, ?_, ?_⟩
  · rw [length_append]
    exact Nat.le_add_right_of_le h.count_le
  · rw [take_append_of_le_length h.count_le]
    exact h.data

/-- What is opened under the next nonce is the next chunk. -/
theorem Receives.read {sender : Endpoint} (h : e.Receives chunks count)
    (hsends : sender.Sends chunks) (hopened : ∀ frame, A.opened e.conn.recvKey e.conn.recvNonce
      (input.take (aeadSizeOverhead + totalFrameSize)) = some frame → (⟨e.conn.recvKey,
      e.conn.recvNonce, frame⟩ : SealedFrame) ∈ sender.seals)
    (hread : e.read A size input = some e') :
    e'.Receives chunks count ∨
      sender.conn.sendKey = e.conn.recvKey ∧ e'.Receives chunks (count + 1) := by
  rcases read_cases hread with rfl | rfl | ⟨hempty, frame, nonce, hframe, hnonce, hlast⟩
  · left
    refine ⟨h.counter, h.count_le, ?_⟩
    rw [append_assoc, take_append_drop]
    exact h.data
  · exact .inl h
  right
  obtain ⟨i, hi⟩ := getElem?_of_mem (hopened frame hframe)
  obtain ⟨hkey, hused, chunk, buffer, hchunk, hsmall, hfilled⟩ := hsends.seals i _ hi
  have hbelow := hsends.below
  have hcount := h.count_le
  have hi_lt := (List.getElem_of_getElem? hchunk).1
  have hnext : count = i := nonceOf_inj (by omega) (by omega) (h.counter.symm.trans hused)
  subst hnext
  obtain ⟨hlength, hcontent⟩ := chunk_of_fillFrame buffer hsmall
  dsimp only at hfilled
  rw [hfilled] at hlast
  have hchunkOf : chunkOf (fillFrame buffer chunk) = chunk := by
    rw [chunkOf, hlength]
    exact hcontent
  rw [hchunkOf] at hlast
  refine ⟨hkey.symm, ?_⟩
  rcases hlast with rfl | ⟨hlong, -⟩
  · rw [h.counter, incrNonce_nonceOf (by omega)] at hnonce
    split at hnonce
    · cases hnonce
    cases hnonce
    have hdata := h.data
    rw [hempty, append_nil] at hdata
    refine ⟨rfl, by omega, ?_⟩
    rw [append_assoc, take_append_drop, hdata, take_add_one, hchunk, flatten_append]
    simp
  · omega

/-- No nonce is used twice. -/
theorem Sends.nodup (h : e.Sends chunks) :
    (e.seals.map fun call => (call.key, call.nonce)).Nodup := by
  rw [Nodup, pairwise_map, pairwise_iff_getElem]
  intro i j hi hj hij heq
  have hbelow := h.below
  have hlength := h.length_seals
  have hnonce := (h.seals i _ (getElem?_eq_getElem hi)).2.1
  have hnonce' := (h.seals j _ (getElem?_eq_getElem hj)).2.1
  have hsame := nonceOf_inj (by omega) (by omega)
    (hnonce.symm.trans ((Prod.mk.inj heq).2.trans hnonce'))
  omega

theorem Sends.key_of_mem (h : e.Sends chunks) {call : SealedFrame} (hcall : call ∈ e.seals) :
    call.key = e.conn.sendKey := by
  obtain ⟨i, hi⟩ := getElem?_of_mem hcall
  exact (h.seals i call hi).1

end Endpoint

/-! ### A session -/

namespace Session

/-- Both sides of a session: the chunks that each has sealed, and how many of them the other one has
opened. -/
structure Linked (conns : Bool → SecretConnection) (s : Session) (chunks : Bool → List Bytes)
    (count : Bool → Nat) : Prop where
  sends : ∀ side, (s side).Sends (chunks side)
  receives : ∀ side, (s side).Receives (chunks !side) (count side)
  sendKey : ∀ side, (s side).conn.sendKey = (conns side).sendKey
  recvKey : ∀ side, (s side).conn.recvKey = (conns side).recvKey
  crosswise : ∀ side, 0 < count side → (conns !side).sendKey = (conns side).recvKey

variable {A : Aead} {conns : Bool → SecretConnection} {s s' : Session} {chunks : Bool → List Bytes}
  {count : Bool → Nat} {side : Bool}

theorem forall_side (side : Bool) {p : Bool → Prop} (hself : p side) (hother : p !side) (x : Bool) :
    p x := by
  cases x <;> cases side <;> assumption

/-- One side has moved on. -/
theorem Linked.update {e : Endpoint} {more : List Bytes} {n : Nat} (h : s.Linked conns chunks count)
    (hsends : e.Sends (chunks side ++ more)) (hreceives : e.Receives (chunks !side) n)
    (hsendKey : e.conn.sendKey = (s side).conn.sendKey)
    (hrecvKey : e.conn.recvKey = (s side).conn.recvKey)
    (hcross : 0 < n → (conns !side).sendKey = (conns side).recvKey) :
    Linked conns (Function.update s side e) (Function.update chunks side (chunks side ++ more))
      (Function.update count side n) := by
  constructor
  · exact forall_side side (by simpa using hsends) (by simpa using h.sends !side)
  · exact forall_side side (by simpa using hreceives)
      (by simpa using (h.receives !side).append more)
  · exact forall_side side (by simpa using hsendKey.trans (h.sendKey side))
      (by simpa using h.sendKey !side)
  · exact forall_side side (by simpa using hrecvKey.trans (h.recvKey side))
      (by simpa using h.recvKey !side)
  · exact forall_side side (by simpa using hcross) (by simpa using h.crosswise !side)

section

variable (h : s.Linked conns chunks count)
  (hdirections : ∀ side, (conns side).sendKey ≠ (conns side).recvKey)

include h hdirections

/-- What opens on one side was sealed on the other one. -/
theorem Linked.mem_of_opened {size : Nat} {input frame : Bytes}
    (hunforged : Unforged A s (.read side size input))
    (hopened : A.opened (s side).conn.recvKey (s side).conn.recvNonce
      (input.take (aeadSizeOverhead + totalFrameSize)) = some frame) :
    (⟨(s side).conn.recvKey, (s side).conn.recvNonce, frame⟩ : SealedFrame) ∈ (s !side).seals := by
  have hmem := hunforged frame hopened
  have hown : (⟨(s side).conn.recvKey, (s side).conn.recvNonce, frame⟩ : SealedFrame) ∉
      (s side).seals := by
    intro hcall
    have hkey := (h.sends side).key_of_mem hcall
    rw [h.recvKey, h.sendKey] at hkey
    exact hdirections side hkey.symm
  cases side with
  | false => exact (mem_append.mp hmem).resolve_left hown
  | true => exact (mem_append.mp hmem).resolve_right hown

theorem Linked.step {a : SessionAction} (hunforged : Unforged A s a)
    (hstep : (machine A conns).step s a = some s') :
    ∃ chunks count, s'.Linked conns chunks count := by
  cases a with
  | write side data =>
    obtain ⟨e, he, rfl⟩ := map_eq_some_iff.mp hstep
    have hsends : e.Sends (chunks side ++ []) := (append_nil _).symm ▸ (h.sends side).write he
    simp only [Endpoint.write, ite_none_right_eq_some, some.injEq] at he
    obtain ⟨-, rfl⟩ := he
    exact ⟨_, _, h.update hsends ((h.receives side).congr rfl rfl rfl) rfl rfl (h.crosswise side)⟩
  | frame side buffer accepted =>
    obtain ⟨e, he, rfl⟩ := map_eq_some_iff.mp hstep
    have hsends := (h.sends side).writeFrame he
    obtain ⟨-, nonce, -, rfl⟩ := Endpoint.writeFrame_spec he
    exact ⟨_, _, h.update hsends ((h.receives side).congr rfl rfl rfl) rfl rfl (h.crosswise side)⟩
  | read side size input =>
    obtain ⟨e, he, rfl⟩ := map_eq_some_iff.mp hstep
    obtain ⟨hsame, hsendKey, hrecvKey⟩ := (h.sends side).read he
    have hsends : e.Sends (chunks side ++ []) := (append_nil _).symm ▸ hsame
    rcases (h.receives side).read (h.sends !side)
      (fun frame hframe => h.mem_of_opened hdirections hunforged hframe) he with
      hold | ⟨hkey, hnext⟩
    · exact ⟨_, _, h.update hsends hold hsendKey hrecvKey (h.crosswise side)⟩
    · rw [h.sendKey, h.recvKey] at hkey
      exact ⟨_, _, h.update hsends hnext hsendKey hrecvKey fun _ => hkey⟩

end

/-- Two connections with fresh nonces and empty buffers. -/
def Fresh (conns : Bool → SecretConnection) : Prop :=
  ∀ side, (conns side).sendNonce = nonceOf 0 ∧ (conns side).recvNonce = nonceOf 0 ∧
    (conns side).recvBuffer = []

/-- The sides stay linked in every run. -/
theorem linked_of_run (hfresh : Fresh conns)
    (hdirections : ∀ side, (conns side).sendKey ≠ (conns side).recvKey)
    {actions : List SessionAction}
    (hunforged : (machine A conns).Meets (Unforged A) (machine A conns).init actions)
    (hrun : (machine A conns).run actions = some s) :
    ∃ chunks count, s.Linked conns chunks count := by
  refine Machine.run_invariant (I := fun s => ∃ chunks count, s.Linked conns chunks count) ?_ ?_
    hunforged hrun
  · refine ⟨fun _ => [], fun _ => 0, fun side => .start (hfresh side).1, fun side => ?_,
      fun _ => rfl, fun _ => rfl, fun _ hpos => absurd hpos (Nat.lt_irrefl 0)⟩
    exact ⟨(hfresh side).2.1, Nat.le_refl 0, (nil_append _).trans (hfresh side).2.2⟩
  · intro s a s' hs ha hstep
    obtain ⟨chunks, count, hs⟩ := hs
    exact hs.step hdirections ha hstep

variable (h : s.Linked conns chunks count)

include h

/-- What one side reads is the beginning of what the other one writes. -/
theorem Linked.reads_written (side : Bool) : (s side).received <+: (s !side).written := by
  have hdata := (h.receives side).data
  calc
    (s side).received <+: (s side).received ++ (s side).conn.recvBuffer := prefix_append ..
    _ = ((chunks !side).take (count side)).flatten := hdata
    _ <+: (chunks !side).flatten := (List.take_prefix _ _).flatten
    _ <+: (chunks !side).flatten ++ (s !side).unsent := prefix_append ..
    _ <+: (s !side).written := (h.sends !side).sent

/-- No two calls of `Seal` have the same key and nonce if the sides send under different keys. -/
theorem Linked.nodup_seals (hkeys : (conns false).sendKey ≠ (conns true).sendKey) :
    (s.seals.map fun call => (call.key, call.nonce)).Nodup := by
  rw [seals, map_append]
  refine nodup_append.mpr ⟨(h.sends false).nodup, (h.sends true).nodup, ?_⟩
  intro used hused used' hused' heq
  obtain ⟨call, hcall, rfl⟩ := mem_map.mp hused
  obtain ⟨call', hcall', rfl⟩ := mem_map.mp hused'
  have hkey := (h.sends false).key_of_mem hcall
  have hkey' := (h.sends true).key_of_mem hcall'
  rw [h.sendKey] at hkey hkey'
  exact hkeys (hkey.symm.trans ((Prod.mk.inj heq).1.trans hkey'))

/-- Nothing is read if the sides do not send under the keys of each other. -/
theorem Linked.received_eq_nil (hkeys : (conns !side).sendKey ≠ (conns side).recvKey) :
    (s side).received = [] := by
  have hcount : count side = 0 :=
    Nat.eq_zero_of_not_pos fun hpos => hkeys (h.crosswise side hpos)
  have hdata := (h.receives side).data
  rw [hcount, take_zero, flatten_nil] at hdata
  exact (append_eq_nil_iff.mp hdata).1

end Session

/-! ### The handshake -/

/-- The ephemeral keys of the two sides agree on a secret, from which two different keys are
derived. -/
structure HandshakePrimitives.Agree (P : HandshakePrimitives) (privs : Bool → Bytes)
    (dhSecret : Bytes) : Prop where
  x25519_eq : ∀ side, P.x25519 (privs side) (P.ephPub (privs !side)) = some dhSecret
  hkdf_ne : (P.hkdf dhSecret).take aeadKeySize ≠
    ((P.hkdf dhSecret).drop aeadKeySize).take aeadKeySize

theorem sort32_comm {x y : Bytes} (hne : x ≠ y) : sort32 x y = sort32 y x := by
  unfold sort32
  by_cases hlt : x < y
  · rw [if_pos hlt, if_neg (List.lt_asymm hlt)]
  · rw [if_neg hlt, if_pos (bytes_lt_of_le_of_ne (List.not_lt.mp hlt) (Ne.symm hne))]

/-- Of two different keys exactly one is the least. -/
theorem least_of_ne {x y : Bytes} (hne : x ≠ y) :
    (y == (sort32 y x).1) = !(x == (sort32 x y).1) := by
  rw [← sort32_comm hne]
  unfold sort32
  by_cases hlt : x < y
  · simp [if_pos hlt, Ne.symm hne]
  · simp [if_neg hlt, hne]

/-- What a side makes of the secret. -/
theorem eq_of_startSession {P : HandshakePrimitives}
    {locEphPriv remEphPub dhSecret challenge : Bytes} {conn : SecretConnection}
    (hdh : P.x25519 locEphPriv remEphPub = some dhSecret)
    (h : startSession P locEphPriv remEphPub = .ok (conn, challenge)) :
    conn = ⟨(deriveSecrets P dhSecret (P.ephPub locEphPriv ==
          (sort32 (P.ephPub locEphPriv) remEphPub).1)).1,
        (deriveSecrets P dhSecret (P.ephPub locEphPriv ==
          (sort32 (P.ephPub locEphPriv) remEphPub).1)).2, [], replicate 12 0, replicate 12 0⟩ ∧
      challenge = P.challenge (sort32 (P.ephPub locEphPriv) remEphPub).1
        (sort32 (P.ephPub locEphPriv) remEphPub).2 dhSecret := by
  simp only [startSession, hdh, Except.ok.injEq, Prod.mk.injEq] at h
  exact ⟨h.1.symm, h.2.symm⟩

section Handshake

variable {P : HandshakePrimitives} {privs : Bool → Bytes} {dhSecret : Bytes}
  {conns : Bool → SecretConnection} {challenges : Bool → Bytes}

section

variable (h : P.Agree privs dhSecret) (hstart : ∀ side, startSession P (privs side)
  (P.ephPub (privs !side)) = .ok (conns side, challenges side))

include h hstart

theorem HandshakePrimitives.Agree.sendKey_ne (side : Bool) :
    (conns side).sendKey ≠ (conns side).recvKey := by
  rw [(eq_of_startSession (h.x25519_eq side) (hstart side)).1]
  unfold deriveSecrets
  split
  · exact Ne.symm h.hkdf_ne
  · exact h.hkdf_ne

theorem HandshakePrimitives.Agree.fresh : Session.Fresh conns := by
  intro side
  rw [(eq_of_startSession (h.x25519_eq side) (hstart side)).1]
  exact ⟨rfl, rfl, rfl⟩

/-- With different ephemeral keys, the keys match crosswise and the challenges are the same. -/
theorem HandshakePrimitives.Agree.crosswise (hne : P.ephPub (privs false) ≠ P.ephPub (privs true)) :
    (∀ side, (conns side).sendKey = (conns !side).recvKey) ∧
      challenges false = challenges true := by
  have hleft := eq_of_startSession (h.x25519_eq false) (hstart false)
  have hright := eq_of_startSession (h.x25519_eq true) (hstart true)
  simp only [Bool.not_false, Bool.not_true] at hleft hright
  rw [least_of_ne hne, ← sort32_comm hne] at hright
  refine ⟨?_, hleft.2.trans hright.2.symm⟩
  intro side
  cases side with
  | false =>
    rw [hleft.1, Bool.not_false, hright.1]
    cases P.ephPub (privs false) == (sort32 (P.ephPub (privs false)) (P.ephPub (privs true))).1 <;>
      rfl
  | true =>
    rw [hright.1, Bool.not_true, hleft.1]
    cases P.ephPub (privs false) == (sort32 (P.ephPub (privs false)) (P.ephPub (privs true))).1 <;>
      rfl

/-- With equal ephemeral keys, both sides have the same connection. -/
theorem HandshakePrimitives.Agree.mirrored (heq : P.ephPub (privs false) = P.ephPub (privs true)) :
    conns false = conns true := by
  rw [(eq_of_startSession (h.x25519_eq false) (hstart false)).1,
    (eq_of_startSession (h.x25519_eq true) (hstart true)).1, Bool.not_false, Bool.not_true, heq]

end

/-- A key that a handshake accepts has a signature of the challenge. -/
theorem verifySignature_of_finishSession {challenge stream : Bytes} {key : PubKey}
    (h : finishSession P challenge stream = .ok key) :
    ∃ sig, P.verifySignature key challenge sig = true := by
  obtain ⟨content, -, h⟩ := bind_eq_ok.mp h
  cases hmsg : AuthSigMessage.unmarshal content with
  | none =>
    rw [hmsg] at h
    cases h
  | some authSigMsg =>
    rw [hmsg] at h
    obtain ⟨remPubKey, -, h⟩ := bind_eq_ok.mp h
    cases remPubKey with
    | ed25519 bytes =>
      dsimp only at h
      split at h
      · rename_i hverify
        cases h
        exact ⟨_, hverify⟩
      · cases h
    | secp256k1 => cases h
    | sr25519 => cases h

/-- Two honest sides, any network, and ideal primitives. Each side reads a prefix of what the other
one writes, and sends under another key than it reads. If the ephemeral keys differ, the keys match
crosswise, the sides sign one challenge, and no nonce is used twice with a key. If they are equal,
both have the same connection and nothing is read. A key that a handshake accepts belongs to a
signer of the session's challenge. -/
theorem stream_is_authentic (A : Aead) (Signed : PubKey → Bytes → Prop)
    (hunforgeable : ∀ key message sig, P.verifySignature key message sig = true →
      Signed key message)
    (hagree : P.Agree privs dhSecret)
    (hstart : ∀ side, startSession P (privs side) (P.ephPub (privs !side)) =
      .ok (conns side, challenges side))
    {actions : List SessionAction} {s : Session}
    (hunforged : (machine A conns).Meets (Session.Unforged A) (machine A conns).init actions)
    (hrun : (machine A conns).run actions = some s) :
    (∀ side, (s side).received <+: (s !side).written) ∧
    (∀ side, (conns side).sendKey ≠ (conns side).recvKey) ∧
    (P.ephPub (privs false) ≠ P.ephPub (privs true) →
      (∀ side, (conns side).sendKey = (conns !side).recvKey) ∧ challenges false = challenges true ∧
      (s.seals.map fun call => (call.key, call.nonce)).Nodup) ∧
    (P.ephPub (privs false) = P.ephPub (privs true) →
      conns false = conns true ∧ ∀ side, (s side).received = []) ∧
    (∀ side stream key, finishSession P (challenges side) stream = .ok key →
      Signed key (challenges side)) := by
  have hdirections := hagree.sendKey_ne hstart
  obtain ⟨chunks, count, hlinked⟩ :=
    linked_of_run (hagree.fresh hstart) hdirections hunforged hrun
  refine ⟨hlinked.reads_written, hdirections, ?_, ?_, ?_⟩
  · intro hne
    obtain ⟨hcross, hchallenges⟩ := hagree.crosswise hstart hne
    refine ⟨hcross, hchallenges, hlinked.nodup_seals ?_⟩
    intro hkeys
    exact hdirections false (hkeys.trans (hcross true))
  · intro heq
    have hsame := hagree.mirrored hstart heq
    refine ⟨hsame, fun side => hlinked.received_eq_nil ?_⟩
    cases side with
    | false => exact hsame ▸ hdirections true
    | true => exact hsame ▸ hdirections true
  · intro side stream key hfinish
    obtain ⟨sig, hverify⟩ := verifySignature_of_finishSession hfinish
    exact hunforgeable key _ sig hverify

end Handshake

/-! ### Samples -/

namespace StreamSample

/-- Primitives that can be evaluated. A signature is the message itself. -/
def primitives : HandshakePrimitives where
  ephPub ephPriv := ephPriv
  x25519 priv pub := some (zipWith (· ^^^ ·) priv pub)
  hkdf _ := replicate 32 1 ++ replicate 32 2 ++ replicate 32 3
  challenge loEphPub hiEphPub dhSecret := loEphPub ++ hiEphPub ++ dhSecret
  verifySignature _ message signature := message == signature

/-- A tag made from the nonce and the key. -/
def tag (key nonce : Bytes) : Bytes :=
  (nonce.drop 4 ++ key ++ replicate aeadSizeOverhead 0).take aeadSizeOverhead

theorem length_tag (key nonce : Bytes) : (tag key nonce).length = aeadSizeOverhead := by
  simp only [tag, length_take, length_append, length_replicate]
  omega

/-- A cipher that only adds the tag. -/
def tagged : Aead where
  sealed key nonce plaintext := plaintext ++ tag key nonce
  opened key nonce ciphertext :=
    if ciphertext.drop (ciphertext.length - aeadSizeOverhead) = tag key nonce then
      some (ciphertext.take (ciphertext.length - aeadSizeOverhead))
    else none
  length_sealed key nonce plaintext := by simp [length_tag]
  length_of_opened key nonce ciphertext plaintext h := by
    obtain ⟨htag, hplain⟩ := Option.ite_none_right_eq_some.mp h
    cases hplain
    have hlength := congrArg length htag
    rw [length_drop, length_tag] at hlength
    rw [length_take, Nat.min_eq_left (Nat.sub_le ..)]
    exact (Nat.sub_add_cancel (hlength ▸ Nat.sub_le ..)).symm
  opened_sealed key nonce plaintext := by simp [length_tag]

/-- The connections of the two sides with the given ephemeral keys. -/
def conns (privs : Bool → Bytes) (side : Bool) : SecretConnection :=
  match startSession primitives (privs side) (privs !side) with
  | .ok (sc, _) => sc
  | .error _ => ⟨[], [], [], [], []⟩

/-- Two sides that drew the same ephemeral key send their first frames under one key and nonce, and
neither can open the other's. -/
theorem equal_keys_share_nonce :
    startSession primitives [7] [7] = .ok (conns (fun _ => [7]) false, [7, 7, 0]) ∧
      conns (fun _ => [7]) true = conns (fun _ => [7]) false ∧
      (conns (fun _ => [7]) false).sendKey ≠ (conns (fun _ => [7]) true).recvKey ∧
      ∃ s, (machine tagged (conns fun _ => [7])).run
        [.write false [1], .frame false .fresh true, .write true [2], .frame true .fresh true] =
          some s ∧
      ¬(s.seals.map fun call => (call.key, call.nonce)).Nodup := by
  refine ⟨by decide +kernel, by decide +kernel, by decide +kernel, ?_⟩
  have hrun : ((machine tagged (conns fun _ => [7])).run
      [.write false [1], .frame false .fresh true, .write true [2], .frame true .fresh true]).map
        (fun s => s.seals.map fun call => (call.key, call.nonce)) =
      some [(replicate 32 2, nonceOf 0), (replicate 32 2, nonceOf 0)] := by
    decide +kernel
  obtain ⟨s, hs, hseals⟩ := map_eq_some_iff.mp hrun
  refine ⟨s, hs, ?_⟩
  rw [hseals]
  simp

/-- The private keys of two sides. -/
def privs (side : Bool) : Bytes :=
  if side then [2] else [1]

/-- One side writes two frames. The other one is shown the second frame, then the first one in two
reads. -/
def exchange : List SessionAction :=
  let frame (n : Nat) (chunk : Bytes) :=
    tagged.sealed (replicate 32 2) (nonceOf n) (fillFrame .fresh chunk)
  [.write false (replicate 1025 1), .frame false .fresh true, .frame false .fresh true,
    .read true 5 (frame 1 [1]),
    .read true 5 (frame 0 (replicate 1024 1)), .read true 2000 []]

theorem stream_is_authentic_exchange :
    ∃ s, (machine tagged (conns privs)).run exchange = some s ∧
      (s true).received = replicate 1024 1 ∧
      (∀ side, (s side).received <+: (s !side).written) ∧
      (s.seals.map fun call => (call.key, call.nonce)).Nodup := by
  have hrun : ((machine tagged (conns privs)).run exchange).map (fun s =>
      (s true).received) = some (replicate 1024 1) := by decide +kernel
  have hunforged : (machine tagged (conns privs)).Meets (Session.Unforged tagged)
      (machine tagged (conns privs)).init exchange := by decide +kernel
  have hagree : primitives.Agree privs [3] :=
    ⟨by decide, by decide⟩
  have hstart : ∀ side, startSession primitives (privs side) (primitives.ephPub (privs !side)) =
      .ok (conns privs side, [1, 2, 3]) := by decide +kernel
  have hne : primitives.ephPub (privs false) ≠ primitives.ephPub (privs true) := by decide
  obtain ⟨s, hs, hreceived⟩ := map_eq_some_iff.mp hrun
  have hauthentic := stream_is_authentic tagged
    (fun key message => ∃ sig, primitives.verifySignature key message sig = true)
    (fun _ _ sig hverify => ⟨sig, hverify⟩) hagree hstart hunforged hs
  exact ⟨s, hs, hreceived, hauthentic.1, (hauthentic.2.2.1 hne).2.2⟩

end StreamSample

end NimbleChain.Tendermint
