import NimbleChain.Tendermint.SecretConnection

/-!
# What a frame holds behind its chunk

All secret connections of a node take their buffers from one pool. `Write` fills in the length and
the chunk and seals the whole frame, so behind a short chunk the frame carries bytes of other
connections. The part of a frame that the receiver reads never depends on them.
-/

namespace NimbleChain.Tendermint

open Common List Option Function

variable (conn : Nat)

/-! ### Model -/

/-- The connections of a node, by number: their states, the data of the calls of `Write` under way,
the contents given to `pool.Put`, and the sealed frames. -/
structure Node where
  conns : Nat → SecretConnection
  unsent : Nat → Bytes
  pool : List Buffer
  frames : Nat → List Bytes

/-- What the goroutines of a node do. A call of `Write` goes on frame by frame, and `Read` is one
action. A buffer of the pool is picked by its number, or made. -/
inductive NodeAction where
  | write (conn : Nat) (data : Bytes)
  | frame (conn : Nat) (pickSealed pickFrame : Option Nat) (accepted : Bool)
  | read (conn : Nat) (size : Nat) (input : Bytes) (pickSealed pickFrame : Option Nat)

namespace Node

variable (A : Aead)

/-- A node whose connections were just made. -/
def start (conns : Nat → SecretConnection) : Node :=
  ⟨conns, fun _ => [], [], fun _ => []⟩

variable (s : Node)

/-- `pool.Get`: a new buffer, or one with the content of an earlier one. -/
def getBuffer (pick : Option Nat) : Buffer :=
  (pick.bind fun i => s.pool[i]?).getD Buffer.fresh

variable (conn : Nat)

/-- `Write` is called when no other call holds the lock of the connection. -/
def write (data : Bytes) : Option Node :=
  if s.unsent conn = [] then some { s with unsent := update s.unsent conn data } else none

/-- One round of the loop in `Write`. A refused frame ends the call. A panic has no successor. -/
def writeFrame (pickSealed pickFrame : Option Nat) (accepted : Bool) :
    Option Node :=
  if s.unsent conn = [] then none
  else
    let chunk := (nextChunk (s.unsent conn)).1
    let sealedBuffer := s.getBuffer pickSealed
    let frameBuffer := s.getBuffer pickFrame
    match (SecretConnection.sealChunk A frameBuffer chunk).exec (s.conns conn) with
    | (.ok (frame, sealedFrame), sc) => some
        { conns := update s.conns conn sc
          unsent := update s.unsent conn (if accepted then (nextChunk (s.unsent conn)).2 else [])
          pool := s.pool ++ [sealedBuffer.overwrite sealedFrame, frameBuffer.overwrite frame]
          frames := update s.frames conn (s.frames conn ++ [frame]) }
    | (.error _, _) => none

/-- The buffers that `Read` gives back. A frame that does not open is wiped. -/
def readBuffers (input : Bytes) (pickSealed pickFrame : Option Nat) :
    List Buffer :=
  let sc := s.conns conn
  let sealedFrame := input.take (aeadSizeOverhead + totalFrameSize)
  let sealedBuffer := (s.getBuffer pickSealed).overwrite sealedFrame
  if sc.recvBuffer ≠ [] then []
  else if input.length < aeadSizeOverhead + totalFrameSize then [sealedBuffer]
  else
    let frame := (A.opened sc.recvKey sc.recvNonce sealedFrame).getD (replicate totalFrameSize 0)
    [(s.getBuffer pickFrame).overwrite frame, sealedBuffer]

/-- `Read`, which returns data or an error. A panic has no successor. -/
def read (conn size : Nat) (input : Bytes) (pickSealed pickFrame : Option Nat) :
    Option Node :=
  match (SecretConnection.read A size input).exec (s.conns conn) with
  | (.error .panic, _) => none
  | (_, sc) => some
      { s with
        conns := update s.conns conn sc
        pool := s.pool ++ s.readBuffers A conn input pickSealed pickFrame }

/-- The connections of a node as a machine. -/
def machine (conns : Nat → SecretConnection) : Machine Node NodeAction where
  init := start conns
  step s
    | .write conn data => s.write conn data
    | .frame conn pickSealed pickFrame accepted => s.writeFrame A conn pickSealed pickFrame accepted
    | .read conn size input pickSealed pickFrame => s.read A conn size input pickSealed pickFrame

end Node

open Node

/-! ### What belongs to one connection -/

/-- What the caller and the network of one connection see of its sending side. -/
inductive Visible where
  | data (data : Bytes)
  | frame (accepted : Bool)

/-- The visible part of an action. -/
def NodeAction.visible : NodeAction → Option Visible
  | .write c data => if c = conn then some (.data data) else none
  | .frame c _ _ accepted => if c = conn then some (.frame accepted) else none
  | .read .. => none

namespace Node

/-- What a visible action makes of the unsent data and of the chunks that were sealed. -/
def advance (sent : Bytes × List Bytes) : Visible → Bytes × List Bytes
  | .data data => (data, sent.2)
  | .frame accepted =>
    (if accepted then (nextChunk sent.1).2 else [], sent.2 ++ [(nextChunk sent.1).1])

/-- A connection has sealed the chunks in order, each in a buffer with arbitrary content. -/
def Sealing (s : Node) (conn : Nat) (sent : Bytes × List Bytes) : Prop :=
  s.unsent conn = sent.1 ∧
    Forall₂ (fun frame chunk => chunk.length ≤ dataMaxSize ∧
      ∃ buffer, frame = fillFrame buffer chunk) (s.frames conn) sent.2

/-- Every frame that is sealed on a connection is filled by its chunk. -/
def FillsFrame (s : Node) : NodeAction → Prop
  | .frame c _ _ _ => c = conn → dataMaxSize ≤ (s.unsent conn).length
  | _ => True

variable {A : Aead} {conns conns' : Nat → SecretConnection} {s s' : Node} {conn : Nat}
  {a : NodeAction} {sent : Bytes × List Bytes}

/-- What a step of the machine does to the sending side of a connection. -/
theorem step_sending (hstep : (machine A conns).step s a = some s') :
    (a.visible conn = none ∧ s'.unsent conn = s.unsent conn ∧ s'.frames conn = s.frames conn) ∨
      (∃ data, a.visible conn = some (.data data) ∧ s'.unsent conn = data ∧
        s'.frames conn = s.frames conn) ∨
      (∃ accepted buffer, a.visible conn = some (.frame accepted) ∧
        s'.unsent conn = (if accepted then (nextChunk (s.unsent conn)).2 else []) ∧
        s'.frames conn = s.frames conn ++ [fillFrame buffer (nextChunk (s.unsent conn)).1]) := by
  cases a with
  | write c data =>
    simp only [machine, write, ite_none_right_eq_some, some.injEq] at hstep
    obtain ⟨-, rfl⟩ := hstep
    by_cases hc : c = conn
    · subst hc
      refine .inr (.inl ⟨data, if_pos rfl, update_self .., rfl⟩)
    · exact .inl ⟨if_neg hc, update_of_ne (Ne.symm hc) .., rfl⟩
  | frame c pickSealed pickFrame accepted =>
    simp only [machine, writeFrame] at hstep
    split at hstep
    · cases hstep
    split at hstep
    · rename_i frame sealedFrame sc hseal
      cases hstep
      obtain ⟨nonce, -, hframes, -⟩ := SecretConnection.sealChunk_eq_ok.mp hseal
      obtain ⟨rfl, -⟩ := Prod.mk.inj hframes
      by_cases hc : c = conn
      · subst hc
        exact .inr (.inr ⟨accepted, s.getBuffer pickFrame, if_pos rfl, update_self ..,
          update_self ..⟩)
      · exact .inl ⟨if_neg hc, update_of_ne (Ne.symm hc) ..,
          update_of_ne (Ne.symm hc) ..⟩
    · cases hstep
  | read c size input pickSealed pickFrame =>
    simp only [machine, read] at hstep
    split at hstep
    · cases hstep
    · cases hstep
      exact .inl ⟨rfl, rfl, rfl⟩

/-- The chunks that a step seals depend on its visible part only. -/
theorem Sealing.step (h : s.Sealing conn sent) (hstep : (machine A conns).step s a = some s') :
    s'.Sealing conn ((a.visible conn).elim sent (advance sent)) := by
  obtain ⟨hunsent, hframes⟩ := h
  rcases step_sending hstep with ⟨hvisible, hdata, hsame⟩ | ⟨data, hvisible, hdata, hsame⟩ |
    ⟨accepted, buffer, hvisible, hrest, hmore⟩
  · rw [hvisible]
    exact ⟨hdata.trans hunsent, hsame ▸ hframes⟩
  · rw [hvisible]
    exact ⟨hdata, hsame ▸ hframes⟩
  · rw [hvisible]
    rw [hunsent] at hrest hmore
    refine ⟨hrest, hmore ▸ rel_append hframes (.cons ⟨?_, buffer, rfl⟩ .nil)⟩
    rw [length_nextChunk]
    exact Nat.min_le_right ..

/-- The chunks that were sealed at the end of a run. -/
theorem sealing_of_runFrom {actions : List NodeAction} (h : s.Sealing conn sent)
    (hrun : (machine A conns).runFrom s actions = some s') :
    s'.Sealing conn ((actions.filterMap (NodeAction.visible conn)).foldl advance sent) := by
  induction actions generalizing s sent with
  | nil => exact some.inj hrun ▸ h
  | cons a rest ih =>
    obtain ⟨next, hnext, hrest⟩ := Machine.runFrom_cons.mp hrun
    have hstep := ih (h.step hnext) hrest
    cases hvisible : a.visible conn with
    | none =>
      rw [hvisible] at hstep
      rw [filterMap_cons_none hvisible]
      exact hstep
    | some v =>
      rw [hvisible] at hstep
      rw [filterMap_cons_some hvisible]
      exact hstep

end Node

/-- The part of a frame that `Read` takes. -/
def frameContent (frame : Bytes) : Bytes :=
  frame.take (dataLenSize + ofLittleEndian (frame.take dataLenSize))

theorem frameContent_fillFrame (buffer : Buffer) {chunk : Bytes}
    (hchunk : chunk.length ≤ dataMaxSize) :
    frameContent (fillFrame buffer chunk) = littleEndian dataLenSize chunk.length ++ chunk := by
  rw [frameContent, (chunk_of_fillFrame buffer hchunk).1, fillFrame_eq buffer hchunk]
  refine take_left' ?_
  rw [length_append, length_littleEndian]

namespace Node

variable {A : Aead} {conns conns' : Nat → SecretConnection} {s s' : Node} {conn : Nat}

/-- The contents of the frames are those of the chunks. -/
theorem Sealing.contents {sent : Bytes × List Bytes} (h : s.Sealing conn sent) :
    (s.frames conn).map frameContent =
      sent.2.map fun chunk => littleEndian dataLenSize chunk.length ++ chunk := by
  have hframes := h.2
  generalize s.frames conn = frames at hframes
  generalize sent.2 = chunks at hframes
  induction hframes with
  | nil => rfl
  | cons hhead _ ih =>
    obtain ⟨hchunk, buffer, rfl⟩ := hhead
    rw [map_cons, map_cons, frameContent_fillFrame buffer hchunk, ih]

/-- Whatever other connections do, the contents of the frames are the same. -/
theorem frameContents_eq {actions actions' : List NodeAction} (hsame : actions.filterMap
      (NodeAction.visible conn) = actions'.filterMap (NodeAction.visible conn))
    (hrun : (machine A conns).run actions = some s)
    (hrun' : (machine A conns').run actions' = some s') :
    (s.frames conn).map frameContent = (s'.frames conn).map frameContent := by
  have hstart : ∀ conns, (start conns).Sealing conn ([], []) := fun _ => ⟨rfl, .nil⟩
  have hend := sealing_of_runFrom (hstart conns) hrun
  have hend' := sealing_of_runFrom (hstart conns') hrun'
  rw [hend.contents, hend'.contents, hsame]

/-- A frame that its chunk fills is all content. -/
theorem frameContent_of_fills {a : NodeAction}
    (hframes : ∀ frame ∈ s.frames conn, frameContent frame = frame) (hfills : FillsFrame conn s a)
    (hstep : (machine A conns).step s a = some s') :
    ∀ frame ∈ s'.frames conn, frameContent frame = frame := by
  rcases step_sending hstep with ⟨-, -, hsame⟩ | ⟨-, -, -, hsame⟩ |
    ⟨accepted, buffer, hvisible, -, hmore⟩
  · rwa [hsame]
  · rwa [hsame]
  · have hfull : (nextChunk (s.unsent conn)).1.length = dataMaxSize := by
      rw [length_nextChunk]
      apply Nat.min_eq_right
      cases a with
      | write c data => by_cases hc : c = conn <;> simp [NodeAction.visible, hc] at hvisible
      | frame c pickSealed pickFrame ok =>
        by_cases hc : c = conn
        · exact hfills hc
        · simp [NodeAction.visible, hc] at hvisible
      | read => cases hvisible
    rw [hmore]
    intro frame hframe
    rcases mem_append.mp hframe with hold | hnew
    · exact hframes frame hold
    · obtain rfl := mem_singleton.mp hnew
      rw [frameContent_fillFrame buffer (Nat.le_of_eq hfull),
        fillFrame_eq buffer (Nat.le_of_eq hfull), hfull, Nat.sub_self, take_zero, append_nil]

/-- Two histories of a node agree on what is written to a connection. If each chunk sealed there
fills its frame, the frames are the same. -/
theorem frames_independent_of_others {conn : Nat} {actions actions' : List NodeAction}
    {s s' : Node}
    (hsame : actions.filterMap (NodeAction.visible conn) =
      actions'.filterMap (NodeAction.visible conn))
    (hfills : (machine A conns).Meets (FillsFrame conn) (start conns) actions)
    (hfills' : (machine A conns').Meets (FillsFrame conn) (start conns') actions')
    (hrun : (machine A conns).run actions = some s)
    (hrun' : (machine A conns').run actions' = some s') : s.frames conn = s'.frames conn := by
  have hcontent : ∀ conns actions s,
      (machine A conns).Meets (FillsFrame conn) (start conns) actions →
      (machine A conns).run actions = some s →
      (s.frames conn).map frameContent = s.frames conn := by
    intro conns actions s hfills hrun
    have hinit : ∀ frame ∈ (machine A conns).init.frames conn, frameContent frame = frame :=
      fun frame hframe => (not_mem_nil hframe).elim
    have hall := Machine.run_invariant hinit
      (fun s a s' hs ha hstep => frameContent_of_fills hs ha hstep) hfills hrun
    exact (map_congr_left hall).trans (map_id _)
  rw [← hcontent conns actions s hfills hrun, ← hcontent conns' actions' s' hfills' hrun']
  exact frameContents_eq hsame hrun hrun'

/-! ### Samples -/

instance (conn : Nat) (s : Node) (a : NodeAction) : Decidable (FillsFrame conn s a) :=
  match a with
  | .frame c _ _ _ => inferInstanceAs (Decidable (c = conn → dataMaxSize ≤ (s.unsent conn).length))
  | .write .. | .read .. => isTrue trivial

end Node

/-- A cipher that appends a tag and hides nothing. -/
def tagOnly : Aead where
  sealed _ _ plaintext := plaintext ++ replicate aeadSizeOverhead 0
  opened _ _ ciphertext :=
    if ciphertext.drop (ciphertext.length - aeadSizeOverhead) = replicate aeadSizeOverhead 0 then
      some (ciphertext.take (ciphertext.length - aeadSizeOverhead))
    else none
  length_sealed _ _ _ := by simp
  length_of_opened _ _ ciphertext plaintext h := by
    obtain ⟨htag, hplain⟩ := ite_none_right_eq_some.mp h
    cases hplain
    have hlength := congrArg length htag
    simp only [length_drop, length_replicate, length_take] at hlength ⊢
    omega
  opened_sealed _ _ plaintext := by simp

namespace PaddingSample

/-- A connection with fresh nonces. -/
def conns (_ : Nat) : SecretConnection :=
  ⟨[1], [2], [], replicate 12 0, replicate 12 0⟩

/-- One connection sends some data in one frame. -/
def sends (data : Bytes) (pick : Option Nat) : List NodeAction :=
  [.write conn data, .frame conn none pick true]

/-- The first connection sends data in the buffer of the second. -/
def afterOther (data : Bytes) : List NodeAction :=
  sends 1 (replicate 1024 42) none ++ sends 0 data (some 1)

/-- A short chunk in a new buffer, and in the one that held the data of another connection. -/
theorem frames_depend_on_others :
    (sends 0 [1] none).filterMap (NodeAction.visible 0) =
        (afterOther [1]).filterMap (NodeAction.visible 0) ∧
      ∃ s s', (machine tagOnly conns).run (sends 0 [1] none) = some s ∧
        (machine tagOnly conns).run (afterOther [1]) = some s' ∧
        s.frames 0 = [[1, 0, 0, 0, 1] ++ replicate 1023 0] ∧
        s'.frames 0 = [[1, 0, 0, 0, 1] ++ replicate 1023 42] := by
  refine ⟨rfl, ?_⟩
  have hruns : ((machine tagOnly conns).run (sends 0 [1] none)).map (fun s => s.frames 0) =
        some [[1, 0, 0, 0, 1] ++ replicate 1023 0] ∧
      ((machine tagOnly conns).run (afterOther [1])).map (fun s => s.frames 0) =
        some [[1, 0, 0, 0, 1] ++ replicate 1023 42] := by
    decide +kernel
  obtain ⟨s, hs, hframes⟩ := map_eq_some_iff.mp hruns.1
  obtain ⟨s', hs', hframes'⟩ := map_eq_some_iff.mp hruns.2
  exact ⟨s, s', hs, hs', hframes, hframes'⟩

/-- Full chunks in the same two buffers. -/
theorem frames_independent_of_others_full :
    ∃ s s', (machine tagOnly conns).run (sends 0 (replicate 1024 1) none) = some s ∧
      (machine tagOnly conns).run (afterOther (replicate 1024 1)) = some s' ∧
      (s.frames 0).length = 1 ∧ s.frames 0 = s'.frames 0 := by
  have hruns : ((machine tagOnly conns).run (sends 0 (replicate 1024 1) none)).map
          (fun s => (s.frames 0).length) = some 1 ∧
      ((machine tagOnly conns).run (afterOther (replicate 1024 1))).map
          (fun s => (s.frames 0).length) = some 1 := by
    decide +kernel
  have hsame : (sends 0 (replicate 1024 1) none).filterMap (NodeAction.visible 0) =
      (afterOther (replicate 1024 1)).filterMap (NodeAction.visible 0) :=
    rfl
  have hfills : (machine tagOnly conns).Meets (Node.FillsFrame 0) (start conns)
      (sends 0 (replicate 1024 1) none) := by
    decide +kernel
  have hfills' : (machine tagOnly conns).Meets (Node.FillsFrame 0) (start conns)
      (afterOther (replicate 1024 1)) := by
    decide +kernel
  obtain ⟨s, hs, hlength⟩ := map_eq_some_iff.mp hruns.1
  obtain ⟨s', hs', -⟩ := map_eq_some_iff.mp hruns.2
  exact ⟨s, s', hs, hs', hlength, frames_independent_of_others hsame hfills hfills' hs hs'⟩

end PaddingSample

end NimbleChain.Tendermint
