import NimbleChain.Common.Execution

/-!
# The event loop and its queue

Goroutines push events into a bounded circular buffer, and one of them, `Run`, pops and handles
them. `push` holds the mutex of the queue until it has offered a notification on an unbuffered
channel. The offer is dropped unless `Run` waits on the channel at that moment. Between an empty
`pop` and the wait `Run` holds no lock, and a notification offered in that gap is lost.
-/

namespace NimbleChain.HotStuff.EventLoop

open Common List

variable {α : Type}

/-! ### The queue -/

/-- The circular buffer; `head` and `tail` are `-1` if the queue is empty. -/
structure Queue (α : Type) where
  entries : List (Option α)
  head : Int
  tail : Int
deriving DecidableEq

variable (capacity : Nat)

/-- `newQueue`: an empty buffer with the given number of slots. -/
def newQueue : Queue α where
  entries := List.replicate capacity none
  head := -1
  tail := -1

variable (q : Queue α)

namespace Queue

/-- The slot behind a slot; the one behind the last is the first. -/
def next (slot : Int) : Int :=
  if slot + 1 = q.entries.length then 0 else slot + 1

/-- `push` up to the notification; a full queue drops its oldest entry. There is no result where
the code panics. -/
def push (entry : α) : Option (Queue α) :=
  if q.entries.length = 0 then
    none
  else
    let pos := q.next q.tail
    let head := if pos = q.head then q.next q.head else q.head
    some
      { entries := q.entries.set pos.toNat (some entry)
        head := if head = -1 then pos else head
        tail := pos }

/-- `pop`: the oldest entry, if there is one, and the queue without it. -/
def pop : Option (Option α) × Queue α :=
  if q.head = -1 then
    (none, q)
  else
    let entry := q.entries[q.head.toNat]?.join
    if q.head = q.tail then
      (some entry, { q with head := -1, tail := -1 })
    else
      (some entry, { q with head := q.next q.head })

/-- `len`: the number of entries. -/
def len : Int :=
  if q.head = -1 then 0
  else if q.head ≤ q.tail then q.tail - q.head + 1
  else q.entries.length - q.head + q.tail + 1

/-- Both indices are `-1`, or both are slots of the buffer. -/
def Valid : Prop :=
  q.head = -1 ∧ q.tail = -1 ∨
    (0 ≤ q.head ∧ q.head < q.entries.length) ∧ 0 ≤ q.tail ∧ q.tail < q.entries.length

theorem valid_newQueue : (newQueue capacity : Queue α).Valid :=
  .inl ⟨rfl, rfl⟩

variable {q : Queue α}

theorem next_mem {slot : Int} (hlow : -1 ≤ slot) (hhigh : slot < q.entries.length)
    (hpos : q.entries.length ≠ 0) : 0 ≤ q.next slot ∧ q.next slot < q.entries.length := by
  unfold next
  split <;> omega

/-- A push leaves a valid queue that is not empty. -/
theorem push_valid {q' : Queue α} {entry : α} (hq : q.Valid) (h : q.push entry = some q') :
    q'.Valid ∧ q'.head ≠ -1 := by
  unfold push at h
  split at h
  · cases h
  · rename_i hpos
    have htail : 0 ≤ q.next q.tail ∧ q.next q.tail < q.entries.length := by
      rcases hq with hq | hq
      · exact next_mem (by omega) (by omega) hpos
      · exact next_mem (by omega) hq.2.2 hpos
    have hhead : q.head = -1 ∨ 0 ≤ q.next q.head ∧ q.next q.head < q.entries.length := by
      rcases hq with hq | hq
      · exact .inl hq.1
      · exact .inr (next_mem (by omega) hq.1.2 hpos)
    cases h
    simp only [Valid, List.length_set]
    rcases hq with hq | hq <;> split <;> split <;> omega

theorem pop_valid (hq : q.Valid) : q.pop.2.Valid := by
  unfold pop
  split
  · exact hq
  · rename_i hne
    have hslot : (0 ≤ q.head ∧ q.head < q.entries.length) ∧
        0 ≤ q.tail ∧ q.tail < q.entries.length :=
      hq.resolve_left fun hempty => hne hempty.1
    split
    · exact .inl ⟨rfl, rfl⟩
    · exact .inr ⟨next_mem (by omega) hslot.1.2 (by omega), hslot.2⟩

/-- A pop fails only on the empty queue. -/
theorem pop_eq_none (h : q.pop.1 = none) : q.head = -1 := by
  unfold pop at h
  split at h
  · assumption
  · split at h <;> cases h

theorem len_ne_zero_iff (hq : q.Valid) : q.len ≠ 0 ↔ q.head ≠ -1 := by
  unfold len
  split
  · simp [*]
  · rcases hq with hq | hq <;> split <;> omega

/-! ### The queue as a list -/

/-- The slot that is some places behind a slot of a buffer. -/
def slot (size start i : Nat) : Nat :=
  if start + i < size then start + i else start + i - size

/-- The entries from the head on. -/
def contents (q : Queue α) : List (Option α) :=
  (range q.len.toNat).map fun i => q.entries[slot q.entries.length q.head.toNat i]?.join

/-- The operations of the queue. -/
inductive Op (α : Type) where
  | push (entry : α)
  | pop

/-- What the pops have returned after some operations, and the queue. -/
def run (q : Queue α) : List (Op α) → Option (List (Option (Option α)) × Queue α)
  | [] => some ([], q)
  | .push entry :: ops => (q.push entry).bind fun q' => run q' ops
  | .pop :: ops => (run q.pop.2 ops).map fun r => (q.pop.1 :: r.1, r.2)

/-- The ideal queue: a list of which only the last entries are kept, as many as fit. -/
def ideal (capacity : Nat) (xs : List α) : List (Op α) → List (Option α) × List α
  | [] => ([], xs)
  | .push entry :: ops => ideal capacity ((xs ++ [entry]).drop (xs.length + 1 - capacity)) ops
  | .pop :: ops => (xs.head? :: (ideal capacity xs.tail ops).1, (ideal capacity xs.tail ops).2)

/-- A queue with `size` slots holds the entries of a list, the oldest one in the slot `start`. -/
structure Holds (q : Queue α) (size start : Nat) (xs : List α) : Prop where
  length_eq : q.entries.length = size
  start_lt : start < size
  length_le : xs.length ≤ size
  empty : xs = [] → start = 0 ∧ q.head = -1 ∧ q.tail = -1
  ends : xs ≠ [] → q.head = start ∧ q.tail = slot size start (xs.length - 1)
  entry : ∀ {i x}, xs[i]? = some x → q.entries[slot size start i]? = some (some x)

section Slots

variable {size start : Nat} (hstart : start < size) {i j : Nat}
include hstart

theorem slot_zero : slot size start 0 = start :=
  if_pos hstart

theorem slot_add (h : i + j ≤ size) :
    slot size (slot size start i) j = slot size start (i + j) := by
  unfold slot
  split_ifs <;> omega

theorem slot_lt (hi : i ≤ size) : slot size start i < size := by
  unfold slot
  split <;> omega

theorem slot_eq_iff (hij : i ≤ j) (hj : j ≤ size) :
    slot size start i = slot size start j ↔ i = j ∨ i = 0 ∧ j = size := by
  unfold slot
  split_ifs <;> omega

theorem next_slot (hsize : q.entries.length = size) (hi : i < size) :
    q.next (slot size start i) = slot size start (i + 1) := by
  unfold next slot
  split_ifs <;> omega

end Slots

namespace Holds

variable {xs : List α} {size start : Nat} (h : q.Holds size start xs)
include h

theorem len_eq : q.len = xs.length := by
  obtain ⟨hsize, hstart, hle, hempty, hends, -⟩ := h
  by_cases hxs : xs = []
  · simp [len, hxs, (hempty hxs).2]
  · have hpos := length_pos_iff.mpr hxs
    rw [len, (hends hxs).1, (hends hxs).2, if_neg (by omega)]
    unfold slot
    split_ifs <;> omega

theorem contents_eq : q.contents = xs.map some := by
  refine ext_getElem? fun i => ?_
  rw [contents, h.len_eq, h.length_eq, Int.toNat_natCast, getElem?_map, getElem?_map]
  rcases Nat.lt_or_ge i xs.length with hlt | hge
  · rw [getElem?_range hlt, (h.ends (ne_nil_of_length_pos (by omega))).1, Option.map_some,
      Int.toNat_natCast, h.entry (getElem?_eq_getElem hlt), getElem?_eq_getElem hlt]
    rfl
  · rw [getElem?_eq_none (by simpa using hge), getElem?_eq_none hge]
    rfl

/-- A push writes the slot behind the last entry, and moves the head if the queue is full. -/
theorem push_eq (entry : α) :
    q.push entry = some
      { entries := q.entries.set (slot size start xs.length) (some entry)
        head := slot size start (xs.length + 1 - size)
        tail := slot size start xs.length } := by
  obtain ⟨hsize, hstart, hle, hempty, hends, -⟩ := h
  rw [Queue.push, if_neg (by omega)]
  by_cases hxs : xs = []
  · obtain ⟨rfl, hhead, htail⟩ := hempty hxs
    have hdrop : 0 + 1 - size = 0 := by omega
    simp [hxs, next, hhead, htail, slot_zero hstart, hdrop, hsize]
  · have hpos := length_pos_iff.mpr hxs
    have hfull := slot_eq_iff hstart (Nat.zero_le _) hle
    rw [slot_zero hstart] at hfull
    have hnext : q.next q.tail = slot size start xs.length := by
      rw [(hends hxs).2, next_slot hstart hsize (by omega), Nat.sub_add_cancel hpos]
    have hmoved : (if slot size start xs.length = q.head then q.next q.head else q.head) =
        slot size start (xs.length + 1 - size) := by
      rw [(hends hxs).1]
      split
      · have hlast : xs.length + 1 - size = 0 + 1 := by omega
        rw [hlast, ← next_slot hstart hsize (by omega), slot_zero hstart]
      · have hfits : xs.length + 1 - size = 0 := by omega
        rw [hfits, slot_zero hstart]
    simp only [hnext, hmoved]
    rw [if_neg (by omega), Int.toNat_natCast]

/-- A push appends an entry; a full queue drops the oldest one. -/
theorem push (entry : α) : ∃ q' start', q.push entry = some q' ∧
    q'.Holds size start' ((xs ++ [entry]).drop (xs.length + 1 - size)) := by
  have hstart := h.start_lt
  have hle := h.length_le
  obtain ⟨d, hd⟩ : ∃ d, d = xs.length + 1 - size := ⟨_, rfl⟩
  have hlength : ((xs ++ [entry]).drop d).length = xs.length + 1 - d := by simp
  refine ⟨_, slot size start d, h.push_eq entry, ?_⟩
  rw [← hd]
  refine ⟨?_, slot_lt hstart (by omega), ?_, ?_, ?_, ?_⟩
  · rw [length_set, h.length_eq]
  · omega
  · intro hnil
    rw [hnil, length_nil] at hlength
    omega
  · intro _
    rw [hlength, slot_add hstart (by omega)]
    exact ⟨rfl, congrArg (fun i => (slot size start i : Int)) (by omega)⟩
  · intro i x hx
    rw [getElem?_drop] at hx
    have hi := (List.getElem_of_getElem? hx).1
    rw [length_append, length_singleton] at hi
    rw [slot_add hstart (by omega), getElem?_set]
    rcases Nat.lt_or_ge (d + i) xs.length with hlt | hge
    · have hne := (slot_eq_iff hstart (Nat.le_of_lt hlt) hle).not.mpr (by omega)
      rw [getElem?_append_left hlt] at hx
      rw [if_neg (Ne.symm hne), h.entry hx]
    · obtain rfl : x = entry := by
        rw [getElem?_append_right hge] at hx
        obtain ⟨-, rfl⟩ := List.getElem_of_getElem? hx
        exact getElem_singleton ..
      rw [Nat.le_antisymm (Nat.le_of_lt_succ hi) hge, if_pos rfl, h.length_eq,
        if_pos (slot_lt hstart hle)]

/-- A pop returns the oldest entry. -/
theorem pop : q.pop.1 = xs.head?.map some ∧ ∃ start', q.pop.2.Holds size start' xs.tail := by
  obtain ⟨hsize, hstart, hle, hempty, hends, hentry⟩ := h
  cases xs with
  | nil =>
    have hpop : q.pop = (none, q) := if_pos (hempty rfl).2.1
    rw [hpop]
    exact ⟨rfl, start, hsize, hstart, hle, hempty, hends, hentry⟩
  | cons x xs =>
    obtain ⟨hhead, htail⟩ := hends (cons_ne_nil x xs)
    have hfirst := hentry (i := 0) rfl
    rw [length_cons] at hle
    rw [length_cons, Nat.add_sub_cancel] at htail
    have hlast := slot_eq_iff hstart (Nat.zero_le xs.length) (by omega)
    rw [slot_zero hstart] at hfirst hlast
    rw [Queue.pop, if_neg (by omega), hhead, Int.toNat_natCast, hfirst]
    dsimp only [head?_cons, Option.map_some, Option.join_some, tail_cons]
    split
    · obtain rfl : xs = [] := length_eq_zero_iff.mp (by omega)
      exact ⟨rfl, 0, hsize, by omega, by simp, by simp, by simp, by simp⟩
    · have hn : 1 ≤ xs.length := by omega
      have hmoved : q.next start = slot size start 1 := by
        rw [← next_slot hstart hsize (by omega), slot_zero hstart]
      refine ⟨rfl, slot size start 1, hsize, slot_lt hstart (by omega), by omega, ?_, ?_, ?_⟩
      · intro hnil
        simp [hnil] at hn
      · intro _
        rw [slot_add hstart (by omega), Nat.add_sub_cancel' hn]
        exact ⟨hmoved, htail⟩
      · intro i x hx
        have hi := (List.getElem_of_getElem? hx).1
        rw [slot_add hstart (by omega), Nat.add_comm]
        exact hentry hx

/-- From a queue that holds a list, the operations return what the ideal queue returns. -/
theorem run (ops : List (Op α)) :
    ∃ q' start', q.run ops = some ((ideal size xs ops).1.map (Option.map some), q') ∧
      q'.Holds size start' (ideal size xs ops).2 := by
  induction ops generalizing q xs start with
  | nil => exact ⟨q, start, rfl, h⟩
  | cons op ops ih =>
    cases op with
    | push entry =>
      obtain ⟨q', start', hpush, hholds⟩ := h.push entry
      rw [Queue.run, hpush]
      exact ih hholds
    | pop =>
      obtain ⟨hpop, start', hholds⟩ := h.pop
      obtain ⟨q', start', hrun, hfinal⟩ := ih hholds
      rw [Queue.run, hrun, hpop]
      exact ⟨q', start', rfl, hfinal⟩

end Holds

/-- For every capacity above zero, the queue and the ideal queue return the same from their pops and
hold the same entries. -/
theorem queue_is_bounded_fifo (hcapacity : 1 ≤ capacity) (ops : List (Op α)) :
    ∃ q, (newQueue capacity).run ops = some ((ideal capacity [] ops).1.map (Option.map some), q) ∧
      q.contents = (ideal capacity [] ops).2.map some ∧
      q.len = (ideal capacity [] ops).2.length := by
  have hempty : (newQueue capacity : Queue α).Holds capacity 0 [] :=
    ⟨length_replicate, hcapacity, by simp, fun _ => ⟨rfl, rfl, rfl⟩, by simp, by simp⟩
  obtain ⟨q, start, hrun, hholds⟩ := hempty.run ops
  exact ⟨q, hrun, hholds.contents_eq, hholds.len_eq⟩

theorem queue_is_bounded_fifo_one :
    ∃ q, (newQueue 1).run [.push 5, .push 7, .pop, .pop] = some ([some (some 7), none], q) ∧
      q.len = 0 := by
  obtain ⟨q, hrun, -, hlen⟩ :=
    queue_is_bounded_fifo 1 (by decide) [.push 5, .push 7, .pop, .pop]
  exact ⟨q, hrun, hlen⟩

end Queue

open Queue

/-! ### The loop -/

/-- Where `Run` is: before a pop, between an empty pop and the select, in the select, in the
handlers, behind the loop, before the given number of last pops, or at its end. -/
inductive Phase (α : Type) where
  | popping
  | emptied
  | waiting
  | processing (event : Option α)
  | counting
  | draining (left : Nat)
  | stopped
deriving DecidableEq

/-- The queue, whether a goroutine holds its mutex between writing an entry and offering the
notification, the place of `Run`, and whether its context was cancelled. -/
structure State (α : Type) where
  queue : Queue α
  pushing : Bool
  phase : Phase α
  cancelled : Bool
deriving DecidableEq

open State

/-- The atomic steps: of the goroutines that push (`write` and `send`), of whoever cancels the
context, and of `Run`. -/
inductive Action (α : Type) where
  | write (entry : α)
  | send
  | cancel
  | pop
  | wait
  | handle
  | quit
  | count
  | drain
deriving DecidableEq

variable (s : State α)

/-- The successor under an action, if it is enabled. The queue is accessed only while no other
goroutine holds its mutex. Handlers may push while they run. -/
def step : Action α → Option (State α)
  | .write entry =>
    if s.pushing then none
    else (s.queue.push entry).map fun queue => { s with queue := queue, pushing := true }
  | .send =>
    if s.pushing then
      -- The channel has no buffer: only a receiver that already waits takes the notification.
      match s.phase with
      | .waiting => some { s with pushing := false, phase := .popping }
      | _ => some { s with pushing := false }
    else none
  | .cancel => some { s with cancelled := true }
  | .pop =>
    match s.phase with
    | .popping =>
      if s.pushing then none
      else
        match s.queue.pop with
        | (none, queue) => some { s with queue := queue, phase := .emptied }
        | (some event, queue) => some { s with queue := queue, phase := .processing event }
    | _ => none
  | .wait =>
    match s.phase with
    | .emptied => some { s with phase := .waiting }
    | _ => none
  | .handle =>
    match s.phase with
    | .processing _ => some { s with phase := .popping }
    | _ => none
  | .quit =>
    match s.phase with
    | .waiting => if s.cancelled then some { s with phase := .counting } else none
    | _ => none
  | .count =>
    match s.phase with
    | .counting =>
      if s.pushing then none else some { s with phase := .draining s.queue.len.toNat }
    | _ => none
  | .drain =>
    match s.phase with
    | .draining 0 => some { s with phase := .stopped }
    | .draining (left + 1) =>
      if s.pushing then none
      else some { s with queue := s.queue.pop.2, phase := .draining left }
    | _ => none

/-- The event loop with a queue of the given capacity. -/
def machine (α : Type) (capacity : Nat) : Machine (State α) (Action α) where
  init := { queue := newQueue capacity, pushing := false, phase := .popping, cancelled := false }
  step := step

/-- `Run` has an enabled step. -/
def State.runEnabled : Bool :=
  [Action.pop, .wait, .handle, .quit, .count, .drain].any fun action => (step s action).isSome

/-- `Run` has an enabled step, at the latest after the notification that is about to be offered. -/
def State.live : Bool :=
  s.runEnabled || (step s .send).any runEnabled

/-- `Run` is in its select, and nothing is under way that ends the wait. -/
def State.Blocked : Prop :=
  s.phase = .waiting ∧ s.pushing = false ∧ s.cancelled = false

/-- No notification is offered between an empty pop and the wait behind it. -/
def SendOutsideGap (action : Action α) : Prop :=
  action = .send → s.phase ≠ .emptied

/-- Until it stops, `Run` is stuck only in its select. -/
theorem live_iff_not_blocked {s : State α} (hstopped : s.phase ≠ .stopped) :
    s.live = true ↔ ¬ s.Blocked := by
  obtain ⟨queue, pushing, phase, cancelled⟩ := s
  have hpop : (step (mk queue false .popping cancelled) .pop).isSome = true := by
    simp only [step, Bool.false_eq_true, if_false]
    split <;> rfl
  cases phase with
  | stopped => exact absurd rfl hstopped
  | popping =>
    cases pushing with
    | false => simp [live, State.Blocked, runEnabled, hpop]
    | true => simp [live, State.Blocked, runEnabled, hpop, step.eq_2]
  | emptied => simp [live, State.Blocked, runEnabled, step]
  | waiting =>
    cases pushing with
    | false => cases cancelled <;> simp [live, State.Blocked, runEnabled, step]
    | true => simp [live, State.Blocked, runEnabled, hpop, step.eq_2]
  | processing event => simp [live, State.Blocked, runEnabled, step]
  | counting => cases pushing <;> simp [live, State.Blocked, runEnabled, step]
  | draining left =>
    cases pushing <;> cases left <;> simp [live, State.Blocked, runEnabled, step]

/-! ### What holds in every run -/

/-- The queue is valid, and not empty while a notification is about to be offered. -/
structure Sane (s : State α) : Prop where
  valid : s.queue.Valid
  written : s.pushing = true → s.queue.head ≠ -1

/-- After an empty pop the queue stays empty, except while an entry was written whose notification
is still to come. -/
def Noticed : Prop :=
  s.phase = .emptied ∨ s.phase = .waiting → s.pushing = false → s.queue.head = -1

/-- Every step keeps the first, and a step outside the gap keeps the second. -/
theorem step_keeps {s s' : State α} {action : Action α} (hs : Sane s)
    (h : step s action = some s') :
    Sane s' ∧ (SendOutsideGap s action → Noticed s → Noticed s') := by
  cases action with
  | write entry =>
    simp only [step] at h
    split at h
    · cases h
    · obtain ⟨queue, hpush, rfl⟩ := Option.map_eq_some_iff.mp h
      have hvalid := push_valid hs.valid hpush
      exact ⟨⟨hvalid.1, fun _ => hvalid.2⟩, fun _ _ => nofun⟩
  | send =>
    simp only [step] at h
    split at h
    · split at h
      · cases h
        exact ⟨⟨hs.valid, nofun⟩, fun _ _ => nofun⟩
      · rename_i hwaiting
        cases h
        refine ⟨⟨hs.valid, nofun⟩, fun hgap _ hphase => ?_⟩
        exact hphase.elim (absurd · (hgap rfl)) (absurd · hwaiting)
    · cases h
  | cancel =>
    cases h
    exact ⟨⟨hs.valid, hs.written⟩, fun _ => id⟩
  | pop =>
    have hvalid := pop_valid hs.valid
    simp only [step] at h
    split at h
    · split at h
      · cases h
      · rename_i hpushing
        split at h <;> rename_i heq <;> rw [heq] at hvalid <;> cases h
        · refine ⟨⟨hvalid, fun hp => absurd hp hpushing⟩, fun _ _ _ _ => ?_⟩
          have hempty : s.queue.head = -1 := pop_eq_none (by rw [heq])
          simpa [pop, hempty] using congrArg (fun r => r.2.head) heq.symm
        · exact ⟨⟨hvalid, fun hp => absurd hp hpushing⟩, fun _ _ => nofun⟩
    · cases h
  | wait =>
    simp only [step] at h
    split at h <;> rename_i hphase <;> cases h
    exact ⟨⟨hs.valid, hs.written⟩, fun _ hnoticed _ => hnoticed (.inl hphase)⟩
  | handle =>
    simp only [step] at h
    split at h <;> cases h
    exact ⟨⟨hs.valid, hs.written⟩, fun _ _ => nofun⟩
  | quit =>
    simp only [step] at h
    split at h
    · split at h <;> cases h
      exact ⟨⟨hs.valid, hs.written⟩, fun _ _ => nofun⟩
    · cases h
  | count =>
    simp only [step] at h
    split at h
    · split at h <;> cases h
      exact ⟨⟨hs.valid, hs.written⟩, fun _ _ => nofun⟩
    · cases h
  | drain =>
    simp only [step] at h
    split at h
    · cases h
      exact ⟨⟨hs.valid, hs.written⟩, fun _ _ => nofun⟩
    · split at h
      · cases h
      · rename_i hpushing
        cases h
        exact ⟨⟨pop_valid hs.valid, fun hp => absurd hp hpushing⟩, fun _ _ => nofun⟩
    · cases h

theorem init_sane : Sane (machine α capacity).init :=
  ⟨valid_newQueue capacity, fun h => Bool.noConfusion h⟩

theorem init_noticed : Noticed (machine α capacity).init :=
  fun hphase => hphase.elim nofun nofun

/-- Without notifications in the gap, `Run` is never stuck while there are events; a notification
offered in the gap leaves it stuck as soon as it waits. -/
theorem run_live_of_send_outside_gap {capacity : Nat} {actions : List (Action α)} {s : State α}
    (hrun : (machine α capacity).run actions = some s) :
    ((machine α capacity).Meets SendOutsideGap (machine α capacity).init actions →
      s.queue.len ≠ 0 → s.phase ≠ .stopped → s.live = true) ∧
    (s.phase = .emptied → s.pushing = true → s.cancelled = false →
      ∃ s', (machine α capacity).runFrom s [.send, .wait] = some s' ∧
        s'.queue.len ≠ 0 ∧ s'.phase ≠ .stopped ∧ s'.live = false) := by
  have hsane : Sane s :=
    Machine.run_invariant_of_step (init_sane capacity) (fun _ _ _ hs h => (step_keeps hs h).1) hrun
  constructor
  · intro hmeets hlen hstopped
    have hnoticed : Sane s ∧ Noticed s := by
      refine Machine.run_invariant (I := fun s => Sane s ∧ Noticed s)
        ⟨init_sane capacity, init_noticed capacity⟩ (fun s action s' hs hgap h => ?_) hmeets hrun
      have hkeeps := step_keeps hs.1 h
      exact ⟨hkeeps.1, hkeeps.2 hgap hs.2⟩
    rw [live_iff_not_blocked hstopped]
    intro hblocked
    have hempty := hnoticed.2 (.inr hblocked.1) hblocked.2.1
    exact (len_ne_zero_iff hsane.valid).mp hlen hempty
  · intro hphase hpushing hcancelled
    have hlen := (len_ne_zero_iff hsane.valid).mpr (hsane.written hpushing)
    have hrest : (machine α capacity).runFrom s [.send, .wait] =
        some { s with pushing := false, phase := .waiting } := by
      simp [Machine.runFrom, machine, step, hphase, hpushing]
    have hrunning : (Phase.waiting : Phase α) ≠ .stopped := by simp
    refine ⟨_, hrest, hlen, hrunning, ?_⟩
    rw [← Bool.not_eq_true, live_iff_not_blocked hrunning]
    exact fun hlive => hlive ⟨rfl, rfl, hcancelled⟩

/-- A push between the empty pop and the wait: the queue holds an event, and nothing wakes up
`Run`. -/
theorem notification_lost_in_gap :
    ∃ s, (machine Nat 2).run [.pop, .write 7, .send, .wait] = some s ∧
      s.queue.len = 1 ∧ s.phase = .waiting ∧ s.live = false :=
  ⟨_, rfl, by decide, rfl, by decide⟩

/-- The same push after the wait has begun is noticed. -/
theorem run_live_of_send_outside_gap_after_wait :
    ∃ s, (machine Nat 2).run [.pop, .wait, .write 7, .send] = some s ∧
      s.queue.len = 1 ∧ s.live = true := by
  have hrun : (machine Nat 2).run [.pop, .wait, .write 7, .send] =
      some ⟨⟨[some 7, none], 0, 0⟩, false, .popping, false⟩ :=
    rfl
  have hmeets : (machine Nat 2).Meets SendOutsideGap (machine Nat 2).init
      [.pop, .wait, .write 7, .send] := by
    simp [Machine.Meets, SendOutsideGap, machine, newQueue, step, pop, push]
  exact ⟨_, hrun, rfl, (run_live_of_send_outside_gap hrun).1 hmeets (by decide) (by decide)⟩

end NimbleChain.HotStuff.EventLoop
