import Mathlib

/-!
# Messages of several senders in a channel

Senders, numbered from zero, each send a list of messages into one buffered channel, and a receiver
reads as many messages as there are senders. The messages of one sender arrive in order; otherwise
they are interleaved in any way.
-/

namespace NimbleChain.Common.Channel

open List Prod Function

variable {α : Type}

/-- The messages that arrive if the senders have their turns in the given order; one without further
messages is passed over. -/
def arrivals (queues : Nat → List α) : List Nat → List (Nat × α)
  | [] => []
  | i :: order =>
    match queues i with
    | [] => arrivals queues order
    | a :: rest => (i, a) :: arrivals (update queues i rest) order

/-- Read `n` messages of `n` senders; after the given order each sender has one more turn. -/
def receive (n : Nat) (order : List Nat) (queues : Nat → List α) : List (Nat × α) :=
  (arrivals queues (order ++ List.range n)).take n

/-- What one sender contributed. -/
def ofSender (i : Nat) (received : List (Nat × α)) : List α :=
  (received.filter (·.1 = i)).map snd

@[simp] theorem ofSender_cons_self (i : Nat) (a : α) (received : List (Nat × α)) :
    ofSender i ((i, a) :: received) = a :: ofSender i received := by
  simp [ofSender]

variable {i : Nat} {received : List (Nat × α)} {queues : Nat → List α}

theorem ofSender_cons_of_ne {j : Nat} (h : j ≠ i) (a : α) (received : List (Nat × α)) :
    ofSender i ((j, a) :: received) = ofSender i received := by
  simp [ofSender, h]

theorem mem_ofSender {a : α} : a ∈ ofSender i received ↔ (i, a) ∈ received := by
  simp [ofSender]

theorem ofSender_eq_nil_iff : ofSender i received = [] ↔ i ∉ received.map fst := by
  rw [eq_nil_iff_forall_not_mem]
  simp [mem_ofSender]

/-- No sender is heard twice if each one contributed one message at most. -/
theorem nodup_senders_iff : (received.map fst).Nodup ↔ ∀ i, (ofSender i received).length ≤ 1 := by
  rw [nodup_iff_count_le_one]
  refine forall_congr' fun i => ?_
  rw [ofSender, length_map, count_eq_countP, countP_map, countP_eq_length_filter]
  rfl

/-- A reception: the right number of messages, those of each sender in order. -/
structure Reception (n : Nat) (queues : Nat → List α) (received : List (Nat × α)) : Prop where
  length : received.length = n
  inOrder : ∀ i, ofSender i received <+: queues i

theorem arrivals_inOrder (queues : Nat → List α) (order : List Nat) (i : Nat) :
    ofSender i (arrivals queues order) <+: queues i := by
  induction order generalizing queues with
  | nil => exact nil_prefix
  | cons j order ih =>
    rw [arrivals]
    split
    · exact ih queues
    · rename_i a rest hqueue
      by_cases hij : j = i
      · subst hij
        have hrest := ih (update queues j rest)
        rw [update_self] at hrest
        rw [ofSender_cons_self, hqueue]
        exact cons_prefix_cons.mpr ⟨rfl, hrest⟩
      · have hrest := ih (update queues j rest)
        rw [update_of_ne (Ne.symm hij)] at hrest
        rw [ofSender_cons_of_ne hij]
        exact hrest

/-- A sender with a message contributes at its turn, if not before. -/
theorem mem_senders_arrivals {order : List Nat} (hqueue : queues i ≠ []) (hi : i ∈ order) :
    i ∈ (arrivals queues order).map fst := by
  induction order generalizing queues with
  | nil => exact absurd hi (by simp)
  | cons j order ih =>
    rw [arrivals]
    by_cases hij : j = i
    · subst hij
      split
      · rename_i hnil
        exact absurd hnil hqueue
      · exact mem_cons_self
    · have hlater := (mem_cons.mp hi).resolve_left (Ne.symm hij)
      split
      · exact ih hqueue hlater
      · refine mem_cons_of_mem _ (ih ?_ hlater)
        rw [update_of_ne (Ne.symm hij)]
        exact hqueue

/-- Messages that keep the order of each sender arrive if the senders have their turns in the order
of the messages. -/
theorem arrivals_eq (later : List Nat) (h : ∀ i, ofSender i received <+: queues i) :
    ∃ queues', arrivals queues (received.map fst ++ later) =
      received ++ arrivals queues' later := by
  induction received generalizing queues with
  | nil => exact ⟨queues, rfl⟩
  | cons e received ih =>
    obtain ⟨i, a⟩ := e
    have hi := h i
    rw [ofSender_cons_self] at hi
    obtain ⟨rest, hqueue⟩ : ∃ rest, queues i = a :: rest := by
      cases hqueue : queues i with
      | nil => rw [hqueue] at hi; exact absurd hi (by simp)
      | cons b rest =>
        rw [hqueue] at hi
        exact ⟨rest, by rw [(cons_prefix_cons.mp hi).1]⟩
    rw [hqueue] at hi
    obtain ⟨queues', hqueues'⟩ := @ih (update queues i rest) (by
      intro j
      by_cases hij : j = i
      · subst hij
        rw [update_self]
        exact (cons_prefix_cons.mp hi).2
      · rw [update_of_ne hij]
        have hj := h j
        rwa [ofSender_cons_of_ne (Ne.symm hij)] at hj)
    refine ⟨queues', ?_⟩
    rw [map_cons, cons_append, arrivals, hqueue]
    exact congrArg _ hqueues'

section Receive

variable {n : Nat} {queues : Nat → List α} {received : List (Nat × α)}

theorem receive_reception (hsends : ∀ i < n, queues i ≠ []) (order : List Nat) :
    Reception n queues (receive n order queues) := by
  constructor
  · have hsub : range n ⊆ (arrivals queues (order ++ range n)).map fst := by
      intro i hi
      exact mem_senders_arrivals (hsends i (mem_range.mp hi)) (mem_append_right _ hi)
    have hle := (nodup_range.subperm hsub).length_le
    rw [length_range, length_map] at hle
    rw [receive, length_take, Nat.min_eq_left hle]
  · intro i
    have hsplit := arrivals_inOrder queues (order ++ range n) i
    rw [← take_append_drop n (arrivals queues (order ++ range n)), ofSender,
      filter_append, map_append] at hsplit
    exact (prefix_append _ _).trans hsplit

variable (h : Reception n queues received)

include h

/-- Every reception is read along some order of the senders. -/
theorem Reception.exists_order : ∃ order, receive n order queues = received := by
  obtain ⟨queues', hqueues'⟩ := arrivals_eq (range n) h.inOrder
  refine ⟨received.map fst, ?_⟩
  rw [receive, hqueues', take_append_of_le_length h.length.ge, take_of_length_le h.length.le]

theorem Reception.sender_lt (hnone : ∀ i, n ≤ i → queues i = []) {i : Nat}
    (hi : i ∈ received.map fst) : i < n := by
  by_contra hle
  have hprefix := h.inOrder i
  rw [hnone i (Nat.not_lt.mp hle), prefix_nil, ofSender_eq_nil_iff] at hprefix
  exact hprefix hi

/-- The first message of a sender that is heard is among those that are read. -/
theorem Reception.mem_head {i : Nat} {a : α} {rest : List α} (hqueue : queues i = a :: rest)
    (hi : i ∈ received.map fst) : (i, a) ∈ received := by
  have hprefix := h.inOrder i
  have hne : ofSender i received ≠ [] := mt ofSender_eq_nil_iff.mp (not_not.mpr hi)
  rw [hqueue] at hprefix
  cases hsent : ofSender i received with
  | nil => exact absurd hsent hne
  | cons b sent =>
    rw [hsent] at hprefix
    obtain ⟨rfl, -⟩ := cons_prefix_cons.mp hprefix
    exact mem_ofSender.mp (hsent ▸ mem_cons_self)

/-- All senders are heard exactly if none of them is heard twice. -/
theorem Reception.all_heard_iff_nodup (hnone : ∀ i, n ≤ i → queues i = []) :
    (∀ i < n, i ∈ received.map fst) ↔ (received.map fst).Nodup := by
  have hlength : (received.map fst).length = n := by rw [length_map, h.length]
  have hsub : (received.map fst).toFinset ⊆ Finset.range n := by
    intro i hi
    exact Finset.mem_range.mpr (h.sender_lt hnone (mem_toFinset.mp hi))
  constructor
  · intro hall
    have heq : (received.map fst).toFinset = Finset.range n := by
      refine Finset.Subset.antisymm hsub fun i hi => ?_
      exact mem_toFinset.mpr (hall i (Finset.mem_range.mp hi))
    rw [← Multiset.coe_nodup, ← Multiset.toFinset_card_eq_card_iff_nodup]
    change (received.map fst).toFinset.card = (received.map fst).length
    rw [heq, Finset.card_range, hlength]
  · intro hnodup i hi
    have hcard : (received.map fst).toFinset.card = n := by
      rw [toFinset_card_of_nodup hnodup, hlength]
    have heq := Finset.eq_of_subset_of_card_le hsub (by rw [Finset.card_range, hcard])
    exact mem_toFinset.mp (heq ▸ Finset.mem_range.mpr hi)

/-- A sender that is heard once is heard with its first message. -/
theorem Reception.head_of_nodup (hnodup : (received.map fst).Nodup) {i : Nat} {a : α}
    (hmem : (i, a) ∈ received) : ∃ rest, queues i = a :: rest := by
  have hsingle : ofSender i received = [a] := by
    have hle := nodup_senders_iff.mp hnodup i
    have hne : ofSender i received ≠ [] := ne_nil_of_mem (mem_ofSender.mpr hmem)
    match hlist : ofSender i received, hle, hne with
    | [b], _, _ =>
      have hb := mem_ofSender.mpr hmem
      rw [hlist, mem_singleton] at hb
      rw [hb]
  have hprefix := h.inOrder i
  rw [hsingle] at hprefix
  obtain ⟨rest, hrest⟩ := hprefix
  exact ⟨rest, hrest.symm⟩

end Receive

end NimbleChain.Common.Channel
