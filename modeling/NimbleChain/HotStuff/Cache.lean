import NimbleChain.HotStuff.CryptoBase
import NimbleChain.Common.RecencyList

/-!
# The signature cache

`crypto/cache.go` wraps a `CryptoBase` and remembers the keys of accepted signatures in LRU order.
A verification whose key is remembered is accepted without asking the wrapped implementation. A
cached run agrees with that implementation exactly when no call is a false hit.
-/

namespace NimbleChain.HotStuff

open Common List

/-- `cache`. The map `entries` has exactly the keys of `accessOrder`, most recent first, each with
its list element, so the list stands for both. -/
structure Cache where
  capacity : Int
  accessOrder : List Bytes
  nodup_accessOrder : accessOrder.Nodup

variable {Sig : Type} (cache : Cache) (key : Bytes) (S : Primitives Sig)

namespace Cache

/-- `NewCache`. -/
def new (capacity : Int) : Cache :=
  ⟨capacity, [], nodup_nil⟩

/-- `accessOrder.MoveToFront` of a present key. -/
def moveToFront : Cache where
  capacity := cache.capacity
  accessOrder := key :: cache.accessOrder.erase key
  nodup_accessOrder := nodup_cons.mpr
    ⟨cache.nodup_accessOrder.not_mem_erase, cache.nodup_accessOrder.erase key⟩

/-- `evict`: at the capacity the last key goes. Removing from an empty list dereferences the nil
`Back()`. -/
def evict : Option Cache :=
  if (cache.accessOrder.length : Int) < cache.capacity then some cache
  else if cache.accessOrder = [] then none
  else some
    { capacity := cache.capacity
      accessOrder := cache.accessOrder.dropLast
      nodup_accessOrder := cache.nodup_accessOrder.sublist (dropLast_sublist _) }

/-- `insert`. After `evict`, pushing an absent key to the front is the same as moving it there. -/
def insert : Option Cache :=
  if key ∈ cache.accessOrder then some (cache.moveToFront key)
  else cache.evict.map fun cache => cache.moveToFront key

/-- `check`. -/
def check : Bool × Cache :=
  if key ∈ cache.accessOrder then (true, cache.moveToFront key) else (false, cache)

/-- The key that all operations build: a hash followed by the signature's bytes. -/
def keyOf (hash : Hash) (signature : Sig) : Bytes :=
  hash.bytes ++ S.sigToBytes signature

/-- The hash in the key of `BatchVerify`. `hasher.Sum(hash[:])` appends the digest of the messages
to a full slice and returns it, and the result is dropped: `hash` keeps its zero value. -/
def batchHash (batch : IDMap Bytes) : Hash :=
  let ids := batch.keys.insertionSort (· ≤ ·)
  let written := ids.flatMap fun id => (batch.get? id).getD []
  let _digest := S.sum256 written
  Hash.zero

variable (S : Primitives Sig) (impl : CryptoBase Sig) (cache : Cache) (signature : Sig)
  (message : Bytes)

/-- `Sign`. -/
def sign : Option (Except CryptoError Sig × Cache) :=
  match impl.sign message with
  | .error err => some (.error err, cache)
  | .ok sig => (cache.insert (keyOf S (S.sum256 message) sig)).map fun cache => (.ok sig, cache)

/-- The common course of `Verify` and `BatchVerify`: `accepted` is what the implementation says. -/
def verifyWithKey (key : Bytes) (accepted : Bool) : Option (Bool × Cache) :=
  match cache.check key with
  | (true, cache) => some (true, cache)
  | (false, cache) =>
    if accepted then (cache.insert key).map fun cache => (true, cache) else some (false, cache)

/-- `Verify`. -/
def verify : Option (Bool × Cache) :=
  cache.verifyWithKey (keyOf S (S.sum256 message) signature) (impl.verify signature message)

/-- `BatchVerify`. -/
def batchVerify (batch : IDMap Bytes) : Option (Bool × Cache) :=
  cache.verifyWithKey (keyOf S (batchHash S batch) signature) (impl.batchVerify signature batch)

end Cache

/-- A call of the `CryptoBase` interface. -/
inductive CryptoCall (Sig : Type) where
  | sign (message : Bytes)
  | verify (signature : Sig) (message : Bytes)
  | batchVerify (signature : Sig) (batch : IDMap Bytes)

/-- What such a call returns. -/
inductive CryptoAnswer (Sig : Type) where
  | signature (result : Except CryptoError Sig)
  | verdict (accepted : Bool)

/-- The answer of an implementation without a cache. -/
def CryptoBase.answer (impl : CryptoBase Sig) : CryptoCall Sig → CryptoAnswer Sig
  | .sign message => .signature (impl.sign message)
  | .verify signature message => .verdict (impl.verify signature message)
  | .batchVerify signature batch => .verdict (impl.batchVerify signature batch)

namespace Cache

variable (S : Primitives Sig) (impl : CryptoBase Sig)

/-- One call of the cached crypto; `none` is a crash. -/
def call (cache : Cache) : CryptoCall Sig → Option (CryptoAnswer Sig × Cache)
  | .sign message => (cache.sign S impl message).map fun r => (.signature r.1, r.2)
  | .verify signature message =>
    (cache.verify S impl signature message).map fun r => (.verdict r.1, r.2)
  | .batchVerify signature batch =>
    (cache.batchVerify S impl signature batch).map fun r => (.verdict r.1, r.2)

/-- The answers to a sequence of calls; after a crash there are none. -/
def answers (cache : Cache) : List (CryptoCall Sig) → List (Option (CryptoAnswer Sig))
  | [] => []
  | c :: rest =>
    match cache.call S impl c with
    | some (answer, cache) => some answer :: cache.answers rest
    | none => none :: rest.map fun _ => none

/-- The key under which `Verify` and `BatchVerify` look a call up. -/
def lookupKey : CryptoCall Sig → Option Bytes
  | .sign _ => none
  | .verify signature message => some (keyOf S (S.sum256 message) signature)
  | .batchVerify signature batch => some (keyOf S (batchHash S batch) signature)

/-- The key a call leaves in the cache when the implementation accepts it. -/
def acceptedKey : CryptoCall Sig → Option Bytes
  | .sign message =>
    match impl.sign message with
    | .ok sig => some (keyOf S (S.sum256 message) sig)
    | .error _ => none
  | .verify signature message =>
    if impl.verify signature message then some (keyOf S (S.sum256 message) signature) else none
  | .batchVerify signature batch =>
    if impl.batchVerify signature batch then some (keyOf S (batchHash S batch) signature) else none

/-- A call is told apart from the calls before it, given by their accepted keys, latest first: if
its key is among the `capacity` most recent, the implementation accepts it; and if that accepts it,
there is room for a key. -/
def Distinguished (capacity : Int) (history : List Bytes) (c : CryptoCall Sig) : Prop :=
  (∀ key, lookupKey S c = some key → key ∈ (recency history).take capacity.toNat →
    acceptedKey S impl c = some key) ∧
  (acceptedKey S impl c ≠ none → 1 ≤ capacity)

/-- Every call of a sequence is told apart from the calls before it. -/
def AllDistinguished (capacity : Int) : List Bytes → List (CryptoCall Sig) → Prop
  | _, [] => True
  | history, c :: rest =>
    Distinguished S impl capacity history c ∧
      AllDistinguished capacity ((acceptedKey S impl c).toList ++ history) rest

/-- The cache holds the most recently accepted keys, as many as its capacity allows. -/
def Remembers (cache : Cache) (history : List Bytes) : Prop :=
  cache.accessOrder = (recency history).take cache.capacity.toNat

/-- A new cache remembers nothing. -/
theorem new_remembers (capacity : Int) : (new capacity).Remembers [] := by
  simp [Remembers, new, recency]

variable {cache : Cache} {history : List Bytes} {key : Bytes}

section

variable (h : cache.Remembers history)

include h

/-- Moving a remembered key to the front records one more use of it. -/
theorem moveToFront_remembers (hkey : key ∈ cache.accessOrder) :
    (cache.moveToFront key).Remembers (key :: history) := by
  have hlength : (key :: cache.accessOrder.erase key).length ≤ cache.capacity.toNat := by
    have hpos := length_pos_of_mem hkey
    have hle : cache.accessOrder.length ≤ cache.capacity.toNat := by
      rw [h]
      exact length_take_le _ _
    rw [length_cons, length_erase_of_mem hkey]
    omega
  change key :: cache.accessOrder.erase key = (recency (key :: history)).take cache.capacity.toNat
  rw [take_recency_cons, ← (show cache.accessOrder = _ from h)]
  exact (take_of_length_le hlength).symm

/-- Inserting into a cache without room crashes. -/
theorem insert_eq_none (hcapacity : cache.capacity < 1) (key : Bytes) :
    cache.insert key = none := by
  have hempty : cache.accessOrder = [] := by
    rw [h, show cache.capacity.toNat = 0 by omega, take_zero]
  have hnot : ¬ (0 : Int) < cache.capacity := by omega
  simp [insert, evict, hempty, hnot]

/-- Inserting into a cache with room records one more use of the key. -/
theorem exists_insert (hcapacity : 1 ≤ cache.capacity) (key : Bytes) :
    ∃ cache', cache.insert key = some cache' ∧ cache'.capacity = cache.capacity ∧
      cache'.Remembers (key :: history) := by
  by_cases hkey : key ∈ cache.accessOrder
  · exact ⟨cache.moveToFront key, by simp [insert, hkey], rfl, moveToFront_remembers h hkey⟩
  have hle : cache.accessOrder.length ≤ cache.capacity.toNat := by
    rw [h]
    exact length_take_le _ _
  obtain ⟨n, hn⟩ : ∃ n, cache.capacity.toNat = n + 1 := ⟨cache.capacity.toNat - 1, by omega⟩
  have hstored : (recency (key :: history)).take cache.capacity.toNat =
      key :: cache.accessOrder.take n := by
    rw [take_recency_cons, ← (show cache.accessOrder = _ from h), erase_of_not_mem hkey, hn,
      take_succ_cons]
  by_cases hroom : (cache.accessOrder.length : Int) < cache.capacity
  · refine ⟨cache.moveToFront key, by simp [insert, evict, hkey, hroom], rfl, ?_⟩
    change key :: cache.accessOrder.erase key = (recency (key :: history)).take cache.capacity.toNat
    rw [erase_of_not_mem hkey, hstored, take_of_length_le (by omega)]
  · have hnonempty : cache.accessOrder ≠ [] := by
      intro hempty
      simp [hempty] at hroom
      omega
    simp only [insert, if_neg hkey, evict, if_neg hroom, if_neg hnonempty, Option.map_some]
    refine ⟨_, rfl, rfl, ?_⟩
    have hdrop : key ∉ cache.accessOrder.dropLast :=
      fun hmem => hkey (dropLast_subset _ hmem)
    change key :: cache.accessOrder.dropLast.erase key =
      (recency (key :: history)).take cache.capacity.toNat
    rw [erase_of_not_mem hdrop, hstored, dropLast_eq_take,
      show cache.accessOrder.length - 1 = n by omega]

/-- A verification agrees with the implementation exactly when that accepts a remembered key and an
accepted key finds room; the cache then remembers an accepted key. -/
theorem verifyWithKey_spec (key : Bytes) (accepted : Bool) :
    (((key ∈ cache.accessOrder → accepted = true) ∧ (accepted = true → 1 ≤ cache.capacity)) ∧
      ∃ cache', cache.verifyWithKey key accepted = some (accepted, cache') ∧
        cache'.capacity = cache.capacity ∧
        cache'.Remembers ((if accepted then [key] else []) ++ history)) ∨
    (¬ ((key ∈ cache.accessOrder → accepted = true) ∧ (accepted = true → 1 ≤ cache.capacity)) ∧
      ∀ cache', cache.verifyWithKey key accepted ≠ some (accepted, cache')) := by
  by_cases hkey : key ∈ cache.accessOrder
  · have hcapacity : 1 ≤ cache.capacity := by
      have hpos := length_pos_of_mem hkey
      rw [h, length_take] at hpos
      omega
    have hhit : cache.verifyWithKey key accepted = some (true, cache.moveToFront key) := by
      simp [verifyWithKey, check, hkey]
    rw [hhit]
    cases accepted with
    | true => exact .inl ⟨⟨fun _ => rfl, fun _ => hcapacity⟩, _, rfl, rfl,
        moveToFront_remembers h hkey⟩
    | false => exact .inr ⟨fun hno => absurd (hno.1 hkey) (by decide), by simp⟩
  · have hmiss : cache.verifyWithKey key accepted =
        if accepted then (cache.insert key).map fun cache => (true, cache)
        else some (false, cache) := by
      simp [verifyWithKey, check, hkey]
    rw [hmiss]
    cases accepted with
    | false => exact .inl ⟨⟨fun hmem => absurd hmem hkey, by simp⟩, cache, rfl, rfl, h⟩
    | true =>
      rcases lt_or_ge cache.capacity 1 with hlow | hcapacity
      · refine .inr ⟨fun hno => absurd (hno.2 rfl) (by omega), ?_⟩
        simp [insert_eq_none h hlow]
      · obtain ⟨cache', hinsert, hcap, hremembers⟩ := exists_insert h hcapacity key
        exact .inl ⟨⟨fun _ => rfl, fun _ => hcapacity⟩, cache', by simp [hinsert], hcap, hremembers⟩

end

/-- A call is answered as the implementation answers it, and remembered if it was accepted. -/
def Transparent (cache : Cache) (history : List Bytes) (c : CryptoCall Sig) : Prop :=
  ∃ cache', cache.call S impl c = some (impl.answer c, cache') ∧
    cache'.capacity = cache.capacity ∧
    cache'.Remembers ((acceptedKey S impl c).toList ++ history)

/-- The two verifications, which differ in their keys only, are transparent exactly when they are
told apart from the calls before them. -/
theorem call_spec_of_lookupKey (h : cache.Remembers history) {c : CryptoCall Sig} {accepted : Bool}
    (hlookup : lookupKey S c = some key)
    (haccepted : acceptedKey S impl c = if accepted then some key else none)
    (hanswer : impl.answer c = .verdict accepted) (hcall : cache.call S impl c =
      (cache.verifyWithKey key accepted).map fun r => (.verdict r.1, r.2)) :
    (Distinguished S impl cache.capacity history c ∧ Transparent S impl cache history c) ∨
    (¬ Distinguished S impl cache.capacity history c ∧
      ∀ cache', cache.call S impl c ≠ some (impl.answer c, cache')) := by
  have hstored : (recency history).take cache.capacity.toNat = cache.accessOrder := h.symm
  have hdistinguished : Distinguished S impl cache.capacity history c ↔
      (key ∈ cache.accessOrder → accepted = true) ∧ (accepted = true → 1 ≤ cache.capacity) := by
    cases accepted <;> simp [Distinguished, hlookup, haccepted, hstored]
  rw [hdistinguished, Transparent, hcall, hanswer, haccepted]
  rcases verifyWithKey_spec h key accepted with ⟨hgood, cache', hrun, hcap, hrem⟩ | ⟨hbad, hrun⟩
  · refine .inl ⟨hgood, cache', by rw [hrun]; rfl, hcap, ?_⟩
    cases accepted <;> exact hrem
  · refine .inr ⟨hbad, fun cache' heq => ?_⟩
    obtain ⟨⟨verdict, cache''⟩, hrun', heq'⟩ := Option.map_eq_some_iff.mp heq
    simp only [Prod.mk.injEq, CryptoAnswer.verdict.injEq] at heq'
    exact hrun cache'' (heq'.1 ▸ hrun')

/-- A cached call agrees with the implementation exactly when it is told apart from the calls before
it; the cache then remembers it if it was accepted. -/
theorem call_spec (h : cache.Remembers history) (c : CryptoCall Sig) :
    (Distinguished S impl cache.capacity history c ∧ Transparent S impl cache history c) ∨
    (¬ Distinguished S impl cache.capacity history c ∧
      ∀ cache', cache.call S impl c ≠ some (impl.answer c, cache')) := by
  cases c with
  | sign message =>
    simp only [Transparent, call, sign, CryptoBase.answer, Distinguished, lookupKey, acceptedKey]
    cases impl.sign message with
    | error err => exact .inl ⟨by simp, cache, by simp, rfl, h⟩
    | ok sig =>
      rcases lt_or_ge cache.capacity 1 with hlow | hcapacity
      · exact .inr ⟨by simp; omega, by simp [insert_eq_none h hlow]⟩
      · obtain ⟨cache', hinsert, hcap, hremembers⟩ :=
          exists_insert h hcapacity (keyOf S (S.sum256 message) sig)
        exact .inl ⟨by simpa using hcapacity, cache', by simp [hinsert], hcap, hremembers⟩
  | verify signature message =>
    exact call_spec_of_lookupKey S impl h rfl rfl rfl rfl
  | batchVerify signature batch =>
    exact call_spec_of_lookupKey S impl h rfl rfl rfl rfl

/-- The step from one call to a sequence of calls. -/
theorem answers_eq_iff (h : cache.Remembers history) (calls : List (CryptoCall Sig)) :
    cache.answers S impl calls = calls.map (fun c => some (impl.answer c)) ↔
      AllDistinguished S impl cache.capacity history calls := by
  induction calls generalizing cache history with
  | nil => simp [answers, AllDistinguished]
  | cons c rest ih =>
    simp only [answers, AllDistinguished, map_cons]
    rcases call_spec S impl h c with ⟨hgood, cache', hcall, hcap, hrem⟩ | ⟨hbad, hcall⟩
    · rw [hcall]
      simp only [cons.injEq, true_and, ih hrem, hcap, hgood]
    · simp only [hbad, false_and, iff_false]
      split
      · rename_i answer cache' heq
        intro hlist
        have hanswer : answer = impl.answer c := by simpa using (cons.inj hlist).1
        exact hcall cache' (hanswer ▸ heq)
      · intro hlist
        simpa using (cons.inj hlist).1

/-- The cache is transparent exactly for call sequences without a false hit: the implementation
accepts every call whose key is among the `capacity` most recently accepted ones, and the capacity
is positive once something is accepted. -/
theorem answers_eq_underlying_iff (capacity : Int) (calls : List (CryptoCall Sig)) :
    (new capacity).answers S impl calls = calls.map (fun c => some (impl.answer c)) ↔
      AllDistinguished S impl capacity [] calls :=
  answers_eq_iff S impl (new_remembers capacity) calls

section FalseHit

open Ecdsa

/-- The signature of replicas 1 and 2 over the messages `[1]` and `[2]`. -/
def batchSignature : Multi :=
  ⟨[sampleSignature 1 [1], sampleSignature 2 [2]], by decide⟩

/-- The batch that was signed. -/
def signedBatch : IDMap Bytes :=
  ⟨[(1, [1]), (2, [2])], by decide⟩

/-- A batch with other messages, which nobody signed. -/
def otherBatch : IDMap Bytes :=
  ⟨[(1, [3]), (2, [4])], by decide⟩

/-- After a batch was accepted, the cache accepts its signature for any other batch, which the
implementation rejects; and with capacity zero the first accepted signature crashes the replica. -/
theorem batchVerify_false_hit :
    (∀ message sig, (base (sampleBase 1)).sign message = .ok sig →
      (base (sampleBase 1)).verify sig message = true) ∧
    (new 10).answers (primitives (sampleBase 1)) (base (sampleBase 1))
        [.batchVerify batchSignature signedBatch, .batchVerify batchSignature otherBatch] =
      [some (.verdict true), some (.verdict true)] ∧
    (base (sampleBase 1)).batchVerify batchSignature otherBatch = false ∧
    (new 0).answers (primitives (sampleBase 1)) (base (sampleBase 1))
        [.batchVerify batchSignature signedBatch] = [none] :=
  ⟨fun _ _ => sampleBase_verify_sign (by decide), by rfl, by decide +kernel, by rfl⟩

end FalseHit

end Cache

end NimbleChain.HotStuff
