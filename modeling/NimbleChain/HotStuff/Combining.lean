import NimbleChain.HotStuff.CryptoBase

/-!
# Combining partial signatures

`Combine` joins at least two signatures and rejects them if two of them share a participant.
`CryptoBase.Combining` states this contract, and the ECDSA implementation meets it.
-/

namespace NimbleChain.HotStuff

open Common

variable {Sig : Type}

/-- The two signatures have no participant in common. -/
def Primitives.Separate (S : Primitives Sig) (sig sig' : Sig) : Prop :=
  Disjoint (S.participants sig) (S.participants sig')

instance (S : Primitives Sig) (sig sig' : Sig) : Decidable (S.Separate sig sig') :=
  inferInstanceAs (Decidable (Disjoint _ _))

/-- The contract of `Combine`. -/
structure CryptoBase.Combining (crypto : CryptoBase Sig) (S : Primitives Sig) : Prop where
  /-- Two or more signatures without a common participant can be combined, and no others. -/
  combine_iff : ∀ sigs, (∃ sig, crypto.combine sigs = .ok sig) ↔
    2 ≤ sigs.length ∧ sigs.Pairwise S.Separate
  /-- The participants of the signatures are those of the combined one. -/
  participants : ∀ sigs sig, crypto.combine sigs = .ok sig →
    ∀ id, id ∈ S.participants sig ↔ ∃ part ∈ sigs, id ∈ S.participants part
  /-- The combined signature is valid for a message that every part is valid for. -/
  verify : ∀ sigs sig message, crypto.combine sigs = .ok sig →
    (∀ part ∈ sigs, crypto.verify part message = true) → crypto.verify sig message = true
  /-- A valid signature has a participant. -/
  nonempty : ∀ sig message, crypto.verify sig message = true → (S.participants sig).Nonempty

/-- The contract of `BatchVerify` for a combined signature: each part is a single participant's
signature over its message in the batch, every message has a part, and the hashes of the messages
differ. -/
def CryptoBase.Batching (crypto : CryptoBase Sig) (S : Primitives Sig) : Prop :=
  ∀ (sigs : List Sig) (sig : Sig) (batch : IDMap Bytes), crypto.combine sigs = .ok sig →
    (∀ part ∈ sigs, ∃ e ∈ batch.entries,
      S.participants part = {e.1} ∧ crypto.verify part e.2 = true) →
    (∀ e ∈ batch.entries, ∃ part ∈ sigs, S.participants part = {e.1}) →
    (batch.entries.map fun e => S.sum256 e.2).Nodup → crypto.batchVerify sig batch = true

/-- A map finds what it holds. -/
theorem IDMap.get?_of_mem {α : Type} (m : IDMap α) {id : ID} {a : α} (h : (id, a) ∈ m.entries) :
    m.get? id = some a := by
  obtain ⟨entries, hnodup⟩ := m
  change entries.lookup id = some a
  induction entries with
  | nil => cases h
  | cons e rest ih =>
    obtain ⟨hfirst, hrest⟩ := List.nodup_cons.mp hnodup
    rcases List.mem_cons.mp h with rfl | hmem
    · exact List.lookup_cons_self
    · have hne : id ≠ e.1 := by
        rintro rfl
        exact hfirst (List.mem_map.mpr ⟨_, hmem, rfl⟩)
      rw [List.lookup_cons, beq_eq_false_iff_ne.mpr hne]
      exact ih hrest hmem

/-- Signatures without common participants have at least as many participants as there are
signatures, if none is empty. -/
theorem length_le_card_of_separate {S : Primitives Sig} {sigs : List Sig}
    (hseparate : sigs.Pairwise S.Separate) (hnonempty : ∀ sig ∈ sigs, (S.participants sig).Nonempty)
    {signers : Finset ID} (hsubset : ∀ sig ∈ sigs, S.participants sig ⊆ signers) :
    sigs.length ≤ signers.card := by
  induction sigs generalizing signers with
  | nil => exact Nat.zero_le _
  | cons sig rest ih =>
    obtain ⟨hfirst, hrest⟩ := List.pairwise_cons.mp hseparate
    have hsig := hsubset sig (by simp)
    have hsub : ∀ other ∈ rest, S.participants other ⊆ signers \ S.participants sig := by
      intro other hother
      refine Finset.subset_sdiff.mpr ⟨hsubset other (List.mem_cons_of_mem _ hother), ?_⟩
      exact (hfirst other hother).symm
    have hlength := ih hrest (fun other h => hnonempty other (List.mem_cons_of_mem _ h)) hsub
    have hcard := Finset.card_sdiff_add_card_eq_card hsig
    have hpos := Finset.card_pos.mpr (hnonempty sig (by simp))
    rw [List.length_cons]
    omega

namespace Ecdsa

/-- The partial signatures can be inserted exactly if no signer occurs twice. -/
theorem insertAll_ok_iff (ts : Multi) (rest : List Signature) :
    (∃ sig, insertAll ts rest = .ok sig) ↔
      (rest.map Signature.signer).Nodup ∧ ∀ sig ∈ rest, sig.signer ∉ ts.signers := by
  induction rest generalizing ts with
  | nil => simp [insertAll]
  | cons sig rest ih =>
    unfold insertAll
    split
    · rename_i hmem
      simp [hmem]
    · rename_i hmem
      rw [ih]
      simp only [Multi.signers, List.map_cons, List.mem_cons, not_or, List.nodup_cons,
        forall_eq_or_imp, List.mem_map, not_exists, not_and]
      simp only [Multi.signers, List.mem_map, not_exists, not_and] at hmem
      grind

/-- The combined signature consists of all parts. -/
theorem mem_of_insertAll {ts sig : Multi} {rest : List Signature}
    (h : insertAll ts rest = .ok sig) (part : Signature) :
    part ∈ sig.signatures ↔ part ∈ ts.signatures ∨ part ∈ rest := by
  induction rest generalizing ts with
  | nil =>
    cases h
    simp
  | cons next rest ih =>
    unfold insertAll at h
    split at h
    · cases h
    · grind

theorem mem_participants {sig : Multi} {id : ID} :
    id ∈ sig.participants ↔ ∃ part ∈ sig.signatures, part.signer = id := by
  simp [Multi.participants, Multi.signers]

/-- No signer occurs twice in a list of multi-signatures exactly if no two of them share one. -/
theorem nodup_signers_flatMap (sigs : List Multi) :
    ((sigs.flatMap Multi.signatures).map Signature.signer).Nodup ↔
      sigs.Pairwise fun sig sig' => Disjoint sig.participants sig'.participants := by
  have hmap : (sigs.flatMap Multi.signatures).map Signature.signer =
      sigs.flatMap Multi.signers := by
    rw [List.map_flatMap]
    rfl
  rw [hmap, List.nodup_flatMap]
  refine ⟨fun h => h.2.imp ?_, fun h => ⟨fun sig _ => sig.nodup_signers, h.imp ?_⟩⟩
  · intro sig sig' hdisjoint
    exact Finset.disjoint_left.mpr fun id hid hid' => hdisjoint hid hid'
  · intro sig sig' hdisjoint id hid hid'
    exact Finset.disjoint_left.mp hdisjoint hid hid'

variable {PublicKey : Type} (ec : Base PublicKey)

theorem verify_eq_true_iff {sig : Multi} {message : Bytes} :
    verify ec sig message = true ↔ sig.signatures ≠ [] ∧
      ∀ part ∈ sig.signatures, verifySingle ec part (ec.sum256 message) = true := by
  simp [verify, List.length_eq_zero_iff]

/-- The ECDSA implementation meets the contract. -/
theorem base_combining : (base ec).Combining (primitives ec) where
  combine_iff sigs := by
    change (∃ sig, combine sigs = .ok sig) ↔ _
    unfold combine
    split
    · constructor
      · rintro ⟨sig, h⟩
        cases h
      · intro h
        omega
    · rename_i hlong
      rw [insertAll_ok_iff, nodup_signers_flatMap]
      simp only [Multi.signers, List.map_nil, List.not_mem_nil, not_false_eq_true, implies_true,
        and_true]
      exact ⟨fun h => ⟨not_lt.mp hlong, h⟩, fun h => h.2⟩
  participants sigs sig h id := by
    change combine sigs = .ok sig at h
    unfold combine at h
    split at h
    · cases h
    · change id ∈ sig.participants ↔ ∃ part ∈ sigs, id ∈ part.participants
      simp only [mem_participants, mem_of_insertAll h, List.not_mem_nil, false_or, List.mem_flatMap]
      grind
  verify sigs sig message h hvalid := by
    change combine sigs = .ok sig at h
    change verify ec sig message = true
    simp only [base, verify_eq_true_iff] at hvalid
    unfold combine at h
    split at h
    · cases h
    · rw [verify_eq_true_iff]
      have hmem := mem_of_insertAll h
      simp only [List.not_mem_nil, false_or, List.mem_flatMap] at hmem
      constructor
      · obtain ⟨first, rest, rfl⟩ : ∃ first rest, sigs = first :: rest :=
          List.exists_cons_of_length_pos (by omega)
        obtain ⟨part, hpart⟩ := List.exists_mem_of_ne_nil _ (hvalid first (by simp)).1
        exact List.ne_nil_of_mem ((hmem part).mpr ⟨first, by simp, hpart⟩)
      · intro part hpart
        obtain ⟨source, hsource, hin⟩ := (hmem part).mp hpart
        exact (hvalid source hsource).2 part hin
  nonempty sig message h := by
    obtain ⟨part, hpart⟩ := List.exists_mem_of_ne_nil _ ((verify_eq_true_iff ec).mp h).1
    exact ⟨part.signer, mem_participants.mpr ⟨part, hpart, rfl⟩⟩

/-- So does its batch verification. -/
theorem base_batching : (base ec).Batching (primitives ec) := by
  intro sigs sig batch hcombine hparts hcover hnodup
  change combine sigs = .ok sig at hcombine
  change batchVerify ec sig batch = true
  change (batch.entries.map fun e => ec.sum256 e.2).Nodup at hnodup
  unfold combine at hcombine
  split at hcombine
  · cases hcombine
  have hmem := mem_of_insertAll hcombine
  simp only [List.not_mem_nil, false_or, List.mem_flatMap] at hmem
  -- each partial signature is the only one of its part
  have hpart : ∀ p ∈ sig.signatures, ∃ message, batch.get? p.signer = some message ∧
      (p.signer, message) ∈ batch.entries ∧ verifySingle ec p (ec.sum256 message) = true := by
    intro p hp
    obtain ⟨part, hpart, hin⟩ := (hmem p).mp hp
    obtain ⟨⟨id, message⟩, he, hparticipants, hverify⟩ := hparts part hpart
    obtain rfl : p.signer = id := by
      have hid : p.signer ∈ part.participants := mem_participants.mpr ⟨p, hin, rfl⟩
      change part.participants = {id} at hparticipants
      rw [hparticipants] at hid
      exact Finset.mem_singleton.mp hid
    exact ⟨message, batch.get?_of_mem he, he, ((verify_eq_true_iff ec).mp hverify).2 p hin⟩
  have hcovered : ∀ e ∈ batch.entries, ∃ p ∈ sig.signatures, p.signer = e.1 := by
    intro e he
    obtain ⟨part, hpart, hparticipants⟩ := hcover e he
    have hid : e.1 ∈ part.participants := by
      change part.participants = {e.1} at hparticipants
      rw [hparticipants]
      exact Finset.mem_singleton_self _
    obtain ⟨p, hp, hsigner⟩ := mem_participants.mp hid
    exact ⟨p, (hmem p).mpr ⟨part, hpart, hp⟩, hsigner⟩
  have hne : sig.signatures.length ≠ 0 := by
    obtain ⟨first, rest, rfl⟩ : ∃ first rest, sigs = first :: rest :=
      List.exists_cons_of_length_pos (by omega)
    obtain ⟨e, he, -, hverify⟩ := hparts first (by simp)
    obtain ⟨p, hp, -⟩ := hcovered e he
    exact List.ne_nil_of_mem hp ∘ List.length_eq_zero_iff.mp
  have hknown : (sig.signatures.any fun p => (batch.get? p.signer).isNone) = false := by
    rw [List.any_eq_false]
    intro p hp
    obtain ⟨message, hget, -⟩ := hpart p hp
    simp [hget]
  have hhashes : (sig.signatures.filterMap fun p => (batch.get? p.signer).map ec.sum256).toFinset =
      (batch.entries.map fun e => ec.sum256 e.2).toFinset := by
    ext hash
    simp only [List.mem_toFinset, List.mem_filterMap, List.mem_map, Option.map_eq_some_iff]
    constructor
    · rintro ⟨p, hp, message, hget, rfl⟩
      obtain ⟨message', hget', he, -⟩ := hpart p hp
      cases hget.symm.trans hget'
      exact ⟨_, he, rfl⟩
    · rintro ⟨e, he, rfl⟩
      obtain ⟨p, hp, hsigner⟩ := hcovered e he
      exact ⟨p, hp, e.2, hsigner ▸ batch.get?_of_mem he, rfl⟩
  unfold batchVerify
  rw [if_neg hne, hknown, if_neg Bool.false_ne_true]
  dsimp only
  rw [hhashes, List.toFinset_card_of_nodup hnodup, List.length_map]
  simp only [beq_self_eq_true, Bool.and_true, List.all_eq_true]
  intro p hp
  obtain ⟨message, hget, -, hverify⟩ := hpart p hp
  rw [hget]
  exact hverify

end Ecdsa

end NimbleChain.HotStuff
