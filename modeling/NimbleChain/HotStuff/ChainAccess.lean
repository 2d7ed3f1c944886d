import NimbleChain.HotStuff.Consensus

/-!
# What the chain lookups and certificate checks do to a replica

Looking up blocks only ever adds fetched blocks to the chain, and checking certificates
additionally records accepted signatures. `LooksUp` says so once.
-/

namespace NimbleChain.HotStuff

open Common Program List

variable {Sig : Type} (M : Modules Sig)

/-- `LooksUp r r'`: from `r` to `r'` blocks were looked up and signatures were verified, and
nothing else happened. -/
structure LooksUp (r r' : Replica Sig) : Prop where
  rest : r' = { r with chain := r'.chain, env := r'.env, trace := r'.trace }
  blocks : r.chain.blocks <:+ r'.chain.blocks
  trace : ∃ new, r'.trace = r.trace ++ new ∧
    ∀ entry ∈ new, (∃ sig message, entry = .verified sig message) ∨
      ∃ sig batch, entry = .batchVerified sig batch

namespace LooksUp

theorem refl (r : Replica Sig) : LooksUp r r :=
  ⟨rfl, suffix_refl _, [], by simp, by simp⟩

theorem trans {r r' r'' : Replica Sig} (h : LooksUp r r') (h' : LooksUp r' r'') :
    LooksUp r r'' := by
  obtain ⟨new, hnew, hkind⟩ := h.trace
  obtain ⟨new', hnew', hkind'⟩ := h'.trace
  refine ⟨?_, h.blocks.trans h'.blocks, new ++ new', by rw [hnew', hnew, append_assoc], ?_⟩
  · have hrest := h'.rest
    rw [h.rest] at hrest
    exact hrest
  · intro entry hentry
    rcases mem_append.mp hentry with hmem | hmem
    · exact hkind entry hmem
    · exact hkind' entry hmem

end LooksUp

/-- A looked-up block is stored and has the hash it was looked up by. -/
theorem mem_of_localGet {S : Primitives Sig} {chain : BlockChain Sig} {hash : Hash}
    {block : Block Sig} (h : chain.localGet S hash = some block) :
    block ∈ chain.blocks ∧ block.hash S = hash :=
  ⟨mem_of_find?_eq_some h, by simpa using find?_some h⟩

/-- The genesis block's hash always leads to a block. -/
theorem exists_localGet_genesis (S : Primitives Sig) (chain : BlockChain Sig) :
    ∃ block, chain.localGet S ((genesis : Block Sig).hash S) = some block := by
  apply Option.isSome_iff_exists.mp
  rw [BlockChain.localGet, find?_isSome]
  exact ⟨genesis, chain.genesis_mem, by simp⟩

/-- A fetched block has the hash it was asked for. -/
theorem fetch_spec (hash : Hash) (r : Replica Sig) :
    (fetch M hash).wp
      (fun block r' => r' = { r with env := r'.env } ∧ ∀ b, block = some b → b.hash M.S = hash)
      never r := by
  unfold fetch
  simp only [wp_bind, wp_get]
  split
  · simp
  · simp only [wp_bind, wp_set, wp_pure, true_and]
    intro b hb
    simpa using (Option.filter_eq_some_iff.mp hb).2

/-- `Get` returns the block that is now stored under the hash, and finds every stored block. -/
theorem getBlock_spec (hash : Hash) (r : Replica Sig) :
    (getBlock M hash).wp
      (fun block r' => LooksUp r r' ∧
        (∀ b, block = some b → r'.chain.localGet M.S hash = some b) ∧
        (block = none → ∀ b ∈ r.chain.blocks, b.hash M.S ≠ hash) ∧
        ∀ hash' b, r.chain.localGet M.S hash' = some b → r'.chain.localGet M.S hash' = some b)
      never r := by
  unfold getBlock
  simp only [wp_bind, wp_get]
  split
  · rename_i block hblock
    exact ⟨.refl r, fun b hb => hb ▸ hblock, by simp, fun _ _ h => h⟩
  · rename_i hmissing
    refine wp_then (fetch_spec M hash r) ?_
    rintro block r' ⟨hr', hhash⟩
    have hlooks : LooksUp r r' :=
      ⟨by rw [hr'], by rw [hr'], [], by rw [hr']; simp, by simp⟩
    cases block with
    | none =>
      exact ⟨hlooks, by simp, fun _ b hb => by simpa using find?_eq_none.mp hmissing b hb,
        fun _ _ h => hr' ▸ h⟩
    | some block =>
      have hblock := hhash block rfl
      refine ⟨hlooks.trans ⟨rfl, suffix_cons _ _, [], by simp [Replica.store], by simp⟩, ?_,
        by simp, ?_⟩
      · intro b hb
        simp [Replica.store, BlockChain.store, BlockChain.localGet, ← Option.some.inj hb, hblock]
      · intro hash' b hb
        have hne : block.hash M.S ≠ hash' := by
          rintro rfl
          rw [← hblock, hb] at hmissing
          cases hmissing
        rw [hr']
        exact (find?_cons_of_neg (by simpa using hne)).trans hb

/-- Without answers of peers `Get` reads the stored blocks. -/
theorem getBlock_exec {r : Replica Sig} (hfetch : r.env.fetch = []) (hash : Hash) :
    (getBlock M hash).exec r = (.ok (r.chain.localGet M.S hash), r) := by
  cases hget : r.chain.localGet M.S hash with
  | none => simp [getBlock, fetch, exec_bind, exec_get, exec_pure, hget, hfetch]
  | some block => simp [getBlock, exec_bind, exec_get, exec_pure, hget]

/-- The walk of `commitInner` over stored blocks: the blocks to execute, oldest first; `none` if it
does not end, and no list if an ancestor is missing. -/
def BlockChain.unexecuted (S : Primitives Sig) (chain : BlockChain Sig) (bExec : Block Sig) :
    Nat → Block Sig → Option (Option (List (Block Sig)))
  | 0, _ => none
  | n + 1, block =>
    if block.view ≤ bExec.view then some (some [])
    else
      match chain.localGet S block.parent with
      | none => some none
      | some parent => (unexecuted S chain bExec n parent).map (Option.map (· ++ [block]))

/-- Without answers of peers `commitInner` executes what the walk finds. -/
theorem commitInner_stored {r : Replica Sig} (hfetch : r.env.fetch = []) (n : Nat)
    (block : Block Sig) :
    (commitInner M n block).exec r =
      (r.chain.unexecuted M.S r.bExec n block).elim (.error .diverges, r) fun found =>
        found.elim (.ok false, r) fun blocks => (.ok true, blocks.foldl Replica.exec r) := by
  induction n generalizing block with
  | zero => rfl
  | succ n ih =>
    simp only [commitInner, BlockChain.unexecuted, exec_bind, exec_get]
    by_cases hold : block.view ≤ r.bExec.view
    · simp only [if_pos hold]
      rfl
    simp only [if_neg hold, exec_bind, getBlock_exec M hfetch]
    cases r.chain.localGet M.S block.parent with
    | none => rfl
    | some parent =>
      simp only [exec_bind, ih parent]
      rcases r.chain.unexecuted M.S r.bExec n parent with _ | _ | blocks
      · rfl
      · rfl
      · exact congrArg (Prod.mk _) (foldl_concat ..).symm

/-- `Verify` records what it accepts. -/
theorem verify_spec (sig : Sig) (message : Bytes) (r : Replica Sig) :
    (verify M sig message).wp
      (fun ok r' => LooksUp r r' ∧ ok = M.crypto.verify sig message ∧ (ok = true →
        r' = r.record (.verified sig message))) never r := by
  unfold verify
  split
  · rename_i h
    simp only [wp_bind, wp_modify, wp_pure]
    exact ⟨⟨rfl, suffix_refl _, [_], rfl, by simp⟩, h.symm, fun _ => trivial⟩
  · rename_i h
    exact ⟨.refl r, (Bool.not_eq_true _ ▸ h).symm, by simp⟩

/-- `BatchVerify` records what it accepts. -/
theorem batchVerify_spec (sig : Sig) (batch : IDMap Bytes) (r : Replica Sig) :
    (batchVerify M sig batch).wp
      (fun ok r' => LooksUp r r' ∧ ok = M.crypto.batchVerify sig batch ∧ (ok = true →
        r' = r.record (.batchVerified sig batch))) never r := by
  unfold batchVerify
  split
  · rename_i h
    simp only [wp_bind, wp_modify, wp_pure]
    exact ⟨⟨rfl, suffix_refl _, [_], rfl, by simp⟩, h.symm, fun _ => trivial⟩
  · rename_i h
    exact ⟨.refl r, (Bool.not_eq_true _ ▸ h).symm, by simp⟩

/-- What the replica knows about a certificate that `VerifyQuorumCert` accepted: it names the
genesis block, or a stored block whose bytes a quorum signed. -/
inductive Checked (r : Replica Sig) (qc : QuorumCert Sig) : Prop where
  | genesis (hash : qc.hash = (HotStuff.genesis : Block Sig).hash M.S)
  | quorum (sig : Sig) (block : Block Sig) (signature : qc.signature = some sig)
      (size : M.quorum ≤ (M.S.participants sig).card)
      (stored : r.chain.localGet M.S qc.hash = some block)
      (valid : M.crypto.verify sig (block.toBytes M.S) = true)
      (recorded : Entry.verified sig (block.toBytes M.S) ∈ r.trace)

/-- `VerifyQuorumCert` accepts a certificate only after the checks of `Checked`. -/
theorem verifyQuorumCert_spec (qc : QuorumCert Sig) (r : Replica Sig) :
    (verifyQuorumCert M qc).wp
      (fun ok r' => LooksUp r r' ∧ (ok = true → Checked M r' qc))
      (fun _ r' => r' = r) r := by
  unfold verifyQuorumCert
  split
  · rename_i hgenesis
    exact ⟨.refl r, fun _ => .genesis hgenesis⟩
  split
  · simp
  rename_i sig hsig
  split
  · exact ⟨.refl r, by simp⟩
  rename_i hsize
  refine wp_then (getBlock_spec M qc.hash r) ?_
  rintro block r1 ⟨hlooks, hstored, -⟩
  cases block with
  | none =>
    exact ⟨hlooks, by simp⟩
  | some block =>
    refine wp_imp (verify_spec M sig (block.toBytes M.S) r1) ?_
    intro ok r2 hverify
    obtain ⟨hlooks2, hvalid, hrecorded⟩ := hverify
    refine ⟨hlooks.trans hlooks2, fun hok => ?_⟩
    rw [hok] at hvalid
    rw [hrecorded hok] at hlooks2 ⊢
    exact .quorum sig block hsig (not_lt.mp hsize) (hstored block rfl) hvalid.symm
      (by simp [Replica.record])

/-- What the replica knows about an aggregate QC that `VerifyAggregateQC` accepted. -/
structure AggregateChecked (r : Replica Sig) (aggQC : AggregateQC Sig) (sig : Sig) : Prop where
  signature : aggQC.sig = some sig
  size : M.quorum ≤ (M.S.participants sig).card
  valid : M.crypto.batchVerify sig (aggQC.messages M.S) = true
  recorded : Entry.batchVerified sig (aggQC.messages M.S) ∈ r.trace

/-- `VerifyAggregateQC` returns the QC with the highest claimed view, checked like the signatures of
a quorum over the timeout messages. -/
theorem verifyAggregateQC_spec (aggQC : AggregateQC Sig) (r : Replica Sig) :
    (verifyAggregateQC M aggQC).wp
      (fun highQC r' => LooksUp r r' ∧ ∀ qc, highQC = some qc →
        qc = pickHighQC (aggQC.qcs.entries.map Prod.snd) ∧ Checked M r' qc ∧
        ∃ sig, AggregateChecked M r' aggQC sig)
      (fun _ r' => LooksUp r r') r := by
  unfold verifyAggregateQC
  split
  · exact .refl r
  rename_i sig hsig
  split
  · exact ⟨.refl r, by simp⟩
  rename_i hsize
  refine wp_then (batchVerify_spec M sig (aggQC.messages M.S) r) ?_
  intro ok r1 hbatch
  have hlooks := hbatch.1
  cases ok with
  | false =>
    exact ⟨hlooks, by simp⟩
  | true =>
    obtain ⟨-, hvalid, hrecorded⟩ := hbatch
    have hr1 := hrecorded rfl
    simp only [if_true]
    refine wp_seq (verifyQuorumCert_spec M _ r1) ?_ (fun _ r' h => h ▸ hlooks)
    intro ok r2 hqc
    cases ok with
    | false =>
      exact ⟨hlooks.trans hqc.1, by simp⟩
    | true =>
      simp only [if_true, wp_pure, Option.some.injEq]
      refine ⟨hlooks.trans hqc.1, ?_⟩
      intro qc heq
      subst heq
      obtain ⟨new, hnew, -⟩ := hqc.1.trace
      refine ⟨rfl, hqc.2 rfl, sig, hsig, not_lt.mp hsize, hvalid.symm, ?_⟩
      rw [hnew, hr1]
      simp [Replica.record]

end NimbleChain.HotStuff
