import NimbleChain.Common.CertifiedChain

/-!
# Execution along a block tree

A replica executes committed blocks together with the ancestors it has not executed yet. It decides
by views where to stop on the way down, so that its sequence is a path of the tree only because
committed blocks lie on one branch.
-/

namespace NimbleChain.Common

variable {V B : Type*} (T : BlockTree B)

/-- `Linked xs b`: the blocks `xs` lead from the genesis block, which is not listed, to `b`. -/
inductive Linked : List B → B → Prop where
  | genesis : Linked [] T.genesis
  | snoc {xs : List B} {b : B} : Linked xs (T.parent b) → b ≠ T.genesis → Linked (xs ++ [b]) b

/-- `Path a xs b`: the blocks `xs` lead from a child of `a` to `b`. -/
inductive Path : B → List B → B → Prop where
  | single (b : B) : Path (T.parent b) [b] b
  | snoc {a : B} {xs : List B} {b : B} : Path a xs (T.parent b) → Path a (xs ++ [b]) b

/-- `Executed committed xs e`: the blocks `xs` were executed up to `e` by commits, each along a path
to a block `b` through blocks newer than the last executed one, from a block that is not. -/
inductive Executed (committed : B → Prop) : List B → B → Prop where
  | start : Executed committed [] T.genesis
  | commit {done : List B} {e a : B} {xs : List B} {b : B} : Executed committed done e →
      committed b → Path T a xs b → T.view a ≤ T.view e → (∀ x ∈ xs, T.view e < T.view x) →
      Executed committed (done ++ xs) b

variable {T} {a b e : B} {xs ys : List B}

theorem Linked.unique (h : Linked T xs b) (h' : Linked T ys b) : xs = ys := by
  induction h generalizing ys with
  | genesis =>
    cases h' with
    | genesis => rfl
    | snoc _ hne => exact absurd rfl hne
  | snoc _ hne ih =>
    cases h' with
    | genesis => exact absurd rfl hne
    | snoc hys _ => rw [ih hys]

/-- The way to an ancestor is the beginning of the way to a block. -/
theorem Linked.prefix_of_ancestor (hx : Linked T xs a) (hy : Linked T ys b)
    (hab : T.Ancestor a b) : xs <+: ys := by
  induction hy generalizing xs with
  | genesis =>
    obtain ⟨n, hn⟩ := hab
    rw [Function.iterate_fixed T.parent_genesis] at hn
    subst hn
    rw [hx.unique .genesis]
  | snoc hys hne ih =>
    obtain ⟨n, hn⟩ := hab
    cases n with
    | zero =>
      rw [Function.iterate_zero, id] at hn
      subst hn
      rw [hx.unique (.snoc hys hne)]
    | succ n => exact (ih hx ⟨n, hn⟩).trans (List.prefix_append _ _)

theorem Path.mem_last (h : Path T a xs b) : b ∈ xs := by
  cases h <;> simp

/-- A path on top of the way to its start is the way to its end. -/
theorem Path.linked (h : Path T a xs b) (hys : Linked T ys a) (hne : ∀ x ∈ xs, x ≠ T.genesis) :
    Linked T (ys ++ xs) b := by
  induction h with
  | single b => exact .snoc hys (hne b (by simp))
  | snoc _ ih =>
    rw [← List.append_assoc]
    exact .snoc (ih hys fun x hx => hne x (List.mem_append_left _ hx)) (hne _ (by simp))

variable {S : QuorumSystem V} {log : List (V × Act B)}

/-- Down from a certified block through blocks newer than its ancestor `e`, the first block that is
not newer is `e`. -/
theorem Path.start_eq (h : SoundVotes T S log) (hpath : Path T a xs b)
    (hb : Certified T S log b) (heb : T.Ancestor e b) (hnew : ∀ x ∈ xs, T.view e < T.view x)
    (hold : T.view a ≤ T.view e) : a = e := by
  induction hpath with
  | single b =>
    have hlt := hnew b (by simp)
    have hparent := h.certified_parent hb (T.ne_genesis hlt)
    obtain ⟨hecert, hle⟩ := h.certified_ancestor hparent (heb.parent_of_lt hlt)
    exact h.certified_unique hparent hecert (by omega)
  | snoc hxs ih =>
    rename_i xs b
    have hlt := hnew b (by simp)
    exact ih (h.certified_parent hb (T.ne_genesis hlt)) (heb.parent_of_lt hlt)
      (fun x hx => hnew x (List.mem_append_left _ hx)) hold

section Safe

variable {committed : B → Prop} (h : SoundVotes T S log)
  (hcert : ∀ b, committed b → Certified T S log b)
  (hsafe : ∀ c b, committed c → Certified T S log b → T.view c ≤ T.view b → T.Ancestor c b)

include hcert in
/-- The last executed block is certified. -/
theorem Executed.certified (hx : Executed T committed xs e) : Certified T S log e := by
  cases hx with
  | start => exact .inl rfl
  | commit _ hb _ _ _ => exact hcert _ hb

include h hsafe in
/-- Every certified block that is not older than the last executed block descends from it. -/
theorem Executed.ancestor_of_certified (hx : Executed T committed xs e)
    (hb : Certified T S log b) (hview : T.view e ≤ T.view b) : T.Ancestor e b := by
  cases hx with
  | start => exact h.ancestor_genesis hb
  | commit _ hcommitted _ _ _ => exact hsafe _ _ hcommitted hb hview

include h hcert hsafe in
/-- If certified blocks descend from the committed blocks that are not newer, the executed blocks
lead from the genesis block to the last one. -/
theorem Executed.linked (hx : Executed T committed xs e) : Linked T xs e := by
  induction hx with
  | start => exact .genesis
  | commit hdone hb hpath hold hnew ih =>
    rename_i done e a ys b
    have hbcert := hcert _ hb
    have heb : T.Ancestor e b := hdone.ancestor_of_certified h hsafe hbcert
      (hnew b hpath.mem_last).le
    obtain rfl : a = e := hpath.start_eq h hbcert heb hnew hold
    exact hpath.linked ih fun x hx => T.ne_genesis (hnew x hx)

include h hcert hsafe in
/-- The executed sequences of any two replicas are comparable. -/
theorem Executed.prefix_or_prefix {e' : B} (hx : Executed T committed xs e)
    (hy : Executed T committed ys e') : xs <+: ys ∨ ys <+: xs := by
  have hlinked := hx.linked h hcert hsafe
  have hlinked' := hy.linked h hcert hsafe
  rcases le_total (T.view e) (T.view e') with hle | hle
  · exact .inl (hlinked.prefix_of_ancestor hlinked'
      (hx.ancestor_of_certified h hsafe (hy.certified hcert) hle))
  · exact .inr (hlinked'.prefix_of_ancestor hlinked
      (hy.ancestor_of_certified h hsafe (hx.certified hcert) hle))

end Safe

end NimbleChain.Common
