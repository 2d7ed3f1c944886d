import NimbleChain.HotStuff.Types

/-!
# The partitions of Handel

`handel/partitioner.go` sorts the replicas into levels. From the last level down it halves the range
with the own replica, and a level is the half without it. The last level `⌈log2 n⌉`, which the
source computes with floating-point numbers, is `Nat.clog 2 n`. A panic is `none`.
-/

namespace NimbleChain.HotStuff.Handel

open Nat

/-- The half of a range that contains the own replica. -/
def ownHalf (selfIndex : Nat) (range : Nat × Nat) : Nat × Nat :=
  let mid := (range.1 + range.2) / 2
  if selfIndex > mid then (mid + 1, range.2) else (range.1, mid)

/-- The half of a range that does not contain the own replica. -/
def otherHalf (selfIndex : Nat) (range : Nat × Nat) : Nat × Nat :=
  let mid := (range.1 + range.2) / 2
  if selfIndex > mid then (range.1, mid) else (mid + 1, range.2)

/-- The last level of a session with `n` replicas. -/
def maxLevel (n : Nat) : Nat :=
  clog 2 n

/-- The range with the replica `i` of `n` after a number of halvings. -/
def own (n i count : Nat) : Nat × Nat :=
  (ownHalf i)^[count] (0, n - 1)

/-- `partitioner`. -/
structure Partitioner where
  ids : List ID
  selfIndex : Nat

namespace Partitioner

variable (p : Partitioner) (level : Nat)

/-- `rangeLevel`: the loop takes the own half above the level and the other half at it. -/
def rangeLevel : Option (Nat × Nat) :=
  if level > maxLevel p.ids.length then none
  else some (otherHalf p.selfIndex (own p.ids.length p.selfIndex (maxLevel p.ids.length - level)))

/-- `partition`. -/
def partition : Option (List ID) :=
  (p.rangeLevel level).map fun range => (p.ids.take (range.2 + 1)).drop range.1

/-- `size`. -/
def size : Option Int :=
  (p.rangeLevel level).map fun range => (range.2 : Int) - range.1 + 1

end Partitioner

open Partitioner

/-- The fields of `level` that `sendContributionToLevel` uses. -/
structure Level (Sig : Type) where
  outgoing : Option Sig
  cp : ID → Int

/-- `sendContributionToLevel`: the replica that is contacted and the new priorities. -/
def sendContributionToLevel {Sig : Type} (p : Partitioner) (level : Level Sig) (levelIndex : Nat) :
    Option (Option ID × Level Sig) :=
  match level.outgoing with
  | none => some (none, level)
  | some _ =>
    match p.partition levelIndex with
    | none | some [] => none
    | some (first :: rest) =>
      let id := (first :: rest).foldl (fun id i => if level.cp i < level.cp id then i else id) first
      some (some id,
        { level with cp := Function.update level.cp id (level.cp id + p.ids.length) })

/-- The indices of a range. -/
def indices (range : Nat × Nat) : Set Nat :=
  Set.Icc range.1 range.2

@[simp] theorem mem_indices {i : Nat} {range : Nat × Nat} :
    i ∈ indices range ↔ range.1 ≤ i ∧ i ≤ range.2 :=
  .rfl

section Halves

variable {i j : Nat} {range : Nat × Nat}

/-- Halving keeps the own replica and rounds the size of the range up or down. -/
theorem ownHalf_spec (hi : i ∈ indices range) :
    i ∈ indices (ownHalf i range) ∧
      (range.2 + 1 - range.1) / 2 ≤ (ownHalf i range).2 + 1 - (ownHalf i range).1 ∧
      (ownHalf i range).2 + 1 - (ownHalf i range).1 ≤ (range.2 + 1 - range.1 + 1) / 2 := by
  simp only [mem_indices, ownHalf] at *
  split <;> dsimp only <;> omega

/-- The replicas of the own half are in the range and have that half in common. -/
theorem ownHalf_congr (hj : j ∈ indices (ownHalf i range)) :
    j ∈ indices range ∧ ownHalf j range = ownHalf i range := by
  simp only [mem_indices, ownHalf] at *
  split at hj <;> dsimp only at hj
  · exact ⟨by omega, by rw [if_pos (by omega), if_pos (by assumption)]⟩
  · exact ⟨by omega, by rw [if_neg (by omega), if_neg (by assumption)]⟩

theorem mem_otherHalf (hi : i ∈ indices range) :
    j ∈ indices (otherHalf i range) ↔ j ∈ indices range ∧ j ∉ indices (ownHalf i range) := by
  simp only [mem_indices, ownHalf, otherHalf] at *
  split <;> dsimp only <;> omega

/-- The other half has indices if the range has more than one. -/
theorem otherHalf_bounds (hi : i ∈ indices range) :
    (otherHalf i range).1 ≤ (otherHalf i range).2 + 1 ∧ (otherHalf i range).2 ≤ range.2 ∧
      ((otherHalf i range).1 ≤ (otherHalf i range).2 ↔ range.1 < range.2) := by
  simp only [mem_indices, otherHalf] at *
  split <;> dsimp only <;> omega

end Halves

section Ranges

variable {n i j count : Nat}

theorem own_succ : own n i (count + 1) = ownHalf i (own n i count) :=
  Function.iterate_succ_apply' ..

/-- The own range holds the own replica, and its size is the number of replicas over a power of
two, rounded up or down. -/
theorem own_spec (hi : i < n) (count : Nat) :
    i ∈ indices (own n i count) ∧
      n / 2 ^ count ≤ (own n i count).2 + 1 - (own n i count).1 ∧
      (own n i count).2 - (own n i count).1 ≤ (n - 1) / 2 ^ count := by
  induction count with
  | zero =>
    rw [Nat.pow_zero, Nat.div_one, Nat.div_one]
    change (0 ≤ i ∧ i ≤ n - 1) ∧ n ≤ n - 1 + 1 - 0 ∧ n - 1 - 0 ≤ n - 1
    omega
  | succ count ih =>
    obtain ⟨hmem, hle, hge⟩ := ih
    obtain ⟨hmem', hle', hge'⟩ := ownHalf_spec hmem
    rw [own_succ, Nat.pow_succ, ← Nat.div_div_eq_div_mul, ← Nat.div_div_eq_div_mul]
    exact ⟨hmem', by omega, by omega⟩

theorem own_antitone : Antitone fun count => indices (own n i count) := by
  refine antitone_nat_of_succ_le fun count j hj => ?_
  rw [own_succ] at hj
  exact (ownHalf_congr hj).1

/-- The replicas of the own range have that range in common. -/
theorem own_congr (hj : j ∈ indices (own n i count)) : own n j count = own n i count := by
  induction count with
  | zero => rfl
  | succ count ih =>
    have hsame := ih (own_antitone count.le_succ hj)
    rw [own_succ] at hj
    rw [own_succ, own_succ, hsame, (ownHalf_congr hj).2]

/-- The last replica is always in the upper half, whose size is rounded down. -/
theorem own_last (hn : 1 ≤ n) (count : Nat) :
    (own n (n - 1) count).2 = n - 1 ∧ ((own n (n - 1) count).1 = n - 1 ∨
      n - (own n (n - 1) count).1 ≤ n / 2 ^ count) := by
  induction count with
  | zero => exact ⟨rfl, .inr (by simp [own])⟩
  | succ count ih =>
    obtain ⟨hlast, ih⟩ := ih
    have hmem := (own_spec (sub_one_lt_of_lt hn) count).1.1
    rw [Nat.pow_succ, ← Nat.div_div_eq_div_mul, own_succ, ownHalf, hlast]
    split <;> dsimp only <;> omega

/-- The last range holds the own replica alone. -/
theorem eq_of_mem_own_maxLevel (hi : i < n) (hj : j ∈ indices (own n i (maxLevel n))) : j = i := by
  have hn : n ≤ 2 ^ maxLevel n := le_pow_clog Nat.one_lt_two n
  obtain ⟨hown, -, hwidth⟩ := own_spec hi (maxLevel n)
  rw [div_eq_of_lt (by omega)] at hwidth
  rw [mem_indices] at hj hown
  omega

end Ranges

section Levels

variable {ids : List ID} {i j level count : Nat}

/-- A replica is in the partition of a level of the replica with index `i`. -/
def InLevel (ids : List ID) (i level : Nat) (id : ID) : Prop :=
  ∃ part, (mk ids i).partition level = some part ∧ id ∈ part

theorem rangeLevel_eq (hlevel : level + count = maxLevel ids.length) :
    (mk ids i).rangeLevel level = some (otherHalf i (own ids.length i count)) := by
  rw [rangeLevel, if_neg (by dsimp only; omega)]
  dsimp only
  rw [← hlevel, Nat.add_sub_cancel_left]

section Members

variable (hids : ids.Nodup) (hi : i < ids.length) (hj : j < ids.length)

include hids hi hj

/-- The replicas of a level are those that the last halving separates. -/
theorem inLevel_iff (hlevel : level + count = maxLevel ids.length) :
    InLevel ids i level ids[j] ↔
      j ∈ indices (own ids.length i count) ∧ j ∉ indices (own ids.length i (count + 1)) := by
  have hget := List.getElem?_eq_getElem hj
  rw [own_succ, ← mem_otherHalf (own_spec hi count).1]
  simp only [InLevel, partition, rangeLevel_eq hlevel, Option.map_some,
    Option.some.injEq, exists_eq_left', List.mem_iff_getElem?, List.getElem?_drop,
    List.getElem?_take, mem_indices, ← hget]
  constructor
  · rintro ⟨t, ht⟩
    split at ht
    · have heq := (List.getElem?_inj hj hids).mp ht.symm
      omega
    · exact absurd (ht.trans hget) nofun
  · rintro ⟨hfirst, hlast⟩
    exact ⟨_, by rw [Nat.add_sub_cancel' hfirst, if_pos (Nat.lt_succ_of_le hlast)]⟩

/-- Every other replica has exactly one level. -/
theorem existsUnique_inLevel (hne : j ≠ i) :
    ∃! level, (1 ≤ level ∧ level ≤ maxLevel ids.length) ∧ InLevel ids i level ids[j] := by
  have hleaves : j ∉ indices (own ids.length i (maxLevel ids.length)) := fun hmem =>
    hne (eq_of_mem_own_maxLevel hi hmem)
  -- the last range that still holds the other replica
  obtain ⟨count, hin, hout⟩ := exists_not_and_succ_of_not_zero_of_exists
    (p := fun count => j ∉ indices (own ids.length i count))
    (not_not.mpr ⟨zero_le j, le_sub_one_of_lt hj⟩) ⟨_, hleaves⟩
  rw [not_not] at hin
  have hcount : count < maxLevel ids.length := by
    by_contra hge
    exact hleaves (own_antitone (Nat.le_of_not_lt hge) hin)
  refine ⟨maxLevel ids.length - count, ⟨by omega, ?_⟩, ?_⟩
  · exact (inLevel_iff hids hi hj (by omega)).mpr ⟨hin, hout⟩
  · rintro level ⟨⟨-, hle⟩, hmem⟩
    obtain ⟨count', hcount'⟩ := Nat.exists_eq_add_of_le hle
    obtain ⟨hin', hout'⟩ := (inLevel_iff hids hi hj hcount'.symm).mp hmem
    have hnot : ¬ count + 1 ≤ count' := fun h => hout (own_antitone h hin')
    have hnot' : ¬ count' + 1 ≤ count := fun h => hout' (own_antitone h hin)
    omega

theorem inLevel_symm (hlevel : level ≤ maxLevel ids.length)
    (hmem : InLevel ids i level ids[j]) : InLevel ids j level ids[i] := by
  obtain ⟨count, hcount⟩ := Nat.exists_eq_add_of_le hlevel
  obtain ⟨hin, hout⟩ := (inLevel_iff hids hi hj hcount.symm).mp hmem
  refine (inLevel_iff hids hj hi hcount.symm).mpr ⟨?_, fun hback => hout ?_⟩
  · rw [own_congr hin]
    exact (own_spec hi count).1
  · rw [own_congr hback]
    exact (own_spec hj (count + 1)).1

end Members

/-- A level is empty when the range that is halved has no second replica. -/
theorem partition_spec (hi : i < ids.length) (hlevel : level + count = maxLevel ids.length) :
    ∃ part, (Partitioner.mk ids i).partition level = some part ∧
      (Partitioner.mk ids i).size level = some (part.length : Int) ∧
      (part ≠ [] ↔ (own ids.length i count).1 < (own ids.length i count).2) := by
  have hmem := (own_spec hi count).1
  have hlast : (own ids.length i count).2 ≤ ids.length - 1 :=
    (own_antitone (zero_le count) ⟨hmem.1.trans hmem.2, le_rfl⟩).2
  obtain ⟨hfirst, hle, hiff⟩ := otherHalf_bounds hmem
  refine ⟨_, by rw [Partitioner.partition, rangeLevel_eq hlevel, Option.map_some], ?_⟩
  rw [Partitioner.size, rangeLevel_eq hlevel, Option.map_some, ← List.length_pos_iff, ← hiff,
    List.length_drop, List.length_take]
  dsimp only
  rw [min_eq_left (by omega), Option.some.injEq]
  omega

theorem sendContributionToLevel_isSome {Sig : Type} (signature : Sig) (cp : ID → Int)
    (hi : i < ids.length) (hlevel : level + count = maxLevel ids.length) :
    (sendContributionToLevel ⟨ids, i⟩ ⟨some signature, cp⟩ level).isSome ↔
      (own ids.length i count).1 < (own ids.length i count).2 := by
  obtain ⟨part, hpart, -, hne⟩ := partition_spec hi hlevel
  rw [← hne]
  cases part <;> simp [sendContributionToLevel, hpart]

/-- The ranges of all levels hold a second replica if the number of replicas is a power of two. -/
theorem own_lt_iff {n : Nat} (hn : 2 ≤ n) :
    (∀ i < n, ∀ level, 1 ≤ level → level ≤ maxLevel n →
      (own n i (maxLevel n - level)).1 < (own n i (maxLevel n - level)).2) ↔
    ∃ k, n = 2 ^ k := by
  constructor
  · intro hall
    have hpos : 1 ≤ maxLevel n := Nat.clog_pos Nat.one_lt_two hn
    -- the range of the last replica becomes small first
    have hlast := hall (n - 1) (by omega) 1 le_rfl hpos
    have hwidth := own_last (Nat.le_of_succ_le hn) (maxLevel n - 1)
    have hhalf : 2 ≤ n / 2 ^ (maxLevel n - 1) := by omega
    rw [Nat.le_div_iff_mul_le (Nat.two_pow_pos _), ← Nat.pow_succ', Nat.succ_eq_add_one,
      Nat.sub_add_cancel hpos] at hhalf
    exact ⟨maxLevel n, Nat.le_antisymm (Nat.le_pow_clog Nat.one_lt_two _) hhalf⟩
  · rintro ⟨k, rfl⟩ i hi level hpos hle
    have hwidth := (own_spec hi (maxLevel (2 ^ k) - level)).2.1
    rw [maxLevel, Nat.clog_pow 2 k Nat.one_lt_two] at *
    rw [Nat.pow_div (Nat.sub_le k level) Nat.two_pos, Nat.sub_sub_self hle] at hwidth
    have htwo : 2 ^ 1 ≤ 2 ^ level := Nat.pow_le_pow_right Nat.two_pos hpos
    omega

/-- The levels of every replica partition the other replicas, symmetrically. A replica finds a
member of a level exactly when the range halved there has a second replica, which is so everywhere
exactly when their number is a power of two. -/
theorem levels_usable {Sig : Type} (signature : Sig) (cp : ID → Int) (ids : List ID)
    (hids : ids.Nodup) (hn : 2 ≤ ids.length) :
    (∀ i j : Fin ids.length, j ≠ i →
      ∃! level, (1 ≤ level ∧ level ≤ maxLevel ids.length) ∧ InLevel ids i level ids[j]) ∧
    (∀ i j : Fin ids.length, ∀ level, 1 ≤ level → level ≤ maxLevel ids.length →
      ¬ InLevel ids i level ids[i] ∧
      (InLevel ids i level ids[j] ↔ InLevel ids j level ids[i]) ∧
      ((sendContributionToLevel ⟨ids, i⟩ ⟨some signature, cp⟩ level).isSome ↔
        (own ids.length i (maxLevel ids.length - level)).1 <
          (own ids.length i (maxLevel ids.length - level)).2)) ∧
    ((∀ i < ids.length, ∀ level, 1 ≤ level → level ≤ maxLevel ids.length →
      (sendContributionToLevel ⟨ids, i⟩ ⟨some signature, cp⟩ level).isSome) ↔
      ∃ k, ids.length = 2 ^ k) := by
  refine ⟨fun i j hne => existsUnique_inLevel hids i.2 j.2 (Fin.val_ne_of_ne hne), ?_, ?_⟩
  · intro i j level hpos hle
    refine ⟨?_, ⟨inLevel_symm hids i.2 j.2 hle, inLevel_symm hids j.2 i.2 hle⟩,
      sendContributionToLevel_isSome signature cp i.2 (add_sub_of_le hle)⟩
    intro hmem
    exact ((inLevel_iff hids i.2 i.2 (add_sub_of_le hle)).mp hmem).2 (own_spec i.2 _).1
  · rw [← own_lt_iff hn]
    refine forall₂_congr fun i hi => forall₃_congr fun level _ hle => ?_
    exact sendContributionToLevel_isSome signature cp hi (add_sub_of_le hle)

/-- Of three replicas the last one is alone in its range before level 1: that level is empty, and
sending to it panics. -/
theorem third_of_three_panics :
    (mk [1, 2, 3] 2).partition 1 = some [] ∧
    sendContributionToLevel ⟨[1, 2, 3], 2⟩ ⟨some (), fun _ => 0⟩ 1 = none := by
  have hpart : (mk [1, 2, 3] 2).partition 1 = some [] := by decide +kernel
  exact ⟨hpart, by rw [sendContributionToLevel, hpart]⟩

theorem levels_usable_four :
    (sendContributionToLevel ⟨[1, 2, 3, 4], 3⟩ ⟨some (), fun _ => 0⟩ 1).isSome :=
  (levels_usable () (fun _ => 0) [1, 2, 3, 4] (by decide) (by decide)).2.2.mpr ⟨2, rfl⟩ 3
    (by decide) 1 le_rfl (clog_pos Nat.one_lt_two (by decide))

end Levels

end NimbleChain.HotStuff.Handel
