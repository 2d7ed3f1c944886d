import NimbleChain.Common.ListSum

/-!
# Lists that are sorted by a key

Two lists that are strictly sorted by a key are merged, and elements are removed, in one pass over
both. The merge is a permutation of the new elements and of the old ones without a new key.
-/

namespace NimbleChain.Common.Keyed

open List

variable {α κ : Type}

section Lists

variable [LT κ]

/-- The lists with strictly increasing keys. -/
def Sorted (key : α → κ) (l : List α) : Prop :=
  l.Pairwise fun x y => key x < key y

variable {key : α → κ} {l : List α}

/-- Only the keys count. -/
theorem Sorted.of_map_eq {l' : List α} (h : Sorted key l) (heq : l'.map key = l.map key) :
    Sorted key l' := by
  have hkeys : (l.map key).Pairwise (· < ·) := pairwise_map.mpr h
  exact pairwise_map.mp (heq ▸ hkeys)

/-- A key that is not after the first one of a sorted list is not among the later ones. -/
theorem Sorted.ne_of_mem {x z : α} (h : Sorted key (x :: l)) (hz : z ∈ l) {k : κ}
    (hk : ¬ key x < k) : key z ≠ k := by
  rintro rfl
  exact hk ((pairwise_cons.mp h).1 z hz)

theorem Sorted.nodup [Std.Irrefl (α := κ) (· < ·)] (h : Sorted key l) : (l.map key).Nodup := by
  rw [List.Nodup, pairwise_map]
  refine h.imp ?_
  intro x y hlt heq
  exact Std.Irrefl.irrefl (key y) (heq ▸ hlt)

/-- The keys that come before a sorted list are not among its keys. -/
theorem Sorted.not_mem [Std.Irrefl (α := κ) (· < ·)] [IsTrans κ (· < ·)] {x y : α}
    (h : Sorted key (y :: l)) (hlt : key x < key y) : key x ∉ (y :: l).map key := by
  intro hmem
  obtain ⟨z, hz, heq⟩ := mem_map.mp hmem
  rcases mem_cons.mp hz with rfl | hz
  · exact Std.Irrefl.irrefl (key z) (heq.symm ▸ hlt)
  · have hyz := (pairwise_cons.mp h).1 z hz
    exact Std.Irrefl.irrefl (key z) (heq.symm ▸ IsTrans.trans _ _ _ hlt hyz)

end Lists

section Without

variable [DecidableEq κ] (key : α → κ)

/-- The elements whose key is not among the given ones. -/
def without (ks : List κ) (l : List α) : List α :=
  l.filter fun x => key x ∉ ks

variable {key} {ks : List κ} {l : List α} {x : α} {ks' : List κ} {l' : List α}

theorem mem_without : x ∈ without key ks l ↔ x ∈ l ∧ key x ∉ ks := by
  simp [without]

theorem without_cons_of_mem (h : key x ∈ ks) : without key ks (x :: l) = without key ks l :=
  filter_cons_of_neg (by simpa using h)

theorem without_cons_of_notMem (h : key x ∉ ks) : without key ks (x :: l) = x :: without key ks l :=
  filter_cons_of_pos (by simpa using h)

theorem without_key_cons {k : κ} (h : ∀ z ∈ l, key z ≠ k) :
    without key (k :: ks) l = without key ks l := by
  apply filter_congr
  intro z hz
  simp [h z hz]

theorem without_congr (h : ∀ k, k ∈ ks ↔ k ∈ ks') : without key ks l = without key ks' l := by
  apply filter_congr
  intro z _
  simp [h (key z)]

theorem without_sublist : (without key ks l).Sublist l :=
  filter_sublist

theorem without_perm (h : l.Perm l') : (without key ks l).Perm (without key ks l') :=
  h.filter _

theorem without_append : without key ks (l ++ l') = without key ks l ++ without key ks l' :=
  filter_append l l'

theorem without_eq_self (h : ∀ z ∈ l, key z ∉ ks) : without key ks l = l :=
  filter_eq_self.mpr fun z hz => by simpa using h z hz

theorem without_without : without key ks (without key ks' l) = without key (ks' ++ ks) l := by
  rw [without, without, filter_filter, without]
  apply filter_congr
  intro z _
  simp [and_comm]

end Without

section Values

variable [DecidableEq κ] (key : α → κ) (f : α → Int)

/-- A quantity of the element with a key; zero if there is none. -/
def valueAt (l : List α) (k : κ) : Int :=
  (l.find? fun x => key x = k).elim 0 f

variable {key f} {l : List α} {x : α}

theorem valueAt_eq_zero {k : κ} (h : k ∉ l.map key) : valueAt key f l k = 0 := by
  have hnone : (l.find? fun x => key x = k) = none := by
    rw [find?_eq_none]
    intro x hx hk
    exact h (mem_map.mpr ⟨x, hx, by simpa using hk⟩)
  rw [valueAt, hnone]
  rfl

theorem valueAt_cons (hx : key x ∉ l.map key) (k : κ) :
    valueAt key f (x :: l) k = (if key x = k then f x else 0) + valueAt key f l k := by
  by_cases hk : key x = k
  · have hrest : valueAt key f l k = 0 := valueAt_eq_zero (hk ▸ hx)
    rw [if_pos hk, hrest, valueAt, find?_cons_of_pos (by simpa using hk), Int.add_zero]
    rfl
  · rw [if_neg hk, valueAt, find?_cons_of_neg (by simpa using hk), Int.zero_add]
    rfl

theorem valueAt_of_mem (hl : (l.map key).Nodup) (hx : x ∈ l) : valueAt key f l (key x) = f x := by
  induction l with
  | nil => cases hx
  | cons y l ih =>
    obtain ⟨hy, hl⟩ := nodup_cons.mp hl
    rw [valueAt_cons hy]
    rcases mem_cons.mp hx with rfl | hx
    · rw [if_pos rfl, valueAt_eq_zero hy, Int.add_zero]
    · have hne : key y ≠ key x := fun h => hy (h ▸ mem_map_of_mem hx)
      rw [if_neg hne, ih hl hx, Int.zero_add]

/-- The elements with given keys and the others make up the whole. -/
theorem sumOf_without_add {ks : List κ} (hl : (l.map key).Nodup) (hks : ks.Nodup) :
    sumOf f (without key ks l) + sumOf (valueAt key f l) ks = sumOf f l := by
  induction l with
  | nil =>
    rw [sumOf_congr (g := fun _ => 0) fun k _ => valueAt_eq_zero (by simp), sumOf_const,
      Int.mul_zero]
    rfl
  | cons x l ih =>
    obtain ⟨hx, hl⟩ := nodup_cons.mp hl
    have hvalues : sumOf (valueAt key f (x :: l)) ks =
        (if key x ∈ ks then f x else 0) + sumOf (valueAt key f l) ks := by
      rw [← sumOf_ite hks, ← sumOf_add]
      exact sumOf_congr fun k _ => valueAt_cons hx k
    have ih := ih hl
    rw [hvalues]
    by_cases hmem : key x ∈ ks
    · rw [if_pos hmem, without_cons_of_mem hmem, sumOf]
      omega
    · rw [if_neg hmem, without_cons_of_notMem hmem, sumOf, sumOf]
      omega

end Values

section Operations

variable [LT κ] [DecidableLT κ] [DecidableEq κ] (key : α → κ)

/-- Merge an element and the merge of what follows it into a list. -/
def mergeCons (x : α) (old : List α) (mergeOld : List α → List α) : List α → List α
  | [] => x :: old
  | y :: new =>
    if key x < key y then x :: mergeOld (y :: new)
    else if key x = key y then y :: mergeOld new
    else y :: mergeCons x old mergeOld new

/-- Merge two lists. Of two elements with one key, the one of the second list is taken. -/
def merge : List α → List α → List α
  | [] => fun new => new
  | x :: old => mergeCons key x old (merge old)

/-- Remove the elements with the keys of another list; `none` if one of them is not found. -/
def removeAll : List α → List α → Option (List α)
  | existing, [] => some existing
  | [], _ :: _ => none
  | x :: existing, y :: deletes =>
    if key x = key y then removeAll existing deletes
    else (removeAll existing (y :: deletes)).map (x :: ·)

variable {key} {old new : List α} {x y : α}

theorem merge_cons_lt (h : key x < key y) :
    merge key (x :: old) (y :: new) = x :: merge key old (y :: new) :=
  if_pos h

theorem merge_cons_eq (hlt : ¬ key x < key y) (h : key x = key y) :
    merge key (x :: old) (y :: new) = y :: merge key old new :=
  (if_neg hlt).trans (if_pos h)

theorem merge_cons_gt (hlt : ¬ key x < key y) (h : key x ≠ key y) :
    merge key (x :: old) (y :: new) = y :: merge key (x :: old) new :=
  (if_neg hlt).trans (if_neg h)

variable [Std.Irrefl (α := κ) (· < ·)] [IsTrans κ (· < ·)]

section

variable (hold : Sorted key old) (hnew : Sorted key new)

include hold hnew

/-- What a merge consists of. -/
theorem merge_perm : (merge key old new).Perm (new ++ without key (new.map key) old) := by
  induction old generalizing new with
  | nil => exact .of_eq (append_nil new).symm
  | cons x old ih =>
    have hold' : Sorted key old := (pairwise_cons.mp hold).2
    induction new with
    | nil => exact .of_eq (without_eq_self fun _ _ => not_mem_nil).symm
    | cons y new ihnew =>
      have hnew' : Sorted key new := (pairwise_cons.mp hnew).2
      by_cases hlt : key x < key y
      · rw [merge_cons_lt hlt, without_cons_of_notMem (hnew.not_mem hlt)]
        exact ((ih hold' hnew).cons x).trans perm_middle.symm
      · by_cases heq : key x = key y
        · have hne : ∀ z ∈ old, key z ≠ key y := fun z hz => hold.ne_of_mem hz hlt
          rw [merge_cons_eq hlt heq, without_cons_of_mem (by simp [heq]), map_cons,
            without_key_cons hne]
          exact (ih hold' hnew').cons y
        · have hne : ∀ z ∈ x :: old, key z ≠ key y := by
            intro z hz
            rcases mem_cons.mp hz with rfl | hz
            · exact heq
            · exact hold.ne_of_mem hz hlt
          rw [merge_cons_gt hlt heq, map_cons, without_key_cons hne]
          exact (ihnew hnew').cons y

theorem mem_or_mem_of_mem_merge {z : α} (hz : z ∈ merge key old new) : z ∈ old ∨ z ∈ new := by
  rcases mem_append.mp ((merge_perm hold hnew).mem_iff.mp hz) with hz | hz
  · exact .inr hz
  · exact .inl (mem_without.mp hz).1

/-- A merge is sorted. -/
theorem sorted_merge [Std.Trichotomous (α := κ) (· < ·)] : Sorted key (merge key old new) := by
  induction old generalizing new with
  | nil => exact hnew
  | cons x old ih =>
    obtain ⟨hx, hold'⟩ := pairwise_cons.mp hold
    induction new with
    | nil => exact hold
    | cons y new ihnew =>
      obtain ⟨hy, hnew'⟩ := pairwise_cons.mp hnew
      by_cases hlt : key x < key y
      · rw [merge_cons_lt hlt]
        refine pairwise_cons.mpr ⟨?_, ih hold' hnew⟩
        intro z hz
        rcases mem_or_mem_of_mem_merge hold' hnew hz with hz | hz
        · exact hx z hz
        · rcases mem_cons.mp hz with rfl | hz
          · exact hlt
          · exact IsTrans.trans _ _ _ hlt (hy z hz)
      · by_cases heq : key x = key y
        · rw [merge_cons_eq hlt heq]
          refine pairwise_cons.mpr ⟨?_, ih hold' hnew'⟩
          intro z hz
          rcases mem_or_mem_of_mem_merge hold' hnew' hz with hz | hz
          · exact heq ▸ hx z hz
          · exact hy z hz
        · have hgt : key y < key x := by
            by_contra hge
            exact heq (Std.Trichotomous.trichotomous _ _ hlt hge)
          rw [merge_cons_gt hlt heq]
          refine pairwise_cons.mpr ⟨?_, ihnew hnew'⟩
          intro z hz
          rcases mem_or_mem_of_mem_merge hold hnew' hz with hz | hz
          · rcases mem_cons.mp hz with rfl | hz
            · exact hgt
            · exact IsTrans.trans _ _ _ hgt (hx z hz)
          · exact hy z hz

end

omit [DecidableLT κ] in
/-- The elements to be removed are found if their keys are there. -/
theorem removeAll_eq {existing deletes : List α} (hexisting : Sorted key existing)
    (hdeletes : Sorted key deletes) (hmem : ∀ y ∈ deletes, key y ∈ existing.map key) :
    removeAll key existing deletes = some (without key (deletes.map key) existing) := by
  -- sorted keys that are there are there in their order
  have hsublist : deletes.map key <+ existing.map key := by
    have : Std.Antisymm (α := κ) (· < ·) :=
      ⟨fun x y hxy hyx => absurd (IsTrans.trans _ _ _ hxy hyx) (Std.Irrefl.irrefl x)⟩
    have hsubperm := subperm_of_subset hdeletes.nodup (forall_mem_map.mpr hmem)
    exact sublist_of_subperm_of_pairwise hsubperm (pairwise_map.mpr hdeletes)
      (pairwise_map.mpr hexisting)
  clear hmem hdeletes
  induction existing generalizing deletes with
  | nil =>
    rw [map_eq_nil_iff.mp (sublist_nil.mp hsublist)]
    rfl
  | cons x existing ih =>
    obtain ⟨hx, hexisting'⟩ := pairwise_cons.mp hexisting
    cases deletes with
    | nil => exact congrArg some (without_eq_self fun _ _ => not_mem_nil).symm
    | cons y deletes =>
      rw [map_cons, map_cons] at hsublist
      rw [removeAll]
      by_cases heq : key x = key y
      · have hnot : ∀ z ∈ existing, key z ≠ key y := by
          intro z hz
          exact hexisting.ne_of_mem hz (heq ▸ Std.Irrefl.irrefl (key x))
        rw [heq] at hsublist
        rw [if_pos heq, without_cons_of_mem (by simp [heq]), map_cons, without_key_cons hnot]
        exact ih hexisting' (cons_sublist_cons.mp hsublist)
      · have hrest : (y :: deletes).map key <+ existing.map key :=
          hsublist.of_cons_of_ne (Ne.symm heq)
        have hx' : key x ∉ (y :: deletes).map key := by
          intro hin
          obtain ⟨z, hz, hzx⟩ := mem_map.mp (hrest.subset hin)
          exact Std.Irrefl.irrefl (key x) (by simpa [hzx] using hx z hz)
        rw [if_neg heq, ih hexisting' hrest, Option.map_some, without_cons_of_notMem hx']

end Operations

end NimbleChain.Common.Keyed
