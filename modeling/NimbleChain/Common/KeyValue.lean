import NimbleChain.Common.Bytes

/-!
# Key-value databases

A database maps keys to byte strings; a key without an entry has the empty string. A program makes
single atomic writes; if it is stopped, the writes up to some point were made.
-/

namespace NimbleChain.Common.KeyValue

open Common

variable {κ : Type}

/-- The contents of a database. -/
abbrev DB (κ : Type) := κ → Bytes

/-- A single write. -/
inductive Write (κ : Type) where
  | set (key : κ) (value : Bytes)
  | delete (key : κ)
  deriving DecidableEq

/-- The key that is written to. -/
def Write.key : Write κ → κ
  | set key _ => key
  | delete key => key

/-- What is found under the key afterwards. -/
def Write.value : Write κ → Bytes
  | set _ value => value
  | delete _ => []

variable [DecidableEq κ] (db : DB κ)

/-- The database after a write. -/
def Write.apply (w : Write κ) : DB κ :=
  fun key => if key = w.key then w.value else db key

/-- The database after some writes. -/
def applyAll (ws : List (Write κ)) : DB κ :=
  ws.foldl Write.apply db

@[simp] theorem applyAll_cons (w : Write κ) (ws : List (Write κ)) :
    applyAll db (w :: ws) = applyAll (w.apply db) ws :=
  rfl

theorem applyAll_append (ws ws' : List (Write κ)) :
    applyAll db (ws ++ ws') = applyAll (applyAll db ws) ws' :=
  List.foldl_append

variable {db : DB κ} {ws : List (Write κ)} {key : κ}

/-- Other keys keep their entries. -/
theorem applyAll_frame (h : ∀ w ∈ ws, w.key ≠ key) : applyAll db ws key = db key := by
  induction ws generalizing db with
  | nil => rfl
  | cons w ws ih =>
    obtain ⟨hw, hws⟩ := List.forall_mem_cons.mp h
    rw [applyAll_cons, ih hws, Write.apply, if_neg (Ne.symm hw)]

/-- If all writes to a key agree, it has the entry that they write. -/
theorem applyAll_agree {value : Bytes} (hwritten : ∃ w ∈ ws, w.key = key)
    (h : ∀ w ∈ ws, w.key = key → w.value = value) : applyAll db ws key = value := by
  induction ws generalizing db with
  | nil =>
    obtain ⟨w, hw, -⟩ := hwritten
    cases hw
  | cons first rest ih =>
    obtain ⟨hfirst, hrest⟩ := List.forall_mem_cons.mp h
    rw [applyAll_cons]
    by_cases hlater : ∃ w ∈ rest, w.key = key
    · exact ih hlater hrest
    · have hkey : first.key = key := by
        obtain ⟨w, hw, hkey⟩ := hwritten
        rcases List.mem_cons.mp hw with rfl | hmem
        · exact hkey
        · exact absurd ⟨w, hmem, hkey⟩ hlater
      rw [applyAll_frame fun w hw hk => hlater ⟨w, hw, hk⟩, Write.apply, if_pos hkey.symm,
        hfirst hkey]

end NimbleChain.Common.KeyValue
