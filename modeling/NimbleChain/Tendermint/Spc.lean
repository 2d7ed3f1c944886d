import NimbleChain.Tendermint.ProposeTimeout

/-!
# The controller of the filter's weight

At the end of every small interval the service compares the mean completion time with that of the
interval before and answers with a code. It moves its own copy of the weight `beta` by the code, and
the node calls `AdjustParameters` with it. The node adds for code 1 where the service subtracts; the
estimate per epoch does not know the code 2.
-/

namespace NimbleChain.Tendermint

open Common BlockProposeTimeout

/-- `mode` of the service, which is `"fixed"` or not. -/
inductive SpcMode where
  | fixed
  | adaptive
  deriving DecidableEq

/-- `Spc`. What is only written to files is left out. -/
structure Spc where
  beta : ℚ
  lastAvgBctList : List ℚ
  code : ℤ
  deriving DecidableEq

namespace Spc

def new : Spc :=
  ⟨1 / 4, [], 2⟩

/-- `threshold1`. -/
def threshold1 : ℚ := 5605725463376267 / 100000000000000000

/-- How a code moves the weight. -/
def adjustBeta (beta : ℚ) (code : ℤ) : ℚ :=
  if code = 0 then if 1 ≤ beta + 1 / 10 then 99 / 100 else beta + 1 / 10
  else if code = 1 then if beta - 1 / 10 ≤ 0 then 1 / 100 else beta - 1 / 10
  else beta

/-- `predictModel`, which fails when it divides by zero. -/
def predictModel (spc : Spc) (mode : SpcMode) (actaulTimeoutList : List ℚ) : Option Spc :=
  if actaulTimeoutList = [] then none
  else
    let avgbct := mean actaulTimeoutList
    let list := spc.lastAvgBctList ++ [avgbct]
    match spc.lastAvgBctList.getLast? with
    | none => some { spc with lastAvgBctList := list }
    | some last =>
      if max last avgbct = 0 then none
      else
        let code := match mode with
          | .fixed => 2
          | .adaptive => if threshold1 < |last - avgbct| / max last avgbct then 0 else 1
        some ⟨adjustBeta spc.beta code, list, code⟩

/-- The codes that the service answers to the intervals, and its last state. -/
def serve (spc : Spc) : List (SpcMode × List ℚ) → Option (List ℤ × Spc)
  | [] => some ([], spc)
  | (mode, data) :: rest => do
    let next ← spc.predictModel mode data
    let (codes, last) ← next.serve rest
    return (next.code :: codes, last)

/-- The code is one of three, and it has moved the weight. -/
theorem predictModel_spec {spc spc' : Spc} {mode : SpcMode} {data : List ℚ}
    (hcode : spc.code ∈ [0, 1, 2]) (hfirst : spc.lastAvgBctList = [] → spc.code = 2)
    (h : spc.predictModel mode data = some spc') :
    spc'.code ∈ [0, 1, 2] ∧ spc'.lastAvgBctList ≠ [] ∧
      spc'.beta = adjustBeta spc.beta spc'.code := by
  unfold predictModel at h
  dsimp only at h
  split at h
  · cases h
  split at h
  · rename_i hnone
    cases h
    refine ⟨hcode, by simp, ?_⟩
    simp [hfirst (List.getLast?_eq_none_iff.mp hnone), adjustBeta]
  split at h
  · cases h
  · cases h
    refine ⟨?_, by simp, rfl⟩
    split
    · simp
    · split <;> simp

theorem serve_spec {spc last : Spc} {data : List (SpcMode × List ℚ)} {codes : List ℤ}
    (hcode : spc.code ∈ [0, 1, 2]) (hfirst : spc.lastAvgBctList = [] → spc.code = 2)
    (h : spc.serve data = some (codes, last)) :
    (∀ code ∈ codes, code ∈ [0, 1, 2]) ∧ last.beta = codes.foldl adjustBeta spc.beta := by
  induction data generalizing spc codes with
  | nil =>
    cases h
    simp
  | cons input rest ih =>
    obtain ⟨next, hnext, h⟩ := Option.bind_eq_some_iff.mp h
    obtain ⟨⟨codes', last'⟩, hrest, h⟩ := Option.bind_eq_some_iff.mp h
    cases h
    obtain ⟨hnextCode, hne, hbeta⟩ := predictModel_spec hcode hfirst hnext
    obtain ⟨hcodes, hlast⟩ := ih hnextCode (fun h => absurd h hne) hrest
    refine ⟨List.forall_mem_cons.mpr ⟨hnextCode, hcodes⟩, ?_⟩
    rw [hlast, hbeta, List.foldl_cons]

end Spc

/-- The weight of the node equals that of the service before every code of a list and after the
last. Each code is accepted; 0 raises the weight and 1 lowers it, within its range. -/
def InStep (bpt : BlockProposeTimeout) (beta : ℚ) : List ℤ → Prop
  | [] => bpt.beta = beta ∧ 0 < beta ∧ beta < 1
  | code :: codes => (bpt.beta = beta ∧ 0 < beta ∧ beta < 1) ∧
      ∃ bpt', bpt.adjustParameters code = .ok bpt' ∧
        (code = 0 → bpt.beta < bpt'.beta ∨ bpt'.beta = 99 / 100) ∧
        (code = 1 → bpt'.beta < bpt.beta ∨ bpt'.beta = 1 / 100) ∧
        InStep bpt' (Spc.adjustBeta beta code) codes

variable {code : ℤ} {codes : List ℤ}

theorem adjustBeta_spec (hcode : code = 0 ∨ code = 2) {beta : ℚ} (hpos : 0 < beta)
    (hlt : beta < 1) :
    (0 < Spc.adjustBeta beta code ∧ Spc.adjustBeta beta code < 1) ∧
      (code = 0 → beta < Spc.adjustBeta beta code ∨ Spc.adjustBeta beta code = 99 / 100) := by
  obtain rfl | rfl := hcode
  · rw [Spc.adjustBeta, if_pos rfl]
    split
    · norm_num
    · exact ⟨⟨by linarith, by linarith⟩, fun _ => .inl (by linarith)⟩
  · exact ⟨⟨hpos, hlt⟩, nofun⟩

theorem inStep_iff (hcodes : ∀ code ∈ codes, code ∈ [0, 1, 2]) (bpt : BlockProposeTimeout)
    (hpos : 0 < bpt.beta) (hlt : bpt.beta < 1) : InStep bpt bpt.beta codes ↔ 1 ∉ codes := by
  induction codes generalizing bpt with
  | nil => simp [InStep, hpos, hlt]
  | cons code codes ih =>
    obtain ⟨hcode, hrest⟩ := List.forall_mem_cons.mp hcodes
    by_cases hone : code = 1
    · subst hone
      refine iff_of_false ?_ (by simp)
      rintro ⟨-, bpt', hadjust, -, hlowered, -⟩
      cases hadjust
      -- The weight is raised where it should be lowered.
      have hraised : ¬bpt.beta + 1 / 10 ≤ 0 := by linarith
      have hlowered := hlowered rfl
      simp only [if_neg hraised] at hlowered
      obtain h | h := hlowered
      · linarith
      · linarith
    · have hcode : code = 0 ∨ code = 2 := by simpa [hone] using hcode
      have hadjust : bpt.adjustParameters code =
          .ok { bpt with beta := Spc.adjustBeta bpt.beta code } := by
        obtain rfl | rfl := hcode <;> rfl
      obtain ⟨⟨hpos', hlt'⟩, hraised⟩ := adjustBeta_spec hcode hpos hlt
      have hstep := ih hrest { bpt with beta := Spc.adjustBeta bpt.beta code } hpos' hlt'
      rw [List.mem_cons, not_or, ← hstep]
      constructor
      · rintro ⟨-, bpt', hok, -, -, hin⟩
        cases hadjust.symm.trans hok
        exact ⟨fun h => hone h.symm, hin⟩
      · rintro ⟨-, hin⟩
        exact ⟨⟨rfl, hpos, hlt⟩, _, hadjust, hraised, fun h => absurd h hone, hin⟩

/-- The estimate per epoch accepts the codes 0 and 1. -/
theorem epoch_accepts_iff (hcodes : ∀ code ∈ codes, code ∈ [0, 1, 2]) (ept : EpochProposeTimeout) :
    Returns (codes.foldlM EpochProposeTimeout.adjustParameters ept) ↔ 2 ∉ codes := by
  induction codes generalizing ept with
  | nil => simp
  | cons code codes ih =>
    obtain ⟨hcode, hrest⟩ := List.forall_mem_cons.mp hcodes
    obtain rfl | rfl | rfl : code = 0 ∨ code = 1 ∨ code = 2 := by simpa using hcode
    · exact (ih hrest _).trans (by simp)
    · exact (ih hrest _).trans (by simp)
    · exact iff_of_false (Returns.not_error _) (by simp)

/-- For every sequence of the codes of the service: the weight of the estimate per block follows
that of the service as long as code 1 is not used, and the estimate per epoch accepts the codes as
long as code 2 is not used. The weight of the service is that of its codes. -/
theorem spc_in_step_iff {codes : List ℤ} (hcodes : ∀ code ∈ codes, code ∈ [0, 1, 2])
    (dataSize : ℕ) (timeout : ℚ) (ept : EpochProposeTimeout) :
    (InStep (.new dataSize timeout) Spc.new.beta codes ↔ 1 ∉ codes) ∧
    (Returns (codes.foldlM EpochProposeTimeout.adjustParameters ept) ↔ 2 ∉ codes) ∧
    ∀ data spc, Spc.new.serve data = some (codes, spc) →
      spc.beta = codes.foldl Spc.adjustBeta Spc.new.beta := by
  refine ⟨?_, epoch_accepts_iff hcodes ept, ?_⟩
  · exact inStep_iff hcodes (.new dataSize timeout) (by norm_num [new])
      (by norm_num [new])
  · intro data spc hserve
    exact (Spc.serve_spec (by simp [Spc.new]) (fun _ => rfl) hserve).2

theorem spc_in_step_iff_raised : InStep (.new 8 3) Spc.new.beta [2, 0, 0] :=
  (spc_in_step_iff (by simp) 8 3 (.new 1)).1.mpr (by simp)

/-- Two intervals with equal times: the service answers 2 and 1 and lowers its weight, which the
node raises; the estimate per epoch refuses the first answer. -/
theorem spc_out_of_step :
    Spc.new.serve [(.adaptive, [1]), (.adaptive, [1])] = some ([2, 1], ⟨3 / 20, [1, 1], 1⟩) ∧
    ([2, 1].foldlM adjustParameters (.new 8 3)).toOption.map beta = some (7 / 20) ∧
    ¬Returns ((EpochProposeTimeout.new 1).adjustParameters 2) :=
  ⟨by decide +kernel, by decide +kernel, Returns.not_error _⟩

end NimbleChain.Tendermint
