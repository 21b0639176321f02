import Mathlib.Data.BitVec
import Mathlib.Data.List.Basic

/-! # `run_dataset_checkpoint_pipeline`

A call loads the checkpoint file if there is one, trains for some steps and saves. The parameters
and the moments of the optimizer are vectors of the function itself: they start empty in every call,
whatever the checkpoint holds, and at the end the parameters are moved into the weights that are
saved. So a call does not go on where the last one stopped, unless training never touches a
parameter (`resumes_iff_idle`).

The runtime of Harmonics is a parameter: a state with weights, a forward function that may do
anything but change the number of weights, an update rule, and a checkpoint that brings the weights
back. -/

namespace ChainBeasts.Harmonics

/-- What an optimizer works on: a parameter and its two moments. -/
structure Slot (T : Type) where
  param : T
  opt1 : T
  opt2 : T

/-- The runtime on datasets `D`: its states `R`, its tensors `T`, its checkpoints `C` and the
numbers `N`. -/
structure CycleRuntime (D R T C N : Type) where
  /-- `HTensor{}`. -/
  blank : T
  /-- `shape().empty()`. -/
  shapeless : T → Bool
  clipTensor : T → T
  gradientsL2Norm : List T → N
  /-- The optimizer: the step number, the clipped gradient and what it works on. -/
  applyUpdate : BitVec 64 → T → Slot T → Slot T
  /-- A fresh runtime, its producers at their first sample. -/
  build : D → R
  weights : R → List T
  setWeights : R → List T → R
  forward : R → R
  saveCheckpoint : R → C
  loadCheckpoint : R → C → R
  weights_set : ∀ r ws, weights (setWeights r ws) = ws
  length_forward : ∀ r, (weights (forward r)).length = (weights r).length
  round_trip : ∀ r r', weights (loadCheckpoint r (saveCheckpoint r')) = weights r'

/-- `TrainingMetrics`. -/
structure Metrics (N : Type) where
  step : BitVec 32
  loss : N

namespace CycleRuntime

variable {D R T C N : Type}

/-- One round of the loop, with step number `t`. -/
def trainStep (H : CycleRuntime D R T C N) (t : BitVec 64) (s : R × List (Slot T)) :
    (R × List (Slot T)) × Metrics N :=
  let r := H.forward s.1
  let norm := H.gradientsL2Norm (H.weights r)
  let clipped := (H.weights r).map fun w => if H.shapeless w then w else H.clipTensor w
  let slots := List.zipWith
    (fun w slot => if H.shapeless w then slot else H.applyUpdate t (H.clipTensor w) slot)
    (H.weights r) s.2
  ((H.setWeights r clipped, slots), ⟨t.setWidth 32, norm⟩)

/-- `for (i = 0; i < steps; ++i)`. -/
def train (H : CycleRuntime D R T C N) (startStep : BitVec 64) (s : R × List (Slot T)) :
    Nat → (R × List (Slot T)) × List (Metrics N)
  | 0 => (s, [])
  | i + 1 =>
    let done := train H startStep s i
    let round := H.trainStep (startStep + BitVec.ofNat 64 i + 1) done.1
    (round.1, done.2 ++ [round.2])

/-- The runtime with what the file holds. -/
def load (H : CycleRuntime D R T C N) (dataset : D) (file : Option (C × BitVec 64)) : R :=
  match file with
  | none => H.build dataset
  | some checkpoint => H.loadCheckpoint (H.build dataset) checkpoint.1

def startStep (file : Option (C × BitVec 64)) : BitVec 64 := (file.map Prod.snd).getD 0

/-- The state in which the loop is entered: parameters and moments are empty tensors. -/
def enter (H : CycleRuntime D R T C N) (dataset : D) (file : Option (C × BitVec 64)) :
    R × List (Slot T) :=
  let r := H.load dataset file
  (r, List.replicate (H.weights r).length ⟨H.blank, H.blank, H.blank⟩)

/-- The file that is written, and the metrics that are streamed. -/
def runDatasetCheckpointPipeline (H : CycleRuntime D R T C N) (dataset : D)
    (file : Option (C × BitVec 64)) (steps : Nat) : (C × BitVec 64) × List (Metrics N) :=
  let done := H.train (startStep file) (H.enter dataset file) steps
  let r := H.setWeights done.1.1 (done.1.2.map Slot.param)
  ((H.saveCheckpoint r, startStep file + BitVec.ofNat 64 steps), done.2)

/-- The parameters in a file, as a later call finds them. -/
def params (H : CycleRuntime D R T C N) (dataset : D) (checkpoint : C × BitVec 64) : List T :=
  H.weights (H.load dataset (some checkpoint))

/-- Two calls in a row leave the parameters and the step counter of one call with as many steps, and
a call without steps leaves an existing file as it is. -/
def Resumes (H : CycleRuntime D R T C N) (dataset : D) (file : Option (C × BitVec 64)) : Prop :=
  (∀ n m,
    let first := (H.runDatasetCheckpointPipeline dataset file n).1
    let second := (H.runDatasetCheckpointPipeline dataset (some first) m).1
    let whole := (H.runDatasetCheckpointPipeline dataset file (n + m)).1
    H.params dataset second = H.params dataset whole ∧ second.2 = whole.2) ∧
  ∀ checkpoint ∈ file,
    let after := (H.runDatasetCheckpointPipeline dataset file 0).1
    H.params dataset after = H.params dataset checkpoint ∧ after.2 = checkpoint.2

/-! ## Training that changes nothing -/

/-- All parameters are empty tensors. -/
def Blank (H : CycleRuntime D R T C N) (slots : List (Slot T)) : Prop :=
  ∀ slot ∈ slots, slot.param = H.blank

/-- The round with step number `t` leaves every parameter empty: the weight has no shape, or the
update rule makes nothing of it. -/
def Fruitless (H : CycleRuntime D R T C N) (t : BitVec 64) (s : R × List (Slot T)) : Prop :=
  ∀ p ∈ (H.weights (H.forward s.1)).zip s.2, H.shapeless p.1 = true ∨
    (H.applyUpdate t (H.clipTensor p.1) p.2).param = H.blank

/-- No round of any call on the file changes an empty parameter. -/
def Idle (H : CycleRuntime D R T C N) (dataset : D) (file : Option (C × BitVec 64)) : Prop :=
  ∀ i, H.Fruitless (startStep file + BitVec.ofNat 64 i + 1)
    (H.train (startStep file) (H.enter dataset file) i).1

variable {H : CycleRuntime D R T C N} {dataset : D} {file : Option (C × BitVec 64)} {t : BitVec 64}
  {s : R × List (Slot T)}

theorem train_step_blank (h : H.Blank s.2) :
    H.Blank (H.trainStep t s).1.2 ↔ H.Fruitless t s := by
  unfold trainStep Blank Fruitless
  dsimp only
  rw [← List.map_uncurry_zip_eq_zipWith]
  simp only [List.mem_map, forall_exists_index, and_imp, forall_apply_eq_imp_iff₂,
    Function.uncurry_def]
  constructor
  · intro hall p hp
    have hslot := hall p hp
    by_cases hshape : H.shapeless p.1 = true
    · exact Or.inl hshape
    · rw [if_neg hshape] at hslot
      exact Or.inr hslot
  · intro hfruitless p hp
    rcases hfruitless p hp with hshape | hblank
    · rw [if_pos hshape]
      exact h p.2 (List.of_mem_zip hp).2
    · split
      · exact h p.2 (List.of_mem_zip hp).2
      · exact hblank

theorem enter_blank (H : CycleRuntime D R T C N) (dataset : D) (file : Option (C × BitVec 64)) :
    H.Blank (H.enter dataset file).2 := by
  intro slot hslot
  rw [(List.mem_replicate.mp hslot).2]

/-- The parameters stay empty for as long as the rounds change nothing. -/
theorem train_blank_iff (H : CycleRuntime D R T C N) (dataset : D)
    (file : Option (C × BitVec 64)) :
    (∀ n, H.Blank (H.train (startStep file) (H.enter dataset file) n).1.2) ↔
      H.Idle dataset file := by
  constructor
  · intro hblank i
    exact (train_step_blank (hblank i)).mp (hblank (i + 1))
  · intro hidle n
    induction n with
    | zero => exact H.enter_blank dataset file
    | succ n ih => exact (train_step_blank ih).mpr (hidle n)

/-! ## How many parameters there are -/

/-- There is a slot for each weight. -/
def Matched (H : CycleRuntime D R T C N) (k : Nat) (s : R × List (Slot T)) : Prop :=
  (H.weights s.1).length = k ∧ s.2.length = k

theorem train_matched (H : CycleRuntime D R T C N) (dataset : D) (file : Option (C × BitVec 64))
    (n : Nat) :
    H.Matched (H.weights (H.load dataset file)).length
      (H.train (startStep file) (H.enter dataset file) n).1 := by
  induction n with
  | zero => exact ⟨rfl, List.length_replicate⟩
  | succ n ih =>
      obtain ⟨hweights, hslots⟩ := ih
      unfold train trainStep Matched
      dsimp only
      rw [H.weights_set, List.length_map, List.length_zipWith, H.length_forward, hweights, hslots,
        Nat.min_self]
      exact ⟨rfl, rfl⟩

/-- The parameters in the file are those of the loop. -/
theorem params_written (H : CycleRuntime D R T C N) (dataset : D) (file : Option (C × BitVec 64))
    (n : Nat) :
    H.params dataset (H.runDatasetCheckpointPipeline dataset file n).1 =
      (H.train (startStep file) (H.enter dataset file) n).1.2.map Slot.param := by
  unfold params load runDatasetCheckpointPipeline
  dsimp only
  rw [H.round_trip, H.weights_set]

/-- Empty parameters in the file, as many as there were weights. -/
theorem params_blank_iff (H : CycleRuntime D R T C N) (dataset : D)
    (file : Option (C × BitVec 64)) (n : Nat) :
    H.params dataset (H.runDatasetCheckpointPipeline dataset file n).1 =
        List.replicate (H.weights (H.load dataset file)).length H.blank ↔
      H.Blank (H.train (startStep file) (H.enter dataset file) n).1.2 := by
  have hlength := (H.train_matched dataset file n).2
  rw [params_written, List.eq_replicate_iff, List.length_map]
  constructor
  · rintro ⟨-, hall⟩ slot hslot
    exact hall _ (List.mem_map_of_mem hslot)
  · intro hblank
    refine ⟨hlength, ?_⟩
    intro param hparam
    obtain ⟨slot, hslot, rfl⟩ := List.mem_map.mp hparam
    exact hblank slot hslot

theorem length_params (H : CycleRuntime D R T C N) (dataset : D) (file : Option (C × BitVec 64))
    (n : Nat) :
    (H.params dataset (H.runDatasetCheckpointPipeline dataset file n).1).length =
      (H.weights (H.load dataset file)).length := by
  rw [params_written, List.length_map]
  exact (H.train_matched dataset file n).2

/-! ## Two calls and one -/

/-- A call without steps empties the parameters. -/
theorem params_zero (H : CycleRuntime D R T C N) (dataset : D) (file : Option (C × BitVec 64)) :
    H.params dataset (H.runDatasetCheckpointPipeline dataset file 0).1 =
      List.replicate (H.weights (H.load dataset file)).length H.blank :=
  (H.params_blank_iff dataset file 0).mpr (H.enter_blank dataset file)

/-- The step counter goes on in any case. -/
theorem steps_add (H : CycleRuntime D R T C N) (dataset : D) (file : Option (C × BitVec 64))
    (n m : Nat) :
    (H.runDatasetCheckpointPipeline dataset
        (some (H.runDatasetCheckpointPipeline dataset file n).1) m).1.2 =
      (H.runDatasetCheckpointPipeline dataset file (n + m)).1.2 := by
  show startStep file + BitVec.ofNat 64 n + BitVec.ofNat 64 m =
    startStep file + BitVec.ofNat 64 (n + m)
  rw [BitVec.ofNat_add, BitVec.add_assoc]

theorem idle_of_resumes (h : H.Resumes dataset file) : H.Idle dataset file := by
  rw [← train_blank_iff]
  intro n
  -- compare `n` steps with the same and a call without steps after them
  have hsplit := (h.1 n 0).1
  rw [params_zero] at hsplit
  rw [← params_blank_iff, ← H.length_params dataset file n]
  exact hsplit.symm

theorem params_of_idle (h : H.Idle dataset file) (n : Nat) :
    H.params dataset (H.runDatasetCheckpointPipeline dataset file n).1 =
      List.replicate (H.weights (H.load dataset file)).length H.blank := by
  rw [params_blank_iff]
  exact (H.train_blank_iff dataset file).mpr h n

/-- **When training resumes.** On a runtime, a dataset and a checkpoint file, any `n` steps and then
`m` steps leave what `n + m` steps leave, and no steps leave an existing file as it is, if and only
if training has no effect there: the parameters in the file are empty, and no round on it or on a
file that a call leaves changes an empty parameter. -/
theorem resumes_iff_idle (H : CycleRuntime D R T C N) (dataset : D)
    (file : Option (C × BitVec 64)) :
    H.Resumes dataset file ↔
      (∀ checkpoint ∈ file, ∀ w ∈ H.params dataset checkpoint, w = H.blank) ∧
      H.Idle dataset file ∧
      ∀ n, H.Idle dataset (some (H.runDatasetCheckpointPipeline dataset file n).1) := by
  constructor
  · intro h
    refine ⟨?_, idle_of_resumes h, ?_⟩
    · rintro checkpoint rfl w hw
      have hsame := (h.2 checkpoint rfl).1
      rw [params_zero] at hsame
      rw [← hsame] at hw
      exact (List.mem_replicate.mp hw).2
    · intro n
      rw [← train_blank_iff]
      intro m
      have hsplit := (h.1 n m).1
      rw [params_of_idle (idle_of_resumes h)] at hsplit
      rw [← params_blank_iff, hsplit]
      congr 1
      exact (H.length_params dataset file n).symm
  · rintro ⟨hblank, hidle, hlater⟩
    constructor
    · intro n m
      refine ⟨?_, H.steps_add dataset file n m⟩
      rw [params_of_idle (hlater n), params_of_idle hidle]
      congr 1
      exact H.length_params dataset file n
    · rintro checkpoint rfl
      refine ⟨?_, BitVec.add_zero _⟩
      rw [params_zero]
      exact (List.eq_replicate_of_mem (hblank checkpoint rfl)).symm

/-- One weight tensor, whose gradient is the sample at hand; plain gradient descent. -/
def descent : CycleRuntime (List Int) (List Int × List (List Int)) (List Int) (List (List Int))
    Int where
  blank := []
  shapeless w := w.isEmpty
  clipTensor w := w
  gradientsL2Norm ws := ws.flatten.sum
  applyUpdate _ w slot := { slot with
    param := if slot.param.isEmpty then w.map (- ·) else List.zipWith (· - ·) slot.param w }
  build samples := (samples, [[0]])
  weights r := r.2
  setWeights r ws := (r.1, ws)
  forward r := (r.1.rotate 1, r.2.map fun _ => [r.1.headD 0])
  saveCheckpoint r := r.2
  loadCheckpoint r c := (r.1, c)
  weights_set _ _ := rfl
  length_forward _ := List.length_map _
  round_trip _ _ := rfl

/-- After one step the file holds a parameter, and a call without steps loses it. -/
theorem descent_not_resumed : ¬ descent.Resumes [3, 5] none := by
  intro h
  have hsplit := (h.1 1 0).1
  exact absurd hsplit (by decide)

end CycleRuntime

end ChainBeasts.Harmonics
