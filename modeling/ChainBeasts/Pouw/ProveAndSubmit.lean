import ChainBeasts.Pouw.Aggregator
import Mathlib.Order.WithBot
import Mathlib.Algebra.Order.Ring.Int

/-! # Proving and submitting

`Validator` keeps the last accepted loss and refuses a proof with a higher one.
`prove_and_submit` notes the loss of its proof before it hands the proof to the chain, so a
submission that fails there has already moved the bar: `harmless_iff` says that this is the one way
in which a call that returns false leaves a trace, and `refused_after_failure` which later proofs it
costs. The proof system and the on-chain verifier are parameters, losses are exact. -/

namespace ChainBeasts.Pouw

/-- `IProofSystem` with the free function `compute_loss`. -/
structure IProofSystem (F : Type) where
  generateProof : List (List Int8) → StarkProof F
  verifyProof : List (List Int8) → StarkProof F → Bool
  computeLoss : List (List Int8) → F

/-- The fields of `Validator` beside its counters: the last accepted loss, and whether there is an
aggregator, whose callback attests. -/
structure LossValidator (F : Type) extends Validator where
  lastLoss : F
  p2p : Bool

namespace LossValidator

variable {F V : Type} [LinearOrder F]

def verifyStarkProof (sys : IProofSystem F) (v : LossValidator F) (tensors : List (List Int8))
    (proof : StarkProof F) : Bool × LossValidator F :=
  if ¬ sys.verifyProof tensors proof then (false, v)
  else
    let loss := sys.computeLoss tensors
    if v.lastLoss < loss then (false, v)
    else (true, { v with lastLoss := loss })

/-- What a call leaves: its result, the validator, the chain, and the proof it broadcast. -/
structure Outcome (F V : Type) where
  result : Bool
  validator : LossValidator F
  chain : V
  broadcast : Option (StarkProof F)

/-- `onchain` is the `submit_proof` of the verifier on a chain in some state. -/
def proveAndSubmit (sys : IProofSystem F) (onchain : StarkProof F → V → Bool × V)
    (v : LossValidator F) (chain : V) (tensors : List (List Int8)) : Outcome F V :=
  let proof := sys.generateProof tensors
  if ¬ sys.verifyProof tensors proof then ⟨false, v, chain, none⟩
  else if v.lastLoss < proof.loss then ⟨false, v, chain, none⟩
  else
    let v := { v with lastLoss := proof.loss }
    let submitted := onchain proof chain
    if ¬ submitted.1 then ⟨false, v, submitted.2, none⟩
    else if v.p2p then
      ⟨true, { v with toValidator := v.toValidator.attest proof.root }, submitted.2, some proof⟩
    else ⟨true, v, submitted.2, none⟩

/-- A call that returns false leaves the validator as it was, so whatever the validator would have
accepted later it still accepts. -/
def Harmless (sys : IProofSystem F) (onchain : StarkProof F → V → Bool × V) (v : LossValidator F)
    (chain : V) (tensors : List (List Int8)) : Prop :=
  let done := proveAndSubmit sys onchain v chain tensors
  done.result = false → done.validator = v ∧
    (∀ later proof, (v.verifyStarkProof sys later proof).1 = true →
      (done.validator.verifyStarkProof sys later proof).1 = true) ∧
    ∀ (onchain' : StarkProof F → V → Bool × V) later,
      (proveAndSubmit sys onchain' v done.chain later).result = true →
      (proveAndSubmit sys onchain' done.validator done.chain later).result = true

/-- A valid proof that lowers the loss is turned down by the chain. -/
def TurnedDown (sys : IProofSystem F) (onchain : StarkProof F → V → Bool × V)
    (v : LossValidator F) (chain : V) (tensors : List (List Int8)) : Prop :=
  let proof := sys.generateProof tensors
  sys.verifyProof tensors proof = true ∧ proof.loss < v.lastLoss ∧
    (onchain proof chain).1 = false

variable {sys : IProofSystem F} {onchain : StarkProof F → V → Bool × V} {v : LossValidator F}
  {chain : V} {tensors : List (List Int8)}

theorem verify_stark_proof_iff (proof : StarkProof F) :
    (v.verifyStarkProof sys tensors proof).1 = true ↔
      sys.verifyProof tensors proof = true ∧ sys.computeLoss tensors ≤ v.lastLoss := by
  unfold verifyStarkProof
  split
  · next hinvalid => exact iff_of_false Bool.false_ne_true (fun h => hinvalid h.1)
  · next hvalid =>
      rw [not_not] at hvalid
      simp only [hvalid, true_and]
      split
      · next hworse => exact iff_of_false Bool.false_ne_true (not_le.mpr hworse)
      · next hgood => exact iff_of_true rfl (not_lt.mp hgood)

/-- **Everything a call that returns false can do.** It leaves the validator alone, or notes the loss
of a proof that the chain turned down. -/
theorem prove_and_submit_false
    (h : (proveAndSubmit sys onchain v chain tensors).result = false) :
    (proveAndSubmit sys onchain v chain tensors).validator = v ∧
        ¬ TurnedDown sys onchain v chain tensors ∨
      (proveAndSubmit sys onchain v chain tensors).validator =
          { v with lastLoss := (sys.generateProof tensors).loss } ∧
        TurnedDown sys onchain v chain tensors := by
  unfold proveAndSubmit at h ⊢
  unfold TurnedDown
  dsimp only at h ⊢
  split
  · next hinvalid => exact Or.inl ⟨rfl, fun hdown => hinvalid hdown.1⟩
  · next hvalid =>
      rw [if_neg hvalid] at h
      rw [not_not] at hvalid
      split
      · next hworse => exact Or.inl ⟨rfl, fun hdown => lt_asymm hworse hdown.2.1⟩
      · next hgood =>
          rw [if_neg hgood] at h
          split
          · next hfailed =>
              rw [Bool.not_eq_true] at hfailed
              rcases lt_or_eq_of_le (not_lt.mp hgood) with hless | hsame
              · exact Or.inr ⟨rfl, hvalid, hless, hfailed⟩
              · refine Or.inl ⟨?_, fun hdown => absurd hdown.2.1 (by rw [hsame]; exact lt_irrefl _)⟩
                rw [hsame]
          · next hok =>
              rw [if_neg hok] at h
              split at h <;> cases h

/-- What a turned-down proof leaves. -/
theorem prove_and_submit_turnedDown (h : TurnedDown sys onchain v chain tensors) :
    proveAndSubmit sys onchain v chain tensors =
      ⟨false, { v with lastLoss := (sys.generateProof tensors).loss },
        (onchain (sys.generateProof tensors) chain).2, none⟩ := by
  obtain ⟨hvalid, hless, hfailed⟩ := h
  unfold proveAndSubmit
  dsimp only
  rw [if_neg (not_not.mpr hvalid), if_neg (lt_asymm hless), if_pos (by rw [hfailed]; decide)]

/-- The later proofs that such a failure costs: those with a loss above the one turned down. -/
theorem refused_after_failure (h : TurnedDown sys onchain v chain tensors)
    (later : List (List Int8)) (proof : StarkProof F) :
    ((v.verifyStarkProof sys later proof).1 = true ∧
        ((proveAndSubmit sys onchain v chain tensors).validator.verifyStarkProof sys later
          proof).1 = false) ↔
      sys.verifyProof later proof = true ∧
        (sys.generateProof tensors).loss < sys.computeLoss later ∧
        sys.computeLoss later ≤ v.lastLoss := by
  rw [← Bool.not_eq_true, verify_stark_proof_iff, verify_stark_proof_iff,
    prove_and_submit_turnedDown h]
  constructor
  · rintro ⟨⟨hvalid, hgood⟩, hrefused⟩
    exact ⟨hvalid, lt_of_not_ge fun hle => hrefused ⟨hvalid, hle⟩, hgood⟩
  · rintro ⟨hvalid, hworse, hgood⟩
    exact ⟨⟨hvalid, hgood⟩, fun hboth => not_le.mpr hworse hboth.2⟩

/-- **When a failed submission leaves no trace.** A call of `prove_and_submit` that returns false
leaves the validator and its later answers as they were, unless the chain turned down a valid proof
with a loss below the last accepted one. -/
theorem harmless_iff (sys : IProofSystem F) (onchain : StarkProof F → V → Bool × V)
    (v : LossValidator F) (chain : V) (tensors : List (List Int8)) :
    Harmless sys onchain v chain tensors ↔ ¬ TurnedDown sys onchain v chain tensors := by
  constructor
  · intro hharmless hdown
    unfold Harmless at hharmless
    rw [prove_and_submit_turnedDown hdown] at hharmless
    have hsame := congrArg lastLoss (hharmless rfl).1
    exact ne_of_lt hdown.2.1 hsame
  · intro hnot hfailed
    rcases prove_and_submit_false hfailed with ⟨hsame, -⟩ | ⟨-, hdown⟩
    · rw [hsame]
      exact ⟨rfl, fun _ _ => id, fun _ _ => id⟩
    · exact absurd hdown hnot

/-- As in the source fewer than two tensors have no loss. The others get that of the tensors of the
validator's own tests, in ten-thousandths. -/
def testLoss (tensors : List (List Int8)) : WithTop Int :=
  ((if tensors.length < 2 then 0 else 6207 : Int) : WithTop Int)

def testSystem : IProofSystem (WithTop Int) where
  generateProof tensors := ⟨"root", "proof", testLoss tensors⟩
  verifyProof tensors proof := decide (proof = ⟨"root", "proof", testLoss tensors⟩)
  computeLoss := testLoss

/-- A fresh validator fails to submit a proof of one tensor to a node that cannot be reached, and
then rejects the proof of two tensors that it would have accepted. -/
theorem failed_submission_lowers_bar :
    ¬ Harmless testSystem (fun _ (_ : Unit) => (false, ())) ⟨.new 3, ⊤, false⟩ () [[1, 2, 3]] := by
  intro hharmless
  have hfailed : (proveAndSubmit testSystem (fun _ (_ : Unit) => (false, ()))
      ⟨.new 3, ⊤, false⟩ () [[1, 2, 3]]).result = false := by
    decide
  have hlater := (hharmless hfailed).2.1 [[2, 1, 0, 0, 3, 2], [1, 0, 0, 0, 3, 1]]
    (testSystem.generateProof [[2, 1, 0, 0, 3, 2], [1, 0, 0, 0, 3, 1]]) (by decide)
  exact absurd hlater (by decide)

end LossValidator

end ChainBeasts.Pouw
