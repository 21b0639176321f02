import ChainBeasts.CString
import ChainBeasts.Pouw.ProofRoot
import ChainBeasts.Pouw.Socket
import Mathlib.Data.List.Forall2

/-! # Proofs of the external prover

`ZkProofSystem` of `zk_proof_system.cpp` leaves proving and verifying to a library that it loads when
the program starts. It hands over one buffer with all tensors and a `zk_proof_raw`, so what a proof
says passes twice through fields of 65 characters: read out of them when it is made, printed into
them when it is verified. `same_verdict_iff` says what a verdict can depend on after that, and
`received_verifies_iff` when a proof that one node made and sent verifies on another.

The library is a parameter, and so is the floating-point part of `compute_loss`. -/

namespace ChainBeasts.Pouw.ZkProofSystem

open ChainBeasts.CString ChainBeasts.Pouw.Wire ChainBeasts.Pouw.ProofSystem

/-- `zk_proof_raw`. -/
structure Raw where
  root : Chars 64
  proof : Chars 64
  deriving DecidableEq

/-- The two entry points of the library. `gen_` gives what the library leaves in the structure. -/
structure Library where
  gen : Bytes → Raw
  verify : Bytes → Raw → Bool

variable (lib : Library) (metric : Bytes → Bytes → BitVec 32)

/-- The tensors in one buffer. -/
def buf (tensors : List Tensor) : Bytes := tensors.foldl (fun buf t => buf ++ t) []

theorem buf_eq_flatten (tensors : List Tensor) : buf tensors = tensors.flatten := by
  have hfrom : ∀ start : Bytes,
      tensors.foldl (fun buf t => buf ++ t) start = start ++ tensors.flatten := by
    induction tensors with
    | nil => simp
    | cons t tensors ih =>
        intro start
        rw [List.foldl_cons, ih, List.flatten_cons, List.append_assoc]
  exact hfrom []

/-- There is no proof where a text runs out of its field. -/
def generateProof (tensors : List Tensor) : Option Wire.StarkProof := do
  let raw := lib.gen (buf tensors)
  let root ← raw.root.read
  let proof ← raw.proof.read
  some ⟨root, proof, computeLoss metric tensors⟩

/-- The structure that `verify_proof` fills. -/
def raw (proof : Wire.StarkProof) : Raw := ⟨.print proof.root, .print proof.proof⟩

def verifyProof (tensors : List Tensor) (proof : Wire.StarkProof) : Bool :=
  if ¬ lib.verify (buf tensors) (raw proof) then false
  else ¬ floatNe (computeLoss metric tensors) proof.loss

/-! ## What a verdict depends on -/

/-- The proof states the loss of the tensors. -/
def Stated (tensors : List Tensor) (proof : Wire.StarkProof) : Prop :=
  floatNe (computeLoss metric tensors) proof.loss = false

/-- What a field takes of a string. -/
def clip (s : Bytes) : Bytes := (cstr s).take 64

variable {lib metric}

theorem verify_proof_iff {tensors : List Tensor} {proof : Wire.StarkProof} :
    verifyProof lib metric tensors proof = true ↔
      lib.verify tensors.flatten (raw proof) = true ∧ Stated metric tensors proof := by
  rw [verifyProof, buf_eq_flatten, Stated]
  grind

theorem raw_eq_iff {p₁ p₂ : Wire.StarkProof} :
    raw p₁ = raw p₂ ↔ clip p₁.root = clip p₂.root ∧ clip p₁.proof = clip p₂.proof := by
  rw [raw, raw, Raw.mk.injEq, Chars.print_eq_iff, Chars.print_eq_iff]
  rfl

/-- The library that accepts one buffer with one structure. -/
def only (data : Bytes) (r : Raw) : Library where
  gen _ := r
  verify d s := d = data ∧ s = r

variable (metric)

/-- **All that a verdict can depend on.** Two proofs, each for its own tensors, get the same verdict
of every library exactly if both state a wrong loss, or both state the right one and agree in the
numbers of their tensors, however these are split, and in the first 64 characters of their two
strings, up to the first zero. -/
theorem same_verdict_iff (t₁ t₂ : List Tensor) (p₁ p₂ : Wire.StarkProof) :
    (∀ lib, verifyProof lib metric t₁ p₁ = verifyProof lib metric t₂ p₂) ↔
      (¬ Stated metric t₁ p₁ ∧ ¬ Stated metric t₂ p₂) ∨
        (Stated metric t₁ p₁ ∧ Stated metric t₂ p₂ ∧ t₁.flatten = t₂.flatten ∧
          clip p₁.root = clip p₂.root ∧ clip p₁.proof = clip p₂.proof) := by
  constructor
  · intro hsame
    have hiff : ∀ lib, verifyProof lib metric t₁ p₁ = true ↔
        verifyProof lib metric t₂ p₂ = true := fun lib => by rw [hsame lib]
    simp only [verify_proof_iff] at hiff
    -- the library that accepts the first query, and the one that accepts the second
    have hfirst := hiff (only t₁.flatten (raw p₁))
    have hsecond := hiff (only t₂.flatten (raw p₂))
    simp only [only, decide_eq_true_eq, true_and, and_self] at hfirst hsecond
    by_cases h₁ : Stated metric t₁ p₁
    · obtain ⟨⟨hdata, hraw⟩, h₂⟩ := hfirst.mp h₁
      exact Or.inr ⟨h₁, h₂, hdata.symm, raw_eq_iff.mp hraw.symm⟩
    · exact Or.inl ⟨h₁, fun h₂ => h₁ (hsecond.mpr h₂).2⟩
  · rintro hcases lib
    rw [Bool.eq_iff_iff, verify_proof_iff, verify_proof_iff]
    rcases hcases with ⟨h₁, h₂⟩ | ⟨h₁, h₂, hdata, hclip⟩
    · exact iff_of_false (fun h => h₁ h.2) (fun h => h₂ h.2)
    · rw [hdata, raw_eq_iff.mpr hclip]
      exact ⟨fun h => ⟨h.1, h₂⟩, fun h => ⟨h.1, h₁⟩⟩

/-- **One computation under many roots.** An accepted proof is accepted again with anything behind a
zero at the end of its root. -/
theorem respelled_verifies {t : List Tensor} {p : Wire.StarkProof}
    (h : verifyProof lib metric t p = true) (extra : Bytes) :
    verifyProof lib metric t { p with root := cstr p.root ++ 0 :: extra } = true := by
  have hclip : clip (cstr p.root ++ 0 :: extra) = clip p.root := by
    rw [clip, cstr_append_zero (zero_notMem_cstr _), clip]
  have hstated := (verify_proof_iff.mp h).2
  have hsame := (same_verdict_iff metric t t p { p with root := cstr p.root ++ 0 :: extra }).mpr
    (Or.inr ⟨hstated, hstated, rfl, hclip.symm, rfl⟩)
  rw [← hsame lib]
  exact h

/-! ## From one node to another -/

variable {metric}

theorem generate_proof_cases {t : List Tensor} {p : Wire.StarkProof}
    (h : generateProof lib metric t = some p) :
    (lib.gen t.flatten).root.read = some p.root ∧ (lib.gen t.flatten).proof.read = some p.proof ∧
      p.loss = computeLoss metric t := by
  rw [generateProof, buf_eq_flatten] at h
  simp only [Option.bind_eq_bind, Option.bind_eq_some_iff, Option.some.injEq] at h
  obtain ⟨root, hroot, proof, hproof, rfl⟩ := h
  exact ⟨hroot, hproof, rfl⟩

/-- The structure with zeros behind its texts. -/
def Raw.wiped (r : Raw) : Raw := ⟨r.root.wiped, r.proof.wiped⟩

/-- What is verified of a proof is what the library left when it made it. -/
theorem raw_generated {t : List Tensor} {p : Wire.StarkProof}
    (h : generateProof lib metric t = some p) : raw p = (lib.gen t.flatten).wiped := by
  obtain ⟨hroot, hproof, -⟩ := generate_proof_cases h
  rw [raw, Raw.wiped, Chars.print_read hroot, Chars.print_read hproof]

/-- It can be sent: its strings come out of fields. -/
theorem generated_sound {t : List Tensor} {p : Wire.StarkProof}
    (h : generateProof lib metric t = some p) : p.Sound := by
  obtain ⟨hroot, hproof, -⟩ := generate_proof_cases h
  obtain ⟨-, hrootFits, -⟩ := Chars.read_cases hroot
  obtain ⟨-, hproofFits, -⟩ := Chars.read_cases hproof
  constructor
  · show p.root.length < 2 ^ 32
    omega
  · show p.proof.length < 2 ^ 32
    omega

theorem verify_generated {lib' : Library} {t : List Tensor} {p : Wire.StarkProof}
    (h : generateProof lib metric t = some p) :
    verifyProof lib' metric t p = true ↔
      lib'.verify t.flatten (lib.gen t.flatten).wiped = true ∧ ¬ IsNaN (computeLoss metric t) := by
  rw [verify_proof_iff, raw_generated h, Stated, (generate_proof_cases h).2.2, floatNe_self]

open Socket

/-- **Proofs made on one node verify on another.** The proofs of a list of batches, sent over one
connection that hands them over in any chunks, all arrive in order, and each verifies there exactly
if the library of that node accepts what the library of the first one left in the structure, with
zeros behind the texts, and the loss is a number. -/
theorem batches_verify (lib lib' : Library) (metric : Bytes → Bytes → BitVec 32)
    {ts : List (List Tensor)} {ps : List Wire.StarkProof}
    (hmade : List.Forall₂ (fun t p => generateProof lib metric t = some p) ts ps)
    (tx rx : AggregatorNetStats)
    {stream : Chunks.Stream Byte} (h : stream.flatten = (sendProofs ps tx).1) :
    (handleClient rx stream).delivered = ps ∧
      List.Forall₂ (fun t q => verifyProof lib' metric t q = true ↔
        lib'.verify t.flatten (lib.gen t.flatten).wiped = true ∧ ¬ IsNaN (computeLoss metric t))
        ts (handleClient rx stream).delivered := by
  have hsound : ∀ p ∈ ps, p.Sound := by
    clear h
    induction hmade with
    | nil => simp
    | cons hhead _ ih => exact List.forall_mem_cons.mpr ⟨generated_sound hhead, ih⟩
  have harrive : (handleClient rx stream).delivered = ps :=
    ((proofs_arrive hsound tx rx).1 stream h).1
  refine ⟨harrive, ?_⟩
  rw [harrive]
  exact hmade.imp fun _ _ => verify_generated

/-- The root is an `a` with the first number, and the library leaves something behind its zero. -/
def sampleLibrary : Library where
  gen data := ⟨⟨0x61 :: data.head?.getD 1 :: 0 :: List.replicate 62 7, rfl⟩, .print [0x62]⟩
  verify data r := r = ⟨.print [0x61, data.head?.getD 1], .print [0x62]⟩

/-- Two batches, in three chunks. -/
theorem batches_verify_two :
    let ps : List Wire.StarkProof := [⟨[0x61, 5], [0x62], 0⟩, ⟨[0x61, 7], [0x62], 0⟩]
    let stream : Chunks.Stream Byte := [[2, 0, 0, 0, 0x61, 5, 1, 0], [0, 0, 0x62, 0, 0, 0, 0, 2],
      [0, 0, 0, 0x61, 7, 1, 0, 0, 0, 0x62, 0, 0, 0, 0]]
    ((handleClient ⟨0, 0, 0, 0⟩ stream).delivered = ps ∧
      List.Forall₂ (fun t q => verifyProof sampleLibrary (fun _ _ => 0) t q = true ↔
        sampleLibrary.verify t.flatten (sampleLibrary.gen t.flatten).wiped = true ∧
          ¬ IsNaN (computeLoss (fun _ _ => 0) t)) [[[5], [6]], [[7]]]
        (handleClient ⟨0, 0, 0, 0⟩ stream).delivered) ∧
      sampleLibrary.verify [5, 6] (sampleLibrary.gen [5, 6]).wiped = true := by
  have hfirst : generateProof sampleLibrary (fun _ _ => 0) [[5], [6]] =
      some ⟨[0x61, 5], [0x62], 0⟩ := by decide
  have hsecond : generateProof sampleLibrary (fun _ _ => 0) [[7]] = some ⟨[0x61, 7], [0x62], 0⟩ := by
    decide
  exact ⟨batches_verify _ _ _ (.cons hfirst (.cons hsecond .nil)) ⟨0, 0, 0, 0⟩ _ (by decide),
    by decide⟩

end ChainBeasts.Pouw.ZkProofSystem
