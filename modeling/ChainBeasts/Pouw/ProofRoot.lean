import ChainBeasts.Pouw.Wire

/-! # What a proof root binds

`Blake3ProofSystem` of `proof_system.hpp` feeds its tensors to one hasher, one after the other, and
hashes nothing else: no lengths, no separators. The root is the digest of their concatenation, so a
proof also verifies for the same numbers split differently, unless the losses tell the two apart
(`regrouped_verifies`, `root_binds_iff`).

`blake3` is the digest and `metric` the floating-point part of `compute_loss`; both are parameters. -/

namespace ChainBeasts.Pouw.ProofSystem

open ChainBeasts.Pouw.Wire

/-- A `std::vector<int8_t>`. -/
abbrev Tensor := List Byte

/-! ## Digests -/

/-- `"0123456789abcdef"[d]`. -/
def hex (d : BitVec 4) : Byte :=
  if d.toNat < 10 then 0x30 + d.setWidth 8 else 0x57 + d.setWidth 8

def toHex (data : Bytes) : Bytes :=
  data.flatMap fun b => [hex (b.extractLsb' 4 4), hex (b.extractLsb' 0 4)]

theorem hex_injective : Function.Injective hex := by
  intro d e
  revert d e
  decide

theorem eq_of_nibbles {a b : Byte} (hhigh : a.extractLsb' 4 4 = b.extractLsb' 4 4)
    (hlow : a.extractLsb' 0 4 = b.extractLsb' 0 4) : a = b := by
  ext i hi
  by_cases hi4 : i < 4
  · have hbit := congrArg (fun x : BitVec 4 => x.getLsbD i) hlow
    simpa [BitVec.getLsbD_extractLsb', hi4, hi] using hbit
  · have hbit := congrArg (fun x : BitVec 4 => x.getLsbD (i - 4)) hhigh
    have hsum : 4 + (i - 4) = i := by omega
    have hless : i - 4 < 4 := by omega
    simpa [BitVec.getLsbD_extractLsb', hless, hsum, hi] using hbit

theorem to_hex_injective : Function.Injective toHex := by
  intro x
  induction x with
  | nil =>
      intro y h
      cases y with
      | nil => rfl
      | cons b y => cases h
  | cons a x ih =>
      intro y h
      cases y with
      | nil => cases h
      | cons b y =>
          obtain ⟨hhigh, hrest⟩ := List.cons.inj h
          obtain ⟨hlow, htail⟩ := List.cons.inj hrest
          rw [eq_of_nibbles (hex_injective hhigh) (hex_injective hlow), ih htail]

variable (blake3 : Bytes → Bytes) (metric : Bytes → Bytes → BitVec 32)

def blake3Digest (data : Bytes) : Bytes := toHex (blake3 data)

/-! ## Losses -/

/-- `x != y` on floats: NaNs differ from everything, and the two zeros are equal. -/
def floatNe (x y : BitVec 32) : Bool :=
  let magnitude (z : BitVec 32) : BitVec 32 := z &&& 0x7fffffff#32
  if 0x7f800000#32 < magnitude x ∨ 0x7f800000#32 < magnitude y then true
  else if magnitude x = 0 ∧ magnitude y = 0 then false
  else decide (x ≠ y)

def IsNaN (x : BitVec 32) : Prop := 0x7f800000#32 < x &&& 0x7fffffff#32

instance (x : BitVec 32) : Decidable (IsNaN x) := inferInstanceAs (Decidable (_ < _))

theorem floatNe_self (x : BitVec 32) : floatNe x x = false ↔ ¬ IsNaN x := by
  unfold floatNe IsNaN
  grind

/-- Zero unless there are two tensors of at least six values. -/
def computeLoss : List Tensor → BitVec 32
  | pred :: target :: _ =>
      if pred.length < 6 ∨ target.length < 6 then 0 else metric (pred.take 6) (target.take 6)
  | _ => 0

/-! ## Proofs -/

/-- What the hasher has absorbed after the tensors: empty ones are passed over. -/
def absorbed (tensors : List Tensor) : Bytes :=
  tensors.foldl (fun hashed t => if t = [] then hashed else hashed ++ t) []

def generateProof (tensors : List Tensor) : Wire.StarkProof :=
  let root := toHex (blake3 (absorbed tensors))
  ⟨root, blake3Digest blake3 root, computeLoss metric tensors⟩

def verifyProof (tensors : List Tensor) (proof : Wire.StarkProof) : Bool :=
  let expected := generateProof blake3 metric tensors
  if expected.root ≠ proof.root then false
  else if floatNe expected.loss proof.loss then false
  else decide (blake3Digest blake3 proof.root = proof.proof)

/-- **The boundaries are gone**: the hasher sees the concatenation. -/
theorem absorbed_eq_flatten (tensors : List Tensor) : absorbed tensors = tensors.flatten := by
  have hfrom : ∀ hashed : Bytes, tensors.foldl (fun hashed t => if t = [] then hashed
      else hashed ++ t) hashed = hashed ++ tensors.flatten := by
    induction tensors with
    | nil => simp
    | cons t tensors ih =>
        intro hashed
        rw [List.foldl_cons, ih, List.flatten_cons]
        by_cases ht : t = []
        · simp [ht]
        · simp [ht]
  exact hfrom []

/-- A proof verifies for the lists of the same digest and the same loss. -/
theorem verify_generated (t₁ t₂ : List Tensor) :
    verifyProof blake3 metric t₂ (generateProof blake3 metric t₁) = true ↔
      blake3 t₂.flatten = blake3 t₁.flatten ∧
        floatNe (computeLoss metric t₂) (computeLoss metric t₁) = false := by
  have hroot : (generateProof blake3 metric t₂).root = (generateProof blake3 metric t₁).root ↔
      blake3 t₂.flatten = blake3 t₁.flatten := by
    show toHex (blake3 (absorbed t₂)) = toHex (blake3 (absorbed t₁)) ↔ _
    rw [to_hex_injective.eq_iff, absorbed_eq_flatten, absorbed_eq_flatten]
  -- the proof field is the digest of the root, also in `t₁`'s proof
  have hproof : blake3Digest blake3 (generateProof blake3 metric t₁).root =
      (generateProof blake3 metric t₁).proof := rfl
  rw [← hroot]
  show (if _ then _ else if floatNe (computeLoss metric t₂) (computeLoss metric t₁) then _
    else decide _) = true ↔ _
  grind

/-- **A proof for one batch verifies for another**: the two tensors of the first, 1 and 1, 1, in the
other order. -/
theorem regrouped_verifies :
    (∀ blake3 metric, verifyProof blake3 metric [[1, 1], [1]]
      (generateProof blake3 metric [[1], [1, 1]]) = true) ∧
    ¬ ∀ blake3 metric, Function.Injective blake3 → ∀ t₁ t₂,
      verifyProof blake3 metric t₂ (generateProof blake3 metric t₁) = true → t₂ = t₁ := by
  have hverifies : ∀ blake3 metric, verifyProof blake3 metric [[1, 1], [1]]
      (generateProof blake3 metric [[1], [1, 1]]) = true := by
    intro blake3 metric
    apply (verify_generated blake3 metric _ _).mpr
    refine ⟨rfl, ?_⟩
    show floatNe 0 0 = false
    decide
  refine ⟨hverifies, fun hclaim => ?_⟩
  have hsame := hclaim id (fun _ _ => 0) Function.injective_id [[1], [1, 1]] [[1, 1], [1]]
    (hverifies _ _)
  exact absurd hsame (by decide)

/-! ## When the root binds the batch -/

variable {blake3 metric}

/-- Where the tensors have the same sizes, contents and order are bound. -/
theorem eq_of_verify {t₁ t₂ : List Tensor}
    (hfree : blake3 t₂.flatten = blake3 t₁.flatten → t₂.flatten = t₁.flatten)
    (hsizes : t₂.map List.length = t₁.map List.length)
    (h : verifyProof blake3 metric t₂ (generateProof blake3 metric t₁) = true) : t₂ = t₁ := by
  apply List.eq_iff_flatten_eq.mpr
  exact ⟨hfree ((verify_generated blake3 metric t₁ t₂).mp h).1, hsizes⟩

/-- **When a proof is a proof for one batch only.** Where the two batches do not collide: exactly when
they are split alike, or are made of different numbers, or differ in their losses. -/
theorem root_binds_iff (t₁ t₂ : List Tensor)
    (hfree : blake3 t₂.flatten = blake3 t₁.flatten → t₂.flatten = t₁.flatten) :
    (verifyProof blake3 metric t₂ (generateProof blake3 metric t₁) = true → t₂ = t₁) ↔
      t₂.map List.length = t₁.map List.length ∨ t₂.flatten ≠ t₁.flatten ∨
        floatNe (computeLoss metric t₂) (computeLoss metric t₁) = true := by
  constructor
  · intro hbinds
    by_contra hnot
    obtain ⟨hsizes, hsame, hloss⟩ : t₂.map List.length ≠ t₁.map List.length ∧
        t₂.flatten = t₁.flatten ∧
        floatNe (computeLoss metric t₂) (computeLoss metric t₁) = false := by
      simpa using hnot
    have hverifies := (verify_generated blake3 metric t₁ t₂).mpr ⟨congrArg blake3 hsame, hloss⟩
    exact hsizes (congrArg _ (hbinds hverifies))
  · rintro hcases hverifies
    obtain ⟨hdigest, hloss⟩ := (verify_generated blake3 metric t₁ t₂).mp hverifies
    obtain hsizes | hdifferent | hlosses := hcases
    · exact eq_of_verify hfree hsizes hverifies
    · exact absurd (hfree hdigest) hdifferent
    · exact absurd (hloss.symm.trans hlosses) Bool.false_ne_true

/-- A digest of 32 bytes that tells short inputs apart. -/
def sampleDigest (data : Bytes) : Bytes := (data ++ List.replicate 32 0xff).take 32

/-- One number differs. -/
theorem root_binds_sample :
    (verifyProof sampleDigest (fun _ _ => 0) [[1], [1, 2]]
        (generateProof sampleDigest (fun _ _ => 0) [[1], [1, 1]]) = true →
      ([[1], [1, 2]] : List Tensor) = [[1], [1, 1]]) ∧
      ([[1], [1, 2]] : List Tensor).flatten ≠ [[1], [1, 1]].flatten :=
  have hdiffer : ([[1], [1, 2]] : List Tensor).flatten ≠ [[1], [1, 1]].flatten := by decide
  ⟨(root_binds_iff [[1], [1, 1]] [[1], [1, 2]] (by decide)).mpr (Or.inr (Or.inl hdiffer)), hdiffer⟩

end ChainBeasts.Pouw.ProofSystem
