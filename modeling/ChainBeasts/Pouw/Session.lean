import ChainBeasts.Pouw.ProveAndSubmit
import ChainBeasts.Pouw.ZkProofSystem

/-! # A session of a validator

`Validator` keeps its last accepted loss as a `float`, and a NaN there would let every later proof
pass, since nothing is above it. `ProveAndSubmit` takes losses to be exact and so cannot say that
this does not happen. Here the functions of the validator run over bit patterns, for a proof system
that compares the stated loss with its own as both of the source do, and `session_refines` says that
over a whole session they answer as over exact losses: no NaN gets past the proof system.

The first part is general in the losses and their comparison. -/

namespace ChainBeasts.Pouw.Session

variable {F G V : Type}

/-! ## The validator over a comparison -/

section Validator

variable (lt : F → F → Bool) (sys : IProofSystem F)

def verifyStarkProof (v : LossValidator F) (tensors : List (List Int8)) (proof : StarkProof F) :
    Bool × LossValidator F :=
  if ¬ sys.verifyProof tensors proof then (false, v)
  else
    let loss := sys.computeLoss tensors
    if lt v.lastLoss loss then (false, v)
    else (true, { v with lastLoss := loss })

def proveAndSubmit (onchain : String → String → V → Bool × V) (v : LossValidator F) (chain : V)
    (tensors : List (List Int8)) : LossValidator.Outcome F V :=
  let proof := sys.generateProof tensors
  if ¬ sys.verifyProof tensors proof then ⟨false, v, chain, none⟩
  else if lt v.lastLoss proof.loss then ⟨false, v, chain, none⟩
  else
    let v := { v with lastLoss := proof.loss }
    let submitted := onchain proof.root proof.proof chain
    if ¬ submitted.1 then ⟨false, v, submitted.2, none⟩
    else if v.p2p then
      ⟨true, { v with toValidator := v.toValidator.attest proof.root }, submitted.2, some proof⟩
    else ⟨true, v, submitted.2, none⟩

/-- With the order of the losses it is the validator over exact losses. -/
theorem verify_stark_proof_exact [LinearOrder F] (v : LossValidator F) (tensors : List (List Int8))
    (proof : StarkProof F) :
    verifyStarkProof (fun x y => x < y) sys v tensors proof =
      v.verifyStarkProof sys tensors proof := by
  simp only [verifyStarkProof, LossValidator.verifyStarkProof, decide_eq_true_eq]

theorem prove_and_submit_exact [LinearOrder F] (onchain : String → String → V → Bool × V)
    (v : LossValidator F) (chain : V) (tensors : List (List Int8)) :
    proveAndSubmit (fun x y => x < y) sys onchain v chain tensors =
      v.proveAndSubmit sys (fun p => onchain p.root p.proof) chain tensors := by
  simp only [proveAndSubmit, LossValidator.proveAndSubmit, decide_eq_true_eq]

end Validator

/-! ## Sessions -/

/-- A call on the validator; `attest` is also what the aggregator's callback does. -/
inductive Call (F : Type) where
  | verify (tensors : List (List Int8)) (proof : StarkProof F)
  | prove (tensors : List (List Int8))
  | attest (root : String)

/-- A validator and its chain, with what the calls so far have returned, the losses that were
accepted and the proofs that were broadcast. -/
structure State (F V : Type) where
  validator : LossValidator F
  chain : V
  answers : List Bool
  accepted : List F
  broadcast : List (StarkProof F)

section Run

variable (lt : F → F → Bool) (sys : IProofSystem F) (onchain : String → String → V → Bool × V)

def step (s : State F V) : Call F → State F V
  | .verify tensors proof =>
      let done := verifyStarkProof lt sys s.validator tensors proof
      { s with
        validator := done.2
        answers := s.answers ++ [done.1]
        accepted := s.accepted ++ if done.1 then [sys.computeLoss tensors] else [] }
  | .prove tensors =>
      let done := proveAndSubmit lt sys onchain s.validator s.chain tensors
      { validator := done.validator
        chain := done.chain
        answers := s.answers ++ [done.result]
        accepted := s.accepted ++ if done.result then [(sys.generateProof tensors).loss] else []
        broadcast := s.broadcast ++ done.broadcast.toList }
  | .attest root =>
      { s with validator := { s.validator with toValidator := s.validator.toValidator.attest root } }

def run (s : State F V) (calls : List (Call F)) : State F V :=
  calls.foldl (step lt sys onchain) s

end Run

def start (quorum : SizeT) (p2p : Bool) (infinity : F) (chain : V) : State F V where
  validator := ⟨.new quorum, infinity, p2p⟩
  chain := chain
  answers := []
  accepted := []
  broadcast := []

/-! ## Accepted losses over an order -/

section Order

variable [LinearOrder F] {sys : IProofSystem F} {onchain : String → String → V → Bool × V}

/-- No accepted loss is above an earlier one, or below the last. -/
structure Falling (s : State F V) : Prop where
  pairwise : s.accepted.Pairwise fun earlier later => later ≤ earlier
  bar : ∀ x ∈ s.accepted, s.validator.lastLoss ≤ x

theorem Falling.congr {s s' : State F V} (hs : Falling s)
    (hbar : s'.validator.lastLoss = s.validator.lastLoss) (haccepted : s'.accepted = s.accepted) :
    Falling s' where
  pairwise := haccepted ▸ hs.pairwise
  bar := by
    rw [haccepted, hbar]
    exact hs.bar

/-- A loss that is not above the bar becomes the bar, accepted or not. -/
theorem Falling.note {s s' : State F V} (hs : Falling s) {loss : F}
    (hloss : loss ≤ s.validator.lastLoss) (hbar : s'.validator.lastLoss = loss)
    (haccepted : s'.accepted = s.accepted ∨ s'.accepted = s.accepted ++ [loss]) : Falling s' := by
  have hold : ∀ x ∈ s.accepted, loss ≤ x := fun x hx => hloss.trans (hs.bar x hx)
  rcases haccepted with hsame | hmore
  · exact ⟨hsame ▸ hs.pairwise, by rw [hsame, hbar]; exact hold⟩
  · constructor
    · rw [hmore, List.pairwise_append]
      refine ⟨hs.pairwise, List.pairwise_singleton _ _, ?_⟩
      intro x hx y hy
      rw [List.mem_singleton.mp hy]
      exact hold x hx
    · rw [hmore, hbar]
      intro x hx
      rcases List.mem_append.mp hx with hx | hx
      · exact hold x hx
      · exact (List.mem_singleton.mp hx).ge

theorem Falling.step {s : State F V} (hs : Falling s) (c : Call F) :
    Falling (step (fun x y => x < y) sys onchain s c) := by
  cases c with
  | verify tensors proof =>
      unfold Session.step verifyStarkProof
      dsimp only
      split
      · exact hs.congr rfl (List.append_nil _)
      · split
        · exact hs.congr rfl (List.append_nil _)
        · next hgood => exact hs.note (by simpa using hgood) rfl (Or.inr rfl)
  | prove tensors =>
      unfold Session.step proveAndSubmit
      dsimp only
      split
      · exact hs.congr rfl (List.append_nil _)
      · split
        · exact hs.congr rfl (List.append_nil _)
        · next hgood =>
            have hloss := not_lt.mp (by simpa using hgood)
            split
            · exact hs.note hloss rfl (Or.inl (List.append_nil _))
            · split
              · exact hs.note hloss rfl (Or.inr rfl)
              · exact hs.note hloss rfl (Or.inr rfl)
  | attest root => exact hs.congr rfl rfl

variable (sys onchain) in
theorem Falling.run {s : State F V} (hs : Falling s) (calls : List (Call F)) :
    Falling (run (fun x y => x < y) sys onchain s calls) := by
  induction calls generalizing s with
  | nil => exact hs
  | cons c calls ih => exact ih (hs.step c)

end Order

/-! ## One kind of losses seen as another -/

def mapProof (φ : F → G) (p : StarkProof F) : StarkProof G := ⟨p.root, p.proof, φ p.loss⟩

def mapValidator (φ : F → G) (v : LossValidator F) : LossValidator G :=
  ⟨v.toValidator, φ v.lastLoss, v.p2p⟩

def Call.map (φ : F → G) : Call F → Call G
  | .verify tensors proof => .verify tensors (mapProof φ proof)
  | .prove tensors => .prove tensors
  | .attest root => .attest root

def State.map (φ : F → G) (s : State F V) : State G V where
  validator := mapValidator φ s.validator
  chain := s.chain
  answers := s.answers
  accepted := s.accepted.map φ
  broadcast := s.broadcast.map (mapProof φ)

/-- A proof system with a comparison seen through `φ`, where `good` losses compare alike and no other
loss gets past the proof system. -/
structure Sees (φ : F → G) (good : F → Prop) (lt : F → F → Bool) (sys : IProofSystem F)
    (lt' : G → G → Bool) (sys' : IProofSystem G) : Prop where
  generate : ∀ t, sys'.generateProof t = mapProof φ (sys.generateProof t)
  verify : ∀ t p, sys'.verifyProof t (mapProof φ p) = sys.verifyProof t p
  loss : ∀ t, sys'.computeLoss t = φ (sys.computeLoss t)
  verified : ∀ t p, sys.verifyProof t p = true → good (sys.computeLoss t)
  generated : ∀ t, sys.verifyProof t (sys.generateProof t) = true →
    good (sys.generateProof t).loss
  compare : ∀ x y, good x → good y → lt' (φ x) (φ y) = lt x y

section Sees

variable {φ : F → G} {good : F → Prop} {lt : F → F → Bool} {sys : IProofSystem F}
  {lt' : G → G → Bool} {sys' : IProofSystem G} {onchain : String → String → V → Bool × V}
  {v : LossValidator F}

theorem Sees.verifyStarkProof (h : Sees φ good lt sys lt' sys') (hv : good v.lastLoss)
    (t : List (List Int8)) (p : StarkProof F) :
    Session.verifyStarkProof lt' sys' (mapValidator φ v) t (mapProof φ p) =
        ((Session.verifyStarkProof lt sys v t p).1,
          mapValidator φ (Session.verifyStarkProof lt sys v t p).2) ∧
      good (Session.verifyStarkProof lt sys v t p).2.lastLoss ∧
      ((Session.verifyStarkProof lt sys v t p).1 = true → good (sys.computeLoss t)) := by
  unfold Session.verifyStarkProof
  rw [h.verify, h.loss]
  by_cases hvalid : sys.verifyProof t p = true
  · have hloss := h.verified t p hvalid
    have hcompare : lt' (mapValidator φ v).lastLoss (φ (sys.computeLoss t)) =
        lt v.lastLoss (sys.computeLoss t) := h.compare _ _ hv hloss
    rw [if_neg (not_not.mpr hvalid), if_neg (not_not.mpr hvalid)]
    simp only [hcompare]
    split
    · exact ⟨rfl, hv, fun _ => hloss⟩
    · exact ⟨rfl, hloss, fun _ => hloss⟩
  · rw [if_pos hvalid, if_pos hvalid]
    exact ⟨rfl, hv, fun hfalse => absurd hfalse Bool.false_ne_true⟩

/-- An outcome seen through `φ`. -/
def mapOutcome (φ : F → G) (o : LossValidator.Outcome F V) : LossValidator.Outcome G V :=
  ⟨o.result, mapValidator φ o.validator, o.chain, o.broadcast.map (mapProof φ)⟩

variable (onchain) in
theorem Sees.proveAndSubmit (h : Sees φ good lt sys lt' sys') (hv : good v.lastLoss) (chain : V)
    (t : List (List Int8)) :
    Session.proveAndSubmit lt' sys' onchain (mapValidator φ v) chain t =
        mapOutcome φ (Session.proveAndSubmit lt sys onchain v chain t) ∧
      good (Session.proveAndSubmit lt sys onchain v chain t).validator.lastLoss ∧
      ((Session.proveAndSubmit lt sys onchain v chain t).result = true →
        good (sys.generateProof t).loss) := by
  unfold Session.proveAndSubmit
  rw [h.generate]
  dsimp only
  rw [h.verify]
  by_cases hvalid : sys.verifyProof t (sys.generateProof t) = true
  · have hloss := h.generated t hvalid
    have hcompare : lt' (mapValidator φ v).lastLoss (mapProof φ (sys.generateProof t)).loss =
        lt v.lastLoss (sys.generateProof t).loss := h.compare _ _ hv hloss
    rw [if_neg (not_not.mpr hvalid), if_neg (not_not.mpr hvalid)]
    simp only [hcompare]
    split
    · exact ⟨rfl, hv, fun _ => hloss⟩
    · rcases hsubmitted : onchain (sys.generateProof t).root (sys.generateProof t).proof chain with
        ⟨ok, chain'⟩
      have hmapped : onchain (mapProof φ (sys.generateProof t)).root
          (mapProof φ (sys.generateProof t)).proof chain = (ok, chain') := hsubmitted
      simp only [hmapped, mapValidator]
      cases ok with
      | false => exact ⟨rfl, hloss, fun _ => hloss⟩
      | true =>
          cases hp2p : v.p2p with
          | false => exact ⟨rfl, hloss, fun _ => hloss⟩
          | true => exact ⟨rfl, hloss, fun _ => hloss⟩
  · rw [if_pos hvalid, if_pos hvalid]
    exact ⟨rfl, hv, fun hfalse => absurd hfalse Bool.false_ne_true⟩

/-- The bar and the accepted losses are good. -/
structure Good (good : F → Prop) (s : State F V) : Prop where
  bar : good s.validator.lastLoss
  accepted : ∀ x ∈ s.accepted, good x

variable (onchain) in
theorem Sees.step (h : Sees φ good lt sys lt' sys') {s : State F V} (hs : Good good s) (c : Call F) :
    Session.step lt' sys' onchain (s.map φ) (c.map φ) = (Session.step lt sys onchain s c).map φ ∧
      Good good (Session.step lt sys onchain s c) := by
  have hgrows : ∀ {b : Bool} {loss : F}, (b = true → good loss) →
      ∀ x ∈ s.accepted ++ (if b then [loss] else []), good x := by
    intro b loss hloss x hx
    rcases List.mem_append.mp hx with hx | hx
    · exact hs.accepted x hx
    · cases b with
      | true => exact List.mem_singleton.mp hx ▸ hloss rfl
      | false => cases hx
  have hmapped : ∀ (b : Bool) (loss : F), (s.accepted ++ if b then [loss] else []).map φ =
      s.accepted.map φ ++ if b then [φ loss] else [] := by
    intro b loss
    rw [List.map_append]
    cases b with
    | true => rfl
    | false => rfl
  cases c with
  | verify t p =>
      obtain ⟨hsame, hbar, hloss⟩ := h.verifyStarkProof hs.bar t p
      refine ⟨?_, hbar, hgrows hloss⟩
      simp only [Session.step, Call.map, State.map, hsame, h.loss, hmapped]
  | prove t =>
      obtain ⟨hsame, hbar, hloss⟩ := h.proveAndSubmit onchain hs.bar s.chain t
      refine ⟨?_, hbar, hgrows hloss⟩
      simp only [Session.step, Call.map, State.map, hsame, h.generate, hmapped, List.map_append,
        Option.toList_map, mapOutcome, mapProof]
  | attest root => exact ⟨rfl, hs.bar, hs.accepted⟩

variable (onchain) in
theorem Sees.run (h : Sees φ good lt sys lt' sys') {s : State F V} (hs : Good good s)
    (calls : List (Call F)) :
    Session.run lt' sys' onchain (s.map φ) (calls.map (Call.map φ)) =
        (Session.run lt sys onchain s calls).map φ ∧
      Good good (Session.run lt sys onchain s calls) := by
  induction calls generalizing s with
  | nil => exact ⟨rfl, hs⟩
  | cons c calls ih =>
      obtain ⟨hsame, hgood⟩ := h.step onchain hs c
      have hrest := ih hgood
      rw [← hsame] at hrest
      exact hrest

end Sees

/-! ## Floats -/

section Floats

open ProofSystem (IsNaN floatNe)

/-- Floats that are no NaN are ordered as these numbers; the two zeros have the same. -/
def place (x : BitVec 32) : Int :=
  if x.msb then -((x &&& 0x7fffffff#32).toNat : Int) else (x &&& 0x7fffffff#32).toNat

/-- `x < y` on floats: false where one of them is a NaN. -/
def floatLt (x y : BitVec 32) : Bool := ¬ IsNaN x ∧ ¬ IsNaN y ∧ place x < place y

theorem toNat_magnitude (x : BitVec 32) : (x &&& 0x7fffffff#32).toNat = x.toNat % 2 ^ 31 := by
  rw [BitVec.toNat_and]
  exact Nat.and_two_pow_sub_one_eq_mod x.toNat 31

theorem place_eq (x : BitVec 32) :
    place x = if 2 ^ 31 ≤ x.toNat then -((x.toNat % 2 ^ 31 : Nat) : Int)
      else ((x.toNat % 2 ^ 31 : Nat) : Int) := by
  unfold place
  rw [toNat_magnitude, BitVec.msb_eq_decide]
  simp only [decide_eq_true_eq]

theorem IsNaN.of_place {x y : BitVec 32} (h : place x = place y) (hy : IsNaN y) : IsNaN x := by
  have hmagnitude : x.toNat % 2 ^ 31 = y.toNat % 2 ^ 31 := by
    rw [place_eq, place_eq] at h
    split at h <;> split at h <;> omega
  rw [← toNat_magnitude, ← toNat_magnitude, BitVec.toNat_inj] at hmagnitude
  show _ < x &&& _
  rw [hmagnitude]
  exact hy

/-- Floats that do not differ are numbers of the same place. -/
theorem floatNe_iff (x y : BitVec 32) :
    floatNe x y = false ↔ ¬ IsNaN x ∧ ¬ IsNaN y ∧ place x = place y := by
  have hx := x.isLt
  have hy := y.isLt
  have hzero : ∀ z : BitVec 32, z &&& 0x7fffffff#32 = 0 ↔ z.toNat % 2 ^ 31 = 0 := by
    intro z
    rw [← toNat_magnitude, ← BitVec.toNat_inj]
    rfl
  unfold floatNe
  dsimp only
  split
  · next hnan =>
      refine iff_of_false (by decide) ?_
      rintro ⟨hx, hy, -⟩
      exact hnan.elim hx hy
  · next hnan =>
      obtain ⟨hxn, hyn⟩ := not_or.mp hnan
      have hnumbers : ¬ IsNaN x ∧ ¬ IsNaN y := ⟨hxn, hyn⟩
      rw [place_eq, place_eq, ← and_assoc, and_iff_right hnumbers]
      split
      · next hboth =>
          rw [hzero, hzero] at hboth
          rw [hboth.1, hboth.2]
          simp
      · next hnot =>
          rw [hzero, hzero] at hnot
          rw [decide_eq_false_iff_not, not_not, ← BitVec.toNat_inj]
          split <;> split <;> omega

theorem floatLt_iff {x y : BitVec 32} (hx : ¬ IsNaN x) (hy : ¬ IsNaN y) :
    floatLt x y = decide (place x < place y) := by
  simp [floatLt, hx, hy]

/-- A proof system that checks the two strings of a proof, and its loss as a float. -/
structure FloatSystem where
  generate : List (List Int8) → String × String
  accepts : List (List Int8) → String → String → Bool
  computeLoss : List (List Int8) → BitVec 32

namespace FloatSystem

def floats (sys : FloatSystem) : IProofSystem (BitVec 32) where
  generateProof t := ⟨(sys.generate t).1, (sys.generate t).2, sys.computeLoss t⟩
  verifyProof t p := sys.accepts t p.root p.proof && !floatNe (sys.computeLoss t) p.loss
  computeLoss := sys.computeLoss

/-- The same over exact losses; a loss that is no number is the loss of no proof. -/
def exact (sys : FloatSystem) : IProofSystem Int where
  generateProof t := ⟨(sys.generate t).1, (sys.generate t).2, place (sys.computeLoss t)⟩
  verifyProof t p := sys.accepts t p.root p.proof &&
    decide (¬ IsNaN (sys.computeLoss t) ∧ place (sys.computeLoss t) = p.loss)
  computeLoss t := place (sys.computeLoss t)

theorem sees (sys : FloatSystem) :
    Sees place (fun x => ¬ IsNaN x) floatLt sys.floats (fun x y => x < y) sys.exact where
  generate _ := rfl
  verify t p := by
    have hloss : (¬ IsNaN (sys.computeLoss t) ∧ place (sys.computeLoss t) = place p.loss) ↔
        floatNe (sys.computeLoss t) p.loss = false := by
      rw [floatNe_iff]
      constructor
      · rintro ⟨hnumber, hsame⟩
        exact ⟨hnumber, fun hnan => hnumber (IsNaN.of_place hsame hnan), hsame⟩
      · rintro ⟨hnumber, -, hsame⟩
        exact ⟨hnumber, hsame⟩
    show (_ && decide (_ ∧ place _ = place p.loss)) = (_ && !floatNe _ p.loss)
    simp only [hloss]
    cases floatNe (sys.computeLoss t) p.loss with
    | true => rfl
    | false => rfl
  loss _ := rfl
  verified t p h := by
    have hloss : floatNe (sys.computeLoss t) p.loss = false := by
      simpa using (Bool.and_eq_true_iff.mp h).2
    exact ((floatNe_iff _ _).mp hloss).1
  generated t h := by
    have hloss : floatNe (sys.computeLoss t) (sys.computeLoss t) = false := by
      rw [← Bool.not_eq_true']
      exact (Bool.and_eq_true_iff.mp h).2
    exact ((floatNe_iff _ _).mp hloss).1
  compare x y hx hy := (floatLt_iff hx hy).symm

end FloatSystem

/-! ### The two of the source -/

open ProofSystem Wire

def tensors (t : List (List Int8)) : List Tensor := t.map (·.map Int8.toBitVec)

/-- A `std::string` with these bytes. -/
def string (bs : Bytes) : String := String.ofList (bs.map fun b => Char.ofNat b.toNat)

def bytes (s : String) : Bytes := s.toList.map fun c => BitVec.ofNat 8 c.toNat

def wire (p : StarkProof (BitVec 32)) : Wire.StarkProof := ⟨bytes p.root, bytes p.proof, p.loss⟩

theorem bytes_string (bs : Bytes) : bytes (string bs) = bs := by
  have hbyte : ∀ b : Byte, BitVec.ofNat 8 (Char.ofNat b.toNat).toNat = b := by decide
  rw [bytes, string, String.toList_ofList, List.map_map]
  exact (List.map_congr_left fun b _ => hbyte b).trans (List.map_id bs)

def blake3System (blake3 : Bytes → Bytes) (metric : Bytes → Bytes → BitVec 32) : FloatSystem where
  generate t :=
    let root := toHex (blake3 (absorbed (tensors t)))
    (string root, string (blake3Digest blake3 root))
  accepts t root proof :=
    toHex (blake3 (absorbed (tensors t))) = bytes root ∧
      blake3Digest blake3 (bytes root) = bytes proof
  computeLoss t := computeLoss metric (tensors t)

theorem blake3_generate (blake3 : Bytes → Bytes) (metric : Bytes → Bytes → BitVec 32)
    (t : List (List Int8)) : wire ((blake3System blake3 metric).floats.generateProof t) =
      ProofSystem.generateProof blake3 metric (tensors t) := by
  show Wire.StarkProof.mk (bytes (string _)) (bytes (string _)) _ = _
  rw [bytes_string, bytes_string]
  rfl

theorem blake3_verify (blake3 : Bytes → Bytes) (metric : Bytes → Bytes → BitVec 32)
    (t : List (List Int8)) (p : StarkProof (BitVec 32)) :
    (blake3System blake3 metric).floats.verifyProof t p =
      ProofSystem.verifyProof blake3 metric (tensors t) (wire p) := by
  rw [Bool.eq_iff_iff]
  show (decide (_ ∧ _) && !floatNe (computeLoss metric (tensors t)) p.loss) = true ↔
    (if toHex (blake3 (absorbed (tensors t))) ≠ bytes p.root then false
      else if floatNe (computeLoss metric (tensors t)) p.loss then false
      else decide (blake3Digest blake3 (bytes p.root) = bytes p.proof)) = true
  grind

def zkSystem (lib : ZkProofSystem.Library) (metric : Bytes → Bytes → BitVec 32) : FloatSystem where
  generate t :=
    let raw := lib.gen (ZkProofSystem.buf (tensors t))
    (string (raw.root.read.getD []), string (raw.proof.read.getD []))
  accepts t root proof :=
    lib.verify (ZkProofSystem.buf (tensors t)) ⟨.print (bytes root), .print (bytes proof)⟩
  computeLoss t := computeLoss metric (tensors t)

theorem zk_generate {lib : ZkProofSystem.Library} {metric : Bytes → Bytes → BitVec 32}
    {t : List (List Int8)} {p : Wire.StarkProof}
    (h : ZkProofSystem.generateProof lib metric (tensors t) = some p) :
    wire ((zkSystem lib metric).floats.generateProof t) = p := by
  obtain ⟨hroot, hproof, hloss⟩ := ZkProofSystem.generate_proof_cases h
  rw [← ZkProofSystem.buf_eq_flatten] at hroot hproof
  show Wire.StarkProof.mk (bytes (string ((_ : Option Bytes).getD [])))
    (bytes (string ((_ : Option Bytes).getD []))) _ = _
  rw [bytes_string, bytes_string, hroot, hproof]
  exact congrArg (Wire.StarkProof.mk p.root p.proof) hloss.symm

theorem zk_verify (lib : ZkProofSystem.Library) (metric : Bytes → Bytes → BitVec 32)
    (t : List (List Int8)) (p : StarkProof (BitVec 32)) :
    (zkSystem lib metric).floats.verifyProof t p =
      ZkProofSystem.verifyProof lib metric (tensors t) (wire p) := by
  rw [Bool.eq_iff_iff, ZkProofSystem.verify_proof_iff, ← ZkProofSystem.buf_eq_flatten]
  show (lib.verify _ _ && !floatNe _ _) = true ↔ _
  rw [Bool.and_eq_true, Bool.not_eq_true']
  rfl

/-- `std::numeric_limits<float>::infinity()`. -/
def infinity : BitVec 32 := 0x7f800000

/-- **Losses are as good as exact.** In every session of a validator over floats, from its
construction on, each call returns, broadcasts and leaves on the chain what it does over exact losses;
no accepted loss is a NaN, and none is above one that was accepted before. -/
theorem session_refines (sys : FloatSystem) (onchain : String → String → V → Bool × V)
    (quorum : SizeT) (p2p : Bool) (chain : V) (calls : List (Call (BitVec 32))) :
    let s := run floatLt sys.floats onchain (start quorum p2p infinity chain) calls
    s.map place = run (fun x y => x < y) sys.exact onchain
        (start quorum p2p (place infinity) chain) (calls.map (Call.map place)) ∧
      (∀ x ∈ s.accepted, ¬ IsNaN x) ∧
      s.accepted.Pairwise fun earlier later => floatLt earlier later = false := by
  intro s
  have hstart : Good (fun x => ¬ IsNaN x) (start quorum p2p infinity chain : State _ V) :=
    ⟨show ¬ IsNaN infinity by decide, by simp [start]⟩
  have hfalling : Falling (start quorum p2p (place infinity) chain : State Int V) :=
    ⟨by simp [start], by simp [start]⟩
  obtain ⟨hsees, hgood⟩ := sys.sees.run onchain hstart calls
  have hsame : s.map place = run (fun x y => x < y) sys.exact onchain
      (start quorum p2p (place infinity) chain) (calls.map (Call.map place)) := hsees.symm
  have hexact := (hfalling.run sys.exact onchain (calls.map (Call.map place))).pairwise
  refine ⟨hsame, hgood.accepted, ?_⟩
  rw [← hsame] at hexact
  refine (List.pairwise_map.mp hexact).imp_of_mem ?_
  intro x y hx hy hle
  rw [floatLt_iff (hgood.accepted x hx) (hgood.accepted y hy)]
  exact decide_eq_false (not_lt.mpr hle)

end Floats

end ChainBeasts.Pouw.Session
