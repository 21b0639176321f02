import ChainBeasts.Int8.Inference

/-! # What a model computes

The mathematical network behind `run_inference`: integers, with every sum exact. A product is
saturated to eight bits before its bias is added, and the sum once more.

A build with a tile kernel reads the weights of a layer as the plain build does if the layer is
`Uniform`: a row of weights is no longer than a tile, or there is only one. On models of uniform
layers all builds compute the same, whatever the number of threads, and the size limit leaves no sum
that overflows: `run_inference_eq`. -/

namespace ChainBeasts.Int8

open ChainBeasts.Buffer

/-! ## Networks of integers -/

/-- The nearest integer of eight bits. -/
def clamp (x : Int) : Int := max (-128) (min 127 x)

/-- What a layer makes of its inputs. Missing entries do not matter: see `Sized`. -/
def Int8Layer.meaning (l : Int8Layer) (x : List Int) : List Int :=
  if l.op = .Dense then (List.range l.output.toNat).map fun j =>
    clamp (clamp (∑ t ∈ Finset.range l.input.toNat,
      x.getD t 0 * (l.weights.getD (t * l.output.toNat + j) 0).toInt) + (l.bias.getD j 0).toInt)
  else x.map (max 0)

def meaning (layers : List Int8Layer) (x : List Int) : List Int :=
  layers.foldl (fun x l => l.meaning x) x

def CreatureModel.layers (model : CreatureModel) : List Int8Layer :=
  model.sensor.layers ++ (model.core.layers ++ model.appendage.layers)

/-- The rows of weights lie where the plain build looks for them. -/
def Int8Layer.Uniform (build : Build) (l : Int8Layer) : Prop :=
  l.op = .Dense → build = .scalar ∨ l.output.toNat ≤ 128 ∨ l.input.toNat ≤ 1

variable {build : Build} {threads : Threads} {A B cur : List I8} {N K : Nat} {l : Int8Layer}

/-! ## One product -/

/-- Under the condition of `Uniform`, the weights are read up to the last one. -/
theorem inside_uniform_iff {n : Nat} (h : build = .scalar ∨ N ≤ 128 ∨ K ≤ 1) :
    build.Inside N K n ↔ N = 0 ∨ K * N ≤ n := by
  rcases Nat.eq_zero_or_pos N with rfl | hN
  · exact iff_of_true (fun jj hjj => absurd hjj (Nat.not_lt_zero jj)) (Or.inl rfl)
  rcases Nat.eq_zero_or_pos K with rfl | hK
  · rw [Nat.zero_mul]
    exact iff_of_true (fun jj _ _ t ht => absurd ht (Nat.not_lt_zero t)) (Or.inr (Nat.zero_le n))
  rw [or_iff_right (Nat.ne_of_gt hN)]
  rcases h with hscalar | hnarrow | hone
  · exact inside_iff (Or.inl hscalar) hN hK
  · exact inside_iff (Or.inr hnarrow) hN hK
  · -- the tiles of the only row end where it does
    obtain rfl : K = 1 := by omega
    have hts : 0 < min build.int8Tile N := by
      have hpos : 0 < build.int8Tile := by cases build <;> decide
      exact Nat.lt_min.mpr ⟨hpos, hN⟩
    rw [Nat.one_mul]
    constructor
    · intro hread
      let jj := (N - 1) / min build.int8Tile N * min build.int8Tile N
      have hle : jj ≤ N - 1 := Nat.div_mul_le_self _ _
      have hdiv := Nat.div_add_mod (N - 1) (min build.int8Tile N)
      have hless := Nat.mod_lt (N - 1) hts
      have hjj : min build.int8Tile N * ((N - 1) / min build.int8Tile N) = jj := Nat.mul_comm _ _
      have hend := hread jj (by omega) (Nat.dvd_mul_left _ _) 0 Nat.one_pos
      omega
    · intro hlen jj hjj _ t ht
      obtain rfl : t = 0 := by omega
      omega

variable (build) in
/-- A row times a matrix, both maybe longer than they need to be. -/
theorem int8_matmul_row (threads : Threads) (hK : K ≤ 131071) (hA : K ≤ A.length)
    (hB : K * N ≤ B.length) :
    int8Matmul build threads A B 1 N K =
      some ((List.range N).map (build.target (fun k => A.getD k 0) (fun k => B.getD k 0) N K)) := by
  have hfa : Holds A (1 * K) (fun k => A.getD k 0) := (holds_getD A 0).mono (by omega)
  have hfb : Holds B (K * N) (fun k => B.getD k 0) := (holds_getD B 0).mono hB
  let g := build.target (fun k => A.getD k 0) (fun k => B.getD k 0) N K
  have hzero : Holds (List.replicate (1 * N) (0 : I8)) (1 * N)
      (patch (fun _ => 0) g 0 (0 * N)) := by
    refine (holds_replicate (1 * N) 0).congr fun k _ => ?_
    rw [patch, if_neg (by omega)]
  obtain ⟨C, hrun, hlen, hC⟩ := worker_spec hK hfa hfb (Nat.zero_le 1) (Nat.le_refl 1)
    List.length_replicate hzero
  have hone : tuneThreadCount threads 1 ≤ 1 := Nat.min_le_right _ _
  rw [Nat.one_mul] at hC hlen
  rw [int8Matmul, if_pos (Or.inl hone), hrun,
    (hC.congr fun k hk => if_pos ⟨Nat.zero_le k, by omega⟩).eq_map hlen]

/-- **The entries** are the saturated sums. -/
theorem toInt_target (h : build = .scalar ∨ N ≤ 128 ∨ K ≤ 1) (hK : K ≤ 131071) {j : Nat}
    (hj : j < N) :
    (build.target (fun k => A.getD k 0) (fun k => B.getD k 0) N K j).toInt =
      clamp (∑ t ∈ Finset.range K, (A.getD t 0).toInt * (B.getD (t * N + j) 0).toInt) := by
  have hts : 0 < min build.int8Tile N := by
    have hpos : 0 < build.int8Tile := by cases build <;> decide
    exact Nat.lt_min.mpr ⟨hpos, by omega⟩
  -- the tile of the column begins in front of it
  let jj := j / min build.int8Tile N * min build.int8Tile N
  have hjj : jj ≤ j := Nat.div_mul_le_self _ _
  have hstride : ∀ t < K, t * build.stride N jj = t * N := by
    intro t ht
    rcases h with hscalar | hnarrow | hone
    · rw [stride_eq (Or.inl hscalar) (by omega) (Nat.dvd_mul_left _ _)]
    · rw [stride_eq (Or.inr hnarrow) (by omega) (Nat.dvd_mul_left _ _)]
    · obtain rfl : t = 0 := by omega
      rw [Nat.zero_mul, Nat.zero_mul]
  have hsum : dot (fun t => A.getD (0 * K + t) 0) (fun t => B.getD (j + t * build.stride N jj) 0) K =
      ∑ t ∈ Finset.range K, (A.getD t 0).toInt * (B.getD (t * N + j) 0).toInt := by
    unfold dot
    apply Finset.sum_congr rfl
    intro t ht
    simp only [hstride t (Finset.mem_range.mp ht), Nat.zero_mul, Nat.zero_add, Nat.add_comm j]
  obtain ⟨hlo, hhi⟩ := dot_bounds (fun t => A.getD (0 * K + t) 0)
    (fun t => B.getD (j + t * build.stride N jj) 0) K
  rw [Build.target, Nat.div_eq_of_lt hj, Nat.mod_eq_of_lt hj, entry_eq, toInt_saturate]
  · rw [hsum, clamp]
  · exact Int.le_trans (by omega) hlo
  · exact Int.lt_of_le_of_lt hhi (by omega)

/-! ## One layer -/

theorem toInt_bounds (x : I8) : -128 ≤ x.toInt ∧ x.toInt ≤ 127 := by
  have hlo := BitVec.le_toInt x
  have hhi := BitVec.toInt_lt (x := x)
  constructor <;> omega

theorem toInt_clamp_int8 (x b : I8) :
    (clampInt8 (x.signExtend 32 + b.signExtend 32)).toInt = clamp (x.toInt + b.toInt) := by
  obtain ⟨hxlo, hxhi⟩ := toInt_bounds x
  obtain ⟨hblo, hbhi⟩ := toInt_bounds b
  have hsum : (x.signExtend 32 + b.signExtend 32).toInt = x.toInt + b.toInt := by
    rw [BitVec.toInt_add, BitVec.toInt_signExtend_of_le (by decide),
      BitVec.toInt_signExtend_of_le (by decide)]
    apply Int.bmod_eq_of_le <;> omega
  rw [clampInt8, hsum]
  apply BitVec.toInt_ofInt_eq_self (by decide)
  · show -128 ≤ max (-128) (min 127 (x.toInt + b.toInt))
    omega
  · show max (-128) (min 127 (x.toInt + b.toInt)) < 128
    omega

/-- The loop over the biases. -/
theorem addBias_eq {bias next : List I8} (hbias : N ≤ bias.length) (hnext : next.length = N) :
    addBias bias N next = some ((List.range N).map fun i =>
      clampInt8 ((next.getD i 0).signExtend 32 + (bias.getD i 0).signExtend 32)) := by
  let f : Nat → I8 := fun i => next.getD i 0
  let g : Nat → I8 := fun i => clampInt8 ((f i).signExtend 32 + (bias.getD i 0).signExtend 32)
  have hb : Holds bias N (fun i => bias.getD i 0) := (holds_getD bias 0).mono hbias
  have hf : Holds next N (patch f g 0 0) := by
    refine (hnext ▸ holds_getD next 0 : Holds next N f).congr fun k _ => ?_
    rw [patch, if_neg (by omega)]
  obtain ⟨next', hrun, hlen, hdone⟩ : ∃ next', addBias bias N next = some next' ∧
      next'.length = N ∧ Holds next' N (patch f g 0 N) := by
    apply forLoop_count (Nat.zero_le N)
      (fun i (s : List I8) => s.length = N ∧ Holds s N (patch f g 0 i))
    · rintro i s hi ⟨hlen, hs⟩
      have hx : Buffer.load s i = some (f i) := by
        rw [hs.load hi, patch, if_neg (by omega)]
      obtain ⟨s', hstore, hlen', hs'⟩ := hs.store hi g
      have hpatch := patch_append f g 0 i 1
      rw [Nat.zero_add] at hpatch
      rw [hpatch] at hs'
      refine ⟨s', ?_, hlen'.trans hlen, hs'⟩
      simp only [hx, hb.load hi, Option.bind_eq_bind, Option.bind_some]
      exact hstore
    · exact ⟨hnext, hf⟩
  rw [hrun, (hdone.congr fun k hk => if_pos ⟨Nat.zero_le k, by omega⟩).eq_map hlen]

/-- A layer that is sized in one build is sized in the plain one. -/
theorem sized_scalar_iff {width : Nat} (h : l.Uniform build) :
    l.Sized build width ↔ l.Sized .scalar width := by
  unfold Int8Layer.Sized
  apply imp_congr_right
  intro hop
  rw [inside_uniform_iff (h hop), inside_uniform_iff (Or.inl rfl)]

theorem getD_map_toInt (x : List I8) (t : Nat) :
    (x.map BitVec.toInt).getD t 0 = (x.getD t 0).toInt := by
  rw [List.getD_eq_getElem?_getD, List.getD_eq_getElem?_getD, List.getElem?_map]
  cases x[t]? <;> rfl

/-- **A layer** computes what it means. -/
theorem eval_layer_eq (threads : Threads) (hsmall : l.weights.length ≤ 131071)
    (huniform : l.Uniform build) (hsized : l.Sized build cur.length) :
    ∃ next, evalLayer build threads cur l = some next ∧ next.length = l.width cur.length ∧
      next.map BitVec.toInt = l.meaning (cur.map BitVec.toInt) := by
  unfold evalLayer Int8Layer.width Int8Layer.meaning
  by_cases hop : l.op = .Dense
  · obtain ⟨hA, hB, hbias⟩ := hsized hop
    rw [if_pos hop, if_pos hop, if_pos hop]
    rcases Nat.eq_zero_or_pos l.output.toNat with hnone | hpos
    · obtain ⟨C, hproduct, hC⟩ := matmul_runs threads hsmall hA hB
      refine ⟨[], ?_, hnone.symm, ?_⟩
      · rw [int8MatmulGpu, hproduct, Option.bind_eq_bind, Option.bind_some, addBias_eq hbias hC,
          hnone]
        rfl
      · rw [hnone]
        rfl
    · have hrows := hB.rows_le hpos
      rw [inside_uniform_iff (huniform hop), or_iff_right (Nat.ne_of_gt hpos)] at hB
      have hinputs := hA.resolve_left (Nat.ne_of_gt hpos)
      have hproduct := int8_matmul_row build threads (by omega) hinputs hB
      let C := (List.range l.output.toNat).map (build.target (fun k => cur.getD k 0)
        (fun k => l.weights.getD k 0) l.output.toNat l.input.toNat)
      have hC : C.length = l.output.toNat := by simp [C]
      refine ⟨(List.range l.output.toNat).map fun j =>
        clampInt8 ((C.getD j 0).signExtend 32 + (l.bias.getD j 0).signExtend 32), ?_, ?_, ?_⟩
      · rw [int8MatmulGpu, hproduct, Option.bind_eq_bind, Option.bind_some]
        exact addBias_eq hbias hC
      · simp
      · rw [List.map_map]
        apply List.map_congr_left
        intro j hj
        have hj' : j < l.output.toNat := List.mem_range.mp hj
        have hentry : C.getD j 0 = build.target (fun k => cur.getD k 0)
            (fun k => l.weights.getD k 0) l.output.toNat l.input.toNat j := by
          simp [C, hj']
        rw [Function.comp_apply, toInt_clamp_int8, hentry,
          toInt_target (huniform hop) (by omega) hj']
        congr 3
        apply Finset.sum_congr rfl
        intro t _
        congr 1
        exact (getD_map_toInt cur t).symm
  · rw [if_neg hop, if_neg hop, if_neg hop]
    refine ⟨_, rfl, List.length_map _, ?_⟩
    rw [List.map_map, List.map_map]
    apply List.map_congr_left
    intro x _
    show (if x.toInt < 0 then (0 : I8) else x).toInt = max 0 x.toInt
    split
    · next hneg =>
        have hzero : (0 : I8).toInt = 0 := rfl
        omega
    · next hpos => omega

/-! ## Whole networks -/

/-- Layer after layer. -/
theorem eval_layers_eq (threads : Threads) {layers : List Int8Layer}
    (hsmall : ∀ l ∈ layers, l.weights.length ≤ 131071)
    (huniform : ∀ l ∈ layers, l.Uniform build) (hsized : Sized build cur.length layers) :
    ∃ out, layers.foldlM (evalLayer build threads) cur = some out ∧
      out.map BitVec.toInt = meaning layers (cur.map BitVec.toInt) := by
  induction layers generalizing cur with
  | nil => exact ⟨cur, rfl, rfl⟩
  | cons l layers ih =>
      obtain ⟨hl, hsmall⟩ := List.forall_mem_cons.mp hsmall
      obtain ⟨hul, huniform⟩ := List.forall_mem_cons.mp huniform
      obtain ⟨hsl, hsized⟩ := hsized
      obtain ⟨next, hnext, hlen, hmeaning⟩ := eval_layer_eq threads hl hul hsl
      rw [← hlen] at hsized
      obtain ⟨out, hout, hvalue⟩ := ih hsmall huniform hsized
      refine ⟨out, ?_, ?_⟩
      · rw [List.foldlM_cons, hnext]
        exact hout
      · rw [hvalue, hmeaning]
        rfl

theorem sized_layers_scalar_iff {layers : List Int8Layer} {width : Nat}
    (huniform : ∀ l ∈ layers, l.Uniform build) :
    Sized build width layers ↔ Sized .scalar width layers := by
  induction layers generalizing width with
  | nil => exact Iff.rfl
  | cons l layers ih =>
      obtain ⟨hl, hrest⟩ := List.forall_mem_cons.mp huniform
      exact and_congr (sized_scalar_iff hl) (ih hrest)

/-- Below the limit no layer of a model is large. -/
theorem small_model {model : CreatureModel}
    (hsize : modelByteSize model ≤ defaultMaxModelBytes) :
    ∀ l ∈ model.layers, l.weights.length ≤ 131071 := by
  intro l hl
  rcases List.mem_append.mp hl with hsensor | hl
  · have hnet := network_le_model model (Or.inl rfl)
    exact small_layers (Nat.le_trans hnet hsize) l hsensor
  rcases List.mem_append.mp hl with hcore | happendage
  · have hnet := network_le_model model (Or.inr (Or.inl rfl))
    exact small_layers (Nat.le_trans hnet hsize) l hcore
  · have hnet := network_le_model model (Or.inr (Or.inr rfl))
    exact small_layers (Nat.le_trans hnet hsize) l happendage

/-- The three networks are one. -/
theorem run_inference_layers (build : Build) (threads : Threads) {model : CreatureModel}
    (hsize : modelByteSize model ≤ defaultMaxModelBytes) (sensorIn : List I8) :
    runInference build threads model sensorIn =
      model.layers.foldlM (evalLayer build threads) sensorIn := by
  rw [runInference, enforceModelSize, if_neg (Nat.not_lt.mpr hsize), CreatureModel.layers]
  simp only [List.foldlM_append, evalNetwork, Option.bind_eq_bind, Option.bind_some]

/-- The model is not too large, and its layers fit together. -/
def CreatureModel.Fits (model : CreatureModel) (width : Nat) : Prop :=
  modelByteSize model ≤ defaultMaxModelBytes ∧ Sized .scalar width model.layers

/-- **What a model computes**: for uniform layers every build, with any number of threads, evaluates
a model that fits to its mathematical value, and no other model. -/
theorem run_inference_eq (build : Build) (threads : Threads) (model : CreatureModel)
    (sensorIn : List I8) (huniform : ∀ l ∈ model.layers, l.Uniform build) :
    (model.Fits sensorIn.length → ∃ out, runInference build threads model sensorIn = some out ∧
      out.map BitVec.toInt = meaning model.layers (sensorIn.map BitVec.toInt)) ∧
    (¬ model.Fits sensorIn.length → runInference build threads model sensorIn = none) := by
  have hruns := run_inference_runs_iff build threads model sensorIn
  unfold CreatureModel.Fits
  rw [← sized_layers_scalar_iff huniform]
  constructor
  · rintro ⟨hsize, hsized⟩
    rw [run_inference_layers build threads hsize]
    exact eval_layers_eq threads (small_model hsize) huniform hsized
  · intro hnot
    rw [Option.eq_none_iff_forall_ne_some]
    intro out hout
    exact hnot (hruns.mp ⟨out, hout⟩)

/-- One `Dense` layer, and a `ReLU`. -/
def twoInputs : CreatureModel :=
  ⟨⟨[⟨.Dense, 2, 1, [100, -100], [5]⟩]⟩, ⟨[⟨.ReLU, 1, 1, [], []⟩]⟩, ⟨[]⟩⟩

/-- The sum is 200, and saturated before the bias and after it. -/
theorem run_inference_eq_twoInputs :
    ∃ out, runInference .avx2 ⟨4, none⟩ twoInputs [3, 1] = some out ∧
      out.map BitVec.toInt = [127] := by
  have huniform : ∀ l ∈ twoInputs.layers, l.Uniform .avx2 := by
    intro l hl hop
    rcases List.mem_cons.mp hl with rfl | hl
    · exact Or.inr (Or.inl (by decide))
    · obtain rfl := List.mem_singleton.mp hl
      cases hop
  have hfits : twoInputs.Fits 2 := by
    refine ⟨by decide, ?_, ?_, trivial⟩
    · intro _
      refine ⟨Or.inr (by decide), ?_, by decide⟩
      exact (inside_uniform_iff (Or.inl rfl)).mpr (Or.inr (by decide))
    · intro hop
      cases hop
  obtain ⟨out, hrun, hout⟩ := (run_inference_eq .avx2 ⟨4, none⟩ twoInputs [3, 1] huniform).1 hfits
  refine ⟨out, hrun, hout.trans ?_⟩
  decide

end ChainBeasts.Int8
