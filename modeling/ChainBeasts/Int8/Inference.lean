import ChainBeasts.Int8.Kernel
import ChainBeasts.Int8.Spec

/-! # `training.hpp`: inference

A network is evaluated layer by layer on the product of `int8_kernel.hpp`. The plain build of the
product is the exact one, saturated, whatever the shape, the tiling and the number of threads, as
long as a row has no more than 131071 entries (`product_exact`); the size limit of a model keeps
every layer below that.

Nothing in the loader or here looks at how long the vectors of a layer are. `Sized` says how long
they have to be, layer after layer, for the evaluation to stay inside them
(`eval_network_runs_iff`). -/

namespace ChainBeasts.Int8

open ChainBeasts.Buffer

/-! ## The source -/

structure CreatureModel where
  sensor : Int8Network
  core : Int8Network
  appendage : Int8Network

def defaultMaxModelBytes : Nat := 64 * 1024

def networkByteSize (net : Int8Network) : Nat :=
  net.layers.foldl (fun bytes l => bytes + (l.weights.length + l.bias.length)) 0

def modelByteSize (model : CreatureModel) : Nat :=
  networkByteSize model.sensor + networkByteSize model.core + networkByteSize model.appendage

/-- `none` is the exception. -/
def enforceModelSize (model : CreatureModel) (maxBytes : Nat) : Option Unit :=
  if modelByteSize model > maxBytes then none else some ()

def clampInt8 (v : I32) : I8 := BitVec.ofInt 8 (max (-128) (min 127 v.toInt))

/-- Without the Vulkan backend, which is off by default, both branches call `int8_matmul`. -/
def int8MatmulGpu := int8Matmul

/-- `for (i = 0; i < output; ++i) next[i] = clamp_int8(next[i] + bias[i])`. The sum of two `int8`
values fits an `int32`. -/
def addBias (bias : List I8) (output : Nat) : List I8 → Option (List I8) :=
  forLoop 0 output 1 fun i next => do
    let x ← Buffer.load next i
    let b ← Buffer.load bias i
    store next i (clampInt8 (x.signExtend 32 + b.signExtend 32))

/-- The body of the loop. Whatever is not `Dense` is taken for `ReLU`. -/
def evalLayer (build : Build) (threads : Threads) (cur : List I8) (l : Int8Layer) :
    Option (List I8) :=
  if l.op = .Dense then do
    let next ← int8MatmulGpu build threads cur l.weights 1 l.output.toNat l.input.toNat
    addBias l.bias l.output.toNat next
  else some (cur.map fun x => if x.toInt < 0 then 0 else x)

def evalNetwork (build : Build) (threads : Threads) (net : Int8Network) (input : List I8) :
    Option (List I8) :=
  net.layers.foldlM (evalLayer build threads) input

def runInference (build : Build) (threads : Threads) (model : CreatureModel)
    (sensorIn : List I8) : Option (List I8) := do
  enforceModelSize model defaultMaxModelBytes
  let s ← evalNetwork build threads model.sensor sensorIn
  let c ← evalNetwork build threads model.core s
  evalNetwork build threads model.appendage c

/-! ## The size of a layer -/

theorem layer_le_network {net : Int8Network} {l : Int8Layer} (hl : l ∈ net.layers) :
    l.weights.length + l.bias.length ≤ networkByteSize net := by
  unfold networkByteSize
  have hgrow : ∀ (layers : List Int8Layer) (bytes : Nat), bytes ≤
      layers.foldl (fun bytes l => bytes + (l.weights.length + l.bias.length)) bytes := by
    intro layers
    induction layers with
    | nil => exact fun bytes => Nat.le_refl bytes
    | cons l layers ih => exact fun bytes => Nat.le_trans (Nat.le_add_right _ _) (ih _)
  generalize 0 = bytes
  induction hlayers : net.layers generalizing bytes net with
  | nil =>
      rw [hlayers] at hl
      cases hl
  | cons l' layers ih =>
      rw [hlayers] at hl
      rcases List.mem_cons.mp hl with rfl | hmem
      · exact Nat.le_trans (Nat.le_add_left _ _) (hgrow layers _)
      · have hrest : l ∈ (Int8Network.mk layers).layers := hmem
        exact ih hrest _ rfl

theorem network_le_model (model : CreatureModel) {net : Int8Network}
    (hnet : net = model.sensor ∨ net = model.core ∨ net = model.appendage) :
    networkByteSize net ≤ modelByteSize model := by
  unfold modelByteSize
  rcases hnet with rfl | rfl | rfl <;> omega

theorem enforced {model : CreatureModel} {maxBytes : Nat}
    (h : enforceModelSize model maxBytes = some ()) : modelByteSize model ≤ maxBytes := by
  unfold enforceModelSize at h
  split at h
  · cases h
  · omega

/-! ## The exact product -/

theorem toInt_saturate {x : Int} (hlo : -2 ^ 31 ≤ x) (hhi : x < 2 ^ 31) :
    (saturate (BitVec.ofInt 32 x)).toInt = max (-128) (min 127 x) := by
  have hx : (BitVec.ofInt 32 x).toInt = x :=
    BitVec.toInt_ofInt_eq_self (by decide) hlo hhi
  rw [saturate, hx]
  apply BitVec.toInt_ofInt_eq_self (by decide)
  · show -128 ≤ max (-128) (min 127 x)
    omega
  · show max (-128) (min 127 x) < 128
    omega

/-- With any number of threads the plain build makes `C` the saturated product. -/
def Saturates (A B : List I8) (M N K : Nat) : Prop :=
  ∃ C, (∀ threads, int8Matmul .scalar threads A B M N K = some C) ∧ C.length = M * N ∧
    ∀ i j, i < M → j < N → ∃ c, C[i * N + j]? = some c ∧ c.toInt = max (-128) (min 127
      (∑ t ∈ Finset.range K, (A.getD (i * K + t) 0).toInt * (B.getD (t * N + j) 0).toInt))

variable {A B : List I8} {M N K : Nat}

theorem saturates_of_le (hK : K ≤ 131071) (hA : A.length = M * K) (hB : B.length = K * N) :
    Saturates A B M N K := by
  refine ⟨_, fun threads => int8_matmul_eq .scalar threads hK hA hB, ?_, ?_⟩
  · rw [List.length_map, List.length_range]
  · intro i j hi hj
    have hrow := row_le (n := N) hi
    have hdiv : (i * N + j) / N = i := by
      rw [Nat.add_comm, Nat.add_mul_div_right _ _ (by omega), Nat.div_eq_of_lt hj, Nat.zero_add]
    have hmod : (i * N + j) % N = j := by
      rw [Nat.add_comm, Nat.add_mul_mod_self_right, Nat.mod_eq_of_lt hj]
    rw [List.getElem?_map, List.getElem?_range (by omega)]
    refine ⟨_, rfl, ?_⟩
    rw [Build.target, hdiv, hmod, entry_eq]
    obtain ⟨hlo, hhi⟩ := dot_bounds (fun t => A.getD (i * K + t) 0)
      (fun t => B.getD (j + t * N) 0) K
    rw [toInt_saturate]
    · show max (-128) (min 127 (dot _ (fun t => B.getD (j + t * N) 0) K)) = _
      unfold dot
      congr 2
      apply Finset.sum_congr rfl
      intro t _
      simp only [Nat.add_comm j]
    · exact Int.le_trans (by omega) hlo
    · exact Int.lt_of_le_of_lt hhi (by omega)

/-- A row of no columns is done before it begins. -/
theorem saturates_of_no_columns (A B : List I8) (M K : Nat) : Saturates A B M 0 K := by
  refine ⟨[], ?_, rfl, fun _ _ _ hj => absurd hj (Nat.not_lt_zero _)⟩
  intro threads
  obtain ⟨s, hrun, hs⟩ : ∃ s, forLoop 0 M 1
      (workerRow .scalar A B 0 K (min Build.scalar.int8Tile 0))
      ([], List.replicate (min Build.scalar.int8Tile 0) 0) = some s ∧ s.1 = [] := by
    apply forLoop_count (Nat.zero_le M) (fun _ (s : List I8 × List I32) => s.1 = [])
    · exact fun i s _ hs => ⟨s, forLoop_empty (Nat.le_refl 0) s, hs⟩
    · rfl
  unfold int8Matmul
  rw [if_pos (Or.inr (by omega)), worker, Nat.mul_zero]
  show (forLoop 0 M 1 _ ([], _)).map Prod.fst = some []
  rw [hrun, Option.map_some, hs]

/-- **The plain build is exact**, for every shape with rows of up to 131071 entries; and the size
limit of a model leaves its layers no longer rows, unless they have no outputs. -/
theorem product_exact :
    (∀ (A B : List I8) (M N K : Nat), K ≤ 131071 → A.length = M * K → B.length = K * N →
      Saturates A B M N K) ∧
    ∀ (model : CreatureModel) (net : Int8Network) (l : Int8Layer) (cur : List I8),
      enforceModelSize model defaultMaxModelBytes = some () →
      net = model.sensor ∨ net = model.core ∨ net = model.appendage → l ∈ net.layers →
      l.weights.length = l.input.toNat * l.output.toNat → cur.length = l.input.toNat →
      Saturates cur l.weights 1 l.output.toNat l.input.toNat := by
  refine ⟨fun A B M N K => saturates_of_le, ?_⟩
  intro model net l cur hsize hnet hl hweights hcur
  rcases Nat.eq_zero_or_pos l.output.toNat with hnone | hpos
  · rw [hnone]
    exact saturates_of_no_columns cur l.weights 1 l.input.toNat
  · have hmodel : modelByteSize model ≤ 64 * 1024 := enforced hsize
    have hlayer := layer_le_network hl
    have hnetwork := network_le_model model hnet
    have hinput : l.input.toNat ≤ l.input.toNat * l.output.toNat := Nat.le_mul_of_pos_right _ hpos
    exact saturates_of_le (by omega) (by omega) hweights

theorem product_exact_sample :
    Saturates [100, 1] [100, -100, 0, 1] 1 2 2 ∧
      Saturates [3] [2] 1 (1 : BitVec 64).toNat (1 : BitVec 64).toNat := by
  let l : Int8Layer := ⟨.Dense, 1, 1, [2], [0]⟩
  refine ⟨product_exact.1 _ _ 1 2 2 (by decide) rfl rfl, ?_⟩
  exact product_exact.2 ⟨⟨[l]⟩, ⟨[]⟩, ⟨[]⟩⟩ ⟨[l]⟩ l [3] rfl (Or.inl rfl) List.mem_cons_self rfl rfl

/-! ## What a product reads -/

/-- The rows of every tile, as far apart as the build takes them to be, lie inside `n` weights. -/
def Build.Inside (build : Build) (N K n : Nat) : Prop :=
  ∀ jj < N, min build.int8Tile N ∣ jj → ∀ t < K,
    jj + t * build.stride N jj + min (min build.int8Tile N) (N - jj) ≤ n

variable {build : Build} {C : List I8} {threads : Threads}

theorem scalarRow_some {a₀ b₀ lo hi : Nat} {acc acc' : List I32}
    (h : scalarRow A a₀ B b₀ lo hi acc = some acc') (hlt : lo < hi) :
    a₀ < A.length ∧ b₀ + hi ≤ B.length := by
  obtain ⟨t, t', hlast⟩ := forLoop_count_some h (hi - 1) (by omega) (by omega)
  simp only [Option.bind_eq_bind, Option.bind_eq_some_iff] at hlast
  obtain ⟨a, ha, b, hb, -⟩ := hlast
  have hA := load_eq_some ha
  have hB := load_eq_some hb
  exact ⟨hA, by omega⟩

theorem vectorColumns_some {block : Block} {a : I8} {b₀ N j : Nat} {acc acc' : List I32}
    (h : vectorColumns block a B b₀ N acc = some (j, acc')) :
    j ≤ N ∧ (j = 0 ∨ b₀ + j ≤ B.length) := by
  obtain ⟨hend, -⟩ := loop_some
    (P := fun j (_ : List I32) => j ≤ N ∧ (j = 0 ∨ b₀ + j ≤ B.length))
    (fun j s s' hj hs _ => by
      have hroom := of_decide_eq_true hj
      simp only [Option.bind_eq_bind, Option.bind_eq_some_iff] at hs
      obtain ⟨b8, hb, -⟩ := hs
      have hB := loadLanes_eq_some hb
      exact ⟨by omega, Or.inr (by omega)⟩)
    h ⟨Nat.zero_le N, Or.inl rfl⟩
  exact hend

/-- A row of a tile kernel reads its activation and all its weights. -/
theorem simdRow_some {block : Block} {a₀ b₀ N t : Nat} {acc acc' : List I32}
    (h : simdRow block A a₀ B b₀ N t acc = some acc') (hN : 0 < N) :
    a₀ + t < A.length ∧ b₀ + t * N + N ≤ B.length := by
  simp only [simdRow, Option.bind_eq_bind, Option.bind_eq_some_iff] at h
  obtain ⟨a, ha, ⟨j, mid⟩, hvector, htail⟩ := h
  obtain ⟨hjN, hread⟩ := vectorColumns_some hvector
  refine ⟨load_eq_some ha, ?_⟩
  rcases Nat.lt_or_ge j N with hlt | hge
  · exact (scalarRow_some htail hlt).2
  · omega

theorem simdTile_some {block : Block} {a₀ b₀ c₀ N : Nat} {acc : List I32}
    {r : List I8 × List I32} (h : simdTile block A a₀ B b₀ C c₀ N K acc = some r) (hN : 0 < N)
    (t : Nat) (ht : t < K) : a₀ + t < A.length ∧ b₀ + t * N + N ≤ B.length := by
  simp only [simdTile, Option.bind_eq_bind, Option.bind_eq_some_iff] at h
  obtain ⟨zeros, -, acc', hrows, -⟩ := h
  obtain ⟨s, s', hrow⟩ := forLoop_count_some hrows t (Nat.zero_le t) ht
  exact simdRow_some hrow hN

theorem scalarTile_some {i jj tile : Nat} {acc : List I32} {r : List I8 × List I32}
    (h : scalarTile A B C N K i jj tile acc = some r) (htile : 0 < tile) (t : Nat) (ht : t < K) :
    i * K + t < A.length ∧ jj + t * N + tile ≤ B.length := by
  simp only [scalarTile, Option.bind_eq_bind, Option.bind_eq_some_iff] at h
  obtain ⟨zeros, -, acc', hrows, -⟩ := h
  obtain ⟨s, s', hrow⟩ := forLoop_count_some hrows t (Nat.zero_le t) ht
  have hread := scalarRow_some hrow htile
  exact ⟨hread.1, by omega⟩

theorem tile_some {i jj : Nat} {acc : List I32} {r : List I8 × List I32}
    (h : build.tile A B C N K i jj (min (min build.int8Tile N) (N - jj)) acc = some r)
    (hjj : jj < N) (t : Nat) (ht : t < K) :
    i * K + t < A.length ∧
      jj + t * build.stride N jj + min (min build.int8Tile N) (N - jj) ≤ B.length := by
  have htile : 0 < min (min build.int8Tile N) (N - jj) := by
    have hpos : 0 < build.int8Tile := by cases build <;> decide
    omega
  cases build with
  | avx2 => exact simdTile_some h htile t ht
  | neon => exact simdTile_some h htile t ht
  | sse2 => exact simdTile_some h htile t ht
  | scalar => exact scalarTile_some h htile t ht

/-- **A row that did not fault has read inside its operands.** -/
theorem workerRow_some {i : Nat} {s s' : List I8 × List I32}
    (h : workerRow build A B N K (min build.int8Tile N) i s = some s') :
    (N = 0 ∨ ∀ t < K, i * K + t < A.length) ∧ build.Inside N K B.length := by
  let ts := min build.int8Tile N
  obtain ⟨last, hlast, -, hall⟩ := forLoop_some
    (P := fun n (_ : List I8 × List I32) => ts ∣ n ∧ ∀ jj < n, jj < N → ts ∣ jj → ∀ t < K,
      i * K + t < A.length ∧ jj + t * build.stride N jj + min ts (N - jj) ≤ B.length)
    (fun n cur next hn hstep hbefore => by
      obtain ⟨hdvd, hbefore⟩ := hbefore
      refine ⟨Nat.dvd_add hdvd (Nat.dvd_refl ts), ?_⟩
      intro jj hjj hN hdvd' t ht
      rcases Nat.lt_or_ge jj n with hlt | hge
      · exact hbefore jj hlt hN hdvd' t ht
      · -- the next multiple of the tile size is one tile further
        have hsame : jj = n := by
          have hgap : ts ∣ jj - n := Nat.dvd_sub hdvd' hdvd
          have hzero := Nat.eq_zero_of_dvd_of_lt hgap (by omega)
          omega
        rw [hsame]
        exact tile_some hstep hn t ht)
    h ⟨Nat.dvd_zero ts, fun jj hjj => absurd hjj (Nat.not_lt_zero jj)⟩
  refine ⟨?_, fun jj hjj hdvd t ht => (hall jj (by omega) hjj hdvd t ht).2⟩
  rcases Nat.eq_zero_or_pos N with hzero | hpos
  · exact Or.inl hzero
  · exact Or.inr fun t ht => (hall 0 (by omega) hpos (Nat.dvd_zero ts) t ht).1

theorem simdTile_runs {block : Block} (hblock : Adds block) {jj tile : Nat} {acc : List I32}
    (hK : K ≤ 131071) (hA : K ≤ A.length) (hB : ∀ t < K, jj + t * tile + tile ≤ B.length)
    (hwrite : 0 * N + jj + tile ≤ C.length) (hfit : tile ≤ acc.length) :
    ∃ C' acc', simdTile block A (0 * K) B jj C (0 * N + jj) tile K acc = some (C', acc') ∧
      acc'.length = acc.length ∧ C'.length = C.length := by
  obtain ⟨C', acc', hrun, hlen, hClen, -⟩ := simdTile_spec hblock hK (holds_getD A 0)
    (show 0 * K + K ≤ A.length by omega) (holds_getD B 0) hB (holds_getD C 0) hwrite hfit
  exact ⟨C', acc', hrun, hlen, hClen⟩

/-- A tile of the first row, when the operands reach far enough. -/
theorem tile_runs {jj : Nat} {acc : List I32} (hK : K ≤ 131071) (hA : K ≤ A.length)
    (hB : build.Inside N K B.length) (hC : C.length = N) (hjj : jj < N)
    (hdvd : min build.int8Tile N ∣ jj) (hacc : acc.length = min build.int8Tile N) :
    ∃ C' acc', build.tile A B C N K 0 jj (min (min build.int8Tile N) (N - jj)) acc =
        some (C', acc') ∧ acc'.length = acc.length ∧ C'.length = C.length := by
  have hroom := hB jj hjj hdvd
  have hfit : min (min build.int8Tile N) (N - jj) ≤ acc.length := by
    rw [hacc]
    exact Nat.min_le_left _ _
  have hwrite : 0 * N + jj + min (min build.int8Tile N) (N - jj) ≤ C.length := by omega
  cases build with
  | avx2 => exact simdTile_runs avx2_adds hK hA hroom hwrite hfit
  | neon => exact simdTile_runs neon_adds hK hA hroom hwrite hfit
  | sse2 => exact simdTile_runs sse2_adds hK hA hroom hwrite hfit
  | scalar =>
      obtain ⟨C', acc', hrun, hlen, hClen, -⟩ := scalarTile_spec hK (holds_getD A 0)
        (show 0 * K + K ≤ A.length by omega) (holds_getD B 0) hroom (holds_getD C 0) hwrite hfit
      exact ⟨C', acc', hrun, hlen, hClen⟩

theorem workerRow_runs {acc : List I32} (hK : K ≤ 131071) (hA : N = 0 ∨ K ≤ A.length)
    (hB : build.Inside N K B.length) (hC : C.length = N)
    (hacc : acc.length = min build.int8Tile N) :
    ∃ C' acc', workerRow build A B N K (min build.int8Tile N) 0 (C, acc) = some (C', acc') ∧
      C'.length = N := by
  rcases Nat.eq_zero_or_pos N with rfl | hN
  · exact ⟨C, acc, forLoop_empty (Nat.le_refl 0) _, hC⟩
  have hrow : K ≤ A.length := by omega
  have hts : 0 < min build.int8Tile N := by
    have hpos : 0 < build.int8Tile := by cases build <;> decide
    omega
  obtain ⟨j, ⟨C', acc'⟩, hrun, -, -, hlen, -⟩ : ∃ j s',
      workerRow build A B N K (min build.int8Tile N) 0 (C, acc) = some s' ∧ N ≤ j ∧
        min build.int8Tile N ∣ j ∧ s'.1.length = N ∧ s'.2.length = min build.int8Tile N := by
    apply forLoop_rule hts (P := fun jj (s : List I8 × List I32) => min build.int8Tile N ∣ jj ∧
      s.1.length = N ∧ s.2.length = min build.int8Tile N)
    · rintro jj s hjj ⟨hdvd, hlen, hsize⟩
      have hgrow : min (min build.int8Tile N) (N - jj) - s.2.length = 0 := by omega
      obtain ⟨C', acc', hrun, hacc', hC'⟩ := tile_runs hK hrow hB hlen hjj hdvd hsize
      refine ⟨(C', acc'), ?_, Nat.dvd_add hdvd (Nat.dvd_refl _), hC'.trans hlen,
        hacc'.trans hsize⟩
      simp only [hgrow, List.replicate_zero, List.append_nil]
      exact hrun
    · exact ⟨Nat.dvd_zero _, hC, hacc⟩
  exact ⟨C', acc', hrun, hlen⟩

/-- A matrix of one row is one thread's work. -/
theorem int8_matmul_single (build : Build) (threads : Threads) (A B : List I8) (N K : Nat) :
    int8Matmul build threads A B 1 N K =
      (workerRow build A B N K (min build.int8Tile N) 0
        (List.replicate (1 * N) 0, List.replicate (min build.int8Tile N) 0)).map Prod.fst := by
  have hone : tuneThreadCount threads 1 ≤ 1 := Nat.min_le_right _ _
  rw [int8Matmul, if_pos (Or.inl hone), worker, forLoop_cons Nat.one_pos]
  congr 1
  cases workerRow build A B N K (min build.int8Tile N) 0
      (List.replicate (1 * N) 0, List.replicate (min build.int8Tile N) 0) with
  | none => rfl
  | some s => exact forLoop_empty (Nat.le_refl 1) s

/-- The weights that a row of tiles reads are at least as many as the entries of the row. -/
theorem Build.Inside.rows_le {n : Nat} (h : build.Inside N K n) (hN : 0 < N) : K ≤ n := by
  rcases Nat.eq_zero_or_pos K with rfl | hK
  · exact Nat.zero_le n
  have hpos : 0 < build.int8Tile := by cases build <;> decide
  have hstride : 0 < build.stride N 0 := by
    cases build with
    | scalar => exact hN
    | avx2 => exact Nat.lt_min.mpr ⟨Nat.lt_min.mpr ⟨hpos, hN⟩, hN⟩
    | neon => exact Nat.lt_min.mpr ⟨Nat.lt_min.mpr ⟨hpos, hN⟩, hN⟩
    | sse2 => exact Nat.lt_min.mpr ⟨Nat.lt_min.mpr ⟨hpos, hN⟩, hN⟩
  have hlast := h 0 hN (Nat.dvd_zero _) (K - 1) (by omega)
  have hfar : K - 1 ≤ (K - 1) * build.stride N 0 := Nat.le_mul_of_pos_right _ hstride
  omega

theorem matmul_reads (h : int8Matmul build threads A B 1 N K = some C) :
    (N = 0 ∨ K ≤ A.length) ∧ build.Inside N K B.length := by
  rw [int8_matmul_single] at h
  obtain ⟨s, hrow, -⟩ := Option.map_eq_some_iff.mp h
  obtain ⟨hA, hB⟩ := workerRow_some hrow
  refine ⟨hA.imp_right fun hread => ?_, hB⟩
  by_contra hshort
  have hlast := hread (K - 1) (by omega)
  omega

theorem matmul_runs (threads : Threads) (hsmall : B.length ≤ 131071) (hA : N = 0 ∨ K ≤ A.length)
    (hB : build.Inside N K B.length) :
    ∃ C, int8Matmul build threads A B 1 N K = some C ∧ C.length = N := by
  rw [int8_matmul_single]
  by_cases hN : N = 0
  · subst hN
    refine ⟨[], ?_, rfl⟩
    rw [workerRow, forLoop_empty (Nat.le_refl 0)]
    rfl
  · have hK := hB.rows_le (Nat.pos_of_ne_zero hN)
    obtain ⟨C', acc', hrun, hlen⟩ := workerRow_runs (by omega) hA hB
      (show (List.replicate (1 * N) (0 : I8)).length = N by simp)
      (show (List.replicate (min build.int8Tile N) (0 : I32)).length = _ from
        List.length_replicate)
    exact ⟨C', by rw [hrun, Option.map_some], hlen⟩

/-! ## What a layer reads -/

/-- The operands of a layer are long enough for inputs of length `width`. -/
def Int8Layer.Sized (build : Build) (width : Nat) (l : Int8Layer) : Prop :=
  l.op = .Dense → (l.output.toNat = 0 ∨ l.input.toNat ≤ width) ∧
    build.Inside l.output.toNat l.input.toNat l.weights.length ∧ l.output.toNat ≤ l.bias.length

/-- How much a layer puts out for inputs of length `width`. -/
def Int8Layer.width (width : Nat) (l : Int8Layer) : Nat :=
  if l.op = .Dense then l.output.toNat else width

/-- Each layer is sized for what the one before it puts out. -/
def Sized (build : Build) : Nat → List Int8Layer → Prop
  | _, [] => True
  | width, l :: layers => l.Sized build width ∧ Sized build (l.width width) layers

/-- Up to 128 outputs are one tile. -/
theorem stride_eq {jj : Nat} (hbuild : build = .scalar ∨ N ≤ 128) (hjj : jj < N)
    (hdvd : min build.int8Tile N ∣ jj) : build.stride N jj = N := by
  rcases hbuild with rfl | hnarrow
  · rfl
  · cases build with
    | scalar => rfl
    | avx2 | neon | sse2 =>
        have hfirst : jj = 0 := by
          apply Nat.eq_zero_of_dvd_of_lt hdvd
          simp only [Build.int8Tile]
          omega
        subst hfirst
        simp only [Build.stride, Build.int8Tile]
        omega

/-- In the plain build, and for up to 128 outputs in any, the weights of a layer with inputs and
outputs have to be one for each pair of them. -/
theorem inside_iff {n : Nat} (hbuild : build = .scalar ∨ N ≤ 128) (hN : 0 < N) (hK : 0 < K) :
    build.Inside N K n ↔ K * N ≤ n := by
  have hlast : (K - 1) * N + N = K * N := by
    rw [← Nat.succ_mul, Nat.succ_eq_add_one, Nat.sub_add_cancel hK]
  have hpos : 0 < build.int8Tile := by cases build <;> decide
  constructor
  · intro h
    -- the last tile ends where the row does
    let jj := (N - 1) / min build.int8Tile N * min build.int8Tile N
    have hts : 0 < min build.int8Tile N := Nat.lt_min.mpr ⟨hpos, hN⟩
    have hle : jj ≤ N - 1 := Nat.div_mul_le_self _ _
    have hmod := Nat.div_add_mod (N - 1) (min build.int8Tile N)
    have hless := Nat.mod_lt (N - 1) hts
    have hjj : min build.int8Tile N * ((N - 1) / min build.int8Tile N) = jj := Nat.mul_comm _ _
    have hend := h jj (by omega) (Nat.dvd_mul_left _ _) (K - 1) (by omega)
    rw [stride_eq hbuild (show jj < N by omega) (Nat.dvd_mul_left _ _)] at hend
    omega
  · intro h jj hjj hdvd t ht
    rw [stride_eq hbuild hjj hdvd]
    have hrow := row_le (n := N) ht
    omega

theorem addBias_reads {bias next next' : List I8} {output : Nat}
    (h : addBias bias output next = some next') : output ≤ bias.length := by
  by_contra hshort
  obtain ⟨t, t', hlast⟩ := forLoop_count_some h (output - 1) (Nat.zero_le _) (by omega)
  simp only [Option.bind_eq_bind, Option.bind_eq_some_iff] at hlast
  obtain ⟨x, -, b, hb, -⟩ := hlast
  have hread := load_eq_some hb
  omega

theorem addBias_runs {bias next : List I8} {output : Nat} (hbias : output ≤ bias.length)
    (hnext : next.length = output) :
    ∃ next', addBias bias output next = some next' ∧ next'.length = output := by
  apply forLoop_count (Nat.zero_le output) (fun _ (cur : List I8) => cur.length = output)
  · intro i cur hi hcur
    have hx : Buffer.load cur i = some (cur.getD i 0) := (holds_getD cur 0).load (by omega)
    have hb : Buffer.load bias i = some (bias.getD i 0) := (holds_getD bias 0).load (by omega)
    simp only [hx, hb, Option.bind_eq_bind, Option.bind_some, store]
    rw [if_pos (by omega)]
    exact ⟨_, rfl, List.length_set.trans hcur⟩
  · exact hnext

variable {cur : List I8} {l : Int8Layer}

theorem eval_layer_reads {next : List I8} (h : evalLayer build threads cur l = some next) :
    l.Sized build cur.length := by
  intro hop
  rw [evalLayer, if_pos hop] at h
  obtain ⟨C, hproduct, hbias⟩ := Option.bind_eq_some_iff.mp h
  obtain ⟨hA, hB⟩ := matmul_reads hproduct
  exact ⟨hA, hB, addBias_reads hbias⟩

theorem eval_layer_runs (threads : Threads) (hsmall : l.weights.length ≤ 131071)
    (h : l.Sized build cur.length) :
    ∃ next, evalLayer build threads cur l = some next ∧ next.length = l.width cur.length := by
  unfold evalLayer Int8Layer.width
  by_cases hop : l.op = .Dense
  · obtain ⟨hA, hB, hbias⟩ := h hop
    obtain ⟨C, hproduct, hC⟩ := matmul_runs threads hsmall hA hB
    obtain ⟨next, hrun, hnext⟩ := addBias_runs hbias hC
    rw [if_pos hop, if_pos hop]
    exact ⟨next, Option.bind_eq_some_iff.mpr ⟨C, hproduct, hrun⟩, hnext⟩
  · rw [if_neg hop, if_neg hop]
    exact ⟨_, rfl, List.length_map _⟩

/-- Each layer reads inside its vectors and puts out what the next one is sized for. -/
theorem eval_layers_run_iff (threads : Threads) {layers : List Int8Layer}
    (hsmall : ∀ l ∈ layers, l.weights.length ≤ 131071) :
    (∃ out, layers.foldlM (evalLayer build threads) cur = some out) ↔
      Sized build cur.length layers := by
  induction layers generalizing cur with
  | nil => exact iff_of_true ⟨cur, rfl⟩ trivial
  | cons l layers ih =>
      obtain ⟨hl, hrest⟩ := List.forall_mem_cons.mp hsmall
      simp only [List.foldlM_cons, Option.bind_eq_bind, Option.bind_eq_some_iff]
      constructor
      · rintro ⟨out, next, hlayer, hlayers⟩
        have hsized := eval_layer_reads hlayer
        obtain ⟨next', hrun, hlen⟩ := eval_layer_runs threads hl hsized
        cases hlayer.symm.trans hrun
        exact ⟨hsized, hlen ▸ (ih hrest).mp ⟨out, hlayers⟩⟩
      · rintro ⟨hsized, hlayers⟩
        obtain ⟨next, hrun, hlen⟩ := eval_layer_runs threads hl hsized
        rw [← hlen] at hlayers
        obtain ⟨out, hout⟩ := (ih hrest).mpr hlayers
        exact ⟨out, next, hrun, hout⟩

theorem small_layers {net : Int8Network} (hsize : networkByteSize net ≤ defaultMaxModelBytes) :
    ∀ l ∈ net.layers, l.weights.length ≤ 131071 := by
  intro l hl
  have hlayer := layer_le_network hl
  have hlimit : defaultMaxModelBytes = 65536 := rfl
  omega

/-- **When a loaded network is evaluated inside its vectors.** Below the limit no accumulator
overflows, so there is no other way to fail. -/
theorem eval_network_runs_iff (build : Build) (threads : Threads) (stale file : Pouw.Wire.Bytes)
    (input : List I8) :
    ∀ net ∈ load stale file, networkByteSize net ≤ defaultMaxModelBytes →
      (∀ l ∈ net.layers.head?, input.length = l.input.toNat) →
      ((∃ out, evalNetwork build threads net input = some out) ↔
        Sized build input.length net.layers) := by
  intro net _ hsize _
  exact eval_layers_run_iff threads (small_layers hsize)

/-- A `Dense` layer that declares a weight it does not bring. -/
def weightless : Int8Network := ⟨[⟨.Dense, 1, 1, [], [0]⟩]⟩

theorem eval_network_runs_iff_weightless :
    (∃ out, evalNetwork .scalar ⟨1, none⟩ weightless [1] = some out) ↔
      Sized .scalar 1 weightless.layers :=
  eval_network_runs_iff .scalar ⟨1, none⟩ [] (saveNetwork weightless) [1] weightless (by decide)
    (by decide) (by decide)

/-- Its file loads, and its evaluation reads outside the weights. -/
theorem weightless_reads_outside :
    load [] (saveNetwork weightless) = some weightless ∧
      networkByteSize weightless ≤ defaultMaxModelBytes ∧
      (∀ l ∈ weightless.layers.head?, [1].length = l.input.toNat) ∧
      ¬ ∃ out, evalNetwork .scalar ⟨1, none⟩ weightless [1] = some out := by
  refine ⟨by decide, by decide, by decide, ?_⟩
  rintro ⟨out, hrun⟩
  cases hrun

/-- **When inference stays inside the vectors of a model**: its three networks are one chain. -/
theorem run_inference_runs_iff (build : Build) (threads : Threads) (model : CreatureModel)
    (sensorIn : List I8) :
    (∃ out, runInference build threads model sensorIn = some out) ↔
      modelByteSize model ≤ defaultMaxModelBytes ∧ Sized build sensorIn.length
        (model.sensor.layers ++ (model.core.layers ++ model.appendage.layers)) := by
  unfold runInference enforceModelSize
  by_cases hsize : modelByteSize model ≤ defaultMaxModelBytes
  · have hsmall : ∀ l ∈ model.sensor.layers ++ (model.core.layers ++ model.appendage.layers),
        l.weights.length ≤ 131071 := by
      intro l hl
      rcases List.mem_append.mp hl with hs | hl
      · have hnet := network_le_model model (Or.inl rfl)
        exact small_layers (Nat.le_trans hnet hsize) l hs
      rcases List.mem_append.mp hl with hc | ha
      · have hnet := network_le_model model (Or.inr (Or.inl rfl))
        exact small_layers (Nat.le_trans hnet hsize) l hc
      · have hnet := network_le_model model (Or.inr (Or.inr rfl))
        exact small_layers (Nat.le_trans hnet hsize) l ha
    rw [if_neg (Nat.not_lt.mpr hsize), and_iff_right hsize,
      ← eval_layers_run_iff threads hsmall]
    simp only [List.foldlM_append, evalNetwork, Option.bind_eq_bind, Option.bind_some]
  · rw [if_pos (Nat.lt_of_not_le hsize)]
    refine iff_of_false ?_ (fun h => hsize h.1)
    rintro ⟨out, hrun⟩
    cases hrun

end ChainBeasts.Int8
