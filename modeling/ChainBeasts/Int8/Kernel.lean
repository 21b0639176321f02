import ChainBeasts.Int8.Simd
import Mathlib.Algebra.BigOperators.Intervals

/-! # `int8_kernel.hpp`: `int8_matmul`

The saturating matrix product in its four builds: the scalar loop, and the three tile kernels with
vector bodies. Sizes are natural numbers; a pointer is a buffer with an offset; reading or writing
outside a buffer and a signed overflow are faults.

The tile kernels are called with the tile width as `N` and step through `B` with it, while the rows
of `B` are as wide as the whole matrix. So they compute another product as soon as a row spans more
than one tile and there is a second row (`simd_eq_scalar_iff`). -/

namespace ChainBeasts.Int8

open ChainBeasts.Buffer

/-! ## The source -/

/-- The value of an `int` expression. Signed overflow is undefined. -/
def int32 (x : Int) : Option I32 :=
  if -2 ^ 31 ≤ x ∧ x < 2 ^ 31 then some (BitVec.ofInt 32 x) else none

/-- `x += static_cast<int32_t>(a) * static_cast<int32_t>(b)`. -/
def multiplyAdd (x : I32) (a b : I8) : Option I32 := do
  let prod ← int32 (a.toInt * b.toInt)
  int32 (x.toInt + prod.toInt)

/-- `static_cast<int8_t>(std::max(-128, std::min(127, x)))`. -/
def saturate (x : I32) : I8 := BitVec.ofInt 8 (max (-128) (min 127 x.toInt))

/-- `for (; j < hi; ++j) acc[j] += A[a₀] * B[b₀ + j]`, from `lo`. -/
def scalarRow (A : List I8) (a₀ : Nat) (B : List I8) (b₀ lo hi : Nat) (acc : List I32) :
    Option (List I32) :=
  forLoop lo hi 1 (fun j acc => do
    let a ← load A a₀
    let b ← load B (b₀ + j)
    let x ← load acc j
    let y ← multiplyAdd x a b
    store acc j y) acc

/-- `for (j = 0; j < N; ++j) C[c₀ + j] = saturate(acc[j])`. -/
def writeBack (acc : List I32) (C : List I8) (c₀ N : Nat) : Option (List I8) :=
  forLoop 0 N 1 (fun j C => do
    let x ← load acc j
    store C (c₀ + j) (saturate x)) C

/-- `for (; j + 15 < N; j += 16)`: the vector iterations of a row, and the column they end at. -/
def vectorColumns (block : Block) (a : I8) (B : List I8) (b₀ N : Nat) (acc : List I32) :
    Option (Nat × List I32) :=
  loop (fun j => decide (j + 15 < N)) 16 (fun j acc => do
    let b8 ← loadLanes 16 B (b₀ + j)
    block a b8 acc j) (N + 1) 0 acc

/-- One row of a tile kernel: vector iterations of sixteen columns, then the scalar tail. -/
def simdRow (block : Block) (A : List I8) (a₀ : Nat) (B : List I8) (b₀ N t : Nat)
    (acc : List I32) : Option (List I32) := do
  let a ← load A (a₀ + t)
  let (j, acc) ← vectorColumns block a B (b₀ + t * N) N acc
  scalarRow A (a₀ + t) B (b₀ + t * N) j N acc

/-- A tile kernel: `C[c₀ ..]` becomes the product of the row at `A[a₀ ..]` with the tile at
`B[b₀ ..]`, whose rows are `N` apart. -/
def simdTile (block : Block) (A : List I8) (a₀ : Nat) (B : List I8) (b₀ : Nat) (C : List I8)
    (c₀ N K : Nat) (acc : List I32) : Option (List I8 × List I32) := do
  let acc ← fill acc acc.length 0
  let acc ← forLoop 0 K 1 (simdRow block A a₀ B b₀ N) acc
  let C ← writeBack acc C c₀ N
  return (C, acc)

def int8MatmulAvx2Tile := simdTile avx2Block
def int8MatmulNeonTile := simdTile neonBlock
def int8MatmulSse2Tile := simdTile sse2Block

/-- The same in the plain build, inlined in `int8_matmul`: the rows of `B` are `N` apart, whatever
the width of the tile. -/
def scalarTile (A B C : List I8) (N K i jj tile : Nat) (acc : List I32) :
    Option (List I8 × List I32) := do
  let acc ← fill acc tile 0
  let acc ← forLoop 0 K 1 (fun t acc => scalarRow A (i * K + t) B (t * N + jj) 0 tile acc) acc
  let C ← writeBack acc C (i * N + jj) tile
  return (C, acc)

inductive Build where
  | avx2
  | neon
  | sse2
  | scalar
  deriving DecidableEq

def Build.int8Tile : Build → Nat
  | .scalar => 64
  | _ => 128

/-- The tile that `int8_matmul` computes at row `i` and column `jj`. -/
def Build.tile (build : Build) (A B C : List I8) (N K i jj tile : Nat) (acc : List I32) :
    Option (List I8 × List I32) :=
  match build with
  | .avx2 => int8MatmulAvx2Tile A (i * K) B jj C (i * N + jj) tile K acc
  | .neon => int8MatmulNeonTile A (i * K) B jj C (i * N + jj) tile K acc
  | .sse2 => int8MatmulSse2Tile A (i * K) B jj C (i * N + jj) tile K acc
  | .scalar => scalarTile A B C N K i jj tile acc

/-- The columns of row `i`, tile by tile. -/
def workerRow (build : Build) (A B : List I8) (N K tileSize i : Nat) :
    List I8 × List I32 → Option (List I8 × List I32) :=
  forLoop 0 N tileSize (fun jj (C, acc) =>
    let tile := min tileSize (N - jj)
    -- `if (acc.size() < tile) acc.resize(tile)`
    let acc := acc ++ List.replicate (tile - acc.length) 0
    build.tile A B C N K i jj tile acc)

/-- The lambda `worker`: the rows from `row_begin` to `row_end`, with one accumulator buffer. -/
def worker (build : Build) (A B : List I8) (N K rowBegin rowEnd : Nat) (C : List I8) :
    Option (List I8) :=
  let tileSize := min build.int8Tile N
  (forLoop rowBegin rowEnd 1 (workerRow build A B N K tileSize)
    (C, List.replicate tileSize 0)).map Prod.fst

/-- What `tune_thread_count` reads: the hardware's concurrency, and the value of
`atoi(getenv("NEUROPET_INT8_THREADS"))` when the variable is set. -/
structure Threads where
  hardwareConcurrency : BitVec 32
  env : Option (BitVec 32)

def tuneThreadCount (threads : Threads) (rows : Nat) : Nat :=
  let workers := match threads.env with
    | some val => if 0 < val.toNat then val.toNat else threads.hardwareConcurrency.toNat
    | none => threads.hardwareConcurrency.toNat
  let workers := if workers = 0 then 1 else workers
  min workers rows

/-- `for (w = 0; w < workers && start < M; ++w)`: each thread gets the next `rows` rows. The threads
write disjoint rows of `C` and share nothing else, so they are run in launch order. -/
def launch (run : Nat → Nat → List I8 → Option (List I8)) (rows M : Nat) :
    Nat → Nat → List I8 → Option (List I8)
  | 0, _, C => some C
  | w + 1, start, C =>
    if start < M then
      (run start (min (start + rows) M) C).bind (launch run rows M w (min (start + rows) M))
    else some C

def int8Matmul (build : Build) (threads : Threads) (A B : List I8) (M N K : Nat) :
    Option (List I8) :=
  let C := List.replicate (M * N) 0
  let workers := tuneThreadCount threads M
  if workers ≤ 1 ∨ M * N < 1024 then worker build A B N K 0 M C
  else launch (worker build A B N K) ((M + workers - 1) / workers) M workers 0 C

/-! ## Arithmetic -/

theorem multiplyAdd_ofInt {x : Int} {a b : I8} (hlo : -(131070 * 16384) ≤ x)
    (hhi : x ≤ 131070 * 16384) :
    multiplyAdd (BitVec.ofInt 32 x) a b = some (BitVec.ofInt 32 x + lane a b) := by
  obtain ⟨hplo, hphi⟩ := product_bounds a b
  have hprod : (BitVec.ofInt 32 (a.toInt * b.toInt)).toInt = a.toInt * b.toInt :=
    BitVec.toInt_ofInt_eq_self (by omega) (by omega) (by omega)
  have hx : (BitVec.ofInt 32 x).toInt = x :=
    BitVec.toInt_ofInt_eq_self (by omega) (by omega) (by omega)
  simp only [multiplyAdd, int32, Option.bind_eq_bind]
  rw [if_pos (by omega), Option.bind_some, hprod, hx, if_pos (by omega), BitVec.ofInt_add]
  rfl

/-- The inner product of the first `n` entries. -/
def dot (a b : Nat → I8) (n : Nat) : Int := ∑ t ∈ Finset.range n, (a t).toInt * (b t).toInt

theorem dot_succ (a b : Nat → I8) (n : Nat) :
    dot a b (n + 1) = dot a b n + (a n).toInt * (b n).toInt :=
  Finset.sum_range_succ _ n

theorem dot_bounds (a b : Nat → I8) (n : Nat) :
    -(n * 16384 : Int) ≤ dot a b n ∧ dot a b n ≤ n * 16384 := by
  induction n with
  | zero => simp [dot]
  | succ n ih =>
      obtain ⟨hlo, hhi⟩ := product_bounds (a n) (b n)
      rw [dot_succ]
      push_cast
      constructor <;> omega

/-- The accumulators after `n` rows. -/
def accumulated (a : Nat → I8) (b : Nat → Nat → I8) (n k : Nat) : I32 :=
  BitVec.ofInt 32 (dot a (fun t => b t k) n)

theorem accumulated_succ (a : Nat → I8) (b : Nat → Nat → I8) (n k : Nat) :
    accumulated a b (n + 1) k = accumulated a b n k + lane (a n) (b n k) := by
  rw [accumulated, dot_succ, BitVec.ofInt_add]
  rfl

/-! ## Rows -/

/-- The accumulators `f` after the first `p` columns of a row have been added. -/
def rowDone (f : Nat → I32) (a : I8) (b : Nat → I8) (p k : Nat) : I32 :=
  if k < p then f k + lane a (b k) else f k

variable {A B C : List I8} {acc : List I32} {nA nB : Nat} {fa fb : Nat → I8}

/-- The scalar loop adds the columns from `lo` to `hi`. -/
theorem scalarRow_spec {a₀ b₀ lo hi : Nat} {x : Nat → Int} (hA : Holds A nA fa) (ha : a₀ < nA)
    (hB : Holds B nB fb) (hb : b₀ + hi ≤ nB) (hlohi : lo ≤ hi)
    (hx : ∀ k, -(131070 * 16384) ≤ x k ∧ x k ≤ 131070 * 16384)
    (hacc : Holds acc hi (rowDone (fun k => BitVec.ofInt 32 (x k)) (fa a₀)
      (fun k => fb (b₀ + k)) lo)) :
    ∃ acc', scalarRow A a₀ B b₀ lo hi acc = some acc' ∧ acc'.length = acc.length ∧
      Holds acc' hi (rowDone (fun k => BitVec.ofInt 32 (x k)) (fa a₀)
        (fun k => fb (b₀ + k)) hi) := by
  let done := rowDone (fun k => BitVec.ofInt 32 (x k)) (fa a₀) (fun k => fb (b₀ + k))
  apply forLoop_count hlohi
    (fun j (acc' : List I32) => acc'.length = acc.length ∧ Holds acc' hi (done j))
  · rintro j cur hj ⟨hlen, hcur⟩
    have hload : load cur j = some (BitVec.ofInt 32 (x j)) := by
      rw [hcur.load hj, show done j j = _ from if_neg (Nat.lt_irrefl j)]
    obtain ⟨next, hstore, hnlen, hnext⟩ := hcur.store hj (done (j + 1))
    rw [show done (j + 1) j = _ from if_pos (Nat.lt_succ_self j)] at hstore
    refine ⟨next, ?_, hnlen.trans hlen, hnext.congr fun k hk => ?_⟩
    · simp only [hA.load ha, hB.load (show b₀ + j < nB by omega), hload,
        multiplyAdd_ofInt (hx j).1 (hx j).2, Option.bind_eq_bind, Option.bind_some, hstore]
    · simp only [patch, done, rowDone]
      grind
  · exact ⟨rfl, hacc⟩

/-- The vector iterations add the columns up to the one they end at. -/
theorem vectorColumns_spec {block : Block} (hblock : Adds block) {a : I8} {b₀ N : Nat}
    {f : Nat → I32} (hB : Holds B nB fb) (hb : b₀ + N ≤ nB) (hacc : Holds acc N f) :
    ∃ j acc', vectorColumns block a B b₀ N acc = some (j, acc') ∧ j ≤ N ∧
      acc'.length = acc.length ∧ Holds acc' N (rowDone f a (fun k => fb (b₀ + k)) j) := by
  let done := rowDone f a (fun k => fb (b₀ + k))
  let P : Nat → List I32 → Prop := fun j cur =>
    j ≤ N ∧ cur.length = acc.length ∧ Holds cur N (done j)
  have hcond : ∀ j, decide (j + 15 < N) = true → j < N := by
    intro j hj
    have := of_decide_eq_true hj
    omega
  obtain ⟨j, acc', hrun, -, hP⟩ : ∃ j acc', vectorColumns block a B b₀ N acc = some (j, acc') ∧
      decide (j + 15 < N) = false ∧ P j acc' := by
    apply loop_rule (by omega) hcond
    · rintro j cur hj ⟨-, hlen, hcur⟩
      have hroom : j + 16 ≤ N := by
        have := of_decide_eq_true hj
        omega
      obtain ⟨next, hadd, hnlen, hnext⟩ := hblock a (fun k => fb (b₀ + j + k)) hcur hroom
      refine ⟨next, ?_, hroom, hnlen.trans hlen, hnext.congr fun k hk => ?_⟩
      · simp only [hB.loadLanes (show b₀ + j + 16 ≤ nB by omega), Option.bind_eq_bind,
          Option.bind_some, hadd]
      · simp only [added, patch, done, rowDone]
        rcases Nat.lt_or_ge k j with hkj | hkj
        · grind
        · rw [show b₀ + j + (k - j) = b₀ + k by omega]
          grind
    · omega
    · refine ⟨Nat.zero_le N, rfl, hacc.congr fun k _ => ?_⟩
      rw [show done 0 k = _ from if_neg (Nat.not_lt_zero k)]
  exact ⟨j, acc', hrun, hP⟩

/-- A row of a tile kernel adds all its columns. -/
theorem simdRow_spec {block : Block} (hblock : Adds block) {a₀ b₀ N t : Nat} {x : Nat → Int}
    (hA : Holds A nA fa) (ha : a₀ + t < nA) (hB : Holds B nB fb) (hb : b₀ + t * N + N ≤ nB)
    (hx : ∀ k, -(131070 * 16384) ≤ x k ∧ x k ≤ 131070 * 16384)
    (hacc : Holds acc N (fun k => BitVec.ofInt 32 (x k))) :
    ∃ acc', simdRow block A a₀ B b₀ N t acc = some acc' ∧ acc'.length = acc.length ∧
      Holds acc' N (rowDone (fun k => BitVec.ofInt 32 (x k)) (fa (a₀ + t))
        (fun k => fb (b₀ + t * N + k)) N) := by
  obtain ⟨j, mid, hvector, hjN, hmidlen, hmid⟩ :=
    vectorColumns_spec hblock (a := fa (a₀ + t)) hB hb hacc
  obtain ⟨acc', htail, hlen, hend⟩ := scalarRow_spec hA ha hB hb hjN hx hmid
  refine ⟨acc', ?_, hlen.trans hmidlen, hend⟩
  simp only [simdRow, hA.load ha, hvector, Option.bind_eq_bind, Option.bind_some]
  exact htail

/-- All rows of a tile: each adds the products of `a t` with the weights `b t`. -/
theorem rows_spec {K tile : Nat} (hK : K ≤ 131071) (row : Nat → List I32 → Option (List I32))
    {a : Nat → I8} {b : Nat → Nat → I8}
    (hrow : ∀ t < K, ∀ (cur : List I32) (x : Nat → Int),
      (∀ k, -(131070 * 16384) ≤ x k ∧ x k ≤ 131070 * 16384) →
      Holds cur tile (fun k => BitVec.ofInt 32 (x k)) →
      ∃ next, row t cur = some next ∧ next.length = cur.length ∧
        Holds next tile (rowDone (fun k => BitVec.ofInt 32 (x k)) (a t) (b t) tile))
    (hacc : Holds acc tile (fun _ => 0)) :
    ∃ acc', forLoop 0 K 1 row acc = some acc' ∧ acc'.length = acc.length ∧
      Holds acc' tile (accumulated a b K) := by
  apply forLoop_count (Nat.zero_le K)
    (fun t (cur : List I32) => cur.length = acc.length ∧ Holds cur tile (accumulated a b t))
  · rintro t cur ht ⟨hlen, hcur⟩
    have hbound : ∀ k, -(131070 * 16384) ≤ dot a (fun t => b t k) t ∧
        dot a (fun t => b t k) t ≤ 131070 * 16384 := by
      intro k
      obtain ⟨hlo, hhi⟩ := dot_bounds a (fun t => b t k) t
      constructor <;> omega
    obtain ⟨next, hstep, hnlen, hnext⟩ := hrow t ht cur _ hbound hcur
    refine ⟨next, hstep, hnlen.trans hlen, hnext.congr fun k hk => ?_⟩
    rw [rowDone, if_pos hk, accumulated_succ]
    rfl
  · refine ⟨rfl, hacc.congr fun k _ => ?_⟩
    simp [accumulated, dot]

theorem writeBack_spec {tile c₀ nC : Nat} {x : Nat → I32} {fc : Nat → I8}
    (hacc : Holds acc tile x) (hC : Holds C nC fc) (hc : c₀ + tile ≤ nC) :
    ∃ C', writeBack acc C c₀ tile = some C' ∧ C'.length = C.length ∧
      Holds C' nC (patch fc (fun k => saturate (x (k - c₀))) c₀ tile) := by
  apply forLoop_count (Nat.zero_le tile) (fun j (cur : List I8) => cur.length = C.length ∧
    Holds cur nC (patch fc (fun k => saturate (x (k - c₀))) c₀ j))
  · rintro j cur hj ⟨hlen, hcur⟩
    obtain ⟨next, hstore, hnlen, hnext⟩ :=
      hcur.store (show c₀ + j < nC by omega) (fun k => saturate (x (k - c₀)))
    rw [patch_append] at hnext
    refine ⟨next, ?_, hnlen.trans hlen, hnext⟩
    simp only [hacc.load hj, Option.bind_eq_bind, Option.bind_some]
    rw [← hstore, Nat.add_sub_cancel_left]
  · refine ⟨rfl, hC.congr fun k _ => ?_⟩
    rw [patch, if_neg (by omega)]

/-! ## Tiles -/

/-- Column `j` of a tile: the row of `A` from `a₀` on times the column of `B` from `b₀ + j` on, whose
rows are `stride` apart. -/
def tileEntry (fa fb : Nat → I8) (a₀ b₀ stride K j : Nat) : I8 :=
  saturate (accumulated (fun t => fa (a₀ + t)) (fun t k => fb (b₀ + t * stride + k)) K j)

theorem rowDone_zero {n : Nat} {f : Nat → I32} {a : I8} {b : Nat → I8} (h : Holds acc n f) :
    Holds acc n (rowDone f a b 0) := by
  refine h.congr fun k _ => ?_
  rw [rowDone, if_neg (Nat.not_lt_zero k)]

theorem simdTile_spec {block : Block} (hblock : Adds block) {a₀ b₀ c₀ N K nC : Nat}
    {fc : Nat → I8} (hK : K ≤ 131071) (hA : Holds A nA fa) (ha : a₀ + K ≤ nA) (hB : Holds B nB fb)
    (hb : ∀ t < K, b₀ + t * N + N ≤ nB) (hC : Holds C nC fc) (hc : c₀ + N ≤ nC)
    (hacc : N ≤ acc.length) :
    ∃ C' acc', simdTile block A a₀ B b₀ C c₀ N K acc = some (C', acc') ∧
      acc'.length = acc.length ∧ C'.length = C.length ∧
      Holds C' nC (patch fc (fun k => tileEntry fa fb a₀ b₀ N K (k - c₀)) c₀ N) := by
  obtain ⟨zeros, hfill, hzlen, hzeros⟩ := fill_holds (Nat.le_refl acc.length) (0 : I32)
  obtain ⟨acc', hrows, hlen, hdone⟩ := rows_spec hK (simdRow block A a₀ B b₀ N)
    (a := fun t => fa (a₀ + t)) (b := fun t k => fb (b₀ + t * N + k))
    (fun t ht cur x hx hcur => simdRow_spec hblock hA (by omega) hB (hb t ht) hx hcur)
    (hzeros.mono hacc)
  obtain ⟨C', hwrite, hClen, hend⟩ := writeBack_spec hdone hC hc
  refine ⟨C', acc', ?_, hlen.trans hzlen, hClen, hend⟩
  simp only [simdTile, hfill, hrows, hwrite, Option.bind_eq_bind, Option.bind_some,
    Option.pure_def]

theorem scalarTile_spec {N K i jj tile nC : Nat} {fc : Nat → I8} (hK : K ≤ 131071)
    (hA : Holds A nA fa) (ha : i * K + K ≤ nA) (hB : Holds B nB fb)
    (hb : ∀ t < K, jj + t * N + tile ≤ nB) (hC : Holds C nC fc) (hc : i * N + jj + tile ≤ nC)
    (hacc : tile ≤ acc.length) :
    ∃ C' acc', scalarTile A B C N K i jj tile acc = some (C', acc') ∧
      acc'.length = acc.length ∧ C'.length = C.length ∧
      Holds C' nC (patch fc (fun k => tileEntry fa fb (i * K) jj N K (k - (i * N + jj)))
        (i * N + jj) tile) := by
  obtain ⟨zeros, hfill, hzlen, hzeros⟩ := fill_holds hacc (0 : I32)
  obtain ⟨acc', hrows, hlen, hdone⟩ := rows_spec hK
    (fun t acc => scalarRow A (i * K + t) B (t * N + jj) 0 tile acc)
    (a := fun t => fa (i * K + t)) (b := fun t k => fb (jj + t * N + k))
    (fun t ht cur x hx hcur => by
      rw [Nat.add_comm jj]
      have hroom := hb t ht
      exact scalarRow_spec hA (by omega) hB (by omega) (Nat.zero_le _) hx (rowDone_zero hcur))
    hzeros
  obtain ⟨C', hwrite, hClen, hend⟩ := writeBack_spec hdone hC hc
  refine ⟨C', acc', ?_, hlen.trans hzlen, hClen, hend⟩
  simp only [scalarTile, hfill, hrows, hwrite, Option.bind_eq_bind, Option.bind_some,
    Option.pure_def]

/-- How far apart the build takes the rows of `B` to be in the tile at column `jj`. -/
def Build.stride (build : Build) (N jj : Nat) : Nat :=
  match build with
  | .scalar => N
  | _ => min (min build.int8Tile N) (N - jj)

/-- The entry of `C` at row `i` and column `j`, which lies in the tile at column
`j / tile_size * tile_size`. -/
def Build.entry (build : Build) (fa fb : Nat → I8) (N K i j : Nat) : I8 :=
  let tileSize := min build.int8Tile N
  let jj := j / tileSize * tileSize
  tileEntry fa fb (i * K) jj (build.stride N jj) K (j - jj)

/-- The entry at index `k` of `C`. -/
def Build.target (build : Build) (fa fb : Nat → I8) (N K k : Nat) : I8 :=
  build.entry fa fb N K (k / N) (k % N)

/-- The tile of column `jj` has the target's entries. -/
theorem target_eq_tileEntry (build : Build) (fa fb : Nat → I8) {N K i jj k : Nat}
    (hdvd : min build.int8Tile N ∣ jj) (hlo : i * N + jj ≤ k)
    (hhi : k < i * N + jj + min (min build.int8Tile N) (N - jj)) :
    build.target fa fb N K k =
      tileEntry fa fb (i * K) jj (build.stride N jj) K (k - (i * N + jj)) := by
  obtain ⟨j, rfl⟩ : ∃ j, k = i * N + jj + j := ⟨k - (i * N + jj), by omega⟩
  have hj : jj + j < N := by omega
  have htile : j < min build.int8Tile N := by omega
  have hrow : (i * N + jj + j) / N = i := by
    rw [Nat.add_assoc, Nat.add_comm, Nat.add_mul_div_right _ _ (by omega),
      Nat.div_eq_of_lt hj, Nat.zero_add]
  have hcol : (i * N + jj + j) % N = jj + j := by
    rw [Nat.add_assoc, Nat.add_comm, Nat.add_mul_mod_self_right, Nat.mod_eq_of_lt hj]
  have hstart : (jj + j) / min build.int8Tile N * min build.int8Tile N = jj := by
    obtain ⟨q, rfl⟩ := hdvd
    rw [Nat.mul_add_div (by omega), Nat.div_eq_of_lt htile, Nat.add_zero, Nat.mul_comm]
  simp only [Build.target, Build.entry, hrow, hcol, hstart]
  congr 1
  omega

/-! ## The whole product -/

section Product
variable {build : Build} {M N K i jj : Nat} {f : Nat → I8}

/-- One more row fits: `i * n + n ≤ m * n`. -/
theorem row_le {i m n : Nat} (h : i < m) : i * n + n ≤ m * n := by
  calc i * n + n = (i + 1) * n := (Nat.succ_mul i n).symm
    _ ≤ m * n := Nat.mul_le_mul_right n h

theorem tile_spec (hK : K ≤ 131071) (hA : Holds A (M * K) fa) (hB : Holds B (K * N) fb)
    (hC : Holds C (M * N) f) (hi : i < M) (hjj : jj < N) (hdvd : min build.int8Tile N ∣ jj)
    (hacc : acc.length = min build.int8Tile N) :
    ∃ C' acc', build.tile A B C N K i jj (min (min build.int8Tile N) (N - jj)) acc =
        some (C', acc') ∧
      acc'.length = acc.length ∧ C'.length = C.length ∧
      Holds C' (M * N) (patch f (build.target fa fb N K) (i * N + jj)
        (min (min build.int8Tile N) (N - jj))) := by
  have htile : min (min build.int8Tile N) (N - jj) ≤ N - jj := Nat.min_le_right _ _
  have hroom : min (min build.int8Tile N) (N - jj) ≤ acc.length := by
    rw [hacc]
    exact Nat.min_le_left _ _
  have hrowA := row_le (n := K) hi
  have hrowC := row_le (n := N) hi
  -- the rows of a tile are no longer than those of `B`
  have hnarrow : ∀ t < K, jj + t * min (min build.int8Tile N) (N - jj) +
      min (min build.int8Tile N) (N - jj) ≤ K * N := by
    intro t ht
    have hrowB := row_le (n := N) ht
    have hshort : t * min (min build.int8Tile N) (N - jj) ≤ t * N :=
      Nat.mul_le_mul_left t (by omega)
    omega
  have hwide : ∀ t < K, jj + t * N + min (min build.int8Tile N) (N - jj) ≤ K * N := by
    intro t ht
    have hrowB := row_le (n := N) ht
    omega
  obtain ⟨C', acc', hrun, hlen, hClen, hend⟩ :
      ∃ C' acc', build.tile A B C N K i jj (min (min build.int8Tile N) (N - jj)) acc =
          some (C', acc') ∧
        acc'.length = acc.length ∧ C'.length = C.length ∧
        Holds C' (M * N) (patch f (fun k => tileEntry fa fb (i * K) jj (build.stride N jj) K
          (k - (i * N + jj))) (i * N + jj) (min (min build.int8Tile N) (N - jj))) := by
    cases build with
    | avx2 => exact simdTile_spec avx2_adds hK hA (by omega) hB hnarrow hC (by omega) hroom
    | neon => exact simdTile_spec neon_adds hK hA (by omega) hB hnarrow hC (by omega) hroom
    | sse2 => exact simdTile_spec sse2_adds hK hA (by omega) hB hnarrow hC (by omega) hroom
    | scalar => exact scalarTile_spec hK hA (by omega) hB hwide hC (by omega) hroom
  refine ⟨C', acc', hrun, hlen, hClen, hend.congr fun k _ => ?_⟩
  unfold patch
  split
  · next hin => exact (target_eq_tileEntry build fa fb hdvd hin.1 hin.2).symm
  · rfl

/-- The first `p` entries of `C` are the target's, and the accumulator buffer has its size. -/
def Filled (build : Build) (fa fb f : Nat → I8) (M N K p : Nat) (s : List I8 × List I32) : Prop :=
  s.1.length = M * N ∧ s.2.length = min build.int8Tile N ∧
    Holds s.1 (M * N) (patch f (build.target fa fb N K) 0 p)

theorem Filled.row {s : List I8 × List I32} (hK : K ≤ 131071) (hA : Holds A (M * K) fa)
    (hB : Holds B (K * N) fb) (hi : i < M) (hs : Filled build fa fb f M N K (i * N) s) :
    ∃ s', workerRow build A B N K (min build.int8Tile N) i s = some s' ∧
      Filled build fa fb f M N K ((i + 1) * N) s' := by
  rcases Nat.eq_zero_or_pos N with rfl | hN
  · exact ⟨s, forLoop_empty (Nat.le_refl 0) s, hs⟩
  let ts := min build.int8Tile N
  have hts : 0 < ts := by
    have : 0 < build.int8Tile := by cases build <;> decide
    exact Nat.lt_min.mpr ⟨this, hN⟩
  let P : Nat → List I8 × List I32 → Prop := fun jj s =>
    ts ∣ jj ∧ Filled build fa fb f M N K (i * N + min jj N) s
  obtain ⟨jj, s', hrun, hdone, -, hfilled⟩ : ∃ jj s',
      workerRow build A B N K ts i s = some s' ∧ N ≤ jj ∧ P jj s' := by
    apply forLoop_rule hts
    · rintro jj ⟨C₁, acc₁⟩ hjj ⟨hdvd, hlen, hacc, hC₁⟩
      rw [Nat.min_eq_left (Nat.le_of_lt hjj)] at hC₁
      obtain ⟨C', acc', htile, hacc', hClen, hend⟩ := tile_spec hK hA hB hC₁ hi hjj hdvd hacc
      have hgrow : min ts (N - jj) - acc₁.length = 0 := by
        have hle : min ts (N - jj) ≤ ts := Nat.min_le_left _ _
        have hsize : acc₁.length = ts := hacc
        omega
      refine ⟨(C', acc'), ?_, Nat.dvd_add hdvd (Nat.dvd_refl ts), hClen.trans hlen,
        hacc'.trans hacc, ?_⟩
      · simp only [hgrow, List.replicate_zero, List.append_nil]
        exact htile
      · have hnext : i * N + min (jj + ts) N = i * N + jj + min ts (N - jj) := by omega
        rw [hnext, ← patch_append, Nat.zero_add]
        exact hend
    · refine ⟨Nat.dvd_zero ts, ?_⟩
      rw [Nat.zero_min, Nat.add_zero]
      exact hs
  refine ⟨s', hrun, ?_⟩
  rw [Nat.min_eq_right hdone, ← Nat.succ_mul] at hfilled
  exact hfilled

/-- A worker fills its rows. -/
theorem worker_spec (hK : K ≤ 131071) (hA : Holds A (M * K) fa) (hB : Holds B (K * N) fb)
    {rowBegin rowEnd : Nat} (hrows : rowBegin ≤ rowEnd) (hM : rowEnd ≤ M)
    (hlen : C.length = M * N)
    (hC : Holds C (M * N) (patch f (build.target fa fb N K) 0 (rowBegin * N))) :
    ∃ C', worker build A B N K rowBegin rowEnd C = some C' ∧ C'.length = M * N ∧
      Holds C' (M * N) (patch f (build.target fa fb N K) 0 (rowEnd * N)) := by
  obtain ⟨⟨C', acc'⟩, hrun, hClen, -, hend⟩ := forLoop_count hrows
    (fun i => Filled build fa fb f M N K (i * N))
    (fun i s hi hs => hs.row hK hA hB (Nat.lt_of_lt_of_le hi hM))
    (show Filled build fa fb f M N K (rowBegin * N)
      (C, List.replicate (min build.int8Tile N) 0) from ⟨hlen, List.length_replicate, hC⟩)
  refine ⟨C', ?_, hClen, hend⟩
  simp only [worker, hrun, Option.map_some]

/-- The threads together fill all rows, when there are enough of them. -/
theorem launch_spec (hK : K ≤ 131071) (hA : Holds A (M * K) fa) (hB : Holds B (K * N) fb)
    {rows workers start : Nat} (hstart : start ≤ M) (henough : M ≤ start + workers * rows)
    (hlen : C.length = M * N)
    (hC : Holds C (M * N) (patch f (build.target fa fb N K) 0 (start * N))) :
    ∃ C', launch (worker build A B N K) rows M workers start C = some C' ∧ C'.length = M * N ∧
      Holds C' (M * N) (patch f (build.target fa fb N K) 0 (M * N)) := by
  induction workers generalizing start C with
  | zero =>
      obtain rfl : start = M := by omega
      exact ⟨C, rfl, hlen, hC⟩
  | succ w ih =>
      rw [launch]
      rcases Nat.lt_or_ge start M with hlt | hge
      · rw [if_pos hlt]
        obtain ⟨C₁, hrun, hlen₁, hC₁⟩ := worker_spec hK hA hB
          (show start ≤ min (start + rows) M by omega) (Nat.min_le_right _ _) hlen hC
        rw [Nat.succ_mul] at henough
        obtain ⟨C', hrest, hlen', hend⟩ :=
          ih (Nat.min_le_right _ _) (by omega) hlen₁ hC₁
        exact ⟨C', by rw [hrun, Option.bind_some, hrest], hlen', hend⟩
      · rw [if_neg (by omega)]
        obtain rfl : start = M := by omega
        exact ⟨C, rfl, hlen, hC⟩

/-- **What every build computes.** For every shape, all matrices and every thread setting the
product ends without a fault, and its entries are the build's. -/
theorem int8_matmul_eq (build : Build) (threads : Threads) (hK : K ≤ 131071)
    (hA : A.length = M * K) (hB : B.length = K * N) :
    int8Matmul build threads A B M N K =
      some ((List.range (M * N)).map
        (build.target (fun k => A.getD k 0) (fun k => B.getD k 0) N K)) := by
  have hfa : Holds A (M * K) (fun k => A.getD k 0) := hA ▸ holds_getD A 0
  have hfb : Holds B (K * N) (fun k => B.getD k 0) := hB ▸ holds_getD B 0
  let g := build.target (fun k => A.getD k 0) (fun k => B.getD k 0) N K
  have hzero : Holds (List.replicate (M * N) (0 : I8)) (M * N)
      (patch (fun _ => 0) g 0 (0 * N)) := by
    refine (holds_replicate (M * N) 0).congr fun k _ => ?_
    rw [patch, if_neg (by omega)]
  suffices hrun : ∃ C', int8Matmul build threads A B M N K = some C' ∧ C'.length = M * N ∧
      Holds C' (M * N) (patch (fun _ => 0) g 0 (M * N)) by
    obtain ⟨C', hrun, hlen, hC'⟩ := hrun
    rw [hrun, (hC'.congr fun k hk => if_pos ⟨Nat.zero_le k, by omega⟩).eq_map hlen]
  unfold int8Matmul
  simp only
  split
  · exact worker_spec hK hfa hfb (Nat.zero_le M) (Nat.le_refl M) List.length_replicate hzero
  · next hmany =>
      let workers := tuneThreadCount threads M
      have hpos : 0 < workers := by omega
      have henough : M ≤ 0 + workers * ((M + workers - 1) / workers) := by
        have hdiv := Nat.div_add_mod (M + workers - 1) workers
        have hmod := Nat.mod_lt (M + workers - 1) hpos
        omega
      exact launch_spec hK hfa hfb (Nat.zero_le M) henough List.length_replicate hzero

end Product

/-! ## When the builds agree -/

/-- The tile kernels read `B` with their own stride, the plain build with that of the matrix. -/
theorem entry_eq (build : Build) (fa fb : Nat → I8) (N K i j : Nat) :
    build.entry fa fb N K i j = saturate (BitVec.ofInt 32 (dot (fun t => fa (i * K + t))
      (fun t => fb (j + t * build.stride N
        (j / min build.int8Tile N * min build.int8Tile N))) K)) := by
  have hle : j / min build.int8Tile N * min build.int8Tile N ≤ j := Nat.div_mul_le_self _ _
  simp only [Build.entry, tileEntry, accumulated]
  congr 3
  funext t
  congr 1
  omega

theorem dot_congr {a b c : Nat → I8} {n : Nat} (h : ∀ t < n, b t = c t) :
    dot a b n = dot a c n := by
  refine Finset.sum_congr rfl fun t ht => ?_
  rw [h t (Finset.mem_range.mp ht)]

/-- An inner product with a unit vector picks one entry. -/
theorem dot_unit {a b : Nat → I8} {n i : Nat} (hi : i < n) (ha : ∀ t, a t = if t = i then 1 else 0) :
    dot a b n = (b i).toInt := by
  have hone : (1 : I8).toInt = 1 := rfl
  have hzero : (0 : I8).toInt = 0 := rfl
  rw [dot, Finset.sum_eq_single i]
  · rw [ha, if_pos rfl, hone, Int.one_mul]
  · intro t _ ht
    rw [ha, if_neg ht, hzero, Int.zero_mul]
  · intro hout
    exact absurd (Finset.mem_range.mpr hi) hout

/-- The buffer of size `n` with a one at `i`. -/
def unit (n i : Nat) : List I8 := (List.range n).map fun k => if k = i then 1 else 0

theorem getD_unit {n i : Nat} (hi : i < n) (k : Nat) :
    (unit n i).getD k 0 = if k = i then 1 else 0 := by
  rw [unit, List.getD_eq_getElem?_getD, List.getElem?_map]
  by_cases hk : k < n
  · simp [hk]
  · have hne : k ≠ i := by omega
    simp [hk, hne]

/-- For every matrix and any two thread settings both builds produce the same `C`. -/
def Agrees (build : Build) (M N K : Nat) : Prop :=
  ∀ (threads threads' : Threads) (A B : List I8), A.length = M * K → B.length = K * N →
    ∃ C, int8Matmul build threads A B M N K = some C ∧
      int8Matmul .scalar threads' A B M N K = some C

/-- A row of `B` longer than a tile: the second row of the tile starts at column 128 of the first
row of `B`. -/
theorem units_differ {build : Build} (hb : build ≠ .scalar) {M N K : Nat} (hK : K ≤ 131071)
    (hM : 0 < M) (hN : 128 < N) (hK' : 1 < K) (threads threads' : Threads) :
    int8Matmul build threads (unit (M * K) 1) (unit (K * N) N) M N K ≠
      int8Matmul .scalar threads' (unit (M * K) 1) (unit (K * N) N) M N K := by
  have hlenA : (unit (M * K) 1).length = M * K := by simp [unit]
  have hlenB : (unit (K * N) N).length = K * N := by simp [unit]
  have hrowA := row_le (n := K) hM
  have hrowB := row_le (n := N) hK'
  have hA : ∀ k, (unit (M * K) 1).getD k 0 = if k = 1 then 1 else 0 := getD_unit (by omega)
  have hB : ∀ k, (unit (K * N) N).getD k 0 = if k = N then 1 else 0 := getD_unit (by omega)
  rw [int8_matmul_eq build threads hK hlenA hlenB, int8_matmul_eq .scalar threads' hK hlenA hlenB]
  intro heq
  have hfirst := congrArg (fun C : List I8 => C[0]?) (Option.some.inj heq)
  have hsize : 0 < M * N := Nat.mul_pos hM (by omega)
  simp only [List.getElem?_map, List.getElem?_range hsize, Option.map_some, Option.some.injEq,
    Build.target, Nat.zero_div, Nat.zero_mod, entry_eq, Nat.zero_mul, Nat.zero_add] at hfirst
  rw [dot_unit hK' hA, dot_unit hK' hA, hB, hB, Nat.one_mul, Nat.one_mul] at hfirst
  have hstride : build.stride N 0 ≠ N := by
    cases build with
    | scalar => exact absurd rfl hb
    | avx2 => simp only [Build.stride, Build.int8Tile]; omega
    | neon => simp only [Build.stride, Build.int8Tile]; omega
    | sse2 => simp only [Build.stride, Build.int8Tile]; omega
  rw [if_neg hstride, show Build.scalar.stride N 0 = N from rfl, if_pos rfl] at hfirst
  exact absurd hfirst (by decide)

/-- **When the builds agree.** A build with a tile kernel computes what the plain build computes, for
all matrices of a shape and all thread settings, exactly when there are no rows, or a row of `B` is
no longer than a tile, or `B` has at most one row. -/
theorem agrees_iff {build : Build} (hb : build ≠ .scalar) {M N K : Nat} (hK : K ≤ 131071) :
    Agrees build M N K ↔ M = 0 ∨ N ≤ 128 ∨ K ≤ 1 := by
  constructor
  · intro hagree
    by_contra hne
    simp only [not_or, Nat.not_le] at hne
    obtain ⟨hM, hN, hK'⟩ := hne
    obtain ⟨C, hsimd, hscalar⟩ := hagree ⟨1, none⟩ ⟨1, none⟩ (unit (M * K) 1) (unit (K * N) N)
      (by simp [unit]) (by simp [unit])
    exact units_differ hb hK (Nat.pos_of_ne_zero hM) hN hK' ⟨1, none⟩ ⟨1, none⟩
      (hsimd.trans hscalar.symm)
  · intro hshape threads threads' A B hA hB
    refine ⟨_, int8_matmul_eq build threads hK hA hB, ?_⟩
    rw [int8_matmul_eq .scalar threads' hK hA hB]
    congr 1
    refine List.map_congr_left fun k hk => ?_
    have hsize : k < M * N := List.mem_range.mp hk
    have hN : 0 < N := Nat.pos_of_mul_pos_left (Nat.zero_lt_of_lt hsize)
    have hcol : k % N < N := Nat.mod_lt k hN
    rw [Build.target, Build.target, entry_eq, entry_eq]
    congr 2
    apply dot_congr
    intro t ht
    rcases hshape with rfl | hN128 | hK1
    · omega
    · -- one tile, as wide as the matrix
      have hstride : build.stride N
          (k % N / min build.int8Tile N * min build.int8Tile N) = N := by
        have hwide : min build.int8Tile N = N := by
          cases build with
          | scalar => exact absurd rfl hb
          | avx2 => exact Nat.min_eq_right hN128
          | neon => exact Nat.min_eq_right hN128
          | sse2 => exact Nat.min_eq_right hN128
        rw [hwide, Nat.div_eq_of_lt hcol, Nat.zero_mul]
        cases build with
        | scalar => rfl
        | avx2 => rw [Build.stride, hwide, Nat.sub_zero, Nat.min_self]; simp
        | neon => rw [Build.stride, hwide, Nat.sub_zero, Nat.min_self]; simp
        | sse2 => rw [Build.stride, hwide, Nat.sub_zero, Nat.min_self]; simp
      rw [hstride]
      rfl
    · obtain rfl : t = 0 := by omega
      rw [Nat.zero_mul, Nat.zero_mul]

theorem agrees_two_by_three : Agrees .avx2 2 3 4 :=
  (agrees_iff (by decide) (by decide)).mpr (Or.inr (Or.inl (by decide)))

/-- One row times a matrix with 2 rows of 129 columns: the product of the second unit vectors is 1
in the plain build and 0 with the AVX2 kernel. -/
theorem avx2_differs : int8Matmul .avx2 ⟨1, none⟩ [0, 1] (unit 258 129) 1 129 2 ≠
    int8Matmul .scalar ⟨1, none⟩ [0, 1] (unit 258 129) 1 129 2 :=
  units_differ (by decide) (by decide) (by decide) (by decide) (by decide) ⟨1, none⟩ ⟨1, none⟩

end ChainBeasts.Int8
