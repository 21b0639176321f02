import ChainBeasts.InputStream
import ChainBeasts.Pouw.Wire

/-! # `kernel_cache.hpp`

The files in which compiled kernels are kept. What was stored comes back, but a file that breaks off
is not refused: `load_gpu_kernels` and `load_fpga_kernels` never ask whether a read succeeded, so
they go on with what lies in their variables, and only `read_string` throws. A GPU file ends in the
SPIR-V words of its last operation, behind its last string, and an FPGA file need not have any
strings at all.

The types of the fields are declared elsewhere: a field is as many bytes as its type has, and their
numbers are parameters. So are the contents of variables that are not initialised, the defaults of the
records (`Memory`), and how a string is written (`Format`): reading one throws where it is cut off. -/

namespace ChainBeasts.Harmonics.KernelCache

open ChainBeasts.Framing ChainBeasts.InputStream ChainBeasts.Pouw.Wire

/-! ## Kernels -/

/-- `sizeof`, for the types of the fields. -/
structure Sizes where
  backend : Nat
  compiled : Nat
  deviceIndex : Nat
  sourceKind : Nat
  sourceIndex : Nat
  targetKind : Nat
  targetIndex : Nat

/-- An operation, as far as both kinds of kernels have it. -/
structure Op (L : Sizes) where
  sourceKind : Vector Byte L.sourceKind
  sourceIndex : Vector Byte L.sourceIndex
  targetKind : Vector Byte L.targetKind
  targetIndex : Vector Byte L.targetIndex
  backward : Bool
  func : Option Bytes
  deriving DecidableEq

/-- A vector of 32-bit words, as it lies in memory. -/
structure Words where
  size : Nat
  data : Vector Byte (4 * size)
  deriving DecidableEq

structure GpuOp (L : Sizes) extends Op L where
  shader : Bytes
  spirv : Words
  deriving DecidableEq

structure Kernels (L : Sizes) (O : Type) where
  backend : Vector Byte L.backend
  compiled : Vector Byte L.compiled
  deviceIndex : Vector Byte L.deviceIndex
  ops : List O
  deriving DecidableEq

abbrev GpuCycleKernels (L : Sizes) := Kernels L (GpuOp L)
abbrev FpgaCycleKernels (L : Sizes) := Kernels L (Op L)

/-- What is in the variables before they are read into. -/
structure Memory (L : Sizes) where
  /-- Not initialised. -/
  magic : Vector Byte 4
  ver : Vector Byte 4
  count : Vector Byte 4
  words : Nat → Vector Byte 4
  /-- The defaults of the records. -/
  backend : Vector Byte L.backend
  compiled : Vector Byte L.compiled
  deviceIndex : Vector Byte L.deviceIndex
  sourceKind : Vector Byte L.sourceKind
  sourceIndex : Vector Byte L.sourceIndex
  targetKind : Vector Byte L.targetKind
  targetIndex : Vector Byte L.targetIndex

/-- A `uint32_t`, as it lies in memory. -/
def number (x : BitVec 32) : Vector Byte 4 := ⟨(memory x).toArray, rfl⟩

/-- A `uint8_t` that is 1 or 0. -/
def flag (b : Bool) : Vector Byte 1 := #v[if b then 1 else 0]

/-! ## Storing -/

section Store
variable {L : Sizes} {O : Type} (S : Format Byte Bytes) (version : BitVec 32)

/-- The body of the loop, up to the function. -/
def storeOp (op : Op L) : Bytes :=
  op.sourceKind.toList ++ (op.sourceIndex.toList ++ (op.targetKind.toList ++
    (op.targetIndex.toList ++ ((flag op.backward).toList ++ ((flag op.func.isSome).toList ++
      op.func.elim [] S.write)))))

/-- The body of the loop. The number of words is cast to 32 bits. -/
def storeGpuOp (op : GpuOp L) : Bytes :=
  let words := BitVec.ofNat 32 op.spirv.size
  storeOp S op.toOp ++ (S.write op.shader ++ ((number words).toList ++
    if words ≠ 0 then op.spirv.data.toList.take (4 * words.toNat) else []))

/-- The file, where it can be opened. -/
def store (magic : Vector Byte 4) (storeOp : O → Bytes) (kernels : Kernels L O) : Bytes :=
  magic.toList ++ ((number version).toList ++ (kernels.backend.toList ++
    (kernels.compiled.toList ++ (kernels.deviceIndex.toList ++
      ((number (BitVec.ofNat 32 kernels.ops.length)).toList ++ kernels.ops.flatMap storeOp)))))

/-- `"HGKG"`. -/
def gpuMagic : Vector Byte 4 := #v[0x48, 0x47, 0x4b, 0x47]

/-- `"HGKF"`. -/
def fpgaMagic : Vector Byte 4 := #v[0x48, 0x47, 0x4b, 0x46]

def storeGpuKernels (kernels : GpuCycleKernels L) : Bytes :=
  store version gpuMagic (storeGpuOp S) kernels

def storeFpgaKernels (kernels : FpgaCycleKernels L) : Bytes :=
  store version fpgaMagic (storeOp S) kernels

end Store

/-! ## Loading -/

section Load
variable {L : Sizes} {O : Type} (S : Format Byte Bytes) (M : Memory L)

/-- `if (has_fn) op.func = read_string(in)`. -/
def loadFunc (hasFn : Vector Byte 1) : Loader Byte (Option Bytes) :=
  if hasFn ≠ flag false then do
    let func ← throwing S.read
    return some func
  else pure none

def loadOp : Loader Byte (Op L) := do
  let sourceKind ← readField M.sourceKind
  let sourceIndex ← readField M.sourceIndex
  let targetKind ← readField M.targetKind
  let targetIndex ← readField M.targetIndex
  let back ← readField (flag false)
  let hasFn ← readField (flag false)
  let func ← loadFunc S hasFn
  return ⟨sourceKind, sourceIndex, targetKind, targetIndex, back ≠ flag false, func⟩

/-- `op.spirv.resize(words)`, and the words that are read into it. -/
def loadWords (words : BitVec 32) : Loader Byte Words := do
  let zeros : Vector Byte (4 * words.toNat) := Vector.replicate _ 0
  let data ← if words ≠ 0 then readField zeros else pure zeros
  return ⟨words.toNat, data⟩

/-- `mem` lies in the variable for the number of words. -/
def loadSpirv (mem : Vector Byte 4) : Loader Byte Words := do
  let words ← readField mem
  loadWords (word words.toList)

/-- `i` is the number of the operation. -/
def loadGpuOp (i : Nat) : Loader Byte (GpuOp L) := do
  let op ← loadOp S M
  let shader ← throwing S.read
  let spirv ← loadSpirv (M.words i)
  return { toOp := op, shader, spirv }

/-- `none` is `nullopt`. -/
def load (magic : Vector Byte 4) (loadOp : Nat → Loader Byte O) :
    Loader Byte (Option (Kernels L O)) := do
  let found ← readField M.magic
  if found ≠ magic then return none
  else
    let _ver ← readField M.ver
    let backend ← readField M.backend
    let compiled ← readField M.compiled
    let deviceIndex ← readField M.deviceIndex
    let count ← readField M.count
    let ops ← each loadOp 0 (word count.toList).toNat
    return some ⟨backend, compiled, deviceIndex, ops⟩

/-- The outer `none` is an exception; there need not be a file. -/
def loadGpuKernels (file : Option Bytes) : Option (Option (GpuCycleKernels L)) :=
  match file with
  | none => some none
  | some bytes => (load M gpuMagic (loadGpuOp S M) ⟨bytes, false⟩).map Prod.fst

def loadFpgaKernels (file : Option Bytes) : Option (Option (FpgaCycleKernels L)) :=
  match file with
  | none => some none
  | some bytes => (load M fpgaMagic (fun _ => loadOp S M) ⟨bytes, false⟩).map Prod.fst

end Load

/-! ## One operation of a file that breaks off -/

section Torn
variable {L : Sizes} {O : Type} {S : Format Byte Bytes} {M : Memory L} {version : BitVec 32}
  {x : Input Byte} {rest : Bytes} {k : Nat}

/-- Where the byte of `backward` lies in an operation. -/
def backOffset (L : Sizes) : Nat :=
  L.sourceKind + L.sourceIndex + L.targetKind + L.targetIndex

/-- The strings that can be written. -/
def Op.Sound (S : Format Byte Bytes) (op : Op L) : Prop := ∀ s ∈ op.func, S.Sound s

/-- What becomes of an operation of which `k` bytes are there, not all of those in front of the
function. -/
def lossy (M : Memory L) (k : Nat) (op : Op L) : Op L where
  sourceKind := overlay k op.sourceKind M.sourceKind
  sourceIndex := overlay (k - L.sourceKind) op.sourceIndex M.sourceIndex
  targetKind := overlay (k - L.sourceKind - L.sourceIndex) op.targetKind M.targetKind
  targetIndex :=
    overlay (k - L.sourceKind - L.sourceIndex - L.targetKind) op.targetIndex M.targetIndex
  backward := op.backward && backOffset L < k
  func := none

/-- Nothing is lost if the part in front of the function is there. -/
theorem lossy_whole {op : Op L} (h : backOffset L + 2 ≤ k) :
    lossy M k op = { op with func := none } := by
  unfold backOffset at h
  rw [lossy, overlay_of_le (by omega), overlay_of_le (by omega), overlay_of_le (by omega),
    overlay_of_le (by omega), decide_eq_true (by unfold backOffset; omega), Bool.and_true]

theorem flag_ne_false (b : Bool) : decide (flag b ≠ flag false) = b := by
  cases b <;> decide

theorem load_func_false (x : Input Byte) : loadFunc S (flag false) x = some (none, x) := by
  rw [loadFunc, if_neg (by simp)]
  rfl

/-- The name of the function is read whole, or there is an exception. -/
theorem left_func {func : Option Bytes} (hfunc : ∀ s ∈ func, S.Sound s)
    (h : Left x (func.elim [] S.write ++ rest) k) :
    (k < (func.elim [] S.write).length → loadFunc S (flag func.isSome) x = none) ∧
      ((func.elim [] S.write).length ≤ k → ∃ x', loadFunc S (flag func.isSome) x = some (func, x') ∧
        Left x' rest (k - (func.elim [] S.write).length)) := by
  cases func with
  | none =>
      refine ⟨fun hk => absurd hk (Nat.not_lt_zero k), fun _ => ⟨x, load_func_false x, h⟩⟩
  | some s =>
      obtain ⟨hcut, hwhole⟩ := h.throwing (hfunc s rfl)
      have hset : flag (some s).isSome ≠ flag false := by
        show flag true ≠ flag false
        decide
      rw [loadFunc, if_pos hset]
      refine ⟨fun hk => bind_of_none (hcut hk), fun hk => ?_⟩
      obtain ⟨x', hread, hx'⟩ := hwhole hk
      exact ⟨x', bind_of_eq hread, hx'⟩

/-- Of the byte of a flag there is all or nothing. -/
theorem overlay_flag (b : Bool) (k : Nat) : overlay k (flag b) (flag false) = flag (b && 0 < k) := by
  cases k with
  | zero =>
      rw [overlay_zero]
      simp
  | succ k =>
      rw [overlay_of_le (Nat.le_add_left 1 k)]
      simp

/-- **One operation**: whole, or broken off in the name of its function, or before. -/
theorem left_op {op : Op L} (hop : op.Sound S) (h : Left x (storeOp S op ++ rest) k) :
    (k < backOffset L + 2 → ∃ x', loadOp S M x = some (lossy M k op, x') ∧ Left x' [] 0) ∧
      (backOffset L + 2 ≤ k → k < (storeOp S op).length → loadOp S M x = none) ∧
      ((storeOp S op).length ≤ k →
        ∃ x', loadOp S M x = some (op, x') ∧ Left x' rest (k - (storeOp S op).length)) := by
  have hlen : (storeOp S op).length = backOffset L + 2 + (op.func.elim [] S.write).length := by
    simp only [storeOp, List.length_append, Vector.length_toList, backOffset]
    omega
  simp only [storeOp, List.append_assoc] at h
  obtain ⟨x₁, h₁, hx₁⟩ := h.readField M.sourceKind
  obtain ⟨x₂, h₂, hx₂⟩ := hx₁.readField M.sourceIndex
  obtain ⟨x₃, h₃, hx₃⟩ := hx₂.readField M.targetKind
  obtain ⟨x₄, h₄, hx₄⟩ := hx₃.readField M.targetIndex
  obtain ⟨x₅, h₅, hx₅⟩ := hx₄.readField (flag false)
  obtain ⟨x₆, h₆, hx₆⟩ := hx₅.readField (flag false)
  have hback : (0 < k - L.sourceKind - L.sourceIndex - L.targetKind - L.targetIndex) =
      (backOffset L < k) := by
    unfold backOffset
    exact propext ⟨by omega, by omega⟩
  have hfn : (0 < k - L.sourceKind - L.sourceIndex - L.targetKind - L.targetIndex - 1) =
      (backOffset L + 1 < k) := by
    unfold backOffset
    exact propext ⟨by omega, by omega⟩
  have hleft : k - L.sourceKind - L.sourceIndex - L.targetKind - L.targetIndex - 1 - 1 =
      k - (backOffset L + 2) := by
    unfold backOffset
    omega
  rw [overlay_flag] at h₅ h₆
  simp only [hback] at h₅
  simp only [hfn] at h₆
  rw [hleft] at hx₆
  have hload : loadOp S M x = (loadFunc S (flag (op.func.isSome && backOffset L + 1 < k)) >>=
      fun func => pure { lossy M k op with func }) x₆ := by
    rw [loadOp, bind_of_eq h₁, bind_of_eq h₂, bind_of_eq h₃, bind_of_eq h₄, bind_of_eq h₅,
      bind_of_eq h₆]
    simp only [flag_ne_false]
    rfl
  obtain ⟨hthrows, hreads⟩ := left_func hop hx₆
  rw [hlen, hload]
  refine ⟨fun hk => ?_, fun hk hcut => ?_, fun hk => ?_⟩
  · -- the flag of the function is not there
    have hunset : (op.func.isSome && decide (backOffset L + 1 < k)) = false := by
      rw [decide_eq_false (by omega), Bool.and_false]
    have hnothing : k - (backOffset L + 2) = 0 := by omega
    rw [hunset, bind_of_eq (load_func_false x₆)]
    rw [hnothing] at hx₆
    exact ⟨x₆, rfl, hx₆.none_left []⟩
  · rw [decide_eq_true (by omega), Bool.and_true]
    exact bind_of_none (hthrows (by omega))
  · rw [decide_eq_true (by omega), Bool.and_true]
    obtain ⟨x₇, h₇, hx₇⟩ := hreads (by omega)
    rw [Nat.sub_sub] at hx₇
    refine ⟨x₇, ?_, hx₇⟩
    rw [bind_of_eq h₇, lossy_whole (by omega)]
    rfl

theorem sameFrom_of_le {n k : Nat} {v d : Vector Byte n} (h : n ≤ k) : SameFrom k v d :=
  fun _ hi hk => absurd hi (by omega)

/-! ### A GPU operation -/

structure GpuOp.Sound (S : Format Byte Bytes) (op : GpuOp L) : Prop where
  func : op.toOp.Sound S
  shader : S.Sound op.shader
  words : op.spirv.size < 2 ^ 32

/-- Where the number of words lies in an operation. -/
def wordsOffset (S : Format Byte Bytes) (op : GpuOp L) : Nat :=
  (storeOp S op.toOp).length + (S.write op.shader).length

/-- What is lost of the words is what `resize` leaves there, and what is lost of their number lies
in the variable. `k` bytes of the two are there. -/
structure GpuOp.Kept (M : Memory L) (i k : Nat) (op : GpuOp L) : Prop where
  words : SameFrom k (number (BitVec.ofNat 32 op.spirv.size)) (M.words i)
  data : SameFrom (k - 4) op.spirv.data (Vector.replicate _ 0)

theorem word_number (v : BitVec 32) : word (number v).toList = v := word_memory v

theorem number_word (v : Vector Byte 4) : number (word v.toList) = v := by
  apply Vector.toList_inj.mp
  exact memory_word v.length_toList

theorem store_gpu_op_eq {op : GpuOp L} (h : op.spirv.size < 2 ^ 32) :
    storeGpuOp S op = storeOp S op.toOp ++ (S.write op.shader ++
      ((number (BitVec.ofNat 32 op.spirv.size)).toList ++ op.spirv.data.toList)) := by
  have hwords : (BitVec.ofNat 32 op.spirv.size).toNat = op.spirv.size := by
    rw [BitVec.toNat_ofNat, Nat.mod_eq_of_lt h]
  have hdata : (if BitVec.ofNat 32 op.spirv.size ≠ 0 then
      op.spirv.data.toList.take (4 * (BitVec.ofNat 32 op.spirv.size).toNat) else []) =
        op.spirv.data.toList := by
    split
    · rw [hwords]
      exact List.take_of_length_le (Nat.le_of_eq Vector.length_toList)
    · next hzero =>
        have hempty : op.spirv.size = 0 := by
          rw [← hwords, not_not.mp hzero]
          rfl
        symm
        apply List.eq_nil_of_length_eq_zero
        rw [Vector.length_toList, hempty]
  rw [storeGpuOp, hdata]

theorem length_store_gpu_op {op : GpuOp L} (h : op.spirv.size < 2 ^ 32) :
    (storeGpuOp S op).length = wordsOffset S op + 4 + 4 * op.spirv.size := by
  rw [store_gpu_op_eq h]
  simp only [List.length_append, Vector.length_toList, wordsOffset]
  omega

theorem left_words (words : BitVec 32) (data : Vector Byte (4 * words.toNat))
    (h : Left x (data.toList ++ rest) k) :
    ∃ x', loadWords words x = some (⟨words.toNat, overlay k data (Vector.replicate _ 0)⟩, x') ∧
      Left x' rest (k - 4 * words.toNat) := by
  by_cases hzero : words ≠ 0
  · obtain ⟨x', hread, hx'⟩ := h.readField (Vector.replicate _ 0)
    refine ⟨x', ?_, hx'⟩
    rw [loadWords]
    simp only [if_pos hzero]
    rw [bind_of_eq hread]
    rfl
  · obtain rfl : words = 0 := not_not.mp hzero
    have hnone : data.toList = [] := List.eq_nil_of_length_eq_zero data.length_toList
    have hsame : overlay k data (Vector.replicate _ 0) = Vector.replicate _ 0 := by
      apply Vector.ext
      intro i hi
      exact absurd hi (Nat.not_lt_zero i)
    rw [hnone] at h
    rw [hsame]
    exact ⟨x, rfl, h⟩

/-- The number of words and the words are read, or what there is of them. -/
theorem left_spirv {w : Words} (hw : w.size < 2 ^ 32) (mem : Vector Byte 4)
    (h : Left x ((number (BitVec.ofNat 32 w.size)).toList ++ (w.data.toList ++ rest)) k) :
    ∃ w' x', loadSpirv mem x = some (w', x') ∧ Left x' rest (k - (4 + 4 * w.size)) ∧
      (w' = w ↔ SameFrom k (number (BitVec.ofNat 32 w.size)) mem ∧
        SameFrom (k - 4) w.data (Vector.replicate _ 0)) := by
  obtain ⟨size, data⟩ := w
  obtain ⟨words, rfl⟩ : ∃ words : BitVec 32, words.toNat = size :=
    ⟨BitVec.ofNat 32 size, by rw [BitVec.toNat_ofNat, Nat.mod_eq_of_lt hw]⟩
  rw [BitVec.ofNat_toNat, BitVec.setWidth_eq] at h ⊢
  obtain ⟨x₁, h₁, hx₁⟩ := h.readField mem
  rw [loadSpirv, bind_of_eq h₁]
  by_cases hsame : SameFrom k (number words) mem
  · -- the number is the one that was stored
    rw [overlay_eq_iff.mpr hsame, word_number]
    obtain ⟨x₂, h₂, hx₂⟩ := left_words words data hx₁
    refine ⟨_, x₂, h₂, ?_, ?_⟩
    · rwa [← Nat.sub_sub]
    · rw [and_iff_right hsame, ← overlay_eq_iff, Words.mk.injEq, and_iff_right rfl, heq_eq_eq]
  · -- another number, and nothing behind it
    have hcut : k < 4 := by
      by_contra hfour
      exact hsame fun i hi hk => absurd hi (by omega)
    have hnothing : k - 4 = 0 := by omega
    rw [hnothing] at hx₁
    obtain ⟨x₂, h₂, hx₂⟩ := left_words (word (overlay k (number words) mem).toList)
      (Vector.replicate _ 0) (hx₁.none_left (_ ++ rest))
    rw [Nat.zero_sub] at hx₂
    refine ⟨_, x₂, h₂, ?_, ?_⟩
    · have hend : k - (4 + 4 * words.toNat) = 0 := by omega
      rwa [hend]
    · refine ⟨fun hw => ?_, fun h => absurd h.1 hsame⟩
      have hsize := congrArg Words.size hw
      have hnumber := congrArg number (BitVec.eq_of_toNat_eq hsize)
      rw [number_word] at hnumber
      exact absurd (overlay_eq_iff.mp hnumber) hsame

/-- **One GPU operation**: whole; or broken off in front of the number of its words, where there is
an exception; or broken off behind, where what is returned is the operation if nothing else was
lost than what is put in its place. -/
theorem left_gpu_op {op : GpuOp L} {i : Nat} (hop : op.Sound S)
    (h : Left x (storeGpuOp S op ++ rest) k) :
    (k < wordsOffset S op → loadGpuOp S M i x = none) ∧
      (wordsOffset S op ≤ k → ∃ op' x', loadGpuOp S M i x = some (op', x') ∧
        Left x' rest (k - (storeGpuOp S op).length) ∧
        (op' = op ↔ op.Kept M i (k - wordsOffset S op))) := by
  rw [length_store_gpu_op hop.words]
  rw [store_gpu_op_eq hop.words, List.append_assoc, List.append_assoc] at h
  obtain ⟨hlossy, hthrows, hwhole⟩ := left_op (M := M) hop.func h
  refine ⟨fun hk => ?_, fun hk => ?_⟩
  · rw [loadGpuOp]
    by_cases hhead : (storeOp S op.toOp).length ≤ k
    · obtain ⟨x₁, h₁, hx₁⟩ := hwhole hhead
      rw [List.append_assoc] at hx₁
      rw [bind_of_eq h₁]
      apply bind_of_none
      apply (hx₁.throwing hop.shader).1
      unfold wordsOffset at hk
      omega
    · by_cases hfixed : k < backOffset L + 2
      · -- the stream is at its end, and the shader is not there
        obtain ⟨x₁, h₁, hx₁⟩ := hlossy hfixed
        rw [bind_of_eq h₁]
        exact bind_of_none hx₁.throwing_end
      · exact bind_of_none (hthrows (by omega) (by omega))
  · unfold wordsOffset at hk ⊢
    obtain ⟨x₁, h₁, hx₁⟩ := hwhole (by omega)
    rw [List.append_assoc] at hx₁
    obtain ⟨x₂, h₂, hx₂⟩ := (hx₁.throwing hop.shader).2 (by omega)
    rw [Nat.sub_sub] at hx₂
    obtain ⟨w, x₃, h₃, hx₃, hkept⟩ := left_spirv hop.words (M.words i) hx₂
    refine ⟨{ op with spirv := w }, x₃, ?_, ?_, ?_⟩
    · rw [loadGpuOp, bind_of_eq h₁, bind_of_eq h₂, bind_of_eq h₃]
      rfl
    · rwa [Nat.add_assoc, ← Nat.sub_sub]
    · have hspirv : { op with spirv := w } = op ↔ w = op.spirv :=
        ⟨congrArg GpuOp.spirv, fun h => h ▸ rfl⟩
      rw [hspirv, hkept]
      exact ⟨fun h => ⟨h.1, h.2⟩, fun h => ⟨h.words, h.data⟩⟩

/-! ## The loops -/

/-- A new operation. -/
def blank (M : Memory L) : Op L :=
  ⟨M.sourceKind, M.sourceIndex, M.targetKind, M.targetIndex, false, none⟩

theorem lossy_zero (op : Op L) : lossy M 0 op = blank M := by
  simp [lossy, blank, overlay_zero]

/-- What is lost of an operation, behind its first `k` bytes, is what a new one has there. -/
structure Op.Kept (M : Memory L) (k : Nat) (op : Op L) : Prop where
  sourceKind : SameFrom k op.sourceKind M.sourceKind
  sourceIndex : SameFrom (k - L.sourceKind) op.sourceIndex M.sourceIndex
  targetKind : SameFrom (k - L.sourceKind - L.sourceIndex) op.targetKind M.targetKind
  targetIndex :
    SameFrom (k - L.sourceKind - L.sourceIndex - L.targetKind) op.targetIndex M.targetIndex
  backward : k ≤ backOffset L → op.backward = false
  func : op.func = none

theorem lossy_eq_iff {op : Op L} : lossy M k op = op ↔ op.Kept M k := by
  obtain ⟨sourceKind, sourceIndex, targetKind, targetIndex, backward, func⟩ := op
  simp only [lossy, Op.mk.injEq, overlay_eq_iff]
  constructor
  · rintro ⟨h₁, h₂, h₃, h₄, hback, hfunc⟩
    refine ⟨h₁, h₂, h₃, h₄, fun hk => ?_, hfunc.symm⟩
    rw [← hback, decide_eq_false (by omega), Bool.and_false]
  · rintro ⟨h₁, h₂, h₃, h₄, hback, hfunc⟩
    refine ⟨h₁, h₂, h₃, h₄, ?_, hfunc.symm⟩
    by_cases hk : backOffset L < k
    · rw [decide_eq_true hk, Bool.and_true]
    · have hunset : backward = false := hback (by omega)
      rw [hunset, Bool.false_and]

/-- At the end of the file a new operation stays as it is. -/
theorem load_op_end (h : Left x rest 0) :
    ∃ x', loadOp S M x = some (blank M, x') ∧ Left x' [] 0 := by
  have hsound : (blank M).Sound S := by
    intro s hs
    cases hs
  obtain ⟨hlossy, -⟩ := left_op (M := M) hsound (h.none_left (storeOp S (blank M) ++ []))
  obtain ⟨x', hx, hx'⟩ := hlossy (by omega)
  rw [lossy_zero] at hx
  exact ⟨x', hx, hx'⟩

/-- At the end of the file there is no shader. -/
theorem load_gpu_op_end {i : Nat} (h : Left x rest 0) : loadGpuOp S M i x = none := by
  obtain ⟨x₁, h₁, hx₁⟩ := load_op_end (S := S) (M := M) h
  rw [loadGpuOp, bind_of_eq h₁]
  exact bind_of_none hx₁.throwing_end

theorem each_op_end (n i : Nat) (h : Left x rest 0) :
    ∃ x', each (fun _ => loadOp S M) i n x = some (List.replicate n (blank M), x') := by
  induction n generalizing i x rest with
  | zero => exact ⟨x, rfl⟩
  | succ n ih =>
      obtain ⟨x₁, h₁, hx₁⟩ := load_op_end (S := S) (M := M) h
      obtain ⟨x₂, h₂⟩ := ih (i + 1) hx₁
      refine ⟨x₂, ?_⟩
      rw [each, bind_of_eq h₁, bind_of_eq h₂]
      rfl

theorem each_gpu_op_end {n i : Nat} (hn : n ≠ 0) (h : Left x rest 0) :
    each (loadGpuOp S M) i n x = none := by
  obtain ⟨n, rfl⟩ := Nat.exists_eq_succ_of_ne_zero hn
  exact bind_of_none (load_gpu_op_end h)

/-- When a GPU file that breaks off after `k` bytes of its operations does no harm: in front of the
words of the last one, or where what is lost of these is what stands in their place. -/
def GpuOpsKept (S : Format Byte Bytes) (M : Memory L) : Nat → Nat → List (GpuOp L) → Prop
  | _, _, [] => True
  | i, k, op :: ops =>
    if (storeGpuOp S op).length ≤ k then
      GpuOpsKept S M (i + 1) (k - (storeGpuOp S op).length) ops
    else ops ≠ [] ∨ k < wordsOffset S op ∨ op.Kept M i (k - wordsOffset S op)

/-- When an FPGA file that breaks off after `k` bytes of its operations does no harm: in the name of
a function, or where what is lost is what new operations have. -/
def OpsKept (S : Format Byte Bytes) (M : Memory L) : Nat → List (Op L) → Prop
  | _, [] => True
  | k, op :: ops =>
    if (storeOp S op).length ≤ k then OpsKept S M (k - (storeOp S op).length) ops
    else backOffset L + 2 ≤ k ∨ op.Kept M k ∧ ∀ o ∈ ops, o = blank M

theorem left_gpu_ops {ops : List (GpuOp L)} {i : Nat} (hops : ∀ op ∈ ops, op.Sound S)
    (h : Left x (ops.flatMap (storeGpuOp S) ++ rest) k) :
    OnlyAs (each (loadGpuOp S M) i ops.length x) ops ↔ GpuOpsKept S M i k ops := by
  induction ops generalizing i x k with
  | nil => exact ⟨fun _ => trivial, fun _ => onlyAs_some.mpr rfl⟩
  | cons op ops ih =>
      obtain ⟨hop, hlater⟩ := List.forall_mem_cons.mp hops
      rw [List.flatMap_cons, List.append_assoc] at h
      obtain ⟨hthrows, hreturns⟩ := left_gpu_op (M := M) (i := i) hop h
      have hlen := length_store_gpu_op (S := S) hop.words
      rw [List.length_cons, each, GpuOpsKept]
      by_cases hk : k < wordsOffset S op
      · rw [bind_of_none (hthrows hk), if_neg (by omega)]
        exact ⟨fun _ => Or.inr (Or.inl hk), fun _ => onlyAs_none _⟩
      · obtain ⟨op', x', hload, hx', hkept⟩ := hreturns (Nat.not_lt.mp hk)
        rw [bind_of_eq hload]
        split
        · next hwhole =>
            have hsame : op' = op :=
              hkept.mpr ⟨sameFrom_of_le (by omega), sameFrom_of_le (by omega)⟩
            subst hsame
            rw [onlyAs_map (f := fun os => op' :: os) fun os hos => (List.cons.inj hos).2]
            exact ih hlater hx'
        · next hcut =>
            have hend : k - (storeGpuOp S op).length = 0 := by omega
            rw [hend] at hx'
            cases ops with
            | nil =>
                show OnlyAs (some ([op'], x')) [op] ↔ _
                rw [onlyAs_some, List.singleton_inj, hkept]
                exact ⟨fun h => Or.inr (Or.inr h), fun h => (h.resolve_left (by simp)).resolve_left hk⟩
            | cons o ops =>
                rw [bind_of_none (each_gpu_op_end (by simp) hx')]
                exact ⟨fun _ => Or.inl (by simp), fun _ => onlyAs_none _⟩

theorem left_ops {ops : List (Op L)} {i : Nat} (hops : ∀ op ∈ ops, op.Sound S)
    (h : Left x (ops.flatMap (storeOp S) ++ rest) k) :
    OnlyAs (each (fun _ => loadOp S M) i ops.length x) ops ↔ OpsKept S M k ops := by
  induction ops generalizing i x k with
  | nil => exact ⟨fun _ => trivial, fun _ => onlyAs_some.mpr rfl⟩
  | cons op ops ih =>
      obtain ⟨hop, hlater⟩ := List.forall_mem_cons.mp hops
      rw [List.flatMap_cons, List.append_assoc] at h
      obtain ⟨hlossy, hthrows, hwhole⟩ := left_op (M := M) hop h
      rw [List.length_cons, each, OpsKept]
      split
      · next hlen =>
          obtain ⟨x', hload, hx'⟩ := hwhole hlen
          rw [bind_of_eq hload,
            onlyAs_map (f := fun os => op :: os) fun os hos => (List.cons.inj hos).2]
          exact ih hlater hx'
      · next hcut =>
          by_cases hfixed : backOffset L + 2 ≤ k
          · rw [bind_of_none (hthrows hfixed (by omega))]
            exact ⟨fun _ => Or.inl hfixed, fun _ => onlyAs_none _⟩
          · obtain ⟨x₁, h₁, hx₁⟩ := hlossy (by omega)
            obtain ⟨x₂, h₂⟩ := each_op_end (S := S) (M := M) ops.length (i + 1) hx₁
            rw [bind_of_eq h₁, bind_of_eq h₂]
            show OnlyAs (some (lossy M k op :: List.replicate ops.length (blank M), x₂)) _ ↔ _
            rw [onlyAs_some, List.cons.injEq, lossy_eq_iff, eq_comm, List.eq_replicate_length]
            exact ⟨Or.inr, fun h => h.resolve_left hfixed⟩

/-! ## The whole file -/

/-- The bytes in front of the operations. -/
def headerSize (L : Sizes) : Nat := 8 + L.backend + L.compiled + L.deviceIndex + 4

/-- How many operations a file that breaks off after `n` bytes makes the loader expect. -/
def expected (M : Memory L) (n : Nat) (kernels : Kernels L O) : Nat :=
  (word (overlay (n - (headerSize L - 4)) (number (BitVec.ofNat 32 kernels.ops.length))
    M.count).toList).toNat

/-- What is lost of the three fields of a file that breaks off after `n` bytes is what a new record
has there. -/
structure HeaderKept (M : Memory L) (n : Nat) (kernels : Kernels L O) : Prop where
  backend : SameFrom (n - 8) kernels.backend M.backend
  compiled : SameFrom (n - 8 - L.backend) kernels.compiled M.compiled
  deviceIndex : SameFrom (n - 8 - L.backend - L.compiled) kernels.deviceIndex M.deviceIndex

theorem length_store (version : BitVec 32) (magic : Vector Byte 4) (storeOp : O → Bytes)
    (kernels : Kernels L O) : (store version magic storeOp kernels).length =
      headerSize L + (kernels.ops.flatMap storeOp).length := by
  simp only [store, List.length_append, Vector.length_toList, headerSize]
  omega

/-- What the header and the operations `ops` make. -/
def assembled (M : Memory L) (n : Nat) (kernels : Kernels L O) (ops : List O) : Kernels L O :=
  ⟨overlay (n - 8) kernels.backend M.backend,
    overlay (n - 8 - L.backend) kernels.compiled M.compiled,
    overlay (n - 8 - L.backend - L.compiled) kernels.deviceIndex M.deviceIndex, ops⟩

theorem assembled_eq_iff {kernels : Kernels L O} {n : Nat} {ops : List O} :
    assembled M n kernels ops = kernels ↔ HeaderKept M n kernels ∧ ops = kernels.ops := by
  obtain ⟨backend, compiled, deviceIndex, ops'⟩ := kernels
  simp only [assembled, Kernels.mk.injEq, overlay_eq_iff]
  exact ⟨fun h => ⟨⟨h.1, h.2.1, h.2.2.1⟩, h.2.2.2⟩,
    fun h => ⟨h.1.backend, h.1.compiled, h.1.deviceIndex, h.2⟩⟩

/-- **The header** is read, or what there is of it. -/
theorem load_torn (M : Memory L) (version : BitVec 32) (magic : Vector Byte 4) (storeOp : O → Bytes)
    (loadOp : Nat → Loader Byte O) (kernels : Kernels L O) (n : Nat) :
    ∃ x, Left x (kernels.ops.flatMap storeOp) (n - headerSize L) ∧
      (¬ SameFrom n magic M.magic →
        (load M magic loadOp ⟨(store version magic storeOp kernels).take n, false⟩).map Prod.fst =
          some none) ∧
      (SameFrom n magic M.magic →
        load M magic loadOp ⟨(store version magic storeOp kernels).take n, false⟩ =
          (each loadOp 0 (expected M n kernels) >>= fun ops =>
            pure (some (assembled M n kernels ops))) x) := by
  have h := left_start (store version magic storeOp kernels) n
  generalize (⟨_, false⟩ : Input Byte) = x at h ⊢
  unfold store at h
  obtain ⟨x₁, h₁, hx₁⟩ := h.readField M.magic
  obtain ⟨x₂, h₂, hx₂⟩ := hx₁.readField M.ver
  obtain ⟨x₃, h₃, hx₃⟩ := hx₂.readField M.backend
  obtain ⟨x₄, h₄, hx₄⟩ := hx₃.readField M.compiled
  obtain ⟨x₅, h₅, hx₅⟩ := hx₄.readField M.deviceIndex
  obtain ⟨x₆, h₆, hx₆⟩ := hx₅.readField M.count
  have hcount : n - 4 - 4 - L.backend - L.compiled - L.deviceIndex = n - (headerSize L - 4) := by
    unfold headerSize
    omega
  rw [hcount] at h₆ hx₆
  have hbody : n - (headerSize L - 4) - 4 = n - headerSize L := by
    unfold headerSize
    omega
  rw [hbody] at hx₆
  rw [Nat.sub_sub n 4 4] at h₃ h₄ h₅
  refine ⟨x₆, hx₆, fun hmagic => ?_, fun hmagic => ?_⟩
  · rw [← overlay_eq_iff] at hmagic
    rw [load, bind_of_eq h₁, if_pos hmagic]
    rfl
  · rw [← overlay_eq_iff] at hmagic
    rw [load, bind_of_eq h₁, if_neg (not_not.mpr hmagic), bind_of_eq h₂, bind_of_eq h₃,
      bind_of_eq h₄, bind_of_eq h₅, bind_of_eq h₆]
    rfl

/-- Nothing but `a` is returned: `nullopt` or an exception otherwise. -/
def Harmless {α : Type} (o : Option (Option α)) (a : α) : Prop := ∀ b, o = some (some b) → b = a

theorem harmless_map {α γ : Type} {m : Loader Byte γ} {f : γ → α} {a : α} :
    Harmless (((m >>= fun c => pure (some (f c))) x).map Prod.fst) a ↔
      ∀ p, m x = some p → f p.1 = a := by
  cases hm : m x with
  | none =>
      rw [bind_of_none hm]
      constructor
      · intro _ p hp
        cases hp
      · intro _ b hb
        cases hb
  | some q =>
      have hq : m x = some (q.1, q.2) := hm
      rw [bind_of_eq hq]
      constructor
      · intro h p hp
        rw [← Option.some.inj hp]
        exact h (f q.1) rfl
      · intro h b hb
        rw [← Option.some.inj (Option.some.inj hb)]
        exact h q rfl

theorem expected_whole {kernels : Kernels L O} {n : Nat} (hn : headerSize L ≤ n)
    (hcount : kernels.ops.length < 2 ^ 32) : expected M n kernels = kernels.ops.length := by
  have hfour : 4 ≤ n - (headerSize L - 4) := by
    unfold headerSize at hn ⊢
    omega
  rw [expected, overlay_of_le hfour, word_number, BitVec.toNat_ofNat, Nat.mod_eq_of_lt hcount]

/-- Behind the header nothing of the header is lost. -/
theorem headerKept_of_le {kernels : Kernels L O} {n : Nat} (hn : headerSize L ≤ n) :
    HeaderKept M n kernels := by
  unfold headerSize at hn
  exact ⟨sameFrom_of_le (by omega), sameFrom_of_le (by omega), sameFrom_of_le (by omega)⟩

/-- A file that breaks off behind the header does harm where its operations do. -/
theorem load_behind_header (M : Memory L) (version : BitVec 32) (magic : Vector Byte 4)
    (storeOp : O → Bytes) (loadOp : Nat → Loader Byte O) {kernels : Kernels L O} {n : Nat}
    (hcount : kernels.ops.length < 2 ^ 32) (hn : headerSize L ≤ n) :
    ∃ x, Left x (kernels.ops.flatMap storeOp) (n - headerSize L) ∧
      load M magic loadOp ⟨(store version magic storeOp kernels).take n, false⟩ =
        (each loadOp 0 kernels.ops.length >>= fun ops =>
          pure (some (assembled M n kernels ops))) x ∧
      (Harmless ((load M magic loadOp
          ⟨(store version magic storeOp kernels).take n, false⟩).map Prod.fst) kernels ↔
        OnlyAs (each loadOp 0 kernels.ops.length x) kernels.ops) := by
  obtain ⟨x, hx, -, hload⟩ := load_torn M version magic storeOp loadOp kernels n
  have hmagic : SameFrom n magic M.magic := by
    unfold headerSize at hn
    exact sameFrom_of_le (by omega)
  replace hload := hload hmagic
  rw [expected_whole hn hcount] at hload
  refine ⟨x, hx, hload, ?_⟩
  rw [hload, harmless_map]
  apply forall_congr'
  intro p
  rw [assembled_eq_iff, and_iff_right (headerKept_of_le hn)]

/-- **A whole file comes back.** -/
theorem load_stored {magic : Vector Byte 4} {storeOp : O → Bytes} {loadOp : Nat → Loader Byte O}
    {kernels : Kernels L O} (hcount : kernels.ops.length < 2 ^ 32)
    (hload : ∀ op ∈ kernels.ops, ∀ i x rest k, Left x (storeOp op ++ rest) k →
      (storeOp op).length ≤ k →
        ∃ x', loadOp i x = some (op, x') ∧ Left x' rest (k - (storeOp op).length)) :
    (load M magic loadOp ⟨store version magic storeOp kernels, false⟩).map Prod.fst =
      some (some kernels) := by
  have hlen := length_store version magic storeOp kernels
  obtain ⟨x, hx, heach, -⟩ := load_behind_header M version magic storeOp loadOp
    (n := (store version magic storeOp kernels).length) hcount (by omega)
  rw [List.take_length] at heach
  rw [← List.append_nil (kernels.ops.flatMap storeOp)] at hx
  obtain ⟨x', hops, -⟩ := hx.each (i := 0) hload (by omega)
  have hall : assembled M (store version magic storeOp kernels).length kernels kernels.ops =
      kernels := assembled_eq_iff.mpr ⟨headerKept_of_le (by omega), rfl⟩
  rw [heach, bind_of_eq hops, hall]
  rfl

/-- When a GPU file that breaks off after `n` bytes does no harm: in the header, where the bytes that
are there do not pass for the magic, or leave a number of operations to read, or where nothing else is
lost than what stands in its place; behind the header, see `GpuOpsKept`. -/
def GpuTornHarmless (S : Format Byte Bytes) (M : Memory L) (n : Nat)
    (kernels : GpuCycleKernels L) : Prop :=
  if headerSize L ≤ n then GpuOpsKept S M 0 (n - headerSize L) kernels.ops
  else ¬ SameFrom n gpuMagic M.magic ∨ expected M n kernels ≠ 0 ∨
    HeaderKept M n kernels ∧ kernels.ops = []

/-- The same for an FPGA file. In the header it makes no difference how many operations are left to
read: they are new ones. -/
def FpgaTornHarmless (S : Format Byte Bytes) (M : Memory L) (n : Nat)
    (kernels : FpgaCycleKernels L) : Prop :=
  if headerSize L ≤ n then OpsKept S M (n - headerSize L) kernels.ops
  else ¬ SameFrom n fpgaMagic M.magic ∨
    HeaderKept M n kernels ∧ kernels.ops = List.replicate (expected M n kernels) (blank M)

theorem harmless_nullopt {α : Type} (a : α) : Harmless (some none) a := by
  intro b hb
  cases hb

theorem gpu_torn_iff {kernels : GpuCycleKernels L} (hcount : kernels.ops.length < 2 ^ 32)
    (hops : ∀ op ∈ kernels.ops, op.Sound S) (n : Nat) :
    Harmless (loadGpuKernels S M (some ((storeGpuKernels S version kernels).take n))) kernels ↔
      GpuTornHarmless S M n kernels := by
  show Harmless ((load M gpuMagic (loadGpuOp S M)
    ⟨(store version gpuMagic (storeGpuOp S) kernels).take n, false⟩).map Prod.fst) kernels ↔ _
  by_cases hn : headerSize L ≤ n
  · obtain ⟨x, hx, -, hiff⟩ := load_behind_header M version gpuMagic (storeGpuOp S)
      (loadGpuOp S M) hcount hn
    rw [← List.append_nil (kernels.ops.flatMap (storeGpuOp S))] at hx
    rw [hiff, left_gpu_ops hops hx, GpuTornHarmless, if_pos hn]
  · obtain ⟨x, hx, hno, hyes⟩ := load_torn M version gpuMagic (storeGpuOp S) (loadGpuOp S M)
      kernels n
    rw [Nat.sub_eq_zero_of_le (Nat.le_of_not_le hn)] at hx
    rw [GpuTornHarmless, if_neg hn]
    by_cases hmagic : SameFrom n gpuMagic M.magic
    · rw [hyes hmagic, harmless_map, or_iff_right (not_not.mpr hmagic)]
      by_cases hnone : expected M n kernels = 0
      · rw [or_iff_right (not_not.mpr hnone), hnone, eq_comm (a := kernels.ops), ← assembled_eq_iff]
        exact ⟨fun h => h ([], x) rfl, fun h p hp => by cases hp; exact h⟩
      · rw [each_gpu_op_end hnone hx]
        refine ⟨fun _ => Or.inl hnone, fun _ p hp => ?_⟩
        cases hp
    · rw [hno hmagic]
      exact ⟨fun _ => Or.inl hmagic, fun _ => harmless_nullopt kernels⟩

theorem fpga_torn_iff {kernels : FpgaCycleKernels L} (hcount : kernels.ops.length < 2 ^ 32)
    (hops : ∀ op ∈ kernels.ops, op.Sound S) (n : Nat) :
    Harmless (loadFpgaKernels S M (some ((storeFpgaKernels S version kernels).take n))) kernels ↔
      FpgaTornHarmless S M n kernels := by
  show Harmless ((load M fpgaMagic (fun _ => loadOp S M)
    ⟨(store version fpgaMagic (storeOp S) kernels).take n, false⟩).map Prod.fst) kernels ↔ _
  by_cases hn : headerSize L ≤ n
  · obtain ⟨x, hx, -, hiff⟩ := load_behind_header M version fpgaMagic (storeOp S)
      (fun _ => loadOp S M) hcount hn
    rw [← List.append_nil (kernels.ops.flatMap (storeOp S))] at hx
    rw [hiff, left_ops hops hx, FpgaTornHarmless, if_pos hn]
  · obtain ⟨x, hx, hno, hyes⟩ := load_torn M version fpgaMagic (storeOp S) (fun _ => loadOp S M)
      kernels n
    rw [Nat.sub_eq_zero_of_le (Nat.le_of_not_le hn)] at hx
    rw [FpgaTornHarmless, if_neg hn]
    by_cases hmagic : SameFrom n fpgaMagic M.magic
    · obtain ⟨x', heach⟩ := each_op_end (S := S) (M := M) (expected M n kernels) 0 hx
      rw [hyes hmagic, harmless_map, or_iff_right (not_not.mpr hmagic), heach,
        eq_comm (a := kernels.ops), ← assembled_eq_iff]
      exact ⟨fun h => h (_, x') rfl, fun h p hp => by cases hp; exact h⟩
    · rw [hno hmagic]
      exact ⟨fun _ => Or.inl hmagic, fun _ => harmless_nullopt kernels⟩

theorem gpu_stored {kernels : GpuCycleKernels L} (hcount : kernels.ops.length < 2 ^ 32)
    (hops : ∀ op ∈ kernels.ops, op.Sound S) :
    loadGpuKernels S M (some (storeGpuKernels S version kernels)) = some (some kernels) := by
  apply load_stored hcount
  intro op hop i x rest k h hk
  have hlen := length_store_gpu_op (S := S) (hops op hop).words
  obtain ⟨op', x', hload, hx', hkept⟩ := (left_gpu_op (M := M) (hops op hop) h).2 (by omega)
  obtain rfl : op' = op :=
    hkept.mpr ⟨sameFrom_of_le (by omega), sameFrom_of_le (by omega)⟩
  exact ⟨x', hload, hx'⟩

theorem fpga_stored {kernels : FpgaCycleKernels L} (hcount : kernels.ops.length < 2 ^ 32)
    (hops : ∀ op ∈ kernels.ops, op.Sound S) :
    loadFpgaKernels S M (some (storeFpgaKernels S version kernels)) = some (some kernels) := by
  apply load_stored hcount
  intro op hop i x rest k h hk
  exact (left_op (M := M) (hops op hop) h).2.2 hk

end Torn

/-! ## Which cuts do harm -/

/-- Strings with their length in front. -/
def strings : Format Byte Bytes where
  write s := memory (BitVec.ofNat 32 s.length) ++ s
  read := recvString
  Sound := Fits
  stable := recv_string_stable
  productive := recv_string_productive
  read_write _ hs rest := recv_string_sent hs rest

/-- Every field is one byte long. -/
def narrow : Sizes := ⟨1, 1, 1, 1, 1, 1, 1⟩

def zeroed : Memory narrow where
  magic := #v[0, 0, 0, 0]
  ver := #v[0, 0, 0, 0]
  count := #v[0, 0, 0, 0]
  words _ := #v[0, 0, 0, 0]
  backend := #v[0]
  compiled := #v[0]
  deviceIndex := #v[0]
  sourceKind := #v[0]
  sourceIndex := #v[0]
  targetKind := #v[0]
  targetIndex := #v[0]

/-- A GPU kernel of one operation with one word. -/
def oneWord : GpuCycleKernels narrow :=
  ⟨#v[1], #v[1], #v[0], [⟨⟨#v[1], #v[2], #v[1], #v[3], false, none⟩, [], ⟨1, #v[7, 0, 0, 0]⟩⟩]⟩

/-- An FPGA kernel of one operation, which has no function. -/
def oneOp : FpgaCycleKernels narrow :=
  ⟨#v[1], #v[1], #v[0], [⟨#v[1], #v[2], #v[1], #v[3], true, none⟩]⟩

/-- **Broken off and loaded.** Without its last four bytes the GPU file makes a kernel whose word is
0 and not 7, and without its last six the FPGA file makes an operation of zeros. -/
theorem torn_kernels_loaded :
    ¬ (∀ n < (storeGpuKernels strings 1 oneWord).length,
        Harmless (loadGpuKernels strings zeroed
          (some ((storeGpuKernels strings 1 oneWord).take n))) oneWord) ∧
      ¬ ∀ n < (storeFpgaKernels strings 1 oneOp).length,
        Harmless (loadFpgaKernels strings zeroed
          (some ((storeFpgaKernels strings 1 oneOp).take n))) oneOp := by
  refine ⟨fun hclaim => ?_, fun hclaim => ?_⟩
  · have hloaded : loadGpuKernels strings zeroed
        (some ((storeGpuKernels strings 1 oneWord).take 29)) = some (some
          ⟨#v[1], #v[1], #v[0],
            [⟨⟨#v[1], #v[2], #v[1], #v[3], false, none⟩, [], ⟨1, #v[0, 0, 0, 0]⟩⟩]⟩) := by
      decide +kernel
    have hsame := hclaim 29 (by decide +kernel) _ hloaded
    exact absurd hsame (by decide +kernel)
  · have hloaded : loadFpgaKernels strings zeroed
        (some ((storeFpgaKernels strings 1 oneOp).take 15)) = some (some
          ⟨#v[1], #v[1], #v[0], [⟨#v[0], #v[0], #v[0], #v[0], false, none⟩]⟩) := by
      decide +kernel
    have hsame := hclaim 15 (by decide +kernel) _ hloaded
    exact absurd hsame (by decide +kernel)

/-- **Which cuts do harm.** What was stored comes back, for both kinds of kernels. Of a file that
breaks off after `n` bytes, `nullopt`, an exception or the kernels themselves are all that comes
back under the conditions named, and only then. -/
theorem kernels_torn_iff {L L' : Sizes} (S : Format Byte Bytes) (version : BitVec 32) (M : Memory L)
    (M' : Memory L') (kernels : GpuCycleKernels L) (kernels' : FpgaCycleKernels L')
    (hcount : kernels.ops.length < 2 ^ 32) (hops : ∀ op ∈ kernels.ops, op.Sound S)
    (hcount' : kernels'.ops.length < 2 ^ 32) (hops' : ∀ op ∈ kernels'.ops, op.Sound S) :
    (loadGpuKernels S M (some (storeGpuKernels S version kernels)) = some (some kernels) ∧
      ∀ n < (storeGpuKernels S version kernels).length,
        Harmless (loadGpuKernels S M (some ((storeGpuKernels S version kernels).take n)))
          kernels ↔ GpuTornHarmless S M n kernels) ∧
    (loadFpgaKernels S M' (some (storeFpgaKernels S version kernels')) = some (some kernels') ∧
      ∀ n < (storeFpgaKernels S version kernels').length,
        Harmless (loadFpgaKernels S M' (some ((storeFpgaKernels S version kernels').take n)))
          kernels' ↔ FpgaTornHarmless S M' n kernels') := by
  refine ⟨⟨gpu_stored hcount hops, fun n _ => ?_⟩, ⟨fpga_stored hcount' hops', fun n _ => ?_⟩⟩
  · exact gpu_torn_iff hcount hops n
  · exact fpga_torn_iff hcount' hops' n

theorem kernels_torn_iff_sample :
    loadGpuKernels strings zeroed (some (storeGpuKernels strings 1 oneWord)) =
        some (some oneWord) ∧
      loadFpgaKernels strings zeroed (some (storeFpgaKernels strings 1 oneOp)) =
        some (some oneOp) := by
  have hgpu : ∀ op ∈ oneWord.ops, op.Sound strings := by
    intro op hop
    obtain rfl := List.mem_singleton.mp hop
    refine ⟨?_, ?_, by decide⟩
    · intro s hs
      cases hs
    · show ([] : Bytes).length < 2 ^ 32
      decide
  have hfpga : ∀ op ∈ oneOp.ops, op.Sound strings := by
    intro op hop
    obtain rfl := List.mem_singleton.mp hop
    intro s hs
    cases hs
  obtain ⟨⟨hgpu', -⟩, hfpga', -⟩ := kernels_torn_iff strings 1 zeroed zeroed oneWord oneOp (by decide)
    hgpu (by decide) hfpga
  exact ⟨hgpu', hfpga'⟩

end ChainBeasts.Harmonics.KernelCache
