import ChainBeasts.InputStream
import ChainBeasts.Pouw.Wire

/-! # Network files

`save_network` and `load_network` of `int8_spec.hpp`. The file is a list of fields, each of fixed
length or with its length in front. `load_network` looks at the stream after every number and once in
the end; the magic, the op codes and the contents of the vectors it takes as they come, from memory
that was never written if need be. Still it returns nothing but networks that are in the file as a
whole (`load_eq_layout`), so a saved network comes back and a truncated file is refused
(`saved_network_loads`).

`stale` is what lies in uninitialised buffers. The file is the bytes that were written: a write that
fails throws. -/

namespace ChainBeasts.Int8

open ChainBeasts.Framing ChainBeasts.InputStream ChainBeasts.Pouw.Wire

/-- `Dense` is 0 and `ReLU` is 1; a variable of the type holds any byte. -/
structure Int8Op where
  value : Byte
  deriving DecidableEq

def Int8Op.Dense : Int8Op := ⟨0⟩
def Int8Op.ReLU : Int8Op := ⟨1⟩

structure Int8Layer where
  op : Int8Op
  input : BitVec 64
  output : BitVec 64
  weights : List (BitVec 8)
  bias : List (BitVec 8)
  deriving DecidableEq

structure Int8Network where
  layers : List Int8Layer
  deriving DecidableEq

/-! ## Saving -/

def writeU32 (v : BitVec 32) : Bytes := memory v

/-- `"N8NW"`. -/
def magic : Bytes := [0x4e, 0x38, 0x4e, 0x57]

def version : BitVec 32 := 1

/-- The body of the loop: all sizes are cast to 32 bits. -/
def saveLayer (l : Int8Layer) : Bytes :=
  [l.op.value] ++ (writeU32 (l.input.setWidth 32) ++ (writeU32 (l.output.setWidth 32) ++
    (writeU32 (BitVec.ofNat 32 l.weights.length) ++ (l.weights ++
      (writeU32 (BitVec.ofNat 32 l.bias.length) ++ l.bias)))))

def saveNetwork (net : Int8Network) : Bytes :=
  magic ++ (writeU32 version ++ (writeU32 (BitVec.ofNat 32 net.layers.length) ++
    net.layers.flatMap saveLayer))

/-! ## Loading -/

def readU32 (stale : Bytes) : Loader Byte (BitVec 32) := do
  let v ← read 4 stale
  check
  return word v

/-- The body of the loop. Vectors are zeroed before they are read into. -/
def loadLayer (stale : Bytes) : Loader Byte Int8Layer := do
  let op ← read 1 stale
  let input ← readU32 stale
  let output ← readU32 stale
  let w ← readU32 stale
  let weights ← read w.toNat (List.replicate w.toNat 0)
  let b ← readU32 stale
  let bias ← read b.toNat (List.replicate b.toNat 0)
  return ⟨⟨op.headD 0⟩, input.setWidth 64, output.setWidth 64, weights, bias⟩

/-- `for (auto& l : net.layers)`, `n` times. -/
def loadLayers (stale : Bytes) : Nat → Loader Byte (List Int8Layer)
  | 0 => pure []
  | n + 1 => do
    let l ← loadLayer stale
    let ls ← loadLayers stale n
    return l :: ls

def loadNetwork (stale : Bytes) : Loader Byte Int8Network := do
  let found ← read 4 stale
  if found ≠ magic then failure
  else
    let _version ← readU32 stale
    let count ← readU32 stale
    let layers ← loadLayers stale count.toNat
    check
    return ⟨layers⟩

/-- The network in a file, unless loading it throws. -/
def load (stale file : Bytes) : Option Int8Network := (loadNetwork stale ⟨file, false⟩).map Prod.fst

/-! ## The layout of a file

The same fields for a reader that gives up as soon as there is too little. -/

def number : Reader Byte (BitVec 32) := do
  let v ← take 4
  return word v

def layer : Reader Byte Int8Layer := do
  let op ← take 1
  let input ← number
  let output ← number
  let w ← number
  let weights ← take w.toNat
  let b ← number
  let bias ← take b.toNat
  return ⟨⟨op.headD 0⟩, input.setWidth 64, output.setWidth 64, weights, bias⟩

def layout : Reader Byte Int8Network := do
  let found ← take 4
  if found ≠ magic then failure
  else
    let _version ← number
    let count ← number
    let layers ← times layer count.toNat
    return ⟨layers⟩

theorem follows_number (stale : Bytes) : Follows (readU32 stale) number :=
  (follows_read 4 stale).bind fun v => (follows_pure (word v)).check_bind

theorem follows_layer (stale : Bytes) : Follows (loadLayer stale) layer := by
  apply (follows_read 1 stale).bind
  intro op
  apply (follows_number stale).bind
  intro input
  apply (follows_number stale).bind
  intro output
  apply (follows_number stale).bind
  intro w
  apply (follows_read _ _).bind
  intro weights
  apply (follows_number stale).bind
  intro b
  apply (follows_read _ _).bind
  intro bias
  exact follows_pure _

theorem follows_layers (stale : Bytes) (n : Nat) : Follows (loadLayers stale n) (times layer n) := by
  induction n with
  | zero => exact follows_pure []
  | succ n ih =>
      apply (follows_layer stale).bind
      intro l
      apply ih.bind
      intro ls
      exact follows_pure (l :: ls)

theorem follows_layout (stale : Bytes) : Follows (loadNetwork stale) layout := by
  apply (follows_read 4 stale).bind
  intro found
  by_cases hmagic : found ≠ magic
  · rw [if_pos hmagic, if_pos hmagic]
    exact follows_failure
  · rw [if_neg hmagic, if_neg hmagic]
    apply (follows_number stale).bind
    intro _
    apply (follows_number stale).bind
    intro count
    apply (follows_layers stale count.toNat).bind
    intro layers
    exact (follows_pure (Int8Network.mk layers)).check_bind

theorem checked_load_network (stale : Bytes) : Checked (loadNetwork stale) := by
  apply Checked.bind
  intro found
  by_cases hmagic : found ≠ magic
  · rw [if_pos hmagic]
    exact checked_failure
  · rw [if_neg hmagic]
    exact Checked.bind fun _ => Checked.bind fun _ => Checked.bind fun _ => checked_check_pure _

/-- **The late looks at the stream are enough**: `load_network` reads the layout, whatever lies in
its buffers. -/
theorem load_eq_layout (stale file : Bytes) : load stale file = (layout file).map Prod.fst :=
  (follows_layout stale).agrees (checked_load_network stale) file

/-! ## The format -/

/-- The sizes fit their four bytes. -/
structure Int8Layer.Fits (l : Int8Layer) : Prop where
  input : l.input.toNat < 2 ^ 32
  output : l.output.toNat < 2 ^ 32
  weights : l.weights.length < 2 ^ 32
  bias : l.bias.length < 2 ^ 32

structure Int8Network.Fits (net : Int8Network) : Prop where
  count : net.layers.length < 2 ^ 32
  layers : ∀ l ∈ net.layers, l.Fits

theorem number_written (v : BitVec 32) (rest : Bytes) :
    number (writeU32 v ++ rest) = some (v, rest) := by
  apply bind_eq_some.mpr
  refine ⟨writeU32 v, rest, take_eq_some.mpr ⟨rfl, length_memory v⟩, ?_⟩
  rw [writeU32, word_memory]
  rfl

theorem take_written (bs rest : Bytes) (h : bs.length < 2 ^ 32) :
    take (BitVec.ofNat 32 bs.length).toNat (bs ++ rest) = some (bs, rest) := by
  apply take_eq_some.mpr
  rw [BitVec.toNat_ofNat, Nat.mod_eq_of_lt h]
  exact ⟨rfl, rfl⟩

/-- A size of 64 bits that fits survives the way through 32. -/
theorem setWidth_setWidth {x : BitVec 64} (h : x.toNat < 2 ^ 32) :
    (x.setWidth 32).setWidth 64 = x := by
  apply BitVec.eq_of_toNat_eq
  rw [BitVec.toNat_setWidth, BitVec.toNat_setWidth, Nat.mod_eq_of_lt h, Nat.mod_eq_of_lt x.isLt]

theorem layer_written {l : Int8Layer} (hl : l.Fits) (rest : Bytes) :
    layer (saveLayer l ++ rest) = some (l, rest) := by
  simp only [saveLayer, List.append_assoc]
  apply bind_eq_some.mpr
  refine ⟨[l.op.value], _, take_eq_some.mpr ⟨rfl, rfl⟩, ?_⟩
  apply bind_eq_some.mpr
  refine ⟨_, _, number_written _ _, ?_⟩
  apply bind_eq_some.mpr
  refine ⟨_, _, number_written _ _, ?_⟩
  apply bind_eq_some.mpr
  refine ⟨_, _, number_written _ _, ?_⟩
  apply bind_eq_some.mpr
  refine ⟨_, _, take_written _ _ hl.weights, ?_⟩
  apply bind_eq_some.mpr
  refine ⟨_, _, number_written _ _, ?_⟩
  apply bind_eq_some.mpr
  refine ⟨_, _, take_written _ _ hl.bias, ?_⟩
  rw [setWidth_setWidth hl.input, setWidth_setWidth hl.output]
  rfl

theorem layout_written {net : Int8Network} (hnet : net.Fits) (rest : Bytes) :
    layout (saveNetwork net ++ rest) = some (net, rest) := by
  simp only [saveNetwork, List.append_assoc]
  apply bind_eq_some.mpr
  refine ⟨magic, _, take_eq_some.mpr ⟨rfl, rfl⟩, ?_⟩
  rw [if_neg (not_not.mpr rfl)]
  apply bind_eq_some.mpr
  refine ⟨_, _, number_written _ _, ?_⟩
  apply bind_eq_some.mpr
  refine ⟨_, _, number_written _ _, ?_⟩
  rw [BitVec.toNat_ofNat, Nat.mod_eq_of_lt hnet.count]
  apply bind_eq_some.mpr
  exact ⟨net.layers, rest, times_written (fun l hl => layer_written (hnet.layers l hl)) rest, rfl⟩

theorem number_stable : Stable number := (take_stable 4).bind fun _ => pure_stable _

theorem number_consuming : Consuming number := (take_consuming 4).bind fun _ => pure_consuming _

theorem layer_stable : Stable layer :=
  (take_stable 1).bind fun _ => number_stable.bind fun _ => number_stable.bind fun _ =>
    number_stable.bind fun _ => (take_stable _).bind fun _ => number_stable.bind fun _ =>
      (take_stable _).bind fun _ => pure_stable _

theorem layer_consuming : Consuming layer :=
  (take_consuming 1).bind fun _ => number_consuming.bind fun _ => number_consuming.bind fun _ =>
    number_consuming.bind fun _ => (take_consuming _).bind fun _ => number_consuming.bind fun _ =>
      (take_consuming _).bind fun _ => pure_consuming _

theorem layout_stable : Stable layout := by
  apply (take_stable 4).bind
  intro found
  by_cases hmagic : found ≠ magic
  · rw [if_pos hmagic]
    intro s net rest h
    cases h
  · rw [if_neg hmagic]
    exact number_stable.bind fun _ => number_stable.bind fun _ =>
      (times_stable layer_stable _).bind fun _ => pure_stable _

theorem layout_productive : Productive layout := by
  apply (take_productive (by decide)).bind
  intro found
  by_cases hmagic : found ≠ magic
  · rw [if_pos hmagic]
    intro s net rest h
    cases h
  · rw [if_neg hmagic]
    exact number_consuming.bind fun _ => number_consuming.bind fun _ =>
      (times_consuming layer_consuming _).bind fun _ => pure_consuming _

/-- **The format of network files.** -/
def networks : Format Byte Int8Network where
  write := saveNetwork
  read := layout
  Sound := Int8Network.Fits
  stable := layout_stable
  productive := layout_productive
  read_write _ hnet rest := layout_written hnet rest

/-- **A saved network loads**, and no part of its file loads as anything: whatever lies in the buffers
of the loader. -/
theorem saved_network_loads (stale : Bytes) {net : Int8Network} (hnet : net.Fits) :
    load stale (saveNetwork net) = some net ∧
      ∀ part, part <+: saveNetwork net → part ≠ saveNetwork net → load stale part = none := by
  refine ⟨?_, fun part hpart hne => ?_⟩
  · have hback := layout_written hnet []
    rw [List.append_nil] at hback
    rw [load_eq_layout, hback]
    rfl
  · have hbroken : layout part = none := networks.read_broken hnet hpart hne
    rw [load_eq_layout, hbroken]
    rfl

/-- Two layers, and buffers that hold the magic already. -/
theorem saved_network_loads_two :
    let net : Int8Network := ⟨[⟨.Dense, 1, 2, [2, 3], [1, 0]⟩, ⟨.Dense, 2, 1, [4, 5], [6]⟩]⟩
    load magic (saveNetwork net) = some net ∧
      ∀ part, part <+: saveNetwork net → part ≠ saveNetwork net → load magic part = none := by
  apply saved_network_loads magic
  refine ⟨by decide, ?_⟩
  intro l hl
  rcases List.mem_pair.mp hl with rfl | rfl
  · exact ⟨by decide, by decide, by decide, by decide⟩
  · exact ⟨by decide, by decide, by decide, by decide⟩

end ChainBeasts.Int8
