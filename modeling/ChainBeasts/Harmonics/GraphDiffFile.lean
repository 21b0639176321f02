import ChainBeasts.Harmonics.KernelCache
import Mathlib.Tactic.IntervalCases

/-! # `graph_diff_cli.cpp`

The file in which the difference of two graphs is kept: four lists, each behind its number of
entries. Of a layer only the name is written.

`load_graph_diff` reads these numbers into one variable and never asks whether a read succeeded; only
`read_string` throws. So where a file breaks off in front of a number, or inside it, the number of
the previous list is still there, and if what comes out is 0 all lists from there on are empty.
`cutOff` says what is loaded of a file that breaks off anywhere. -/

namespace ChainBeasts.Harmonics.GraphDiffFile

open ChainBeasts.Framing ChainBeasts.InputStream ChainBeasts.Pouw.Wire
open ChainBeasts.Harmonics.KernelCache (number flag word_number flag_ne_false loadFunc left_func
  load_func_false overlay_flag)

/-! ## Differences -/

structure Flow where
  src : Bytes
  dst : Bytes
  backward : Bool
  func : Option Bytes
  deriving DecidableEq

/-- `A` is what a layer has besides its name. -/
structure Layer (A : Type) where
  name : Bytes
  attrs : A
  deriving DecidableEq

structure GraphDiff (A : Type) where
  addedLayers : List (Layer A)
  removedLayers : List Bytes
  addedFlows : List Flow
  removedFlows : List Flow
  deriving DecidableEq

/-- What is in the variables before they are read into. -/
structure Memory where
  magic : Vector Byte 4
  count : Vector Byte 4
  /-- For each call of `read_flow`. -/
  back : Nat → Vector Byte 1
  has : Nat → Vector Byte 1

/-! ## Saving -/

section Save
variable {A B : Type} (S : Format Byte Bytes)

def writeFlow (f : Flow) : Bytes :=
  S.write f.src ++ (S.write f.dst ++ ((flag f.backward).toList ++
    ((flag f.func.isSome).toList ++ f.func.elim [] S.write)))

/-- `"HGRD"`. -/
def magic : Vector Byte 4 := #v[0x48, 0x47, 0x52, 0x44]

/-- `count = bs.size()`. -/
def size (bs : List B) : Vector Byte 4 := number (BitVec.ofNat 32 bs.length)

/-- A list, behind its number of entries. -/
def saveList (write : B → Bytes) (bs : List B) : Bytes := (size bs).toList ++ bs.flatMap write

def saveGraphDiff (diff : GraphDiff A) : Bytes :=
  magic.toList ++ (saveList (fun l => S.write l.name) diff.addedLayers ++
    (saveList S.write diff.removedLayers ++
      (saveList (writeFlow S) diff.addedFlows ++ saveList (writeFlow S) diff.removedFlows)))

end Save

/-! ## Loading -/

section Load
variable {A B : Type} (S : Format Byte Bytes) (M : Memory)

/-- `i` is the number of the call. -/
def readFlow (i : Nat) : Loader Byte Flow := do
  let src ← throwing S.read
  let dst ← throwing S.read
  let back ← readField (M.back i)
  let has ← readField (M.has i)
  let func ← loadFunc S has
  return ⟨src, dst, back ≠ flag false, func⟩

/-- The number is read into `count`, where that of the previous list is. -/
def loadList (count : Vector Byte 4) (load : Nat → Loader Byte B) (i : Nat) :
    Loader Byte (Vector Byte 4 × List B) := do
  let count ← readField count
  let bs ← each load i (word count.toList).toNat
  return (count, bs)

/-- `layer` is a new layer. -/
def loadGraphDiff (layer : Layer A) : Loader Byte (GraphDiff A) := do
  let found ← readField M.magic
  if found ≠ magic then failure
  else
    let (count, names) ← loadList M.count (fun _ => throwing S.read) 0
    let (count, removedLayers) ← loadList count (fun _ => throwing S.read) 0
    let (count, addedFlows) ← loadList count (readFlow S M) 0
    let (_, removedFlows) ← loadList count (readFlow S M) addedFlows.length
    return {
      addedLayers := names.map fun name => { layer with name }
      removedLayers, addedFlows, removedFlows }

end Load

/-! ## A file that breaks off -/

section CutOff
variable {A B C : Type} (S : Format Byte Bytes) (M : Memory) (layer : Layer A)

/-- What comes back of a difference. -/
def reloaded (diff : GraphDiff A) : GraphDiff A :=
  { diff with addedLayers := diff.addedLayers.map fun l => { layer with name := l.name } }

/-- The end of each list in the file. -/
def layersEnd (diff : GraphDiff A) : Nat :=
  4 + (saveList (fun l => S.write l.name) diff.addedLayers).length

def namesEnd (diff : GraphDiff A) : Nat :=
  layersEnd S diff + (saveList S.write diff.removedLayers).length

def flowsEnd (diff : GraphDiff A) : Nat :=
  namesEnd S diff + (saveList (writeFlow S) diff.addedFlows).length

/-- The number of a list is broken off after `k` bytes, and 0 comes out: these are 0, and so are
those of the previous number that are still there. -/
def Zero (k : Nat) (as : List B) (bs : List C) : Prop :=
  k < 4 ∧ as.length < 256 ^ k ∧ 256 ^ k ∣ bs.length

instance (k : Nat) (as : List B) (bs : List C) : Decidable (Zero k as bs) :=
  inferInstanceAs (Decidable (_ ∧ _ ∧ _))

/-- What is read of the flow `f`, call `i`, if there are `k` bytes of its two flags, less than two. -/
def lossy (i k : Nat) (f : Flow) : Flow :=
  { f with backward := if k = 0 then M.back i ≠ flag false else f.backward, func := none }

/-- Where the flags of a flow lie. -/
def flagsOffset (f : Flow) : Nat := (S.write f.src).length + (S.write f.dst).length

/-- What is loaded of the first `n` bytes of a file, where some are missing; `none` is an exception.
The magic and the first number are read into variables that are not initialised. -/
def cutOff (n : Nat) (diff : GraphDiff A) : Option (GraphDiff A) :=
  let whole := reloaded layer diff
  if n < 8 then
    if overlay n magic M.magic = magic ∧
        overlay (n - 4) (size diff.addedLayers) M.count = number 0 then
      some ⟨[], [], [], []⟩
    else none
  else if n < layersEnd S diff then none
  else if n < namesEnd S diff then
    if Zero (n - layersEnd S diff) diff.addedLayers diff.removedLayers then
      some { whole with removedLayers := [], addedFlows := [], removedFlows := [] }
    else none
  else if n < flowsEnd S diff then
    if Zero (n - namesEnd S diff) diff.removedLayers diff.addedFlows then
      some { whole with addedFlows := [], removedFlows := [] }
    else none
  else if Zero (n - flowsEnd S diff) diff.addedFlows diff.removedFlows then
    some { whole with removedFlows := [] }
  else
    -- nothing else is lost without an exception than the flags of the last flow
    match diff.removedFlows.getLast? with
    | none => none
    | some f =>
      let i := diff.addedFlows.length + (diff.removedFlows.length - 1)
      let flags := (saveGraphDiff S diff).length - (writeFlow S f).length + flagsOffset S f
      if (n = flags ∨ n = flags + 1) ∧ M.has i = flag false then
        some { whole with removedFlows := diff.removedFlows.dropLast ++ [lossy M i (n - flags) f] }
      else none

end CutOff

/-! ### The number of a list -/

section Number
variable {A B C : Type} {S : Format Byte Bytes} {x : Input Byte} {rest : Bytes} {k i : Nat}

/-- Byte `j` of a number is 0. -/
theorem number_getElem_eq_zero {n j : Nat} (hn : n < 2 ^ 32) (hj : j < 4) :
    (number (BitVec.ofNat 32 n))[j] = 0 ↔ n / 256 ^ j % 256 = 0 := by
  have hbyte : ∀ m, (BitVec.ofNat 32 n).extractLsb' (8 * m) 8 = 0 ↔ n / 256 ^ m % 256 = 0 := by
    intro m
    rw [← BitVec.toNat_inj, BitVec.extractLsb'_toNat, BitVec.toNat_ofNat, Nat.mod_eq_of_lt hn,
      Nat.shiftRight_eq_div_pow, Nat.pow_mul]
    rfl
  rcases j with _ | _ | _ | _ | j
  · exact hbyte 0
  · exact hbyte 1
  · exact hbyte 2
  · exact hbyte 3
  · omega

/-- Two numbers, one over the other, make 0 if what is seen of each is 0. -/
theorem overlay_size_eq_zero {as : List B} {bs : List C} (has : as.length < 2 ^ 32)
    (hbs : bs.length < 2 ^ 32) (hk : k < 4) :
    overlay k (size bs) (size as) = number 0 ↔ Zero k as bs := by
  have hzero : number 0 = Vector.replicate 4 0 := by decide
  have hentry : overlay k (size bs) (size as) = number 0 ↔ ∀ j, (hj : j < 4) →
      (if j < k then bs.length else as.length) / 256 ^ j % 256 = 0 := by
    rw [hzero, Vector.ext_iff]
    apply forall_congr'
    intro j
    apply forall_congr'
    intro hj
    rw [Vector.getElem_replicate]
    simp only [overlay, Vector.getElem_ofFn]
    split
    · exact number_getElem_eq_zero hbs hj
    · exact number_getElem_eq_zero has hj
  rw [hentry, Zero, and_iff_right hk]
  constructor
  · intro h
    have h₀ := h 0 (by decide)
    have h₁ := h 1 (by decide)
    have h₂ := h 2 (by decide)
    have h₃ := h 3 (by decide)
    interval_cases k <;> simp at h₀ h₁ h₂ h₃ <;> constructor <;> omega
  · rintro ⟨ha, hb⟩ j hj
    interval_cases k <;> interval_cases j <;> simp <;> omega

end Number

/-! ### One list -/

section Lists
variable {A B C : Type} {S : Format Byte Bytes} {M : Memory} {x : Input Byte} {rest : Bytes}
  {k i : Nat} {count : Vector Byte 4} {load : Nat → Loader Byte B}

variable (i count load) in
/-- A list that breaks off in its number is empty if 0 comes out; else there is an exception. -/
theorem left_list_short {write : B → Bytes} {bs : List B} (hk : k < 4)
    (hend : ∀ i x, Left x ([] : Bytes) 0 → load i x = none)
    (h : Left x (saveList write bs ++ rest) k) :
    (overlay k (size bs) count = number 0 →
      ∃ x', loadList count load i x = some ((number 0, []), x') ∧ Left x' [] 0) ∧
    (overlay k (size bs) count ≠ number 0 → loadList count load i x = none) := by
  rw [saveList, List.append_assoc] at h
  obtain ⟨x', hnumber, hx'⟩ := h.readField count
  have hnothing : k - 4 = 0 := by omega
  rw [hnothing] at hx'
  rw [loadList, bind_of_eq hnumber]
  constructor
  · intro hzero
    rw [hzero, word_number]
    exact ⟨x', rfl, hx'.none_left []⟩
  · intro hsome
    have hentries : (word (overlay k (size bs) count).toList).toNat ≠ 0 := by
      intro hnone
      have hword : word (overlay k (size bs) count).toList = 0 := BitVec.eq_of_toNat_eq hnone
      apply hsome
      rw [← hword, KernelCache.number_word]
    exact bind_of_none (each_of_none hentries (hend i x' (hx'.none_left [])))

variable (i count load) in
/-- At the end of the file lists are as long as the previous one. -/
theorem left_list_end (hend : ∀ i x, Left x ([] : Bytes) 0 → load i x = none) (h : Left x rest 0) :
    (count = number 0 → ∃ x', loadList count load i x = some ((number 0, []), x') ∧ Left x' [] 0) ∧
    (count ≠ number 0 → loadList count load i x = none) := by
  have hempty := h.none_left (saveList (fun _ : B => []) [] ++ [])
  obtain ⟨hzero, hsome⟩ := left_list_short i count load (by decide) hend hempty
  rw [overlay_zero] at hzero hsome
  exact ⟨hzero, hsome⟩

variable (i count load) in
/-- The number is there. -/
theorem left_list_number {write : B → Bytes} {bs : List B} (hbs : bs.length < 2 ^ 32) (hk : 4 ≤ k)
    (h : Left x (saveList write bs ++ rest) k) :
    ∃ x', loadList count load i x =
        (each load i bs.length >>= fun loaded => pure (size bs, loaded)) x' ∧
      Left x' (bs.flatMap write ++ rest) (k - 4) := by
  rw [saveList, List.append_assoc] at h
  obtain ⟨x', hnumber, hx'⟩ := h.readField count
  refine ⟨x', ?_, hx'⟩
  rw [loadList, bind_of_eq hnumber, overlay_of_le hk, size, word_number, BitVec.toNat_ofNat,
    Nat.mod_eq_of_lt hbs]

theorem length_save_list (write : B → Bytes) (bs : List B) :
    (saveList write bs).length = 4 + (bs.flatMap write).length := by
  rw [saveList, List.length_append, Vector.length_toList]

variable (i count load) in
/-- **A list that is all there.** -/
theorem left_list {write : B → Bytes} {bs : List B} (hbs : bs.length < 2 ^ 32)
    (hload : ∀ b ∈ bs, ∀ i x rest k, Left x (write b ++ rest) k → (write b).length ≤ k →
      ∃ x', load i x = some (b, x') ∧ Left x' rest (k - (write b).length))
    (hk : (saveList write bs).length ≤ k) (h : Left x (saveList write bs ++ rest) k) :
    ∃ x', loadList count load i x = some ((size bs, bs), x') ∧
      Left x' rest (k - (saveList write bs).length) := by
  rw [length_save_list] at hk ⊢
  obtain ⟨x₁, hnumber, hx₁⟩ := left_list_number i count load hbs
    (by omega) h
  obtain ⟨x₂, hentries, hx₂⟩ := Left.each (i := i) hload hx₁ (by omega)
  rw [Nat.sub_sub] at hx₂
  exact ⟨x₂, by rw [hnumber, bind_of_eq hentries]; rfl, hx₂⟩

/-! ### Names -/

theorem left_name {name : Bytes} (hname : S.Sound name) (h : Left x (S.write name ++ rest) k)
    (hk : (S.write name).length ≤ k) :
    ∃ x', throwing S.read x = some (name, x') ∧ Left x' rest (k - (S.write name).length) :=
  (h.throwing hname).2 hk

/-- A list of names breaks off with an exception. -/
theorem left_names_cut {names : List Bytes} (hnames : ∀ name ∈ names, S.Sound name)
    (hlen : names.length < 2 ^ 32) (hk : 4 ≤ k) (hcut : k < (saveList S.write names).length)
    (h : Left x (saveList S.write names ++ rest) k) :
    loadList count (fun _ => throwing S.read) i x = none := by
  rw [length_save_list] at hcut
  obtain ⟨x₁, hnumber, hx₁⟩ := left_list_number i count (fun _ => throwing S.read) hlen hk h
  have hcutoff : k - 4 < (names.flatMap S.write).length := by omega
  obtain ⟨front, name, later, rfl, hfront, hname⟩ := exists_cut hcutoff
  obtain ⟨x₂, hentry, hx₂⟩ := Left.each_cut (fun _ => throwing S.read) (i := i)
    (fun a ha i x rest k hx hk => left_name (hnames a (List.mem_append_left _ ha)) hx hk) hx₁ hfront
  rw [hnumber]
  apply bind_of_none
  rw [hentry]
  apply bind_of_none
  exact (hx₂.throwing (hnames name (by simp))).1 hname

/-! ### Flows -/

structure Flow.Sound (S : Format Byte Bytes) (f : Flow) : Prop where
  src : S.Sound f.src
  dst : S.Sound f.dst
  func : ∀ s ∈ f.func, S.Sound s

theorem length_write_flow (f : Flow) :
    (writeFlow S f).length = flagsOffset S f + 2 + (f.func.elim [] S.write).length := by
  simp only [writeFlow, flagsOffset, List.length_append, Vector.length_toList]
  omega

/-- At the end of the file there is no flow. -/
theorem read_flow_end (h : Left x rest 0) : readFlow S M i x = none := by
  rw [readFlow]
  exact bind_of_none h.throwing_end

/-- Up to the flags. -/
theorem left_flow_flags {f : Flow} (hf : f.Sound S) (h : Left x (writeFlow S f ++ rest) k) :
    (k < flagsOffset S f → readFlow S M i x = none) ∧
    (flagsOffset S f ≤ k → ∃ x', readFlow S M i x =
        (loadFunc S (overlay (k - flagsOffset S f - 1) (flag f.func.isSome) (M.has i)) >>=
          fun func => pure { f with
            backward := overlay (k - flagsOffset S f) (flag f.backward) (M.back i) ≠ flag false
            func }) x' ∧
      Left x' (f.func.elim [] S.write ++ rest) (k - (flagsOffset S f + 2))) := by
  simp only [writeFlow, List.append_assoc] at h
  unfold flagsOffset
  obtain ⟨hsrc, hsrc'⟩ := h.throwing hf.src
  constructor
  · intro hk
    rw [readFlow]
    by_cases hfirst : k < (S.write f.src).length
    · exact bind_of_none (hsrc hfirst)
    · obtain ⟨x₁, h₁, hx₁⟩ := hsrc' (by omega)
      rw [bind_of_eq h₁]
      exact bind_of_none ((hx₁.throwing hf.dst).1 (by omega))
  · intro hk
    obtain ⟨x₁, h₁, hx₁⟩ := hsrc' (by omega)
    obtain ⟨x₂, h₂, hx₂⟩ := (hx₁.throwing hf.dst).2 (by omega)
    obtain ⟨x₃, h₃, hx₃⟩ := hx₂.readField (M.back i)
    obtain ⟨x₄, h₄, hx₄⟩ := hx₃.readField (M.has i)
    rw [Nat.sub_sub k] at h₃ h₄
    refine ⟨x₄, ?_, ?_⟩
    · rw [readFlow, bind_of_eq h₁, bind_of_eq h₂, bind_of_eq h₃, bind_of_eq h₄]
    · have hleft : k - (S.write f.src).length - (S.write f.dst).length - 1 - 1 =
          k - ((S.write f.src).length + (S.write f.dst).length + 2) := by omega
      rwa [hleft] at hx₄

/-- **One flow**: whole; or broken off in its flags, where it is read without a function if 0
happens to be there; or broken off elsewhere, where there is an exception. -/
theorem left_flow {f : Flow} (hf : f.Sound S) (h : Left x (writeFlow S f ++ rest) k) :
    ((writeFlow S f).length ≤ k →
      ∃ x', readFlow S M i x = some (f, x') ∧ Left x' rest (k - (writeFlow S f).length)) ∧
    (k < (writeFlow S f).length →
      if (k = flagsOffset S f ∨ k = flagsOffset S f + 1) ∧ M.has i = flag false then
        ∃ x', readFlow S M i x = some (lossy M i (k - flagsOffset S f) f, x') ∧ Left x' [] 0
      else readFlow S M i x = none) := by
  obtain ⟨hthrows, hflags⟩ := left_flow_flags (M := M) (i := i) hf h
  rw [length_write_flow]
  constructor
  · intro hk
    obtain ⟨x₁, hread, hx₁⟩ := hflags (by omega)
    obtain ⟨x₂, hfunc, hx₂⟩ := (left_func hf.func hx₁).2 (by omega)
    rw [overlay_of_le (by omega), overlay_of_le (by omega), bind_of_eq hfunc] at hread
    rw [Nat.sub_sub] at hx₂
    refine ⟨x₂, ?_, hx₂⟩
    rw [hread]
    simp only [flag_ne_false]
    rfl
  · intro hcut
    by_cases hin : k = flagsOffset S f ∨ k = flagsOffset S f + 1
    · obtain ⟨x₁, hread, hx₁⟩ := hflags (by omega)
      have hunread : k - flagsOffset S f - 1 = 0 := by omega
      have hnothing : k - (flagsOffset S f + 2) = 0 := by omega
      rw [hunread, overlay_zero] at hread
      rw [hnothing] at hx₁
      by_cases hhas : M.has i = flag false
      · rw [if_pos ⟨hin, hhas⟩]
        refine ⟨x₁, ?_, hx₁.none_left []⟩
        rw [hread, hhas, bind_of_eq (load_func_false x₁)]
        rcases hin with rfl | rfl
        · rw [Nat.sub_self, overlay_zero]
          rfl
        · rw [Nat.add_sub_cancel_left, overlay_of_le (Nat.le_refl 1)]
          simp only [flag_ne_false]
          rfl
      · rw [if_neg fun hboth => hhas hboth.2, hread, loadFunc, if_pos hhas]
        apply bind_of_none
        exact bind_of_none hx₁.throwing_end
    · rw [if_neg fun hboth => hin hboth.1]
      by_cases hbefore : k < flagsOffset S f
      · exact hthrows hbefore
      · -- in the name of the function
        obtain ⟨x₁, hread, hx₁⟩ := hflags (by omega)
        rw [overlay_of_le (by omega)] at hread
        rw [hread]
        exact bind_of_none ((left_func hf.func hx₁).1 (by omega))

variable (count) in
/-- **A list of flows that breaks off** is loaded only if there is enough of its last flow. -/
theorem left_flows_cut {init : List Flow} {f : Flow} (hflows : ∀ g ∈ init ++ [f], g.Sound S)
    (hlen : (init ++ [f]).length < 2 ^ 32) (hk : 4 ≤ k)
    (hcut : k < (saveList (writeFlow S) (init ++ [f])).length)
    (h : Left x (saveList (writeFlow S) (init ++ [f]) ++ rest) k) :
    let flags := (saveList (writeFlow S) init).length + flagsOffset S f
    if (k = flags ∨ k = flags + 1) ∧ M.has (i + init.length) = flag false then
      ∃ x', loadList count (readFlow S M) i x =
          some ((size (init ++ [f]), init ++ [lossy M (i + init.length) (k - flags) f]), x') ∧
        Left x' [] 0
    else loadList count (readFlow S M) i x = none := by
  intro flags
  have hflags : flags = 4 + (init.flatMap (writeFlow S)).length + flagsOffset S f := by
    rw [← length_save_list]
  rw [length_save_list] at hcut
  obtain ⟨x₁, hnumber, hx₁⟩ := left_list_number i count (readFlow S M) hlen hk h
  rw [hnumber]
  have hentries : k - 4 < ((init ++ [f]).flatMap (writeFlow S)).length := by omega
  obtain ⟨front, g, later, hlist, hfront, hg⟩ := exists_cut hentries
  rw [hlist] at hx₁ hflows ⊢
  obtain ⟨x₂, hloop, hx₂⟩ := Left.each_cut (readFlow S M) (i := i)
    (fun a ha i x rest k hx hk => (left_flow (hflows a (List.mem_append_left _ ha)) hx).1 hk)
    hx₁ hfront
  have hread := (left_flow (M := M) (i := i + front.length) (hflows g (by simp)) hx₂).2 hg
  rcases List.eq_nil_or_concat later with rfl | ⟨later', last, rfl⟩
  · -- the last flow
    obtain ⟨rfl, hsame⟩ := List.append_inj' hlist rfl
    obtain rfl : f = g := (List.cons.inj hsame).1
    have hoffset : k - 4 - (init.flatMap (writeFlow S)).length - flagsOffset S f = k - flags := by
      omega
    have hwhere : (k - 4 - (init.flatMap (writeFlow S)).length = flagsOffset S f ∨
        k - 4 - (init.flatMap (writeFlow S)).length = flagsOffset S f + 1) ↔
        (k = flags ∨ k = flags + 1) := by omega
    simp only [hwhere, hoffset] at hread
    split at hread
    · next hboth =>
        obtain ⟨x₃, hlossy, hx₃⟩ := hread
        rw [if_pos hboth]
        refine ⟨x₃, ?_, hx₃⟩
        rw [bind_of_eq (hloop.trans (bind_of_eq hlossy))]
        rfl
    · next hneither =>
        rw [if_neg hneither]
        apply bind_of_none
        rw [hloop]
        exact bind_of_none hread
  · -- the flow behind it is missing
    rw [List.concat_eq_append, ← List.cons_append, ← List.append_assoc] at hlist
    obtain ⟨rfl, -⟩ := List.append_inj' hlist rfl
    have hbefore : ¬ ((k = flags ∨ k = flags + 1) ∧
        M.has (i + (front ++ g :: later').length) = flag false) := by
      rintro ⟨hin, -⟩
      rw [List.flatMap_append, List.flatMap_cons, List.length_append, List.length_append] at hflags
      omega
    rw [if_neg hbefore]
    apply bind_of_none
    rw [hloop]
    split at hread
    · obtain ⟨x₃, hlossy, hx₃⟩ := hread
      rw [bind_of_eq hlossy]
      apply bind_of_none
      apply each_of_none
      · rw [List.concat_eq_append, List.length_append]
        exact Nat.succ_ne_zero _
      · exact read_flow_end hx₃
    · exact bind_of_none hread

end Lists

/-! ## The whole file -/

section Whole
variable {A : Type} {S : Format Byte Bytes} {M : Memory} {layer : Layer A} {x : Input Byte}
  {rest : Bytes} {n : Nat} {count : Vector Byte 4} {names removedLayers : List Bytes}
  {addedFlows : List Flow} {diff : GraphDiff A}

/-- What can be written whole. -/
structure GraphDiff.Sound (S : Format Byte Bytes) (diff : GraphDiff A) : Prop where
  addedLayers : ∀ l ∈ diff.addedLayers, S.Sound l.name
  removedLayers : ∀ name ∈ diff.removedLayers, S.Sound name
  addedFlows : ∀ f ∈ diff.addedFlows, f.Sound S
  removedFlows : ∀ f ∈ diff.removedFlows, f.Sound S
  added_layers_size : diff.addedLayers.length < 2 ^ 32
  removed_layers_size : diff.removedLayers.length < 2 ^ 32
  added_flows_size : diff.addedFlows.length < 2 ^ 32
  removed_flows_size : diff.removedFlows.length < 2 ^ 32

/-! ### What is left to load, list by list -/

variable (S M layer) in
/-- Behind the added flows. -/
def afterFlows (count : Vector Byte 4) (names removedLayers : List Bytes) (addedFlows : List Flow) :
    Loader Byte (GraphDiff A) := do
  let (_, removedFlows) ← loadList count (readFlow S M) addedFlows.length
  return ⟨names.map fun name => { layer with name }, removedLayers, addedFlows, removedFlows⟩

variable (S M layer) in
/-- Behind the names of the removed layers. -/
def afterNames (count : Vector Byte 4) (names removedLayers : List Bytes) :
    Loader Byte (GraphDiff A) := do
  let (count, addedFlows) ← loadList count (readFlow S M) 0
  afterFlows S M layer count names removedLayers addedFlows

variable (S M layer) in
/-- Behind the names of the added layers. -/
def afterLayers (count : Vector Byte 4) (names : List Bytes) : Loader Byte (GraphDiff A) := do
  let (count, removedLayers) ← loadList count (fun _ => throwing S.read) 0
  afterNames S M layer count names removedLayers

theorem load_graph_diff_eq :
    loadGraphDiff S M layer = readField M.magic >>= fun found =>
      if found ≠ magic then failure
      else loadList M.count (fun _ => throwing S.read) 0 >>= fun p =>
        afterLayers S M layer p.1 p.2 := rfl

/-- What is returned, if there is no exception. -/
def returned {B : Type} (o : Option (B × Input Byte)) : Option B := o.map Prod.fst

theorem afterFlows_end (h : Left x rest 0) :
    returned (afterFlows S M layer count names removedLayers addedFlows x) =
      if count = number 0 then
        some ⟨names.map fun name => { layer with name }, removedLayers, addedFlows, []⟩
      else none := by
  obtain ⟨hzero, hsome⟩ := left_list_end addedFlows.length count (readFlow S M)
    (fun i x => read_flow_end) h
  unfold afterFlows
  split
  · next hcount =>
      obtain ⟨x', hlist, -⟩ := hzero hcount
      rw [bind_of_eq hlist]
      rfl
  · next hcount =>
      rw [bind_of_none (hsome hcount)]
      rfl

theorem afterNames_end (h : Left x rest 0) :
    returned (afterNames S M layer count names removedLayers x) =
      if count = number 0 then
        some ⟨names.map fun name => { layer with name }, removedLayers, [], []⟩
      else none := by
  obtain ⟨hzero, hsome⟩ := left_list_end 0 count (readFlow S M)
    (fun i x => read_flow_end) h
  unfold afterNames
  split
  · next hcount =>
      obtain ⟨x', hlist, hx'⟩ := hzero hcount
      rw [bind_of_eq hlist]
      exact (afterFlows_end hx').trans (if_pos rfl)
  · next hcount =>
      rw [bind_of_none (hsome hcount)]
      rfl

theorem afterLayers_end (h : Left x rest 0) :
    returned (afterLayers S M layer count names x) =
      if count = number 0 then some ⟨names.map fun name => { layer with name }, [], [], []⟩
      else none := by
  obtain ⟨hzero, hsome⟩ := left_list_end 0 count (fun _ => throwing S.read)
    (fun i x => Left.throwing_end) h
  unfold afterLayers
  split
  · next hcount =>
      obtain ⟨x', hlist, hx'⟩ := hzero hcount
      rw [bind_of_eq hlist]
      exact (afterNames_end hx').trans (if_pos rfl)
  · next hcount =>
      rw [bind_of_none (hsome hcount)]
      rfl

/-! ### A cut in the removed flows -/

variable {removedFlows : List Flow} {k : Nat}

theorem afterFlows_whole (hflows : ∀ f ∈ removedFlows, f.Sound S)
    (hlen : removedFlows.length < 2 ^ 32)
    (hk : (saveList (writeFlow S) removedFlows).length ≤ k)
    (h : Left x (saveList (writeFlow S) removedFlows ++ rest) k) :
    returned (afterFlows S M layer count names removedLayers addedFlows x) =
      some ⟨names.map fun name => { layer with name }, removedLayers, addedFlows,
        removedFlows⟩ := by
  obtain ⟨x', hlist, -⟩ := left_list addedFlows.length count (readFlow S M) hlen
    (fun f hf i x rest k hx hk => (left_flow (M := M) (hflows f hf) hx).1 hk) hk h
  rw [afterFlows, bind_of_eq hlist]
  rfl

theorem afterFlows_short (hadded : addedFlows.length < 2 ^ 32)
    (hremoved : removedFlows.length < 2 ^ 32) (hk : k < 4)
    (h : Left x (saveList (writeFlow S) removedFlows ++ rest) k) :
    returned (afterFlows S M layer (size addedFlows) names removedLayers addedFlows x) =
      if Zero k addedFlows removedFlows then
        some ⟨names.map fun name => { layer with name }, removedLayers, addedFlows, []⟩
      else none := by
  obtain ⟨hzero, hsome⟩ := left_list_short addedFlows.length (size addedFlows)
    (readFlow S M) hk (fun i x => read_flow_end) h
  rw [ne_eq, overlay_size_eq_zero hadded hremoved hk] at hsome
  rw [overlay_size_eq_zero hadded hremoved hk] at hzero
  unfold afterFlows
  split
  · next hunseen =>
      obtain ⟨x', hlist, -⟩ := hzero hunseen
      rw [bind_of_eq hlist]
      rfl
  · next hseen =>
      rw [bind_of_none (hsome hseen)]
      rfl

theorem afterFlows_cut {init : List Flow} {f : Flow} (hflows : ∀ g ∈ init ++ [f], g.Sound S)
    (hlen : (init ++ [f]).length < 2 ^ 32) (hk : 4 ≤ k)
    (hcut : k < (saveList (writeFlow S) (init ++ [f])).length)
    (h : Left x (saveList (writeFlow S) (init ++ [f]) ++ rest) k) :
    returned (afterFlows S M layer count names removedLayers addedFlows x) =
      let flags := (saveList (writeFlow S) init).length + flagsOffset S f
      let i := addedFlows.length + init.length
      if (k = flags ∨ k = flags + 1) ∧ M.has i = flag false then
        some ⟨names.map fun name => { layer with name }, removedLayers, addedFlows,
          init ++ [lossy M i (k - flags) f]⟩
      else none := by
  have hlist := left_flows_cut (M := M) (i := addedFlows.length) count hflows hlen hk
    hcut h
  unfold afterFlows
  dsimp only at hlist ⊢
  split
  · next hboth =>
      rw [if_pos hboth] at hlist
      obtain ⟨x', hlossy, -⟩ := hlist
      rw [bind_of_eq hlossy]
      rfl
  · next hneither =>
      rw [if_neg hneither] at hlist
      rw [bind_of_none hlist]
      rfl

/-! ### A cut in the added flows -/

variable (layer count names removedLayers) in
theorem afterNames_whole (hflows : ∀ f ∈ addedFlows, f.Sound S)
    (hlen : addedFlows.length < 2 ^ 32)
    (hk : (saveList (writeFlow S) addedFlows).length ≤ k)
    (h : Left x (saveList (writeFlow S) addedFlows ++ rest) k) :
    ∃ x', afterNames S M layer count names removedLayers x =
        afterFlows S M layer (size addedFlows) names removedLayers addedFlows x' ∧
      Left x' rest (k - (saveList (writeFlow S) addedFlows).length) := by
  obtain ⟨x', hlist, hx'⟩ := left_list 0 count (readFlow S M) hlen
    (fun f hf i x rest k hx hk => (left_flow (M := M) (hflows f hf) hx).1 hk) hk h
  exact ⟨x', bind_of_eq hlist, hx'⟩

theorem afterNames_short (hnames : removedLayers.length < 2 ^ 32)
    (hadded : addedFlows.length < 2 ^ 32) (hk : k < 4)
    (h : Left x (saveList (writeFlow S) addedFlows ++ rest) k) :
    returned (afterNames S M layer (size removedLayers) names removedLayers x) =
      if Zero k removedLayers addedFlows then
        some ⟨names.map fun name => { layer with name }, removedLayers, [], []⟩
      else none := by
  obtain ⟨hzero, hsome⟩ := left_list_short 0 (size removedLayers) (readFlow S M) hk
    (fun i x => read_flow_end) h
  rw [ne_eq, overlay_size_eq_zero hnames hadded hk] at hsome
  rw [overlay_size_eq_zero hnames hadded hk] at hzero
  unfold afterNames
  split
  · next hunseen =>
      obtain ⟨x', hlist, hx'⟩ := hzero hunseen
      rw [bind_of_eq hlist]
      exact (afterFlows_end hx').trans (if_pos rfl)
  · next hseen =>
      rw [bind_of_none (hsome hseen)]
      rfl

theorem size_ne_zero {B : Type} {bs : List B} (hlen : bs.length < 2 ^ 32) (hsome : bs ≠ []) :
    size bs ≠ number 0 := by
  intro hzero
  have hword := congrArg (fun v : Vector Byte 4 => (word v.toList).toNat) hzero
  simp only [size, word_number, BitVec.toNat_ofNat, Nat.mod_eq_of_lt hlen] at hword
  exact hsome (List.length_eq_zero_iff.mp hword)

/-- A flow that is broken off is not the last thing in the file. -/
theorem afterNames_cut (hflows : ∀ f ∈ addedFlows, f.Sound S) (hlen : addedFlows.length < 2 ^ 32)
    (hk : 4 ≤ k) (hcut : k < (saveList (writeFlow S) addedFlows).length)
    (h : Left x (saveList (writeFlow S) addedFlows ++ rest) k) :
    afterNames S M layer count names removedLayers x = none := by
  rcases List.eq_nil_or_concat addedFlows with rfl | ⟨init, f, rfl⟩
  · rw [length_save_list] at hcut
    exact absurd hcut (Nat.not_lt.mpr hk)
  · rw [List.concat_eq_append] at h hflows hlen hcut
    have hlist := left_flows_cut (M := M) (i := 0) count hflows hlen hk hcut h
    rw [afterNames]
    dsimp only at hlist
    split at hlist
    · obtain ⟨x', hlossy, hx'⟩ := hlist
      rw [bind_of_eq hlossy]
      apply bind_of_none
      exact (left_list_end _ _ _ (fun i x => read_flow_end) hx').2 (size_ne_zero hlen (by simp))
    · exact bind_of_none hlist

/-! ### A cut in the names -/

variable (layer count names) in
theorem afterLayers_whole (hnames : ∀ name ∈ removedLayers, S.Sound name)
    (hlen : removedLayers.length < 2 ^ 32) (hk : (saveList S.write removedLayers).length ≤ k)
    (h : Left x (saveList S.write removedLayers ++ rest) k) :
    ∃ x', afterLayers S M layer count names x =
        afterNames S M layer (size removedLayers) names removedLayers x' ∧
      Left x' rest (k - (saveList S.write removedLayers).length) := by
  obtain ⟨x', hlist, hx'⟩ := left_list 0 count (fun _ => throwing S.read) hlen
    (fun name hname i x rest k hx hk => left_name (hnames name hname) hx hk) hk h
  exact ⟨x', bind_of_eq hlist, hx'⟩

theorem afterLayers_short {added : List Bytes} (hadded : added.length < 2 ^ 32)
    (hremoved : removedLayers.length < 2 ^ 32) (hk : k < 4)
    (h : Left x (saveList S.write removedLayers ++ rest) k) :
    returned (afterLayers S M layer (size added) names x) =
      if Zero k added removedLayers then
        some ⟨names.map fun name => { layer with name }, [], [], []⟩
      else none := by
  obtain ⟨hzero, hsome⟩ := left_list_short 0 (size added) (fun _ => throwing S.read) hk
    (fun i x => Left.throwing_end) h
  rw [ne_eq, overlay_size_eq_zero hadded hremoved hk] at hsome
  rw [overlay_size_eq_zero hadded hremoved hk] at hzero
  unfold afterLayers
  split
  · next hunseen =>
      obtain ⟨x', hlist, hx'⟩ := hzero hunseen
      rw [bind_of_eq hlist]
      exact (afterNames_end hx').trans (if_pos rfl)
  · next hseen =>
      rw [bind_of_none (hsome hseen)]
      rfl

/-! ### Any cut -/

theorem save_list_map {B C : Type} (write : C → Bytes) (f : B → C) (bs : List B) :
    saveList write (bs.map f) = saveList (fun b => write (f b)) bs := by
  rw [saveList, saveList, List.flatMap_map, size, size, List.length_map]

theorem size_map {B C : Type} (f : B → C) (bs : List B) : size (bs.map f) = size bs := by
  rw [size, size, List.length_map]

theorem reloaded_names :
    (reloaded layer diff).addedLayers =
      (diff.addedLayers.map Layer.name).map fun name => { layer with name } := by
  rw [List.map_map]
  rfl

variable (S diff) in
theorem length_save :
    (saveGraphDiff S diff).length =
      flowsEnd S diff + (saveList (writeFlow S) diff.removedFlows).length := by
  simp only [saveGraphDiff, flowsEnd, namesEnd, layersEnd, List.length_append,
    Vector.length_toList]
  omega

/-- The magic, and the first number. -/
theorem load_short (hn : n < 8) :
    returned (loadGraphDiff S M layer ⟨(saveGraphDiff S diff).take n, false⟩) =
      if overlay n magic M.magic = magic ∧
          overlay (n - 4) (size diff.addedLayers) M.count = number 0 then
        some ⟨[], [], [], []⟩
      else none := by
  have hstart := left_start (saveGraphDiff S diff) n
  obtain ⟨x₁, hmagic, hx₁⟩ := hstart.readField M.magic
  rw [← save_list_map] at hx₁
  obtain ⟨hzero, hsome⟩ := left_list_short 0 M.count (fun _ => throwing S.read)
    (by omega) (fun i x => Left.throwing_end) hx₁
  rw [size_map] at hzero hsome
  rw [load_graph_diff_eq, bind_of_eq hmagic]
  by_cases hfound : overlay n magic M.magic = magic
  · rw [if_neg (not_not.mpr hfound)]
    by_cases hcount : overlay (n - 4) (size diff.addedLayers) M.count = number 0
    · obtain ⟨x₂, hlist, hx₂⟩ := hzero hcount
      rw [if_pos ⟨hfound, hcount⟩, bind_of_eq hlist]
      exact (afterLayers_end hx₂).trans (if_pos rfl)
    · rw [if_neg fun hboth => hcount hboth.2, bind_of_none (hsome hcount)]
      rfl
  · rw [if_pos hfound, if_neg fun hboth => hfound hboth.1]
    rfl

variable (layer) in
/-- The added layers: there is an exception, or they are all there. -/
theorem loadLayers (hdiff : diff.Sound S) (hn : 8 ≤ n) :
    (n < layersEnd S diff →
      loadGraphDiff S M layer ⟨(saveGraphDiff S diff).take n, false⟩ = none) ∧
    (layersEnd S diff ≤ n → ∃ x',
      loadGraphDiff S M layer ⟨(saveGraphDiff S diff).take n, false⟩ =
        afterLayers S M layer (size diff.addedLayers) (diff.addedLayers.map Layer.name) x' ∧
      Left x' (saveList S.write diff.removedLayers ++ (saveList (writeFlow S) diff.addedFlows ++
        saveList (writeFlow S) diff.removedFlows)) (n - layersEnd S diff)) := by
  have hstart := left_start (saveGraphDiff S diff) n
  obtain ⟨x₁, hmagic, hx₁⟩ := hstart.readField M.magic
  have hnames : ∀ name ∈ diff.addedLayers.map Layer.name, S.Sound name := by
    intro name hname
    obtain ⟨l, hl, rfl⟩ := List.mem_map.mp hname
    exact hdiff.addedLayers l hl
  have hlen : (diff.addedLayers.map Layer.name).length < 2 ^ 32 := by
    rw [List.length_map]
    exact hdiff.added_layers_size
  rw [← save_list_map] at hx₁
  rw [load_graph_diff_eq, bind_of_eq hmagic, overlay_of_le (by omega), if_neg (not_not.mpr rfl),
    layersEnd, ← save_list_map]
  constructor
  · intro hcut
    exact bind_of_none (left_names_cut hnames hlen (by omega) (by omega) hx₁)
  · intro hwhole
    obtain ⟨x₂, hlist, hx₂⟩ := left_list 0 M.count (fun _ => throwing S.read) hlen
      (fun name hname i x rest k hx hk => left_name (hnames name hname) hx hk) (by omega) hx₁
    rw [Nat.sub_sub] at hx₂
    refine ⟨x₂, ?_, hx₂⟩
    rw [bind_of_eq hlist, size_map]

variable (layer) in
/-- The names of the removed layers. -/
theorem load_names (hdiff : diff.Sound S) (hn : layersEnd S diff ≤ n) :
    (n < namesEnd S diff →
      returned (loadGraphDiff S M layer ⟨(saveGraphDiff S diff).take n, false⟩) =
        if Zero (n - layersEnd S diff) diff.addedLayers diff.removedLayers then
          some { reloaded layer diff with
            removedLayers := [], addedFlows := [], removedFlows := [] }
        else none) ∧
    (namesEnd S diff ≤ n → ∃ x',
      loadGraphDiff S M layer ⟨(saveGraphDiff S diff).take n, false⟩ =
        afterNames S M layer (size diff.removedLayers) (diff.addedLayers.map Layer.name)
          diff.removedLayers x' ∧
      Left x' (saveList (writeFlow S) diff.addedFlows ++
        saveList (writeFlow S) diff.removedFlows) (n - namesEnd S diff)) := by
  have hlayers : 8 ≤ layersEnd S diff := by
    rw [layersEnd, length_save_list]
    omega
  obtain ⟨x₁, hload, hx₁⟩ := (loadLayers layer (M := M) hdiff (by omega)).2 hn
  have hzero : Zero (n - layersEnd S diff) diff.addedLayers diff.removedLayers ↔
      Zero (n - layersEnd S diff) (diff.addedLayers.map Layer.name) diff.removedLayers := by
    rw [Zero, Zero, List.length_map]
  rw [hload, namesEnd]
  constructor
  · intro hcut
    by_cases hk : n - layersEnd S diff < 4
    · have hsize : (diff.addedLayers.map Layer.name).length < 2 ^ 32 := by
        rw [List.length_map]
        exact hdiff.added_layers_size
      simp only [hzero]
      rw [← size_map Layer.name, afterLayers_short hsize hdiff.removed_layers_size hk hx₁,
        ← reloaded_names]
    · rw [if_neg fun h => hk h.1, afterLayers, bind_of_none (left_names_cut hdiff.removedLayers
        hdiff.removed_layers_size (by omega) (by omega) hx₁)]
      rfl
  · intro hwhole
    obtain ⟨x₂, hnames, hx₂⟩ := afterLayers_whole layer (M := M)
      (size diff.addedLayers) (diff.addedLayers.map Layer.name)
      hdiff.removedLayers hdiff.removed_layers_size (by omega) hx₁
    rw [Nat.sub_sub] at hx₂
    exact ⟨x₂, hnames, hx₂⟩

variable (layer) in
/-- The added flows. -/
theorem load_flows (hdiff : diff.Sound S) (hn : namesEnd S diff ≤ n) :
    (n < flowsEnd S diff →
      returned (loadGraphDiff S M layer ⟨(saveGraphDiff S diff).take n, false⟩) =
        if Zero (n - namesEnd S diff) diff.removedLayers diff.addedFlows then
          some { reloaded layer diff with addedFlows := [], removedFlows := [] }
        else none) ∧
    (flowsEnd S diff ≤ n → ∃ x',
      loadGraphDiff S M layer ⟨(saveGraphDiff S diff).take n, false⟩ =
        afterFlows S M layer (size diff.addedFlows) (diff.addedLayers.map Layer.name)
          diff.removedLayers diff.addedFlows x' ∧
      Left x' (saveList (writeFlow S) diff.removedFlows ++ []) (n - flowsEnd S diff)) := by
  have hlayers : layersEnd S diff ≤ namesEnd S diff := Nat.le_add_right _ _
  obtain ⟨x₁, hload, hx₁⟩ := (load_names layer (M := M) hdiff (by omega)).2 hn
  rw [hload, flowsEnd]
  constructor
  · intro hcut
    by_cases hk : n - namesEnd S diff < 4
    · rw [afterNames_short hdiff.removed_layers_size hdiff.added_flows_size hk hx₁,
        ← reloaded_names]
      rfl
    · rw [if_neg fun h => hk h.1, afterNames_cut hdiff.addedFlows hdiff.added_flows_size
        (by omega) (by omega) hx₁]
      rfl
  · intro hwhole
    obtain ⟨x₂, hflows, hx₂⟩ := afterNames_whole layer (M := M)
      (size diff.removedLayers) (diff.addedLayers.map Layer.name) diff.removedLayers
      hdiff.addedFlows hdiff.added_flows_size (by omega) hx₁
    rw [Nat.sub_sub] at hx₂
    rw [List.append_nil]
    exact ⟨x₂, hflows, hx₂⟩

variable (layer) in
theorem load_whole (hdiff : diff.Sound S) (hn : (saveGraphDiff S diff).length ≤ n) :
    returned (loadGraphDiff S M layer ⟨(saveGraphDiff S diff).take n, false⟩) =
      some (reloaded layer diff) := by
  rw [length_save] at hn
  have hnames : namesEnd S diff ≤ flowsEnd S diff := Nat.le_add_right _ _
  obtain ⟨x₁, hload, hx₁⟩ := (load_flows layer (M := M) hdiff (n := n) (by omega)).2
    (by omega)
  rw [hload, afterFlows_whole hdiff.removedFlows hdiff.removed_flows_size (by omega) hx₁,
    ← reloaded_names]
  rfl

/-- The removed flows. -/
theorem load_last (hdiff : diff.Sound S) (hn : flowsEnd S diff ≤ n)
    (hcut : n < (saveGraphDiff S diff).length) :
    returned (loadGraphDiff S M layer ⟨(saveGraphDiff S diff).take n, false⟩) =
      cutOff S M layer n diff := by
  have hlayers : 8 ≤ layersEnd S diff := by
    rw [layersEnd, length_save_list]
    omega
  have hnames : layersEnd S diff ≤ namesEnd S diff := Nat.le_add_right _ _
  have hflows : namesEnd S diff ≤ flowsEnd S diff := Nat.le_add_right _ _
  have hlen := length_save S diff
  obtain ⟨x₁, hload, hx₁⟩ := (load_flows layer (M := M) hdiff (by omega)).2 hn
  rw [hload]
  unfold cutOff
  dsimp only
  rw [if_neg (by omega), if_neg (by omega), if_neg (by omega), if_neg (by omega)]
  by_cases hk : n - flowsEnd S diff < 4
  · rw [afterFlows_short hdiff.added_flows_size hdiff.removed_flows_size hk hx₁, ← reloaded_names]
    split
    · rfl
    · -- the flags of the last flow lie behind the number
      split
      · rfl
      · next f hlast =>
          obtain ⟨init, hremoved⟩ := List.getLast?_eq_some_iff.mp hlast
          rw [hremoved, length_save_list, List.flatMap_append, List.length_append] at hlen
          simp only [List.flatMap_cons, List.flatMap_nil, List.append_nil] at hlen
          rw [if_neg]
          rintro ⟨hin, -⟩
          omega
  · rw [if_neg fun h => hk h.1]
    rcases List.eq_nil_or_concat diff.removedFlows with hnone | ⟨init, f, hremoved⟩
    · rw [hnone, length_save_list] at hlen
      simp only [List.flatMap_nil, List.length_nil] at hlen
      omega
    · rw [List.concat_eq_append] at hremoved
      have hsound := hdiff.removedFlows
      have hsize := hdiff.removed_flows_size
      rw [hremoved] at hsound hsize hx₁ hlen
      rw [afterFlows_cut hsound hsize (by omega) (by omega) hx₁, ← reloaded_names]
      rw [length_save_list, List.flatMap_append, List.length_append] at hlen
      simp only [List.flatMap_cons, List.flatMap_nil, List.append_nil] at hlen
      have hflags : (saveGraphDiff S diff).length - (writeFlow S f).length + flagsOffset S f =
          flowsEnd S diff + ((saveList (writeFlow S) init).length + flagsOffset S f) := by
        rw [length_save_list]
        omega
      have hwhere : ∀ m, n - flowsEnd S diff = m ↔ n = flowsEnd S diff + m := by
        intro m
        omega
      simp only [hremoved, List.getLast?_concat, List.dropLast_concat, List.length_append,
        List.length_singleton, Nat.add_sub_cancel, hflags, hwhere, Nat.sub_add_eq, Nat.add_assoc]
      rfl

/-- **A diff file** comes back, of its layers the names; what comes of one that breaks off is what
`cutOff` says. -/
theorem load_save (S : Format Byte Bytes) (M : Memory) (layer : Layer A) (diff : GraphDiff A)
    (hdiff : diff.Sound S) :
    returned (loadGraphDiff S M layer ⟨saveGraphDiff S diff, false⟩) =
        some (reloaded layer diff) ∧
      ∀ n < (saveGraphDiff S diff).length,
        returned (loadGraphDiff S M layer ⟨(saveGraphDiff S diff).take n, false⟩) =
          cutOff S M layer n diff := by
  constructor
  · have hwhole := load_whole layer (M := M) hdiff (Nat.le_refl _)
    rwa [List.take_length] at hwhole
  · intro n hn
    by_cases hlast : flowsEnd S diff ≤ n
    · exact load_last hdiff hlast hn
    have hlayers : 8 ≤ layersEnd S diff := by
      rw [layersEnd, length_save_list]
      omega
    have hnames : layersEnd S diff ≤ namesEnd S diff := Nat.le_add_right _ _
    unfold cutOff
    dsimp only
    split
    · next hshort => exact load_short hshort
    split
    · next hlong hcut =>
        rw [(loadLayers layer hdiff (by omega)).1 hcut]
        rfl
    split
    · next hcut => exact (load_names layer hdiff (by omega)).1 hcut
    · rw [if_pos (by omega)]
      exact (load_flows layer hdiff (by omega)).1 (by omega)

/-- One removed flow, with a function. -/
def oneRemoved : GraphDiff Unit := ⟨[], [], [], [⟨[97], [98], true, some [99]⟩]⟩

/-- Without the list of removed flows the difference is empty, and without its last six bytes the
flow has no function. -/
theorem load_save_oneRemoved :
    let zeroed : Memory := ⟨#v[0, 0, 0, 0], #v[0, 0, 0, 0], fun _ => #v[0], fun _ => #v[0]⟩
    let load bytes := returned (loadGraphDiff KernelCache.strings zeroed ⟨[], ()⟩ ⟨bytes, false⟩)
    let file := saveGraphDiff KernelCache.strings oneRemoved
    load file = some oneRemoved ∧ load (file.take 16) = some ⟨[], [], [], []⟩ ∧
      load (file.take 31) = some ⟨[], [], [], [⟨[97], [98], true, none⟩]⟩ := by
  intro zeroed load file
  have hsound : oneRemoved.Sound KernelCache.strings := by
    refine ⟨?_, ?_, ?_, ?_, by decide, by decide, by decide, by decide⟩
    · intro l hl
      cases hl
    · intro name hname
      cases hname
    · intro f hf
      cases hf
    · intro f hf
      obtain rfl := List.mem_singleton.mp hf
      refine ⟨?_, ?_, ?_⟩
      · show (1 : Nat) < 2 ^ 32
        decide
      · show (1 : Nat) < 2 ^ 32
        decide
      · rintro s ⟨⟩
        show (1 : Nat) < 2 ^ 32
        decide
  obtain ⟨hwhole, hcut⟩ := load_save KernelCache.strings zeroed ⟨[], ()⟩ oneRemoved hsound
  refine ⟨hwhole, ?_, ?_⟩
  · exact (hcut 16 (by decide)).trans (by decide)
  · exact (hcut 31 (by decide)).trans (by decide)

end Whole

end ChainBeasts.Harmonics.GraphDiffFile
