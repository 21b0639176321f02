import ChainBeasts.FirstDifference
import Mathlib.Algebra.Group.Nat.Defs
import Mathlib.Algebra.Order.Monoid.Unbundled.WithTop
import Mathlib.Data.Int.ConditionallyCompleteOrder
import Mathlib.Data.List.Chain
import Mathlib.Order.ConditionallyCompleteLattice.Basic

/-! # Plugins and their updates

`autoUpdateInstalled` reads the installed versions once and then installs every plugin of the
catalog that is newer than the version it read: what stays is the last of them, not the greatest.
`versionCompare` is the lexicographic order of the numbers between the dots, so every version is
below, equal to or above every other (`versionCompare_nonpos_iff`).

The update does what it is for if and only if, for every installed plugin, the newer versions come
in ascending order, none of them is behind an entry at which the loop throws unless one before it is
as great, and the installed version is not the empty text (`updates_iff`). -/

namespace ChainBeasts.Client

abbrev Str : Type := List Char

namespace PluginMarketplace

open ChainBeasts.FirstDifference

/-! ## Versions -/

/-- A number of JavaScript that is an integer or infinite. -/
abbrev Number : Type := WithBot (WithTop ℤ)

/-- The number nearest to `n`, of two the one with the even significand. -/
def nearest (n : ℕ) : WithTop ℕ :=
  let e := n.log2 - 52
  let q := n / 2 ^ e
  let r := n % 2 ^ e
  let m := (if 2 ^ e < 2 * r ∨ 2 ^ e = 2 * r ∧ q % 2 = 1 then q + 1 else q) * 2 ^ e
  if m < 2 ^ 1024 then WithTop.some m else ⊤

/-- White space and line ends of the language. -/
def isWhiteSpace (c : Char) : Bool :=
  let n := c.toNat
  (0x09 ≤ n ∧ n ≤ 0x0d) ∨ (0x2000 ≤ n ∧ n ≤ 0x200a) ∨
    n ∈ [0x20, 0xa0, 0x1680, 0x2028, 0x2029, 0x202f, 0x205f, 0x3000, 0xfeff]

/-- `parseInt(s, 10)`; `none` is `NaN`. -/
def parseInt (s : Str) : Option Number :=
  let s := s.dropWhile isWhiteSpace
  let (negative, s) : Bool × Str := match s with
    | '-' :: s => (true, s)
    | '+' :: s => (false, s)
    | s => (false, s)
  let digits := s.takeWhile Char.isDigit
  if digits = [] then none
  else
    match nearest (digits.foldl (fun v c => v * 10 + (c.toNat - '0'.toNat)) 0) with
    | some n => some (some (some (if negative then -n else n)))
    | none => some (if negative then ⊥ else ⊤)

/-- `a.split('.').map(n => parseInt(n, 10))`. -/
def parts (a : Str) : List (Option Number) := (a.splitOn '.').map parseInt

/-- `pa[i] || 0`: what is missing, and what is no number, counts as 0. -/
def part (pa : List (Option Number)) (i : ℕ) : Number := (pa[i]?.join).getD 0

def versionCompare (a b : Str) : ℤ :=
  let pa := parts a
  let pb := parts b
  compareFrom (part pa) (part pb) 0 (max pa.length pb.length)

/-! ## Plugins -/

structure PluginInfo where
  name : Str
  version : Str
  deriving DecidableEq

/-- The versions on record. -/
abbrev Installed : Type := Str → Option Str

/-- One installation, and the version on record before. -/
structure Install where
  plugin : PluginInfo
  replaced : Option Str
  deriving DecidableEq

structure Storage where
  installed : Installed
  installs : List Install

/-- What every object has without being given it. -/
def inherited : List Str :=
  ["constructor", "hasOwnProperty", "isPrototypeOf", "propertyIsEnumerable", "toLocaleString",
    "toString", "valueOf", "__proto__", "__defineGetter__", "__defineSetter__", "__lookupGetter__",
    "__lookupSetter__"].map String.toList

def recordInstall (s : Storage) (plugin : PluginInfo) : Storage where
  installed := Function.update s.installed plugin.name (some plugin.version)
  installs := s.installs ++ [{ plugin, replaced := s.installed plugin.name }]

/-- A download that fails is logged, and nothing is recorded. -/
def install (downloads : PluginInfo → Bool) (s : Storage) (plugin : PluginInfo) : Storage :=
  if downloads plugin then recordInstall s plugin else s

/-- One round of the loop. `none` is an exception: what is inherited is no text to split. -/
def visit (downloads : PluginInfo → Bool) (installed : Installed) (s : Storage) (p : PluginInfo) :
    Option Storage :=
  match installed p.name with
  | some current =>
    if current ≠ [] ∧ versionCompare current p.version < 0 then some (install downloads s p)
    else some s
  | none => if p.name ∈ inherited then none else some s

/-- An exception ends the loop; what is recorded stays. -/
def loop (downloads : PluginInfo → Bool) (installed : Installed) :
    Storage → List PluginInfo → Storage
  | s, [] => s
  | s, p :: available =>
    match visit downloads installed s p with
    | some s' => loop downloads installed s' available
    | none => s

def autoUpdateInstalled (downloads : PluginInfo → Bool) (available : List PluginInfo)
    (installed : Installed) : Storage :=
  loop downloads installed { installed, installs := [] } available

/-! ## The order of versions -/

/-- The numbers of a version, with zeros behind them. -/
def key (a : Str) : Lex (ℕ → Number) := toLex (part (parts a))

theorem part_of_length_le {pa : List (Option Number)} {i : ℕ} (h : pa.length ≤ i) : part pa i = 0 := by
  rw [part, List.getElem?_eq_none h]
  rfl

theorem part_eq_of_max_le {pa pb : List (Option Number)} (i : ℕ)
    (h : max pa.length pb.length ≤ i) : part pa i = part pb i := by
  rw [part_of_length_le ((le_max_left _ _).trans h), part_of_length_le ((le_max_right _ _).trans h)]

/-- **`versionCompare` is the order of the keys.** -/
theorem versionCompare_nonpos_iff (a b : Str) : versionCompare a b ≤ 0 ↔ key a ≤ key b :=
  compareFrom_nonpos_iff part_eq_of_max_le

theorem versionCompare_swap (a b : Str) : versionCompare b a = -versionCompare a b := by
  unfold versionCompare
  dsimp only
  rw [max_comm]
  exact compareFrom_swap _ _ _ _

theorem versionCompare_self (a : Str) : versionCompare a a = 0 := by
  have h := versionCompare_swap a a
  omega

theorem versionCompare_trans {a b c : Str} (hab : versionCompare a b ≤ 0)
    (hbc : versionCompare b c ≤ 0) : versionCompare a c ≤ 0 := by
  rw [versionCompare_nonpos_iff] at hab hbc ⊢
  exact hab.trans hbc

theorem versionCompare_of_not_neg {a b : Str} (h : ¬ versionCompare a b < 0) :
    versionCompare b a ≤ 0 := by
  rw [versionCompare_swap a b]
  omega

instance : Trans (fun a b : Str => versionCompare a b ≤ 0) (fun a b => versionCompare a b ≤ 0)
    (fun a b => versionCompare a b ≤ 0) := ⟨versionCompare_trans⟩

/-! ## What a run records -/

/-- The versions of a plugin, in the order of the catalog. -/
def versions (name : Str) (ps : List PluginInfo) : List Str :=
  (ps.filter (·.name = name)).map PluginInfo.version

/-- Those that are newer than `v`. -/
def newer (v : Str) (xs : List Str) : List Str := xs.filter (versionCompare v · < 0)

/-- The entries before the first at which the loop throws. -/
def seen (installed : Installed) (ps : List PluginInfo) : List PluginInfo :=
  ps.takeWhile fun p => installed p.name ≠ none ∨ p.name ∉ inherited

/-- The entries that are installed if they are seen. -/
def outdated (installed : Installed) (p : PluginInfo) : Bool :=
  match installed p.name with
  | some current => current ≠ [] ∧ versionCompare current p.version < 0
  | none => false

theorem versions_cons (name : Str) (p : PluginInfo) (ps : List PluginInfo) :
    versions name (p :: ps) = if p.name = name then p.version :: versions name ps
      else versions name ps := by
  unfold versions
  rw [List.filter_cons]
  by_cases hname : p.name = name
  · rw [if_pos (decide_eq_true hname), if_pos hname]
    rfl
  · rw [if_neg (by simpa using hname), if_neg hname]

theorem visit_eq {downloads : PluginInfo → Bool} {p : PluginInfo} (hp : downloads p = true)
    (installed : Installed) (s : Storage) :
    visit downloads installed s p = if installed p.name ≠ none ∨ p.name ∉ inherited then
      some (if outdated installed p then recordInstall s p else s) else none := by
  unfold visit outdated
  cases hcurrent : installed p.name with
  | none => simp
  | some current =>
      rw [if_pos (Or.inl (Option.some_ne_none current))]
      by_cases hnewer : current ≠ [] ∧ versionCompare current p.version < 0
      · simp [hnewer, install, hp]
      · simp [hnewer]

/-- **The loop records the outdated entries, one after the other.** -/
theorem loop_eq {downloads : PluginInfo → Bool} {ps : List PluginInfo}
    (hps : ∀ p ∈ ps, downloads p = true) (installed : Installed) (s : Storage) :
    loop downloads installed s ps =
      ((seen installed ps).filter (outdated installed)).foldl recordInstall s := by
  induction ps generalizing s with
  | nil => rfl
  | cons p ps ih =>
      have ih := ih fun q hq => hps q (List.mem_cons_of_mem p hq)
      rw [loop, visit_eq (hps p List.mem_cons_self), seen, List.takeWhile_cons]
      by_cases hseen : installed p.name ≠ none ∨ p.name ∉ inherited
      · rw [if_pos hseen, if_pos (decide_eq_true hseen), List.filter_cons]
        cases outdated installed p with
        | true => exact ih _
        | false => exact ih _
      · rw [if_neg hseen, if_neg (by simpa using hseen)]
        rfl

/-- The installation is no downgrade. -/
def Install.Raises (i : Install) : Prop :=
  ∀ v, i.replaced = some v → versionCompare v i.plugin.version ≤ 0

/-- Each version followed by one that is not lower. -/
def Ascending (xs : List Str) : Prop := xs.IsChain fun a b => versionCompare a b ≤ 0

section Record

variable {s : Storage} {p : PluginInfo} {name v : Str}

theorem recordInstall_self (s : Storage) (p : PluginInfo) :
    (recordInstall s p).installed p.name = some p.version := Function.update_self ..

theorem recordInstall_of_ne (s : Storage) (hname : name ≠ p.name) :
    (recordInstall s p).installed name = s.installed name := Function.update_of_ne hname ..

/-- What is on record stays on record. -/
theorem recordInstall_ne_none (h : s.installed name ≠ none) :
    (recordInstall s p).installed name ≠ none := by
  by_cases hname : name = p.name
  · rw [hname, recordInstall_self]
    exact Option.some_ne_none _
  · rwa [recordInstall_of_ne s hname]

theorem recordInstall_raises (hv : s.installed p.name = some v) :
    (∀ i ∈ (recordInstall s p).installs, i.Raises) ↔
      (∀ i ∈ s.installs, i.Raises) ∧ versionCompare v p.version ≤ 0 := by
  show (∀ i ∈ s.installs ++ [⟨p, s.installed p.name⟩], i.Raises) ↔ _
  rw [List.forall_mem_append, List.forall_mem_singleton, hv]
  apply and_congr_right
  intro _
  exact ⟨fun h => h v rfl, fun h w hw => Option.some.inj hw ▸ h⟩

/-- What is on record is the version recorded last. -/
theorem foldl_installed (ps : List PluginInfo) (s : Storage) (name : Str) :
    (ps.foldl recordInstall s).installed name =
      (versions name ps).getLast?.or (s.installed name) := by
  induction ps generalizing s with
  | nil => rfl
  | cons p ps ih =>
      rw [List.foldl_cons, ih, versions_cons]
      by_cases hname : p.name = name
      · subst hname
        rw [if_pos rfl, List.getLast?_cons, recordInstall_self]
        cases (versions p.name ps).getLast? <;> rfl
      · rw [if_neg hname, recordInstall_of_ne s (Ne.symm hname)]

/-- **No downgrade, if and only if the versions recorded for each plugin ascend.** -/
theorem foldl_raises {ps : List PluginInfo} (hps : ∀ p ∈ ps, s.installed p.name ≠ none) :
    (∀ i ∈ (ps.foldl recordInstall s).installs, i.Raises) ↔ (∀ i ∈ s.installs, i.Raises) ∧
      ∀ name v, s.installed name = some v → Ascending (v :: versions name ps) := by
  induction ps generalizing s with
  | nil =>
      have hsingle : ∀ name v, Ascending (v :: versions name []) := fun _ v =>
        List.isChain_singleton v
      exact ⟨fun h => ⟨h, fun name v _ => hsingle name v⟩, And.left⟩
  | cons p ps ih =>
      obtain ⟨v₀, hv₀⟩ := Option.ne_none_iff_exists'.mp (hps p List.mem_cons_self)
      have hrest : ∀ q ∈ ps, (recordInstall s p).installed q.name ≠ none := fun q hq =>
        recordInstall_ne_none (hps q (List.mem_cons_of_mem p hq))
      have hfirst : versions p.name (p :: ps) = p.version :: versions p.name ps := by
        rw [versions_cons, if_pos rfl]
      rw [List.foldl_cons, ih hrest, recordInstall_raises hv₀]
      constructor
      · intro ⟨⟨hold, hraise⟩, hasc⟩
        refine ⟨hold, ?_⟩
        intro name v hv
        by_cases hname : name = p.name
        · subst hname
          obtain rfl := Option.some.inj (hv₀.symm.trans hv)
          rw [hfirst]
          exact List.isChain_cons_cons.mpr ⟨hraise, hasc _ _ (recordInstall_self s p)⟩
        · rw [versions_cons, if_neg (Ne.symm hname)]
          apply hasc
          rw [recordInstall_of_ne s hname, hv]
      · intro ⟨hold, hasc⟩
        have hfirstAsc := hasc p.name v₀ hv₀
        rw [hfirst] at hfirstAsc
        obtain ⟨hraise, htail⟩ := List.isChain_cons_cons.mp hfirstAsc
        refine ⟨⟨hold, hraise⟩, ?_⟩
        intro name v hv
        by_cases hname : name = p.name
        · subst hname
          obtain rfl := Option.some.inj ((recordInstall_self s p).symm.trans hv)
          exact htail
        · rw [recordInstall_of_ne s hname] at hv
          have hrestAsc := hasc name v hv
          rwa [versions_cons, if_neg (Ne.symm hname)] at hrestAsc

end Record

/-! ## The entries of one plugin -/

theorem mem_versions {name v : Str} {ps : List PluginInfo} :
    v ∈ versions name ps ↔ ∃ p ∈ ps, p.name = name ∧ p.version = v := by
  unfold versions
  simp only [List.mem_map, List.mem_filter, decide_eq_true_eq, and_assoc]

theorem mem_newer {v x : Str} {xs : List Str} :
    x ∈ newer v xs ↔ x ∈ xs ∧ versionCompare v x < 0 := by
  unfold newer
  simp only [List.mem_filter, decide_eq_true_eq]

/-- What is installed of a plugin: the newer versions that are seen, unless the text on record is
empty. -/
theorem versions_due (installed : Installed) {name v : Str} (hv : installed name = some v)
    (ps : List PluginInfo) :
    versions name (ps.filter (outdated installed)) =
      if v = [] then [] else newer v (versions name ps) := by
  induction ps with
  | nil => simp [versions, newer]
  | cons p ps ih =>
      rw [List.filter_cons, versions_cons]
      by_cases hname : p.name = name
      · have hout : outdated installed p = decide (v ≠ [] ∧ versionCompare v p.version < 0) := by
          unfold outdated
          rw [hname, hv]
        rw [hout]
        by_cases hempty : v = []
        · rw [if_neg (by simp [hempty]), ih, if_pos hempty, if_pos hempty]
        · by_cases hnewer : versionCompare v p.version < 0
          · rw [if_pos (by simp [hempty, hnewer]), versions_cons, if_pos hname, ih, if_neg hempty,
              if_neg hempty, if_pos hname, newer, newer, List.filter_cons,
              if_pos (decide_eq_true hnewer)]
          · rw [if_neg (by simp [hnewer]), ih, if_neg hempty, if_neg hempty, if_pos hname, newer,
              newer, List.filter_cons, if_neg (by simpa using hnewer)]
      · rw [if_neg hname]
        split
        · rw [versions_cons, if_neg hname, ih]
        · exact ih

theorem seen_sublist (installed : Installed) (ps : List PluginInfo) :
    (seen installed ps).Sublist ps := List.takeWhile_sublist _

theorem newer_versions_sublist {installed : Installed} (name v : Str) (ps : List PluginInfo) :
    (newer v (versions name (seen installed ps))).Sublist (newer v (versions name ps)) :=
  (((seen_sublist installed ps).filter _).map _).filter _

/-! ## When the update does what it is for -/

/-- What the update is for: every installed plugin ends up at a greatest version of those that it
had and that the catalog has, none is downgraded on the way, and a second run has nothing to do. -/
structure Updates (downloads : PluginInfo → Bool) (available : List PluginInfo)
    (installed : Installed) : Prop where
  greatest : ∀ name v, installed name = some v →
    ∃ w ∈ v :: versions name available,
      (autoUpdateInstalled downloads available installed).installed name = some w ∧
      ∀ x ∈ v :: versions name available, versionCompare x w ≤ 0
  raises : ∀ i ∈ (autoUpdateInstalled downloads available installed).installs, i.Raises
  idle : (autoUpdateInstalled downloads available
    (autoUpdateInstalled downloads available installed).installed).installs = []

/-- The newer versions of a plugin ascend, those that are not seen are no greater than one that is,
and the version on record is no empty text. -/
structure InOrder (available : List PluginInfo) (installed : Installed) (name v : Str) : Prop where
  ascending : (newer v (versions name (seen installed available))).Pairwise fun x y =>
    versionCompare x y ≤ 0
  reached : ∀ x ∈ newer v (versions name available),
    ∃ y ∈ newer v (versions name (seen installed available)), versionCompare x y ≤ 0
  recorded : v = [] → newer v (versions name available) = []

section Run

variable {downloads : PluginInfo → Bool} {available : List PluginInfo} {installed : Installed}

/-- The version on record after a run. -/
theorem autoUpdate_installed (hdownloads : ∀ p ∈ available, downloads p = true) {name v : Str}
    (hv : installed name = some v) :
    (autoUpdateInstalled downloads available installed).installed name =
      (if v = [] then [] else newer v (versions name (seen installed available))).getLast?.or
        (some v) := by
  rw [autoUpdateInstalled, loop_eq hdownloads, foldl_installed, versions_due installed hv, ← hv]

theorem autoUpdate_installed_none (hdownloads : ∀ p ∈ available, downloads p = true) {name : Str}
    (hnone : installed name = none) :
    (autoUpdateInstalled downloads available installed).installed name = none := by
  have hdue : versions name ((seen installed available).filter (outdated installed)) = [] := by
    apply List.eq_nil_iff_forall_not_mem.mpr
    intro x hx
    obtain ⟨p, hp, rfl, -⟩ := mem_versions.mp hx
    have hout := (List.mem_filter.mp hp).2
    rw [outdated, hnone] at hout
    cases hout
  rw [autoUpdateInstalled, loop_eq hdownloads, foldl_installed, hdue]
  exact hnone

/-- No plugin is downgraded on the way, if and only if its newer versions ascend. -/
theorem autoUpdate_raises (hdownloads : ∀ p ∈ available, downloads p = true) :
    (∀ i ∈ (autoUpdateInstalled downloads available installed).installs, i.Raises) ↔
      ∀ name v, installed name = some v → v ≠ [] →
        (newer v (versions name (seen installed available))).Pairwise fun x y =>
          versionCompare x y ≤ 0 := by
  have hdue : ∀ p ∈ (seen installed available).filter (outdated installed),
      installed p.name ≠ none := by
    intro p hp hnone
    have hout := (List.mem_filter.mp hp).2
    rw [outdated, hnone] at hout
    cases hout
  rw [autoUpdateInstalled, loop_eq hdownloads, foldl_raises hdue,
    and_iff_right (fun i hi => absurd hi List.not_mem_nil)]
  apply forall_congr'
  intro name
  apply forall_congr'
  intro v
  apply forall_congr'
  intro hv
  rw [versions_due installed hv]
  by_cases hempty : v = []
  · rw [if_pos hempty]
    exact ⟨fun _ h => absurd hempty h, fun _ => List.isChain_singleton v⟩
  · rw [if_neg hempty, forall_prop_of_true hempty, Ascending, List.isChain_iff_pairwise,
      List.pairwise_cons]
    exact and_iff_right fun x hx => (mem_newer.mp hx).2.le

/-- A greatest version on record leaves nothing to do. -/
theorem idle_of_greatest (hdownloads : ∀ p ∈ available, downloads p = true)
    (hgreatest : ∀ name v, installed name = some v → ∃ w ∈ v :: versions name available,
      (autoUpdateInstalled downloads available installed).installed name = some w ∧
      ∀ x ∈ v :: versions name available, versionCompare x w ≤ 0) :
    (autoUpdateInstalled downloads available
      (autoUpdateInstalled downloads available installed).installed).installs = [] := by
  generalize hafter : (autoUpdateInstalled downloads available installed).installed = installed'
    at hgreatest ⊢
  have hdue : (seen installed' available).filter (outdated installed') = [] := by
    apply List.filter_eq_nil_iff.mpr
    intro p hp
    have hmem := (seen_sublist installed' available).subset hp
    unfold outdated
    cases hv : installed p.name with
    | none =>
        rw [← hafter, autoUpdate_installed_none hdownloads hv]
        exact Bool.false_ne_true
    | some v =>
        obtain ⟨w, -, hw, hbest⟩ := hgreatest p.name v hv
        have hle := hbest p.version (List.mem_cons_of_mem v (mem_versions.mpr ⟨p, hmem, rfl, rfl⟩))
        rw [versionCompare_swap w p.version] at hle
        rw [hw]
        intro hnewer
        have hlt := (of_decide_eq_true hnewer).2
        omega
  rw [autoUpdateInstalled, loop_eq hdownloads, hdue]
  rfl

/-- A version that is not newer is no greater. -/
theorem le_of_not_newer {v x : Str} {xs : List Str} (hx : x ∈ v :: xs) (hnew : x ∉ newer v xs) :
    versionCompare x v ≤ 0 := by
  rcases List.mem_cons.mp hx with rfl | hx
  · exact (versionCompare_self _).le
  · apply versionCompare_of_not_neg
    intro hlt
    exact hnew (mem_newer.mpr ⟨hx, hlt⟩)

/-- The version on record is a greatest if and only if none is newer. -/
theorem newer_eq_nil_iff {v : Str} {xs : List Str} :
    newer v xs = [] ↔ ∀ x ∈ v :: xs, versionCompare x v ≤ 0 := by
  constructor
  · intro hnil x hx
    apply le_of_not_newer hx
    rw [hnil]
    exact List.not_mem_nil
  · intro hle
    apply List.eq_nil_iff_forall_not_mem.mpr
    intro x hx
    obtain ⟨hmem, hlt⟩ := mem_newer.mp hx
    have hback := hle x (List.mem_cons_of_mem v hmem)
    rw [versionCompare_swap v x] at hback
    omega

/-- In an ascending list the last is the greatest. -/
theorem le_getLast {xs : List Str} {x w : Str} (hasc : xs.Pairwise fun a b => versionCompare a b ≤ 0)
    (hlast : xs.getLast? = some w) (hx : x ∈ xs) : versionCompare x w ≤ 0 := by
  obtain ⟨front, rfl⟩ := List.getLast?_eq_some_iff.mp hlast
  rcases List.mem_append.mp hx with hx | hx
  · exact (List.pairwise_append.mp hasc).2.2 x hx w List.mem_cons_self
  · rw [List.mem_singleton.mp hx]
    exact (versionCompare_self w).le

theorem greatest_of_inOrder (hdownloads : ∀ p ∈ available, downloads p = true) {name v : Str}
    (hv : installed name = some v) (h : InOrder available installed name v) :
    ∃ w ∈ v :: versions name available,
      (autoUpdateInstalled downloads available installed).installed name = some w ∧
      ∀ x ∈ v :: versions name available, versionCompare x w ≤ 0 := by
  rw [autoUpdate_installed hdownloads hv]
  by_cases hempty : v = []
  · rw [if_pos hempty]
    exact ⟨v, List.mem_cons_self, rfl, newer_eq_nil_iff.mp (h.recorded hempty)⟩
  rw [if_neg hempty]
  cases hlast : (newer v (versions name (seen installed available))).getLast? with
  | none =>
      -- nothing newer is seen, so there is nothing newer
      rw [List.getLast?_eq_none_iff] at hlast
      refine ⟨v, List.mem_cons_self, rfl, newer_eq_nil_iff.mp ?_⟩
      apply List.eq_nil_iff_forall_not_mem.mpr
      intro x hx
      obtain ⟨y, hy, -⟩ := h.reached x hx
      rw [hlast] at hy
      exact List.not_mem_nil hy
  | some w =>
      have hw := (newer_versions_sublist name v available).subset (List.mem_of_getLast? hlast)
      refine ⟨w, List.mem_cons_of_mem v (mem_newer.mp hw).1, rfl, ?_⟩
      intro x hx
      by_cases hnew : x ∈ newer v (versions name available)
      · obtain ⟨y, hy, hle⟩ := h.reached x hnew
        exact versionCompare_trans hle (le_getLast h.ascending hlast hy)
      · exact versionCompare_trans (le_of_not_newer hx hnew) (mem_newer.mp hw).2.le

theorem inOrder_of_updates (hdownloads : ∀ p ∈ available, downloads p = true)
    (h : Updates downloads available installed) {name v : Str} (hv : installed name = some v) :
    InOrder available installed name v := by
  obtain ⟨w, -, hw, hbest⟩ := h.greatest name v hv
  rw [autoUpdate_installed hdownloads hv] at hw
  have hkept : w = v → newer v (versions name available) = [] := by
    intro heq
    rw [heq] at hbest
    exact newer_eq_nil_iff.mpr hbest
  by_cases hempty : v = []
  · rw [if_pos hempty] at hw
    have hnil := hkept (Option.some.inj hw).symm
    have hseen : newer v (versions name (seen installed available)) = [] := by
      apply List.sublist_nil.mp
      rw [← hnil]
      exact newer_versions_sublist name v available
    refine ⟨?_, ?_, fun _ => hnil⟩
    · rw [hseen]
      exact .nil
    · intro x hx
      rw [hnil] at hx
      exact absurd hx List.not_mem_nil
  · rw [if_neg hempty] at hw
    refine ⟨(autoUpdate_raises hdownloads).mp h.raises name v hv hempty, ?_,
      fun heq => absurd heq hempty⟩
    intro x hx
    cases hlast : (newer v (versions name (seen installed available))).getLast? with
    | none =>
        rw [hlast] at hw
        rw [hkept (Option.some.inj hw).symm] at hx
        exact absurd hx List.not_mem_nil
    | some y =>
        rw [hlast] at hw
        obtain rfl := Option.some.inj hw
        exact ⟨y, List.mem_of_getLast? hlast, hbest x (List.mem_cons_of_mem v (mem_newer.mp hx).1)⟩

end Run

/-! ## The update -/

/-- A catalog with the newest version first. -/
def newestFirst : List PluginInfo :=
  [⟨"p".toList, "3.0".toList⟩, ⟨"p".toList, "2.0".toList⟩]

def withOne : Installed := fun name => if name = "p".toList then some "1.0".toList else none

/-- Of the versions 3.0 and 2.0, in this order, the older one stays. -/
theorem older_version_stays :
    ¬ (∀ downloads available installed, (∀ p ∈ available, downloads p = true) →
        Updates downloads available installed) ∧
      (autoUpdateInstalled (fun _ => true) newestFirst withOne).installed "p".toList =
        some "2.0".toList ∧
      (autoUpdateInstalled (fun _ => true) newestFirst withOne).installs =
        [⟨⟨"p".toList, "3.0".toList⟩, some "1.0".toList⟩,
          ⟨⟨"p".toList, "2.0".toList⟩, some "3.0".toList⟩] := by
  have hstays : (autoUpdateInstalled (fun _ => true) newestFirst withOne).installed "p".toList =
      some "2.0".toList := by decide +kernel
  refine ⟨?_, hstays, by decide +kernel⟩
  intro hall
  have hupdates := hall (fun _ => true) newestFirst withOne fun _ _ => rfl
  obtain ⟨w, -, hw, hbest⟩ := hupdates.greatest "p".toList "1.0".toList (by decide)
  obtain rfl := Option.some.inj (hstays.symm.trans hw)
  exact absurd (hbest "3.0".toList (by decide)) (by decide +kernel)

/-- **When the update does what it is for.** `versionCompare` is a total preorder; and with it, where
every download succeeds, the update is right if and only if the catalog is in order for every
installed plugin. -/
theorem updates_iff {downloads : PluginInfo → Bool} {available : List PluginInfo}
    (hdownloads : ∀ p ∈ available, downloads p = true) (installed : Installed) :
    (∀ a b c, versionCompare a a = 0 ∧ versionCompare b a = -versionCompare a b ∧
      (versionCompare a b ≤ 0 → versionCompare b c ≤ 0 → versionCompare a c ≤ 0)) ∧
    (Updates downloads available installed ↔
      ∀ name v, installed name = some v → InOrder available installed name v) := by
  refine ⟨fun a b c => ⟨versionCompare_self a, versionCompare_swap a b, versionCompare_trans⟩, ?_⟩
  constructor
  · intro h name v hv
    exact inOrder_of_updates hdownloads h hv
  · intro h
    have hgreatest := fun name v hv => greatest_of_inOrder hdownloads hv (h name v hv)
    refine ⟨hgreatest, ?_, idle_of_greatest hdownloads hgreatest⟩
    apply (autoUpdate_raises hdownloads).mpr
    intro name v hv _
    exact (h name v hv).ascending

theorem updates_oldest_first : Updates (fun _ => true) newestFirst.reverse withOne := by
  apply (updates_iff (fun _ _ => rfl) withOne).2.mpr
  intro name v hv
  obtain ⟨rfl, rfl⟩ : "p".toList = name ∧ "1.0".toList = v := by
    unfold withOne at hv
    by_cases hname : name = "p".toList
    · rw [if_pos hname] at hv
      exact ⟨hname.symm, Option.some.inj hv⟩
    · rw [if_neg hname] at hv
      cases hv
  exact ⟨by decide +kernel, by decide +kernel, by decide +kernel⟩

end PluginMarketplace

end ChainBeasts.Client
