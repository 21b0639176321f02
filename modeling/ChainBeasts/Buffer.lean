import Mathlib.Data.List.Basic
import Mathlib.Logic.Function.Basic

/-! # Loops over checked buffers

A `std::vector` or the memory behind a pointer is a list; an access outside it is a fault, and a
computation that faults is `none`. A `for` loop runs its body while its condition holds, and a loop
that does not end is a fault as well, so that a result is also a termination statement.

This module names nothing of any particular program. `Holds l n f` says what the first `n` entries
of a buffer are; each access has one lemma in terms of it. Loops have two rules: `loop_rule` for one
that shall not fault, and `loop_some` for what can be told from one that did not. -/

namespace ChainBeasts.Buffer

variable {α S : Type}

/-! ## Accesses -/

def load (l : List α) (i : Nat) : Option α := l[i]?

def store (l : List α) (i : Nat) (v : α) : Option (List α) :=
  if i < l.length then some (l.set i v) else none

/-- The `m` entries from `i` on. -/
def loadLanes (m : Nat) (l : List α) (i : Nat) : Option (Fin m → α) :=
  if h : i + m ≤ l.length then some fun k => l[i + k] else none

/-- Overwrite the `m` entries from `i` on. -/
def storeLanes {m : Nat} (l : List α) (i : Nat) (v : Fin m → α) : Option (List α) :=
  if i + m ≤ l.length then some (l.take i ++ (List.ofFn v ++ l.drop (i + m))) else none

/-- `std::fill(l.begin(), l.begin() + n, v)`. -/
def fill (l : List α) (n : Nat) (v : α) : Option (List α) :=
  if n ≤ l.length then some (List.replicate n v ++ l.drop n) else none

/-! ## Contents -/

/-- The first `n` entries of `l` are `f`. -/
def Holds (l : List α) (n : Nat) (f : Nat → α) : Prop :=
  n ≤ l.length ∧ ∀ k < n, l[k]? = some (f k)

theorem Holds.congr {l : List α} {n : Nat} {f g : Nat → α} (h : Holds l n f)
    (hfg : ∀ k < n, f k = g k) : Holds l n g := by
  refine ⟨h.1, ?_⟩
  intro k hk
  rw [h.2 k hk, hfg k hk]

theorem Holds.mono {l : List α} {m n : Nat} {f : Nat → α} (h : Holds l n f) (hmn : m ≤ n) :
    Holds l m f :=
  ⟨Nat.le_trans hmn h.1, fun k hk => h.2 k (Nat.lt_of_lt_of_le hk hmn)⟩

theorem holds_getD (l : List α) (d : α) : Holds l l.length (fun k => l.getD k d) := by
  refine ⟨Nat.le_refl _, ?_⟩
  intro k hk
  simp [hk]

theorem holds_replicate (n : Nat) (v : α) : Holds (List.replicate n v) n (fun _ => v) := by
  refine ⟨by simp, ?_⟩
  intro k hk
  simp [hk]

/-- Contents determine a buffer of known length. -/
theorem Holds.eq_map {l : List α} {n : Nat} {f : Nat → α} (h : Holds l n f) (hl : l.length = n) :
    l = (List.range n).map f := by
  apply List.ext_getElem?
  intro k
  by_cases hk : k < n
  · rw [h.2 k hk]
    simp [hk]
  · rw [List.getElem?_eq_none (by omega), List.getElem?_eq_none (by simp; omega)]

/-- `f` with the `m` entries from `i` on replaced by those of `g`. -/
def patch (f g : Nat → α) (i m : Nat) (k : Nat) : α := if i ≤ k ∧ k < i + m then g k else f k

theorem patch_append (f g : Nat → α) (i m₁ m₂ : Nat) :
    patch (patch f g i m₁) g (i + m₁) m₂ = patch f g i (m₁ + m₂) := by
  funext k
  unfold patch
  grind

theorem Holds.load {l : List α} {n i : Nat} {f : Nat → α} (h : Holds l n f) (hi : i < n) :
    load l i = some (f i) := h.2 i hi

theorem Holds.store {l : List α} {n i : Nat} {f : Nat → α} (h : Holds l n f) (hi : i < n)
    (g : Nat → α) :
    ∃ l', store l i (g i) = some l' ∧ l'.length = l.length ∧ Holds l' n (patch f g i 1) := by
  have hlen : i < l.length := Nat.lt_of_lt_of_le hi h.1
  refine ⟨l.set i (g i), by simp [Buffer.store, hlen], by simp, by simpa using h.1, ?_⟩
  intro k hk
  rw [List.getElem?_set]
  by_cases hki : i = k
  · subst hki
    simp [patch, hlen]
  · have hout : ¬ (i ≤ k ∧ k < i + 1) := by omega
    rw [if_neg hki, h.2 k hk, patch, if_neg hout]

theorem Holds.loadLanes {l : List α} {n m i : Nat} {f : Nat → α} (h : Holds l n f)
    (hi : i + m ≤ n) : loadLanes m l i = some fun k : Fin m => f (i + k) := by
  have hlen : i + m ≤ l.length := Nat.le_trans hi h.1
  unfold Buffer.loadLanes
  rw [dif_pos hlen]
  congr 1
  funext k
  have hget := h.2 (i + k) (by omega)
  rw [List.getElem?_eq_getElem (by omega)] at hget
  exact Option.some.inj hget

theorem Holds.storeLanes {l : List α} {n m i : Nat} {f : Nat → α} (h : Holds l n f)
    (hi : i + m ≤ n) (g : Nat → α) {v : Fin m → α} (hv : ∀ k, v k = g (i + k)) :
    ∃ l', storeLanes l i v = some l' ∧ l'.length = l.length ∧ Holds l' n (patch f g i m) := by
  have hlen : i + m ≤ l.length := Nat.le_trans hi h.1
  have hsame : (l.take i ++ (List.ofFn v ++ l.drop (i + m))).length = l.length := by
    simp only [List.length_append, List.length_take, List.length_ofFn, List.length_drop]
    omega
  refine ⟨_, by rw [Buffer.storeLanes, if_pos hlen], hsame, by rw [hsame]; exact h.1, ?_⟩
  intro k hk
  have htake : (l.take i).length = i := by simp; omega
  rcases Nat.lt_or_ge k i with hki | hki
  · rw [List.getElem?_append_left (by omega), List.getElem?_take_of_lt hki, h.2 k hk, patch,
      if_neg (by omega)]
  · rw [List.getElem?_append_right (by omega), htake]
    rcases Nat.lt_or_ge k (i + m) with hkm | hkm
    · rw [List.getElem?_append_left (by simp; omega), List.getElem?_ofFn, dif_pos (by omega), hv,
        patch, if_pos ⟨hki, hkm⟩]
      congr 2
      simp only
      omega
    · rw [List.getElem?_append_right (by simp; omega), List.length_ofFn, List.getElem?_drop,
        patch, if_neg (by omega), ← h.2 k hk]
      congr 1
      omega

theorem fill_holds {l : List α} {n : Nat} (hn : n ≤ l.length) (v : α) :
    ∃ l', fill l n v = some l' ∧ l'.length = l.length ∧ Holds l' n (fun _ => v) := by
  have hsame : (List.replicate n v ++ l.drop n).length = l.length := by
    simp only [List.length_append, List.length_replicate, List.length_drop]
    omega
  refine ⟨_, by rw [fill, if_pos hn], hsame, by rw [hsame]; exact hn, ?_⟩
  intro k hk
  rw [List.getElem?_append_left (by simpa using hk)]
  simp [hk]

/-! ## Loops -/

/-- `for (; cond(j); j += step) body`, from `j`: the last `j` and the state left. Running out of fuel
is a fault. -/
def loop (cond : Nat → Bool) (step : Nat) (body : Nat → S → Option S) :
    Nat → Nat → S → Option (Nat × S)
  | 0, _, _ => none
  | fuel + 1, j, s =>
    if cond j then (body j s).bind (loop cond step body fuel (j + step)) else some (j, s)

/-- `for (j = lo; j < hi; j += step) body`. -/
def forLoop (lo hi step : Nat) (body : Nat → S → Option S) (s : S) : Option S :=
  (loop (fun j => decide (j < hi)) step body (hi - lo + 1) lo s).map Prod.snd

/-- **The loop rule.** What holds at the start and is carried by the body from `j` to `j + step`
holds when the condition fails, and it does fail: the condition bounds `j`, and the step is
positive. -/
theorem loop_rule {cond : Nat → Bool} {step hi : Nat} {body : Nat → S → Option S}
    (hstep : 0 < step) (hcond : ∀ j, cond j = true → j < hi) {P : Nat → S → Prop}
    (hbody : ∀ j s, cond j = true → P j s → ∃ s', body j s = some s' ∧ P (j + step) s')
    {fuel j : Nat} {s : S} (hfuel : hi ≤ j + fuel) (hinit : P j s) :
    ∃ j' s', loop cond step body (fuel + 1) j s = some (j', s') ∧ cond j' = false ∧ P j' s' := by
  induction fuel generalizing j s with
  | zero =>
      have hdone : cond j = false := by
        rw [Bool.eq_false_iff]
        intro hc
        have := hcond j hc
        omega
      exact ⟨j, s, by simp [loop, hdone], hdone, hinit⟩
  | succ fuel ih =>
      rw [loop]
      cases hc : cond j with
      | false => exact ⟨j, s, rfl, hc, hinit⟩
      | true =>
          obtain ⟨s', hs, hP⟩ := hbody j s hc hinit
          obtain ⟨j', t, hrun, hdone, hend⟩ := ih (j := j + step) (by omega) hP
          refine ⟨j', t, ?_, hdone, hend⟩
          simp only [hs, if_true, Option.bind_some, hrun]

/-- The loop rule for a counted loop. -/
theorem forLoop_rule {lo hi step : Nat} {body : Nat → S → Option S} (hstep : 0 < step)
    {P : Nat → S → Prop}
    (hbody : ∀ j s, j < hi → P j s → ∃ s', body j s = some s' ∧ P (j + step) s') {s : S}
    (hinit : P lo s) : ∃ j s', forLoop lo hi step body s = some s' ∧ hi ≤ j ∧ P j s' := by
  have hcond : ∀ j, decide (j < hi) = true → j < hi := fun j hj => of_decide_eq_true hj
  have hfuel : hi ≤ lo + (hi - lo) := by omega
  obtain ⟨j, s', hrun, hdone, hend⟩ := loop_rule hstep hcond
    (fun j s hj hP => hbody j s (hcond j hj) hP) hfuel hinit
  refine ⟨j, s', by simp [forLoop, hrun], ?_, hend⟩
  have := of_decide_eq_false hdone
  omega

/-- The loop rule for `for (j = lo; j < hi; ++j)`: what holds at `lo` holds at `hi`. -/
theorem forLoop_count {lo hi : Nat} (hle : lo ≤ hi) {body : Nat → S → Option S}
    (P : Nat → S → Prop)
    (hbody : ∀ j s, j < hi → P j s → ∃ s', body j s = some s' ∧ P (j + 1) s') {s : S}
    (hinit : P lo s) : ∃ s', forLoop lo hi 1 body s = some s' ∧ P hi s' := by
  obtain ⟨j, s', hrun, hge, hlast, hend⟩ :
      ∃ j s', forLoop lo hi 1 body s = some s' ∧ hi ≤ j ∧ j ≤ hi ∧ P j s' := by
    apply forLoop_rule Nat.one_pos
    · rintro j s hj ⟨-, hs⟩
      obtain ⟨s', hrun, hs'⟩ := hbody j s hj hs
      exact ⟨s', hrun, hj, hs'⟩
    · exact ⟨hle, hinit⟩
  obtain rfl : j = hi := Nat.le_antisymm hlast hge
  exact ⟨s', hrun, hend⟩

/-- The first iteration of a loop that is entered. -/
theorem forLoop_cons {lo hi : Nat} (h : lo < hi) (body : Nat → S → Option S) (s : S) :
    forLoop lo hi 1 body s = (body lo s).bind (forLoop (lo + 1) hi 1 body) := by
  have hfuel : hi - lo = hi - (lo + 1) + 1 := by omega
  rw [forLoop, hfuel, loop, if_pos (decide_eq_true h)]
  cases body lo s with
  | none => rfl
  | some s' => rfl

theorem forLoop_empty {lo hi step : Nat} {body : Nat → S → Option S} (h : hi ≤ lo) (s : S) :
    forLoop lo hi step body s = some s := by
  simp [forLoop, loop, Nat.not_lt.mpr h]

/-- **What a loop that did not fault has been through.** Whatever is kept by the iterations that
succeed holds in the end. -/
theorem loop_some {cond : Nat → Bool} {step : Nat} {body : Nat → S → Option S} {P : Nat → S → Prop}
    (hbody : ∀ j s s', cond j = true → body j s = some s' → P j s → P (j + step) s')
    {fuel j : Nat} {s : S} {r : Nat × S} (h : loop cond step body fuel j s = some r)
    (hinit : P j s) : P r.1 r.2 ∧ cond r.1 = false := by
  induction fuel generalizing j s with
  | zero => cases h
  | succ fuel ih =>
      rw [loop] at h
      cases hc : cond j with
      | false =>
          rw [hc, if_neg Bool.false_ne_true] at h
          cases h
          exact ⟨hinit, hc⟩
      | true =>
          rw [hc, if_pos rfl] at h
          obtain ⟨s', hs, hrest⟩ := Option.bind_eq_some_iff.mp h
          exact ih hrest (hbody j s s' hc hs hinit)

theorem forLoop_some {lo hi step : Nat} {body : Nat → S → Option S} {P : Nat → S → Prop}
    (hbody : ∀ j s s', j < hi → body j s = some s' → P j s → P (j + step) s') {s s' : S}
    (h : forLoop lo hi step body s = some s') (hinit : P lo s) : ∃ j, hi ≤ j ∧ P j s' := by
  obtain ⟨⟨j, t⟩, hrun, rfl⟩ := Option.map_eq_some_iff.mp h
  obtain ⟨hend, hdone⟩ := loop_some
    (fun j s s' hj hs hP => hbody j s s' (of_decide_eq_true hj) hs hP) hrun hinit
  exact ⟨j, Nat.le_of_not_lt (of_decide_eq_false hdone), hend⟩

/-- Every iteration of a counted loop that did not fault succeeded. -/
theorem forLoop_count_some {lo hi : Nat} {body : Nat → S → Option S} {s s' : S}
    (h : forLoop lo hi 1 body s = some s') (j : Nat) (hlo : lo ≤ j) (hhi : j < hi) :
    ∃ t t', body j t = some t' := by
  obtain ⟨last, hlast, hall⟩ := forLoop_some
    (P := fun n _ => ∀ j, lo ≤ j → j < n → ∃ t t', body j t = some t')
    (fun n t t' _ hstep hbefore j hlo hj => by
      rcases Nat.lt_succ_iff_lt_or_eq.mp hj with hlt | rfl
      · exact hbefore j hlo hlt
      · exact ⟨t, t', hstep⟩)
    h (fun j hlo hj => absurd hj (Nat.not_lt.mpr hlo))
  exact hall j hlo (Nat.lt_of_lt_of_le hhi hlast)

theorem load_eq_some {l : List α} {i : Nat} {v : α} (h : load l i = some v) : i < l.length :=
  (List.getElem?_eq_some_iff.mp h).1

theorem loadLanes_eq_some {l : List α} {m i : Nat} {v : Fin m → α}
    (h : loadLanes m l i = some v) : i + m ≤ l.length := by
  unfold loadLanes at h
  split at h
  · assumption
  · cases h

end ChainBeasts.Buffer
