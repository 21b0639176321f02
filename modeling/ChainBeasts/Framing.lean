import Mathlib.Data.List.Infix

/-! # Values on a stream

A reader takes a value off the front of a stream, or wants more of it. A format writes values so that
its reader finds them again, whatever follows. This module names nothing of any particular format:
`α` are the values, `β` the symbols of the stream.

`readAll_written` says that whole values come back, and that a value broken off at the end is not
read as anything; `exists_take_of_prefix` that a cut leaves just that; `readAll_prefix` that what has
arrived so far never reads as something else. -/

namespace ChainBeasts.Framing

variable {α β γ : Type}

/-! ## Readers -/

abbrev Reader (β α : Type) := StateT (List β) Option α

/-- What comes later does not change what is read. -/
def Stable (r : Reader β α) : Prop :=
  ∀ ⦃s a rest⦄, r s = some (a, rest) → ∀ more, r (s ++ more) = some (a, rest ++ more)

/-- No value is read off nothing. -/
def Productive (r : Reader β α) : Prop :=
  ∀ ⦃s a rest⦄, r s = some (a, rest) → rest.length < s.length

/-- The next `n` symbols. -/
def take (n : Nat) : Reader β (List β) := fun s =>
  if n ≤ s.length then some (s.take n, s.drop n) else none

theorem take_eq_some {n : Nat} {s bs rest : List β} :
    take n s = some (bs, rest) ↔ s = bs ++ rest ∧ bs.length = n := by
  simp only [take, Option.ite_none_right_eq_some, Option.some.injEq, Prod.mk.injEq]
  constructor
  · rintro ⟨hle, rfl, rfl⟩
    exact ⟨(List.take_append_drop n s).symm, List.length_take_of_le hle⟩
  · rintro ⟨rfl, rfl⟩
    exact ⟨by simp, List.take_left, List.drop_left⟩

theorem take_stable (n : Nat) : Stable (take n : Reader β (List β)) := by
  intro s bs rest h more
  obtain ⟨rfl, hlen⟩ := take_eq_some.mp h
  exact take_eq_some.mpr ⟨List.append_assoc _ _ _, hlen⟩

theorem bind_eq_some {σ : Type} {r : StateT σ Option α} {f : α → StateT σ Option γ} {s : σ} {c : γ}
    {rest : σ} :
    (r >>= f) s = some (c, rest) ↔ ∃ a s', r s = some (a, s') ∧ f a s' = some (c, rest) := by
  change ((r s).bind fun p => f p.1 p.2) = some (c, rest) ↔ _
  rw [Option.bind_eq_some_iff]
  exact Prod.exists

theorem pure_eq_some {s : List β} {a c : α} {rest : List β} :
    (pure a : Reader β α) s = some (c, rest) ↔ a = c ∧ s = rest := by
  change some (a, s) = some (c, rest) ↔ _
  rw [Option.some.injEq, Prod.mk.injEq]

theorem pure_stable (a : α) : Stable (pure a : Reader β α) := by
  intro s c rest h more
  obtain ⟨rfl, rfl⟩ := pure_eq_some.mp h
  rfl

theorem Stable.bind {r : Reader β α} {f : α → Reader β γ} (hr : Stable r)
    (hf : ∀ a, Stable (f a)) : Stable (r >>= f) := by
  intro s c rest h more
  obtain ⟨a, s', ha, hc⟩ := bind_eq_some.mp h
  exact bind_eq_some.mpr ⟨a, s' ++ more, hr ha more, hf a hc more⟩

/-! ## How much is read -/

/-- Nothing is put back. -/
def Consuming (r : Reader β α) : Prop :=
  ∀ ⦃s a rest⦄, r s = some (a, rest) → rest.length ≤ s.length

theorem take_consuming (n : Nat) : Consuming (take n : Reader β (List β)) := by
  intro s bs rest h
  obtain ⟨rfl, -⟩ := take_eq_some.mp h
  rw [List.length_append]
  exact Nat.le_add_left _ _

theorem take_productive {n : Nat} (hn : 0 < n) : Productive (take n : Reader β (List β)) := by
  intro s bs rest h
  obtain ⟨rfl, hlen⟩ := take_eq_some.mp h
  rw [List.length_append]
  omega

theorem pure_consuming (a : α) : Consuming (pure a : Reader β α) := by
  intro s c rest h
  obtain ⟨-, rfl⟩ := pure_eq_some.mp h
  exact Nat.le_refl _

theorem Consuming.bind {r : Reader β α} {f : α → Reader β γ} (hr : Consuming r)
    (hf : ∀ a, Consuming (f a)) : Consuming (r >>= f) := by
  intro s c rest h
  obtain ⟨a, s', ha, hc⟩ := bind_eq_some.mp h
  exact Nat.le_trans (hf a hc) (hr ha)

theorem Productive.bind {r : Reader β α} {f : α → Reader β γ} (hr : Productive r)
    (hf : ∀ a, Consuming (f a)) : Productive (r >>= f) := by
  intro s c rest h
  obtain ⟨a, s', ha, hc⟩ := bind_eq_some.mp h
  exact Nat.lt_of_le_of_lt (hf a hc) (hr ha)

/-! ## Many values -/

/-- `n` values, one after the other. -/
def times (r : Reader β α) : Nat → Reader β (List α)
  | 0 => pure []
  | n + 1 => do
    let a ← r
    let as ← times r n
    return a :: as

theorem times_stable {r : Reader β α} (hr : Stable r) (n : Nat) : Stable (times r n) := by
  induction n with
  | zero => exact pure_stable []
  | succ n ih => exact hr.bind fun a => ih.bind fun as => pure_stable (a :: as)

theorem times_consuming {r : Reader β α} (hr : Consuming r) (n : Nat) : Consuming (times r n) := by
  induction n with
  | zero => exact pure_consuming []
  | succ n ih => exact hr.bind fun a => ih.bind fun as => pure_consuming (a :: as)

/-- Values written one after the other are read back, if each is in front of anything. -/
theorem times_written {r : Reader β α} {write : α → List β} {as : List α}
    (h : ∀ a ∈ as, ∀ rest, r (write a ++ rest) = some (a, rest)) (rest : List β) :
    times r as.length (as.flatMap write ++ rest) = some (as, rest) := by
  induction as with
  | nil => rfl
  | cons a as ih =>
      rw [List.flatMap_cons, List.append_assoc]
      apply bind_eq_some.mpr
      refine ⟨a, as.flatMap write ++ rest, h a List.mem_cons_self _, ?_⟩
      apply bind_eq_some.mpr
      exact ⟨as, rest, ih fun b hb => h b (List.mem_cons_of_mem a hb), rfl⟩

/-- As many values as there are, at most `n`. -/
def readUpTo (r : Reader β α) : Nat → List β → List α
  | 0, _ => []
  | n + 1, s =>
    match r s with
    | none => []
    | some (a, rest) => a :: readUpTo r n rest

/-- All values at the front of the stream. -/
def readAll (r : Reader β α) (s : List β) : List α := readUpTo r s.length s

theorem readAll_none {r : Reader β α} {s : List β} (h : r s = none) : readAll r s = [] := by
  unfold readAll
  cases s.length with
  | zero => rfl
  | succ n => simp only [readUpTo, h]

theorem readUpTo_succ {r : Reader β α} (hr : Productive r) {n : Nat} {s : List β}
    (h : s.length ≤ n) : readUpTo r (n + 1) s = readUpTo r n s := by
  induction n generalizing s with
  | zero =>
      cases hs : r s with
      | none => simp only [readUpTo, hs]
      | some p => exact absurd (hr hs) (by omega)
  | succ n ih =>
      cases hs : r s with
      | none => simp only [readUpTo, hs]
      | some p =>
          have hlt := hr hs
          rw [readUpTo, readUpTo]
          simp only [hs]
          rw [ih (by omega)]

/-- The length of the stream is a bound that is not reached. -/
theorem readUpTo_eq {r : Reader β α} (hr : Productive r) {n : Nat} {s : List β}
    (h : s.length ≤ n) : readUpTo r n s = readAll r s := by
  induction n, h using Nat.le_induction with
  | base => rfl
  | succ n h ih => rw [readUpTo_succ hr h, ih]

theorem readAll_some {r : Reader β α} (hr : Productive r) {s : List β} {a : α} {rest : List β}
    (h : r s = some (a, rest)) : readAll r s = a :: readAll r rest := by
  have hlt := hr h
  obtain ⟨n, hn⟩ := Nat.exists_eq_succ_of_ne_zero (Nat.ne_of_gt (Nat.zero_lt_of_lt hlt))
  rw [readAll, hn, readUpTo]
  simp only [h]
  rw [readUpTo_eq hr (by omega)]

/-- **What has arrived so far** reads as the first of the values that the whole stream holds. -/
theorem readAll_prefix {r : Reader β α} (hr : Productive r) (hstable : Stable r) {s t : List β}
    (h : s <+: t) : readAll r s <+: readAll r t := by
  induction hn : s.length using Nat.strongRecOn generalizing s t with
  | _ n ih =>
    obtain ⟨more, rfl⟩ := h
    cases hs : r s with
    | none =>
        rw [readAll_none hs]
        exact List.nil_prefix
    | some p =>
        obtain ⟨a, rest⟩ := p
        rw [readAll_some hr hs, readAll_some hr (hstable hs more), List.cons_prefix_cons]
        exact ⟨rfl, ih rest.length (hn ▸ hr hs) (List.prefix_append _ _) rfl⟩

/-! ## Formats -/

/-- How values are written, and read back. -/
structure Format (β α : Type) where
  write : α → List β
  read : Reader β α
  /-- The values that can be read back. -/
  Sound : α → Prop
  stable : Stable read
  productive : Productive read
  read_write : ∀ ⦃a⦄, Sound a → ∀ rest, read (write a ++ rest) = some (a, rest)

namespace Format
variable {F : Format β α} {a : α} {part : List β}

/-- A value broken off is not read. -/
theorem read_broken (ha : F.Sound a) (h : part <+: F.write a) (hne : part ≠ F.write a) :
    F.read part = none := by
  rw [Option.eq_none_iff_forall_ne_some]
  rintro ⟨b, rest⟩ hread
  obtain ⟨more, hmore⟩ := h
  have hwhole := F.stable hread more
  have hback := F.read_write ha []
  rw [List.append_nil, ← hmore, hwhole] at hback
  -- so nothing was missing
  obtain ⟨-, hnil⟩ := List.append_eq_nil_iff.mp (congrArg Prod.snd (Option.some.inj hback))
  rw [hnil, List.append_nil] at hmore
  exact hne hmore

theorem length_write_pos (ha : F.Sound a) : 0 < (F.write a).length := by
  have hread := F.read_write ha []
  have hless := F.productive hread
  simpa using hless

/-- **Whole values come back**, and what is broken off at the end does not. -/
theorem readAll_written {as : List α} (has : ∀ a ∈ as, F.Sound a) (hpart : F.read part = none) :
    readAll F.read (as.flatMap F.write ++ part) = as := by
  induction as with
  | nil => exact readAll_none hpart
  | cons a as ih =>
      have hhead := F.read_write (has a List.mem_cons_self) (as.flatMap F.write ++ part)
      rw [List.flatMap_cons, List.append_assoc, readAll_some F.productive hhead,
        ih fun b hb => has b (List.mem_cons_of_mem _ hb)]

theorem read_nil : F.read [] = none := by
  rw [Option.eq_none_iff_forall_ne_some]
  rintro ⟨a, rest⟩ hread
  exact Nat.not_lt_zero _ (F.productive hread)

/-- **A stream cut off** is the first values of the whole one and then nothing that can be read. -/
theorem exists_take_of_prefix {as : List α} {s : List β} (has : ∀ a ∈ as, F.Sound a)
    (h : s <+: as.flatMap F.write) :
    ∃ k tail, k ≤ as.length ∧ s = (as.take k).flatMap F.write ++ tail ∧ F.read tail = none ∧
      (k = as.length → tail = []) := by
  induction as generalizing s with
  | nil =>
      obtain rfl := List.prefix_nil.mp h
      exact ⟨0, [], Nat.le_refl _, rfl, F.read_nil, fun _ => rfl⟩
  | cons a as ih =>
      rw [List.flatMap_cons] at h
      by_cases hfirst : F.write a <+: s
      · obtain ⟨later, rfl⟩ := hfirst
        obtain ⟨k, tail, hk, rfl, htail, hall⟩ :=
          ih (fun b hb => has b (List.mem_cons_of_mem a hb)) ((List.prefix_append_right_inj _).mp h)
        refine ⟨k + 1, tail, Nat.succ_le_succ hk, ?_, htail, ?_⟩
        · rw [List.take_succ_cons, List.flatMap_cons, List.append_assoc]
        · intro hlast
          exact hall (Nat.succ.inj hlast)
      · -- the cut is inside the first value
        have hpart : s <+: F.write a :=
          (List.prefix_or_prefix_of_prefix h (List.prefix_append _ _)).resolve_right hfirst
        have hne : s ≠ F.write a := by
          rintro rfl
          exact hfirst (List.prefix_refl _)
        exact ⟨0, s, Nat.zero_le _, rfl, read_broken (has a List.mem_cons_self) hpart hne,
          fun hlast => absurd hlast (Nat.succ_ne_zero _).symm⟩

end Format

end ChainBeasts.Framing
