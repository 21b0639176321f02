import ChainBeasts.Framing
import Mathlib.Data.List.TakeWhile

/-! # Searching with a regular expression

The readers of `Framing` as the pieces of an expression that is matched by backtracking: `gap` is a
starred class in front of the rest of the expression, which takes as much as it can and gives back
until the rest matches. `scan` finds all matches, the leftmost first, and goes on behind each.

Where the expression does not match is stated along a piece of the text (`Misses`): a search passes
over such a piece, and a gap gets beyond it if the class allows. A search has no more matches than
there are places to begin one (`length_scan_le`). -/

namespace ChainBeasts.Backtracking

open ChainBeasts.Framing

variable {α β γ : Type} {p : β → Bool} {m : Reader β α}

/-! ## Pieces of an expression -/

/-- This text. -/
def literal [DecidableEq β] (lit : List β) : Reader β Unit := fun s =>
  if lit <+: s then some ((), s.drop lit.length) else none

/-- As many symbols of a class as there are, in front of one that is not in it. -/
def skip (p : β → Bool) : Reader β Unit := fun s => some ((), s.dropWhile p)

/-- The same, and at least one. -/
def capture (p : β → Bool) : Reader β (List β) := fun s =>
  if s.takeWhile p = [] then none else some (s.takeWhile p, s.dropWhile p)

/-- `p*` and then `m`. -/
def gap (p : β → Bool) (m : Reader β α) : Reader β α
  | [] => m []
  | b :: s => if p b then (gap p m s).or (m (b :: s)) else m (b :: s)

/-- What is left after a match is an end of the text. -/
def Within (r : Reader β α) : Prop :=
  ∀ ⦃s a rest⦄, r s = some (a, rest) → rest <:+ s

theorem literal_append [DecidableEq β] (lit s : List β) : literal lit (lit ++ s) = some ((), s) := by
  rw [literal, if_pos (List.prefix_append _ _), List.drop_left]

theorem literal_within [DecidableEq β] (lit : List β) : Within (literal lit) := by
  intro s _ rest h
  simp only [literal, Option.ite_none_right_eq_some, Option.some.injEq, Prod.mk.injEq] at h
  exact h.2.2 ▸ List.drop_suffix _ _

theorem literal_productive [DecidableEq β] {lit : List β} (hlit : lit ≠ []) :
    Productive (literal lit) := by
  intro s _ rest h
  simp only [literal, Option.ite_none_right_eq_some, Option.some.injEq, Prod.mk.injEq] at h
  obtain ⟨hpre, -, rfl⟩ := h
  have hle := hpre.length_le
  have hpos := List.length_pos_of_ne_nil hlit
  rw [List.length_drop]
  omega

theorem skip_within (p : β → Bool) : Within (skip p) := by
  intro s _ rest h
  simp only [skip, Option.some.injEq, Prod.mk.injEq] at h
  exact h.2 ▸ List.dropWhile_suffix p

theorem capture_within (p : β → Bool) : Within (capture p) := by
  intro s _ rest h
  simp only [capture, Option.ite_none_left_eq_some, Option.some.injEq, Prod.mk.injEq] at h
  exact h.2.2 ▸ List.dropWhile_suffix p

theorem pure_within (a : α) : Within (pure a : Reader β α) := by
  intro s c rest h
  obtain ⟨-, rfl⟩ := pure_eq_some.mp h
  exact List.suffix_refl _

theorem Within.bind {r : Reader β α} {f : α → Reader β γ} (hr : Within r)
    (hf : ∀ a, Within (f a)) : Within (r >>= f) := by
  intro s c rest h
  obtain ⟨a, s', ha, hc⟩ := bind_eq_some.mp h
  exact (hf a hc).trans (hr ha)

theorem Within.consuming {r : Reader β α} (hr : Within r) : Consuming r :=
  fun _ _ _ h => (hr h).length_le

/-- A gap matches where the rest of the expression does. -/
theorem gap_some {s : List β} {x : α × List β} (h : gap p m s = some x) :
    ∃ u t, s = u ++ t ∧ m t = some x := by
  induction s with
  | nil => exact ⟨[], [], rfl, h⟩
  | cons b s ih =>
      by_cases hb : p b = true
      · rw [gap, if_pos hb, Option.or_eq_some_iff] at h
        rcases h with hlater | ⟨-, hhere⟩
        · obtain ⟨u, t, rfl, ht⟩ := ih hlater
          exact ⟨b :: u, t, rfl, ht⟩
        · exact ⟨[], b :: s, rfl, hhere⟩
      · rw [gap, if_neg hb] at h
        exact ⟨[], b :: s, rfl, h⟩

theorem gap_within (hm : Within m) : Within (gap p m) := by
  intro s a rest h
  obtain ⟨u, t, rfl, ht⟩ := gap_some h
  exact (hm ht).trans (List.suffix_append u t)

/-! ## Where an expression does not match -/

/-- Nowhere in `u`, with `t` behind it. -/
def Misses (m : Reader β α) : List β → List β → Prop
  | [], _ => True
  | b :: u, t => m (b :: (u ++ t)) = none ∧ Misses m u t

theorem misses_append {u v t : List β} :
    Misses m (u ++ v) t ↔ Misses m u (v ++ t) ∧ Misses m v t := by
  induction u with
  | nil => exact (and_iff_right trivial).symm
  | cons b u ih => simp only [List.cons_append, Misses, ih, List.append_assoc, and_assoc]

/-- A reader that begins with one that does not match. -/
theorem bind_misses {f : α → Reader β γ} {u t : List β} (h : Misses m u t) :
    Misses (m >>= f) u t := by
  induction u with
  | nil => trivial
  | cons b u ih =>
      refine ⟨?_, ih h.2⟩
      show (m _).bind _ = none
      rw [h.1, Option.bind_none]

/-- A gap gets beyond a piece of its class. -/
theorem gap_append {u s : List β} (hu : ∀ b ∈ u, p b = true) (hmiss : Misses m u s) :
    gap p m (u ++ s) = gap p m s := by
  induction u with
  | nil => rfl
  | cons b u ih =>
      have hrest := ih (fun c hc => hu c (List.mem_cons_of_mem b hc)) hmiss.2
      rw [List.cons_append, gap, if_pos (hu b List.mem_cons_self), hrest, hmiss.1, Option.or_none]

/-- A gap ends at a symbol that is not of its class. -/
theorem gap_none {u t : List β} {b : β} (hb : b ∈ u) (hout : p b = false) (hmiss : Misses m u t) :
    gap p m (u ++ t) = none := by
  induction u with
  | nil => cases hb
  | cons c u ih =>
      rw [List.cons_append, gap]
      split
      · next hc =>
          have hlater : b ∈ u := by
            refine (List.mem_cons.mp hb).resolve_left fun heq => ?_
            rw [heq, hc] at hout
            exact Bool.false_ne_true hout.symm
          rw [ih hlater hmiss.2, hmiss.1, Option.or_none]
      · exact hmiss.1

/-- It matches here if it does not match later. -/
theorem gap_here {b c : β} {u t : List β} (hc : c ∈ u) (hout : p c = false) (hmiss : Misses m u t) :
    gap p m (b :: (u ++ t)) = m (b :: (u ++ t)) := by
  rw [gap, gap_none hc hout hmiss, Option.none_or, ite_self]

/-! ## All matches -/

def scanUpTo (m : Reader β α) : Nat → List β → List α
  | 0, _ => []
  | _, [] => []
  | n + 1, b :: s =>
    match m (b :: s) with
    | some (a, rest) => a :: scanUpTo m n rest
    | none => scanUpTo m n s

def scan (m : Reader β α) (s : List β) : List α := scanUpTo m s.length s

theorem scanUpTo_eq (hm : Productive m) {n : Nat} {s : List β} (h : s.length ≤ n) :
    scanUpTo m n s = scan m s := by
  have hsucc : ∀ {n : Nat} {s : List β}, s.length ≤ n → scanUpTo m (n + 1) s = scanUpTo m n s := by
    intro n
    induction n with
    | zero =>
        intro s h
        rw [List.length_eq_zero_iff.mp (Nat.le_zero.mp h)]
        rfl
    | succ n ih =>
        intro s h
        cases s with
        | nil => rfl
        | cons b s =>
            rw [List.length_cons] at h
            rw [scanUpTo, scanUpTo]
            cases hs : m (b :: s) with
            | none => exact ih (by omega)
            | some x =>
                have hlt := hm hs
                rw [List.length_cons] at hlt
                exact congrArg (x.1 :: ·) (ih (by omega))
  induction n, h using Nat.le_induction with
  | base => rfl
  | succ n h ih => rw [hsucc h, ih]

theorem scan_some (hm : Productive m) {s : List β} {a : α} {rest : List β}
    (h : m s = some (a, rest)) : scan m s = a :: scan m rest := by
  have hlt := hm h
  cases s with
  | nil => exact absurd hlt (Nat.not_lt_zero _)
  | cons b s =>
      rw [List.length_cons] at hlt
      rw [scan, List.length_cons, scanUpTo]
      simp only [h]
      rw [scanUpTo_eq hm (by omega)]

theorem scan_append {u t : List β} (hmiss : Misses m u t) : scan m (u ++ t) = scan m t := by
  induction u with
  | nil => rfl
  | cons b u ih =>
      rw [List.cons_append, scan, List.length_cons, scanUpTo]
      simp only [hmiss.1]
      exact ih hmiss.2

/-- How many places there are where a match begins. -/
def hits (m : Reader β α) : List β → Nat
  | [] => 0
  | b :: s => (if (m (b :: s)).isSome then 1 else 0) + hits m s

theorem hits_append {u t : List β} (hmiss : Misses m u t) : hits m (u ++ t) = hits m t := by
  induction u with
  | nil => rfl
  | cons b u ih =>
      rw [List.cons_append, hits, hmiss.1, ih hmiss.2]
      simp

theorem hits_suffix {s t : List β} (h : t <:+ s) : hits m t ≤ hits m s := by
  obtain ⟨u, rfl⟩ := h
  induction u with
  | nil => exact Nat.le_refl _
  | cons b u ih => exact ih.trans (Nat.le_add_left _ _)

/-- **A match for a place to begin it.** -/
theorem length_scan_le (hm : Productive m) (hwithin : Within m) (s : List β) :
    (scan m s).length ≤ hits m s := by
  induction hn : s.length using Nat.strongRecOn generalizing s with
  | _ n ih =>
    cases s with
    | nil => exact Nat.le_refl _
    | cons b s =>
        rw [hits]
        cases hs : m (b :: s) with
        | none =>
            have hpass : scan m (b :: s) = scan m s :=
              scan_append (u := [b]) (t := s) ⟨hs, trivial⟩
            have hrest := ih s.length (by rw [← hn]; exact Nat.lt_succ_self _) s rfl
            rw [hpass]
            exact hrest.trans (Nat.le_add_left _ _)
        | some x =>
            obtain ⟨a, rest⟩ := x
            have hlt := hm hs
            have hrest := ih rest.length (hn ▸ hlt) rest rfl
            have hsuffix : rest <:+ s := by
              rcases List.suffix_cons_iff.mp (hwithin hs) with heq | hsuffix
              · rw [heq] at hlt
                exact absurd hlt (Nat.lt_irrefl _)
              · exact hsuffix
            rw [scan_some hm hs, List.length_cons, Option.isSome_some, if_pos rfl]
            have hle := hits_suffix (m := m) hsuffix
            omega

end ChainBeasts.Backtracking
