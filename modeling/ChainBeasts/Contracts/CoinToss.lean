import ChainBeasts.Contracts.Matchmaker
import ChainBeasts.XorLinear

/-! # The coin of the matchmaker

The generator steps with three shears, so it is a linear bijection; 32 low bits in a row determine
the state. From every state but zero either side of the coin shows within 33 tosses, and in a loop
that sets its turns by it (`Tossing`) either side has its turn. Zero is never left: a fight that is
seeded with it leaves all turns to `b`. That is the case when the seed is zero and the ids are
equal. -/

namespace ChainBeasts.Matchmaker

/-! ## The generator -/

theorem rng_linear : XorLinear rng :=
  (XorLinear.shear_left 5).comp ((XorLinear.shear_right 17).comp (XorLinear.shear_left 13))

theorem rng_injective : Function.Injective rng :=
  (XorLinear.shear_left_injective (by decide)).comp
    ((XorLinear.shear_right_injective (by decide)).comp
      (XorLinear.shear_left_injective (by decide)))

theorem rng_zero : rng 0 = 0 := rng_linear.zero

theorem rng_ne_zero {s : BitVec 32} (hs : s ≠ 0) : rng s ≠ 0 := by
  intro h
  exact hs (rng_injective (h.trans rng_zero.symm))

/-- What the low bits of 32 states in a row stand for. -/
def columns : List (BitVec 32) :=
  [0xd733508b, 0x2ffd289c, 0x10008ba6, 0x2f7877a0, 0x520b939c, 0xc869ea80, 0x402615d4, 0x7ec2eed8,
    0x750f963c, 0x9ed8cc0a, 0x19b86f60, 0x323fe43c, 0x1dc2f27a, 0xfe23d75e, 0x459f7fb0, 0xd7a62e90,
    0x345a8e58, 0x847ff61c, 0x307ede5c, 0x76d9ee4e, 0x51014dc8, 0xee366b7e, 0xd86ebb3a, 0x4cb1cece,
    0xdf76aa14, 0xd3272334, 0xa53a257e, 0xc0d89b64, 0x360de2ce, 0xf1c783d0, 0x7457fc38, 0x196fad5a]

theorem recover_columns (s : BitVec 32) : XorLinear.recover rng columns s = s := by
  apply XorLinear.recover_eq rng_linear
  decide +kernel

theorem columns_sum : (rng^[columns.length] (columns.foldr (· ^^^ ·) 0)).getLsbD 0 = false := by
  decide +kernel

theorem low_bit (s : BitVec 32) : decide (s &&& 1 ≠ 0) = s.getLsbD 0 := by
  have h : s &&& 1 = BitVec.setWidth 32 (BitVec.ofBool (s.getLsbD 0)) :=
    BitVec.and_one_eq_setWidth_ofBool_getLsbD
  rw [h]
  cases s.getLsbD 0 <;> rfl

/-- **Either side of the coin shows**, after 32 steps at most. -/
theorem coin_shows {s : BitVec 32} (hs : s ≠ 0) (side : Bool) :
    ∃ k ≤ 32, decide (rng^[k] s &&& 1 ≠ 0) = side := by
  cases side with
  | true =>
      obtain ⟨k, hk, hone⟩ := XorLinear.shows_one recover_columns hs
      exact ⟨k, Nat.le_of_lt hk, (low_bit _).trans hone⟩
  | false =>
      obtain ⟨k, hk, hzero⟩ := XorLinear.shows_zero recover_columns columns_sum s
      exact ⟨k, hk, (low_bit _).trans hzero⟩

/-- The next 33 tosses show either side. -/
theorem next_coin_shows {state : BitVec 32} (hstate : state ≠ 0) (side : Bool) :
    ∃ k, 1 ≤ k ∧ k ≤ 33 ∧ decide (rng^[k] state &&& 1 ≠ 0) = side := by
  obtain ⟨k, hk, hside⟩ := coin_shows (rng_ne_zero hstate) side
  refine ⟨k + 1, Nat.le_add_left 1 k, Nat.succ_le_succ hk, ?_⟩
  rwa [Function.iterate_succ_apply]

/-! ## Loops that toss -/

/-- What the rounds of a battle do to the generator, to the turn and to the stamina of either side,
`a`'s for `true`. -/
structure Tossing {S : Type} (L : While.Loop S) where
  state : S → BitVec 32
  turn : S → Bool
  sta : S → Bool → Int
  state_body : ∀ s, state (L.body s) = rng (state s)
  turn_body : ∀ s, turn (L.body s) = decide (rng (state s) &&& 1 ≠ 0)
  guard_sta : ∀ s, L.guard s = true → ∃ side, 0 < sta s side
  idle_body : ∀ s, sta s (turn s) ≤ 0 →
    sta (L.body s) = sta s ∧ L.guard (L.body s) = L.guard s

namespace Tossing

variable {S : Type} {L : While.Loop S} (T : Tossing L) {s : S}

/-- Nobody strikes in this round: the side at turn has no stamina left. -/
def Idle (s : S) : Prop := T.sta s (T.turn s) ≤ 0

theorem state_iterate (k : Nat) : T.state (L.body^[k] s) = rng^[k] (T.state s) := by
  induction k with
  | zero => rfl
  | succ k ih =>
      rw [Function.iterate_succ_apply', Function.iterate_succ_apply', T.state_body, ih]

/-- **Either side has its turn again**, whatever the rounds until then do. -/
theorem turn_again (hs : T.state s ≠ 0) (side : Bool) :
    ∃ k, 1 ≤ k ∧ k ≤ 33 ∧ T.turn (L.body^[k] s) = side := by
  obtain ⟨k, hpos, hle, hside⟩ := next_coin_shows hs side
  refine ⟨k, hpos, hle, ?_⟩
  -- the turn is set in the last of the rounds, from the state that it leaves
  obtain ⟨j, rfl⟩ : ∃ j, k = j + 1 := ⟨k - 1, by omega⟩
  rw [Function.iterate_succ_apply', T.turn_body, T.state_iterate]
  rwa [Function.iterate_succ_apply'] at hside

/-- Idle rounds leave the battle as open as it was. -/
theorem idle_iterate {k : Nat} (h : ∀ j < k, T.Idle (L.body^[j] s)) :
    T.sta (L.body^[k] s) = T.sta s ∧ L.guard (L.body^[k] s) = L.guard s := by
  induction k with
  | zero => exact ⟨rfl, rfl⟩
  | succ k ih =>
      obtain ⟨hsta, hguard⟩ := ih fun j hj => h j (Nat.lt_succ_of_lt hj)
      obtain ⟨hsta', hguard'⟩ := T.idle_body _ (h k (Nat.lt_succ_self k))
      rw [Function.iterate_succ_apply']
      exact ⟨hsta'.trans hsta, hguard'.trans hguard⟩

theorem reach_idle {k : Nat} (hguard : L.guard s = true) (h : ∀ j < k, T.Idle (L.body^[j] s)) :
    L.reach k s = some (L.body^[k] s) := by
  apply While.Loop.reach_iterate
  intro j hj
  rw [(T.idle_iterate fun i hi => h i (Nat.lt_trans hi hj)).2]
  exact hguard

/-- Within 33 rounds it is this side's turn, and if nobody strikes before, the loop gets there and
goes on. -/
def TurnComes (s : S) (side : Bool) : Prop :=
  ∃ k, 1 ≤ k ∧ k ≤ 33 ∧ T.turn (L.body^[k] s) = side ∧
    (L.guard s = true → (∀ j < k, T.Idle (L.body^[j] s)) →
      L.reach k s = some (L.body^[k] s) ∧ L.guard (L.body^[k] s) = true)

theorem turn_comes (hs : T.state s ≠ 0) (side : Bool) : T.TurnComes s side := by
  obtain ⟨k, hpos, hle, hturn⟩ := T.turn_again hs side
  refine ⟨k, hpos, hle, hturn, ?_⟩
  intro hguard hidle
  refine ⟨T.reach_idle hguard hidle, ?_⟩
  rw [(T.idle_iterate hidle).2]
  exact hguard

/-- The loop gets to a strike after 33 idle rounds at most. -/
def StrikesSoon (s : S) : Prop :=
  ∃ k ≤ 33, (∀ j < k, T.Idle (L.body^[j] s)) ∧ L.reach k s = some (L.body^[k] s) ∧
    ¬ T.Idle (L.body^[k] s)

/-- **A battle that goes on sees a strike.** -/
theorem strikes_soon (hs : T.state s ≠ 0) (hguard : L.guard s = true) : T.StrikesSoon s := by
  classical
  obtain ⟨side, hside⟩ := T.guard_sta s hguard
  obtain ⟨k, -, hle, hturn⟩ := T.turn_again hs side
  -- if all rounds up to its turn were idle it would still have the stamina to strike
  have hstrike : ∃ j ≤ k, ¬ T.Idle (L.body^[j] s) := by
    by_contra hnone
    have hidle : ∀ j ≤ k, T.Idle (L.body^[j] s) := by
      intro j hj
      by_contra h
      exact hnone ⟨j, hj, h⟩
    have hlast : T.sta (L.body^[k] s) (T.turn (L.body^[k] s)) ≤ 0 := hidle k (Nat.le_refl k)
    rw [hturn, (T.idle_iterate fun j hj => hidle j (Nat.le_of_lt hj)).1] at hlast
    omega
  obtain ⟨hfirst, hstrikes⟩ := Nat.find_spec hstrike
  have hbefore : ∀ j < Nat.find hstrike, T.Idle (L.body^[j] s) := by
    intro j hj
    by_contra h
    exact Nat.find_min hstrike hj ⟨by omega, h⟩
  exact ⟨_, Nat.le_trans hfirst hle, hbefore, T.reach_idle hguard hbefore, hstrikes⟩

/-- Wherever the loop gets from here, either side's turn comes, and a strike if the loop goes on. -/
def DealsTurns (s : S) : Prop :=
  ∀ n t, L.reach n s = some t →
    (∀ side, T.TurnComes t side) ∧ (L.guard t = true → T.StrikesSoon t)

theorem deals_turns (hs : T.state s ≠ 0) : T.DealsTurns s := by
  intro n t ht
  have hstate : T.state t ≠ 0 := by
    apply While.Loop.reach_induction (fun t => T.state t ≠ 0) ht hs
    intro t _ hstate
    rw [T.state_body]
    exact rng_ne_zero hstate
  exact ⟨T.turn_comes hstate, T.strikes_soon hstate⟩

end Tossing

/-! ## Progress -/

/-- The stamina left of a side, `a`'s for `true`. -/
def Fight.sta (s : Fight) (side : Bool) : Int := if side then s.staA else s.staB

/-- The strikes left in a fight. -/
def Fight.strikesLeft (s : Fight) : Nat := (s.sta true).toNat + (s.sta false).toNat

/-- The coin has been tossed with the state at hand, which is not stuck at zero. -/
def Fight.Tossed (s : Fight) : Prop := s.state ≠ 0 ∧ s.turn = decide (s.state &&& 1 ≠ 0)

variable {a b : Stats} {s : Fight} {seed : BitVec 32}

theorem guard_iff : (loop a b).guard s = true ↔
    0 < s.hpA ∧ 0 < s.hpB ∧ (0 < s.staA ∨ 0 < s.staB) :=
  decide_eq_true_iff

theorem body_state : ((loop a b).body s).state = rng s.state := by
  unfold loop
  simp only
  split <;> [rfl; split <;> rfl]

theorem body_turn : ((loop a b).body s).turn = decide (rng s.state &&& 1 ≠ 0) := by
  unfold loop
  simp only
  split <;> [rfl; split <;> rfl]

/-- The side whose turn it is spends a point of stamina, if it has one; nothing else does. -/
theorem body_sta (side : Bool) :
    ((loop a b).body s).sta side =
      s.sta side - if s.turn = side ∧ 0 < s.sta side then 1 else 0 := by
  unfold loop Fight.sta
  cases side <;> grind

theorem body_strikesLeft (hable : 0 < s.sta s.turn) :
    ((loop a b).body s).strikesLeft < s.strikesLeft := by
  have hA := body_sta (a := a) (b := b) (s := s) true
  have hB := body_sta (a := a) (b := b) (s := s) false
  unfold Fight.strikesLeft
  cases hturn : s.turn with
  | true =>
      rw [hturn] at hable hA hB
      rw [if_pos ⟨rfl, hable⟩] at hA
      rw [if_neg (fun h => Bool.noConfusion h.1)] at hB
      omega
  | false =>
      rw [hturn] at hable hA hB
      rw [if_neg (fun h => Bool.noConfusion h.1)] at hA
      rw [if_pos ⟨rfl, hable⟩] at hB
      omega

theorem body_tossed (hs : s.Tossed) : ((loop a b).body s).Tossed := by
  unfold Fight.Tossed
  rw [body_state, body_turn]
  exact ⟨rng_ne_zero hs.1, rfl⟩

/-- A side that has no stamina left on its turn does nothing. -/
theorem body_idle (h : s.sta s.turn ≤ 0) : (loop a b).body s =
    { s with state := rng s.state, turn := decide (rng s.state &&& 1 ≠ 0) } := by
  have hA : ¬ (s.turn = true ∧ 0 < s.staA) := by
    rintro ⟨hturn, hsta⟩
    rw [hturn] at h
    exact Int.not_lt.mpr h hsta
  have hB : ¬ (s.turn = false ∧ 0 < s.staB) := by
    rintro ⟨hturn, hsta⟩
    rw [hturn] at h
    exact Int.not_lt.mpr h hsta
  unfold loop
  simp only [hA, hB, if_false]

def tossing (a b : Stats) : Tossing (loop a b) where
  state := Fight.state
  turn := Fight.turn
  sta := Fight.sta
  state_body _ := body_state
  turn_body _ := body_turn
  guard_sta s h := by
    rcases (guard_iff.mp h).2.2 with hA | hB
    · exact ⟨true, hA⟩
    · exact ⟨false, hB⟩
  idle_body s h := by
    rw [body_idle h]
    exact ⟨rfl, rfl⟩

/-- **A fight with a coin that is tossed ends.** A side that has stamina left is given its turn
before long. -/
theorem ends_of_tossed (hs : s.Tossed) : (loop a b).Ends s := by
  refine While.Loop.ends_of_progress Fight.Tossed Fight.strikesLeft ?_ hs
  intro t hguard ht
  obtain ⟨k, -, hidle, -, hstrikes⟩ := (tossing a b).strikes_soon ht.1 hguard
  have hable : 0 < ((loop a b).body^[k] t).sta ((loop a b).body^[k] t).turn := Int.not_le.mp hstrikes
  have hsta : ((loop a b).body^[k] t).sta = t.sta := ((tossing a b).idle_iterate hidle).1
  have hsame : ((loop a b).body^[k] t).strikesLeft = t.strikesLeft := by
    unfold Fight.strikesLeft
    rw [hsta]
  refine ⟨k + 1, Function.Iterate.rec Fight.Tossed ht (fun _ => body_tossed) (k + 1), ?_⟩
  rw [Function.iterate_succ_apply', ← hsame]
  exact body_strikesLeft hable

/-! ## A coin that is stuck -/

/-- Twins fought over with no seed: the coin shows `b`'s side for ever, and `b` runs out of stamina
before `a` is down, which has stamina for a turn that never comes. -/
def Stranded (a b : Stats) (seed : BitVec 32) : Prop :=
  (seed = 0 ∧ a.id = b.id) ∧ 0 < a.defense.toInt ∧ 0 < b.defense.toInt ∧ 0 < a.stamina.toInt ∧
    b.stamina.toInt.toNat * b.power.toInt < a.defense.toInt

instance (a b : Stats) (seed : BitVec 32) : Decidable (Stranded a b seed) :=
  inferInstanceAs (Decidable (_ ∧ _))

theorem seeded_eq_zero : seeded a b seed = 0 ↔ seed = 0 ∧ a.id = b.id := by
  unfold seeded
  by_cases hseed : seed = 0
  · rw [if_neg (not_not.mpr hseed), and_iff_right hseed]
    exact BitVec.xor_eq_zero_iff
  · rw [if_pos hseed]
    exact iff_of_false hseed (fun h => hseed h.1)

theorem start_tossed (h : ¬ (seed = 0 ∧ a.id = b.id)) : (start a b seed).Tossed :=
  ⟨rng_ne_zero (mt seeded_eq_zero.mp h), rfl⟩

/-- The generator stands at zero. -/
def Fight.Stuck (s : Fight) : Prop := s.state = 0 ∧ s.turn = false

theorem start_stuck (h : seed = 0 ∧ a.id = b.id) : (start a b seed).Stuck := by
  have hzero : rng (seeded a b seed) = 0 := by rw [seeded_eq_zero.mpr h, rng_zero]
  refine ⟨hzero, ?_⟩
  show decide (rng (seeded a b seed) &&& 1 ≠ 0) = false
  rw [hzero]
  decide

/-- `b` strikes, or nothing happens. -/
theorem body_stuck (hs : s.Stuck) :
    ((loop a b).body s).Stuck ∧
      ((loop a b).body s).hpB = s.hpB ∧ ((loop a b).body s).staA = s.staA ∧
      ((loop a b).body s).hpA = (if 0 < s.staB then s.hpA - b.power.toInt else s.hpA) ∧
      ((loop a b).body s).staB = if 0 < s.staB then s.staB - 1 else s.staB := by
  obtain ⟨hstate, hturn⟩ := hs
  refine ⟨⟨?_, ?_⟩, ?_⟩
  · rw [body_state, hstate, rng_zero]
  · rw [body_turn, hstate, rng_zero]
    decide
  · unfold loop
    simp only [hturn, Bool.false_eq_true, false_and, if_false, true_and]
    split <;> exact ⟨rfl, rfl, rfl, rfl⟩

/-- Strikes of strength `p` that together fall short of `h` leave something at every stage. -/
theorem left_pos {h p : Int} {n : Nat} (hh : 0 < h) (hshort : (n + 1 : Nat) * p < h) :
    0 < h - p ∧ n * p < h - p := by
  have hsplit : ((n + 1 : Nat) : Int) * p = n * p + p := by
    push_cast
    ring
  rcases Int.lt_or_le p 0 with hneg | hnonneg
  · omega
  · have hprod : 0 ≤ (n : Int) * p := Int.mul_nonneg (by omega) hnonneg
    omega

theorem ends_of_stuck (hs : s.Stuck) (hspent : s.staA ≤ 0 ∨ s.hpA ≤ s.staB.toNat * b.power.toInt) :
    (loop a b).Ends s := by
  refine While.Loop.ends_of_variant
    (fun t => t.Stuck ∧ (t.staA ≤ 0 ∨ t.hpA ≤ t.staB.toNat * b.power.toInt))
    (fun t => t.staB.toNat) ?_ ⟨hs, hspent⟩
  intro t hguard ht
  obtain ⟨hstuck, ht⟩ := ht
  obtain ⟨hA, -, hsta⟩ := guard_iff.mp hguard
  obtain ⟨hnext, -, hstaA, hhpA, hstaB⟩ := body_stuck (a := a) (b := b) hstuck
  -- if `b` could not strike, `a` would be down already
  have hable : 0 < t.staB := by
    by_contra hnone
    have hzero : t.staB.toNat = 0 := by omega
    rw [hzero] at ht
    omega
  rw [if_pos hable] at hhpA hstaB
  refine ⟨⟨hnext, ?_⟩, by rw [hstaB]; omega⟩
  rw [hstaA, hhpA, hstaB]
  apply ht.imp_right
  intro hfatal
  have hsplit : (t.staB.toNat : Int) * b.power.toInt =
      (t.staB - 1).toNat * b.power.toInt + b.power.toInt := by
    rw [show t.staB.toNat = (t.staB - 1).toNat + 1 by omega]
    push_cast
    ring
  omega

theorem not_ends_of_stuck (hs : s.Stuck) (hA : 0 < s.hpA) (hB : 0 < s.hpB) (hsta : 0 < s.staA)
    (hshort : s.staB.toNat * b.power.toInt < s.hpA) : ¬ (loop a b).Ends s := by
  apply While.Loop.not_ends_of_invariant
    (fun t => t.Stuck ∧ 0 < t.hpA ∧ 0 < t.hpB ∧ 0 < t.staA ∧ t.staB.toNat * b.power.toInt < t.hpA)
    ?_ ⟨hs, hA, hB, hsta, hshort⟩
  rintro t ⟨hstuck, hA, hB, hsta, hshort⟩
  obtain ⟨hnext, hhpB, hstaA, hhpA, hstaB⟩ := body_stuck (a := a) (b := b) hstuck
  refine ⟨guard_iff.mpr ⟨hA, hB, Or.inl hsta⟩, hnext, ?_⟩
  rw [hhpB, hstaA, hhpA, hstaB]
  by_cases hable : 0 < t.staB
  · rw [if_pos hable, if_pos hable]
    rw [show t.staB.toNat = (t.staB - 1).toNat + 1 by omega] at hshort
    obtain ⟨hleft, hstill⟩ := left_pos hA hshort
    exact ⟨hleft, hB, hsta, hstill⟩
  · rw [if_neg hable, if_neg hable]
    exact ⟨hA, hB, hsta, hshort⟩

/-- **Which fights end.** -/
theorem ends_iff : (loop a b).Ends (start a b seed) ↔ ¬ Stranded a b seed := by
  by_cases htwins : seed = 0 ∧ a.id = b.id
  · have hstuck := start_stuck htwins
    unfold Stranded
    rw [and_iff_right htwins]
    by_cases hover : 0 < a.defense.toInt ∧ 0 < b.defense.toInt
    · by_cases hspent : a.stamina.toInt ≤ 0 ∨
          a.defense.toInt ≤ b.stamina.toInt.toNat * b.power.toInt
      · exact iff_of_true (ends_of_stuck hstuck hspent) (by omega)
      · refine iff_of_false (not_ends_of_stuck hstuck hover.1 hover.2 ?_ ?_) (by omega)
        · show 0 < a.stamina.toInt
          omega
        · show b.stamina.toInt.toNat * b.power.toInt < a.defense.toInt
          omega
    · refine iff_of_true (While.Loop.ends_done ?_) (by omega)
      rw [← Bool.not_eq_true, guard_iff]
      exact fun h => hover ⟨h.1, h.2.1⟩
  · exact iff_of_true (ends_of_tossed (start_tossed htwins)) (fun h => htwins h.1)

/-- A fight returns as soon as its loop ends. -/
theorem fight_returns_iff : (∃ n w, fight a b seed n = some w) ↔
    (loop a b).Ends (start a b seed) := by
  constructor
  · rintro ⟨n, w, hrun⟩
    obtain ⟨s, hs, -⟩ := Option.map_eq_some_iff.mp hrun
    exact ⟨s, n, hs⟩
  · rintro ⟨s, n, hs⟩
    exact ⟨n, winner a b s, Option.map_eq_some_iff.mpr ⟨s, hs, rfl⟩⟩

/-- **A match can be resolved unless it is between twins that strand each other.** -/
theorem fight_resolved_iff (a b : Stats) (seed : BitVec 32) :
    (∃ n w, fight a b seed n = some w) ↔ ¬ Stranded a b seed :=
  fight_returns_iff.trans ends_iff

/-- The creature 7 against itself, with five hit points and one strike of one point. -/
theorem twins_never_resolved :
    ¬ ∃ n w, fight ⟨1, 5, 1, 7⟩ ⟨1, 5, 1, 7⟩ 0 n = some w := by
  rw [fight_returns_iff, ends_iff]
  decide

end ChainBeasts.Matchmaker
