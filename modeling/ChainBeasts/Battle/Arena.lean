import ChainBeasts.Battle.Standoff
import ChainBeasts.Duel

/-! # Battles on open boards

On a board without walls nobody is ever held up: every battle ends, and if there are no hazards
either, thirteen turns bring the creatures together unharmed. From then on the battle is a duel in
alternate turns (`fight_engages`). A creature out of stamina blocks instead of striking, so all the
strikes its foe has left from then on are blunted. -/

namespace ChainBeasts.Battle

/-! ## The approach -/

def Position.OnBoard (p : Position) : Prop := 0 ≤ p.x ∧ p.x < 8 ∧ 0 ≤ p.y ∧ p.y < 8

namespace BattleEngine

/-- The board has no walls. -/
def Open (e : BattleEngine) : Prop := ∀ x y, e.boardTiles x y ≠ .wall

variable {I : IntArith} {e : BattleEngine} {powerA powerB : Int} {s r : Fight}

theorem Open.free (he : e.Open) {x y : Int} (hon : Position.OnBoard ⟨x, y⟩) : e.free x y := by
  have hin : 0 ≤ x ∧ x < 8 ∧ 0 ≤ y ∧ y < 8 := hon
  unfold BattleEngine.free tileAt
  rw [if_pos hin]
  exact he _ _

/-- On an open board there is always a step towards the foe. -/
theorem Open.advance (he : e.Open) {p q : Position} (hp : p.OnBoard) (hq : q.OnBoard)
    (hne : p ≠ q) : ∃ r, e.advance p q = some r ∧ r.OnBoard := by
  obtain ⟨px, py⟩ := p
  obtain ⟨qx, qy⟩ := q
  unfold Position.OnBoard at hp hq
  simp only at hp hq
  unfold BattleEngine.advance
  by_cases hx : px = qx
  · subst hx
    have hy : py ≠ qy := by
      intro hy
      exact hne (by rw [hy])
    have hon : Position.OnBoard ⟨px, beside py qy⟩ := by
      unfold Position.OnBoard beside
      grind
    rw [if_neg (fun h => h.1 rfl), if_pos ⟨hy, he.free hon⟩]
    exact ⟨_, rfl, hon⟩
  · have hon : Position.OnBoard ⟨beside px qx, py⟩ := by
      unfold Position.OnBoard beside
      grind
    rw [if_pos ⟨hx, he.free hon⟩]
    exact ⟨_, rfl, hon⟩

theorem Open.deadlocks (he : e.Open) (n : Nat) {p q : Position} (hp : p.OnBoard) (hq : q.OnBoard)
    (hdist : distance p q = n + 1) (x y : Int) : e.deadlocks n p q x y = false := by
  induction n generalizing p q x y with
  | zero => rfl
  | succ n ih =>
      obtain ⟨r, hstep, hr⟩ := he.advance hp hq (distance_pos.mp (by omega))
      have hcloser := distance_advance hstep
      unfold BattleEngine.deadlocks
      rw [hstep]
      simp only [ih hq hr (by rw [distance_comm]; omega), Bool.and_false]

/-- **On a board without walls every battle ends.** -/
theorem Open.no_standoff (he : e.Open) (I : IntArith) (a b : CreatureStats) (seed : BitVec 32) :
    ¬ Standoff I e a b seed := by
  have hfirst : Position.OnBoard ⟨0, 0⟩ := by unfold Position.OnBoard; decide
  have hlast : Position.OnBoard ⟨7, 7⟩ := by unfold Position.OnBoard; decide
  rintro ⟨-, h⟩
  split at h
  · rw [he.deadlocks 13 hfirst hlast rfl] at h
    cases h
  · rw [he.deadlocks 13 hlast hfirst rfl] at h
    cases h

theorem clear_board_open : clearBoard.Open := by
  intro x y h
  cases h

theorem tread_clear_board (p : Position) (hp : Int) : tread I clearBoard p hp = hp := rfl

/-- A turn of creatures apart on the empty board. -/
theorem clear_board_step (I : IntArith) (powerA powerB : Int) (ha : s.a.pos.OnBoard)
    (hb : s.b.pos.OnBoard) (hfar : 1 < distance s.a.pos s.b.pos) :
    ∃ p q : Position, p.OnBoard ∧ q.OnBoard ∧ distance p q + 1 = distance s.a.pos s.b.pos ∧
      (clearBoard.loop I powerA powerB).body s =
        ⟨{ s.a with pos := p }, { s.b with pos := q }, !s.aTurn⟩ := by
  have hne : s.a.pos ≠ s.b.pos := distance_pos.mp (by omega)
  obtain ⟨a, b, turn⟩ := s
  cases turn with
  | true =>
      obtain ⟨p, hstep, hp⟩ := clear_board_open.advance ha hb hne
      refine ⟨p, b.pos, hp, hb, distance_advance hstep, ?_⟩
      simp only [loop, if_true, take_turn_step hfar hstep, tread_clear_board]
  | false =>
      obtain ⟨q, hstep, hq⟩ := clear_board_open.advance hb ha (Ne.symm hne)
      have hcloser := distance_advance hstep
      refine ⟨a.pos, q, ha, hq, ?_, ?_⟩
      · rw [distance_comm a.pos q, distance_comm a.pos b.pos]
        exact hcloser
      · rw [distance_comm] at hfar
        simp only [loop, Bool.false_eq_true, if_false, take_turn_step hfar hstep,
          tread_clear_board]

/-- **On the empty board the creatures meet unharmed**, after as many turns as they were apart. -/
theorem clear_board_meet (n : Nat) (ha : s.a.pos.OnBoard) (hb : s.b.pos.OnBoard)
    (hdist : distance s.a.pos s.b.pos = n + 1)
    (hguard : (clearBoard.loop I powerA powerB).guard s = true)
    (hrun : (clearBoard.loop I powerA powerB).Returns s r) :
    ∃ p q : Position, distance p q ≤ 1 ∧
      (clearBoard.loop I powerA powerB).Returns
        ⟨{ s.a with pos := p }, { s.b with pos := q }, s.aTurn ^^ decide (n % 2 = 1)⟩ r := by
  induction n generalizing s with
  | zero => exact ⟨s.a.pos, s.b.pos, by omega, by simpa using hrun⟩
  | succ n ih =>
      obtain ⟨p, q, hp, hq, hcloser, hbody⟩ := clear_board_step I powerA powerB ha hb (by omega)
      rw [While.Loop.returns_round hguard, hbody] at hrun
      have hdist' : distance p q = n + 1 := by omega
      obtain ⟨p', q', hnear, hmeet⟩ :=
        ih (s := ⟨{ s.a with pos := p }, { s.b with pos := q }, !s.aTurn⟩) hp hq hdist' hguard hrun
      refine ⟨p', q', hnear, ?_⟩
      have hparity : (!s.aTurn ^^ decide (n % 2 = 1)) =
          (s.aTurn ^^ decide ((n + 1) % 2 = 1)) := by
        cases s.aTurn <;> grind
      rw [← hparity]
      exact hmeet

/-! ## Strike and block

`f` is 1 if `a` has the first turn at close quarters, 0 if `b` has. -/

/-- The turns `a`, respectively `b`, has had after `t` of them. -/
def hadA (f t : Nat) : Nat := (t + f) / 2
def hadB (f t : Nat) : Nat := (t + 1 - f) / 2

theorem had_turnA {f t : Nat} (hf : f ≤ 1) (hturn : (t + f) % 2 = 1) :
    hadA f (t + 1) = hadA f t + 1 ∧ hadB f (t + 1) = hadB f t ∧ hadB f t + f = hadA f t + 1 := by
  unfold hadA hadB
  omega

theorem had_turnB {f t : Nat} (hf : f ≤ 1) (hturn : ¬ (t + f) % 2 = 1) :
    hadA f (t + 1) = hadA f t ∧ hadB f (t + 1) = hadB f t + 1 ∧ hadA f t = hadB f t + f := by
  unfold hadA hadB
  omega

/-- The duel at close quarters. A foe that has run out of stamina blocks on every turn. -/
def skirmish (a b : CreatureStats) (f : Nat) : Duel where
  lifeA := a.totalDefense .exact
  lifeB := b.totalDefense .exact
  staminaA := a.totalStamina .exact
  staminaB := b.totalStamina .exact
  dealtA := Duel.blunted (a.totalPower .exact) ((b.totalStamina .exact).toNat + f)
  dealtB := Duel.blunted (b.totalPower .exact) ((a.totalStamina .exact).toNat + (1 - f))
  turnA t := decide ((t + f) % 2 = 1)

/-- The creatures are adjacent and stand as after the turns of a tally. Only the one that has just
had a turn can be blocking, and it is if it had no stamina for that turn. -/
structure Engaged (a b : CreatureStats) (f : Nat) (s : Fight) (x : Tally) : Prop where
  near : distance s.a.pos s.b.pos ≤ 1
  scored : (skirmish a b f).Scored x s.a.hp s.b.hp s.a.sta s.b.sta
  turn : s.aTurn = (skirmish a b f).turnA x.turns
  strikesA : x.a = min (hadA f x.turns) (a.totalStamina .exact).toNat
  strikesB : x.b = min (hadB f x.turns) (b.totalStamina .exact).toNat
  blockA : s.a.block = if s.aTurn = false ∧ (a.totalStamina .exact).toNat < hadA f x.turns
    then 1 else 0
  blockB : s.b.block = if s.aTurn = true ∧ (b.totalStamina .exact).toNat < hadB f x.turns
    then 1 else 0

theorem damage_unblocked (power : Int) : damage .exact power 0 = power := rfl

theorem damage_blocked (power : Int) : damage .exact power 1 = max (power - 1) 0 := by
  unfold damage IntArith.exact
  simp only [Int.zero_lt_one, if_true]
  split <;> omega

/-- One round at close quarters, on a turn of `a`: a strike if it has stamina, a block if not. -/
theorem round_strikeA {sa sb : Fighter} (hnear : distance sa.pos sb.pos ≤ 1) (hable : 0 < sa.sta) :
    (e.loop .exact powerA powerB).body ⟨sa, sb, true⟩ =
      ⟨{ sa with sta := sa.sta - 1 },
        { sb with
          hp := sb.hp - damage .exact powerA sb.block
          block := if 0 < sb.block then 0 else sb.block }, false⟩ := by
  simp only [loop, takeTurn, if_true, if_pos hnear, if_pos hable]
  rfl

theorem round_blockA {sa sb : Fighter} (hnear : distance sa.pos sb.pos ≤ 1)
    (hspent : ¬ 0 < sa.sta) :
    (e.loop .exact powerA powerB).body ⟨sa, sb, true⟩ =
      ⟨{ sa with block := sa.block + 1 }, sb, false⟩ := by
  simp only [loop, takeTurn, if_true, if_pos hnear, if_neg hspent]
  rfl

theorem round_strikeB {sa sb : Fighter} (hnear : distance sa.pos sb.pos ≤ 1) (hable : 0 < sb.sta) :
    (e.loop .exact powerA powerB).body ⟨sa, sb, false⟩ =
      ⟨{ sa with
          hp := sa.hp - damage .exact powerB sa.block
          block := if 0 < sa.block then 0 else sa.block },
        { sb with sta := sb.sta - 1 }, true⟩ := by
  rw [distance_comm] at hnear
  simp only [loop, takeTurn, Bool.false_eq_true, if_false, if_pos hnear, if_pos hable]
  rfl

theorem round_blockB {sa sb : Fighter} (hnear : distance sa.pos sb.pos ≤ 1)
    (hspent : ¬ 0 < sb.sta) :
    (e.loop .exact powerA powerB).body ⟨sa, sb, false⟩ =
      ⟨sa, { sb with block := sb.block + 1 }, true⟩ := by
  rw [distance_comm] at hnear
  simp only [loop, takeTurn, Bool.false_eq_true, if_false, if_pos hnear, if_neg hspent]
  rfl

variable {a b : CreatureStats} {f : Nat} {x : Tally}

/-- The `k`-th strike against a foe that has had `v` turns and stamina for `c` of them. -/
theorem blunted_strike {p block : Int} {c g k v : Nat} (hblock : block = if c < v then 1 else 0)
    (hlate : c < v ↔ ¬ k < c + g) :
    Duel.blunted p (c + g) (k + 1) = Duel.blunted p (c + g) k + damage .exact p block := by
  rw [Duel.blunted_succ, hblock]
  by_cases h : k < c + g
  · rw [if_pos h, if_neg (fun hv => hlate.mp hv h), damage_unblocked]
  · rw [if_neg h, if_pos (hlate.mpr h), damage_blocked]

/-- A hit uses the block up. -/
theorem block_used {block : Int} {c v : Nat} (hblock : block = if c < v then 1 else 0) :
    (if 0 < block then 0 else block) = 0 := by
  rw [hblock]
  by_cases h : c < v
  · rw [if_pos h]
    rfl
  · rw [if_neg h]
    rfl

theorem Engaged.ableA (h : Engaged a b f s x) :
    0 < s.a.sta ↔ hadA f x.turns < (a.totalStamina .exact).toNat := by
  have hleft : s.a.sta = a.totalStamina .exact - x.a := h.scored.staA
  have hstrikes := h.strikesA
  omega

theorem Engaged.ableB (h : Engaged a b f s x) :
    0 < s.b.sta ↔ hadB f x.turns < (b.totalStamina .exact).toNat := by
  have hleft : s.b.sta = b.totalStamina .exact - x.b := h.scored.staB
  have hstrikes := h.strikesB
  omega

theorem Engaged.roundA {sa sb : Fighter} (hf : f ≤ 1) (h : Engaged a b f ⟨sa, sb, true⟩ x)
    (hsta : 0 < sa.sta ∨ 0 < sb.sta) :
    Engaged a b f
      ((e.loop .exact (a.totalPower .exact) (b.totalPower .exact)).body ⟨sa, sb, true⟩)
      ((skirmish a b f).loop.body x) := by
  have hableA : 0 < sa.sta ↔ _ := h.ableA
  have hableB : 0 < sb.sta ↔ _ := h.ableB
  obtain ⟨hnear, hscored, hturn, hA, hB, hblockA, hblockB⟩ := h
  have hsched : (skirmish a b f).turnA x.turns = true := hturn.symm
  have hodd : (x.turns + f) % 2 = 1 := of_decide_eq_true hsched
  obtain ⟨hu, hv, huv⟩ := had_turnA hf hodd
  have hnext : (skirmish a b f).turnA (x.turns + 1) = false := decide_eq_false (by omega)
  simp only [Bool.true_eq_false, false_and, if_false, true_and] at hnear hscored hblockA hblockB
  by_cases hable : 0 < sa.sta
  · have hgo := hscored.strikeA hsched hable (blunted_strike hblockB (by omega))
    rw [Duel.body_strikeA hsched (hscored.ableA.mp hable)] at hgo ⊢
    rw [round_strikeA hnear hable]
    refine ⟨hnear, hgo, hnext.symm, ?_, ?_, ?_, ?_⟩ <;>
      simp only [hu, hv, Bool.false_eq_true, false_and, if_false, true_and]
    · omega
    · omega
    · rw [hblockA, if_neg (by omega)]
    · exact block_used hblockB
  · have hgo := hscored.restA hsched hable
    rw [Duel.body_restA hsched (fun h => hable (hscored.ableA.mpr h))] at hgo ⊢
    rw [round_blockA hnear hable]
    refine ⟨hnear, hgo, hnext.symm, ?_, ?_, ?_, ?_⟩ <;>
      simp only [hu, hv, Bool.false_eq_true, false_and, if_false, true_and]
    · omega
    · omega
    · rw [hblockA, if_pos (by omega)]
      rfl
    · -- the foe still has stamina, so it was not blocking
      rw [hblockB, if_neg (by omega)]

theorem Engaged.roundB {sa sb : Fighter} (hf : f ≤ 1) (h : Engaged a b f ⟨sa, sb, false⟩ x)
    (hsta : 0 < sa.sta ∨ 0 < sb.sta) :
    Engaged a b f
      ((e.loop .exact (a.totalPower .exact) (b.totalPower .exact)).body ⟨sa, sb, false⟩)
      ((skirmish a b f).loop.body x) := by
  have hableA : 0 < sa.sta ↔ _ := h.ableA
  have hableB : 0 < sb.sta ↔ _ := h.ableB
  obtain ⟨hnear, hscored, hturn, hA, hB, hblockA, hblockB⟩ := h
  have hsched : (skirmish a b f).turnA x.turns = false := hturn.symm
  have hodd : ¬ (x.turns + f) % 2 = 1 := of_decide_eq_false hsched
  obtain ⟨hu, hv, huv⟩ := had_turnB hf hodd
  have hnext : (skirmish a b f).turnA (x.turns + 1) = true := decide_eq_true (by omega)
  simp only [Bool.false_eq_true, false_and, if_false, true_and] at hnear hscored hblockA hblockB
  by_cases hable : 0 < sb.sta
  · have hgo := hscored.strikeB hsched hable (blunted_strike hblockA (by omega))
    rw [Duel.body_strikeB hsched (hscored.ableB.mp hable)] at hgo ⊢
    rw [round_strikeB hnear hable]
    refine ⟨hnear, hgo, hnext.symm, ?_, ?_, ?_, ?_⟩ <;>
      simp only [hu, hv, Bool.true_eq_false, false_and, if_false, true_and]
    · omega
    · omega
    · exact block_used hblockA
    · rw [hblockB, if_neg (by omega)]
  · have hgo := hscored.restB hsched hable
    rw [Duel.body_restB hsched (fun h => hable (hscored.ableB.mpr h))] at hgo ⊢
    rw [round_blockB hnear hable]
    refine ⟨hnear, hgo, hnext.symm, ?_, ?_, ?_, ?_⟩ <;>
      simp only [hu, hv, Bool.true_eq_false, false_and, if_false, true_and]
    · omega
    · omega
    · rw [hblockA, if_neg (by omega)]
    · rw [hblockB, if_pos (by omega)]
      rfl

/-- **One round at close quarters is one turn of the duel.** -/
theorem Engaged.body (hf : f ≤ 1) (h : Engaged a b f s x)
    (hguard : (e.loop .exact (a.totalPower .exact) (b.totalPower .exact)).guard s = true) :
    Engaged a b f ((e.loop .exact (a.totalPower .exact) (b.totalPower .exact)).body s)
      ((skirmish a b f).loop.body x) := by
  obtain ⟨sa, sb, turn⟩ := s
  obtain ⟨-, -, hsta⟩ : 0 < sa.hp ∧ 0 < sb.hp ∧ (0 < sa.sta ∨ 0 < sb.sta) :=
    of_decide_eq_true hguard
  cases turn with
  | true => exact h.roundA hf hsta
  | false => exact h.roundB hf hsta

/-- The thirteen turns of the approach turn the first turn of the battle over. -/
def closeFirst (a b : CreatureStats) (seed : BitVec 32) : Nat := if aFirst a b seed then 0 else 1

theorem engaged_begin {p q : Position} (hnear : distance p q ≤ 1) (seed : BitVec 32) :
    Engaged a b (closeFirst a b seed)
      ⟨{ clearBoard.enter .exact a ⟨0, 0⟩ with pos := p },
        { clearBoard.enter .exact b ⟨7, 7⟩ with pos := q }, aFirst a b seed ^^ true⟩
      Duel.begin := by
  have hzero : ∀ power c, Duel.blunted power c 0 = 0 := by
    intro power c
    simp [Duel.blunted]
  refine ⟨hnear, ⟨?_, ?_, ?_, ?_⟩, ?_, ?_, ?_, ?_, ?_⟩
  · simp only [Duel.leftA, skirmish, Duel.begin, hzero, Int.sub_zero]
    rfl
  · simp only [Duel.leftB, skirmish, Duel.begin, hzero, Int.sub_zero]
    rfl
  · simp only [skirmish, Duel.begin, Int.natCast_zero, Int.sub_zero]
    rfl
  · simp only [skirmish, Duel.begin, Int.natCast_zero, Int.sub_zero]
    rfl
  all_goals
    unfold closeFirst Duel.begin
    cases aFirst a b seed <;> simp [skirmish, enter, hadA, hadB]

/-- **On the empty board a battle is a duel in alternate turns**, begun by the creature that does
not have the first turn of the battle. -/
theorem fight_engages {seed : BitVec 32} {n : Nat} {w : BitVec 32}
    (h : clearBoard.fight .exact a b seed n = some w)
    (hguard : (clearBoard.loop .exact (a.totalPower .exact) (b.totalPower .exact)).guard
      (clearBoard.start .exact a b seed) = true) :
    ∃ x, (skirmish a b (closeFirst a b seed)).loop.Returns Duel.begin x ∧
      w = if (skirmish a b (closeFirst a b seed)).leftB x ≤
          (skirmish a b (closeFirst a b seed)).leftA x then a.id else b.id := by
  obtain ⟨r, hrun, hw⟩ := fight_eq_some.mp h
  have hfirst : Position.OnBoard ⟨0, 0⟩ := by unfold Position.OnBoard; decide
  have hlast : Position.OnBoard ⟨7, 7⟩ := by unfold Position.OnBoard; decide
  obtain ⟨p, q, hnear, hmeet⟩ := clear_board_meet 13
    (s := clearBoard.start .exact a b seed) hfirst hlast rfl hguard ⟨n, hrun⟩
  have hf : closeFirst a b seed ≤ 1 := by
    unfold closeFirst
    split <;> omega
  obtain ⟨x, hx, hengaged⟩ := hmeet.simulation (Engaged a b (closeFirst a b seed))
    (fun s y hsy => hsy.scored.guard) (fun s y hsy hgoes => hsy.body hf hgoes)
    (engaged_begin hnear seed)
  refine ⟨x, hx, ?_⟩
  rw [← hw, winner, hengaged.scored.hpA, hengaged.scored.hpB]

end BattleEngine

end ChainBeasts.Battle
