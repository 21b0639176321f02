import ChainBeasts.Battle.Encounter
import ChainBeasts.Battle.Standoff

/-! # A stronger creature does not lose

A fight that a creature wins is compared with the same fight after its power or its hit points are
raised. The turns and the way across the board are those of the first fight, only the hit points
drift apart (`Leads`), so the second fight can do no more than end early, with the other creature
down (`While.Loop.run_overtake`). -/

namespace ChainBeasts.Battle

/-! ## Two fights side by side -/

/-- `f'` stands where `f` does, with as much stamina and block. -/
structure Fighter.Alike (f f' : Fighter) : Prop where
  pos : f'.pos = f.pos
  sta : f'.sta = f.sta
  block : f'.block = f.block

/-- `f'` and `g'` are `f` and `g` up to the hit points, of which `f'` has no fewer and `g'` no
more. -/
structure Leads (f g f' g' : Fighter) : Prop where
  left : f.Alike f'
  right : g.Alike g'
  more : f.hp ≤ f'.hp
  fewer : g'.hp ≤ g.hp

/-- Read the other way, it is the creature on the right that leads. -/
theorem Leads.swap {f g f' g' : Fighter} (h : Leads f g f' g') : Leads g' f' g f where
  left := ⟨h.right.pos.symm, h.right.sta.symm, h.right.block.symm⟩
  right := ⟨h.left.pos.symm, h.left.sta.symm, h.left.block.symm⟩
  more := h.fewer
  fewer := h.more

/-- `t` is a state of a second fight, in which `a` has done no worse than in the first one. -/
structure Fight.Favours (s t : Fight) : Prop where
  turn : t.aTurn = s.aTurn
  leads : Leads s.a s.b t.a t.b

namespace BattleEngine

variable {e : BattleEngine} {power power' powerA powerA' powerB powerB' : Int}
  {me me' foe foe' : Fighter} {s t : Fight}

theorem damage_mono (hpower : power ≤ power') (block : Int) :
    damage .exact power block ≤ damage .exact power' block := by
  unfold damage IntArith.exact
  grind

theorem tread_mono (e : BattleEngine) {hp hp' : Int} (h : hp ≤ hp') (p : Position) :
    tread .exact e p hp ≤ tread .exact e p hp' := by
  unfold tread IntArith.exact
  grind

/-- A turn of no less power keeps the lead of the creature that takes it. -/
theorem take_turn_leads (e : BattleEngine) (hpower : power ≤ power')
    (h : Leads me foe me' foe') :
    Leads (takeTurn .exact e power me foe).1 (takeTurn .exact e power me foe).2
      (takeTurn .exact e power' me' foe').1 (takeTurn .exact e power' me' foe').2 := by
  obtain ⟨p, hp, sta, block⟩ := me
  obtain ⟨q, hq, staq, blockq⟩ := foe
  obtain ⟨p', hp', sta', block'⟩ := me'
  obtain ⟨q', hq', staq', blockq'⟩ := foe'
  obtain ⟨⟨hpos, hsta, hblock⟩, ⟨hposq, hstaq, hblockq⟩, hmore, hfewer⟩ := h
  cases hpos
  cases hsta
  cases hblock
  cases hposq
  cases hstaq
  cases hblockq
  by_cases hnear : distance p q ≤ 1
  · by_cases hable : 0 < sta
    · rw [take_turn_strike hnear hable, take_turn_strike hnear hable]
      refine ⟨⟨rfl, rfl, rfl⟩, ⟨rfl, rfl, rfl⟩, hmore, ?_⟩
      show hq' - damage .exact power' blockq ≤ hq - damage .exact power blockq
      exact Int.sub_le_sub hfewer (damage_mono hpower blockq)
    · rw [take_turn_block hnear hable, take_turn_block hnear hable]
      exact ⟨⟨rfl, rfl, rfl⟩, ⟨rfl, rfl, rfl⟩, hmore, hfewer⟩
  · have hfar : 1 < distance p q := Nat.lt_of_not_le hnear
    cases hstep : e.advance p q with
    | some r =>
        rw [take_turn_step hfar hstep, take_turn_step hfar hstep]
        exact ⟨⟨rfl, rfl, rfl⟩, ⟨rfl, rfl, rfl⟩, tread_mono e hmore r, hfewer⟩
    | none =>
        rw [take_turn_blocked hfar hstep, take_turn_blocked hfar hstep]
        exact ⟨⟨rfl, rfl, rfl⟩, ⟨rfl, rfl, rfl⟩, hmore, hfewer⟩

theorem body_favours (hA : powerA ≤ powerA') (hB : powerB' ≤ powerB) (h : s.Favours t) :
    ((e.loop .exact powerA powerB).body s).Favours ((e.loop .exact powerA' powerB').body t) := by
  obtain ⟨a, b, turn⟩ := s
  obtain ⟨a', b', turn'⟩ := t
  obtain ⟨hturn, hleads⟩ := h
  cases hturn
  cases turn with
  | true => exact ⟨rfl, take_turn_leads e hA hleads⟩
  | false => exact ⟨rfl, (take_turn_leads e hB hleads.swap).swap⟩

/-! ## Training -/

end BattleEngine

/-- `c'` is `c` with its total power or its total defense raised. -/
structure CreatureStats.Raised (c c' : CreatureStats) : Prop where
  id : c'.id = c.id
  power : c.totalPower .exact ≤ c'.totalPower .exact
  defense : c.totalDefense .exact ≤ c'.totalDefense .exact
  stamina : c'.totalStamina .exact = c.totalStamina .exact

theorem CreatureStats.Raised.refl (c : CreatureStats) : c.Raised c where
  id := rfl
  power := Int.le_refl _
  defense := Int.le_refl _
  stamina := rfl

namespace BattleEngine

variable {e : BattleEngine} {powerA powerA' powerB powerB' : Int} {s t : Fight}
  {a a' b b' : CreatureStats} {seed : BitVec 32}

theorem enter_alike {c c' : CreatureStats} (h : c.Raised c') (p : Position) :
    (e.enter .exact c p).Alike (e.enter .exact c' p) where
  pos := rfl
  sta := h.stamina
  block := rfl

theorem enter_le {c c' : CreatureStats} (h : c.Raised c') (p : Position) :
    (e.enter .exact c p).hp ≤ (e.enter .exact c' p).hp :=
  tread_mono e h.defense p

theorem start_favours (ha : a.Raised a') (hb : b'.Raised b) :
    (e.start .exact a b seed).Favours (e.start .exact a' b' seed) where
  turn := by
    show aFirst a' b' seed = aFirst a b seed
    unfold aFirst
    rw [ha.id, hb.id]
  leads := by
    have hright : Leads (e.enter .exact b' ⟨7, 7⟩) (e.enter .exact a ⟨0, 0⟩)
        (e.enter .exact b ⟨7, 7⟩) (e.enter .exact a ⟨0, 0⟩) :=
      ⟨enter_alike hb _, enter_alike (.refl a) _, enter_le hb _, Int.le_refl _⟩
    exact ⟨enter_alike ha _, hright.swap.right, enter_le ha _, hright.more⟩

/-! ## The end of the fights -/

theorem guard_eq_true {s : Fight} :
    (e.loop .exact powerA powerB).guard s = true ↔
      0 < s.a.hp ∧ 0 < s.b.hp ∧ (0 < s.a.sta ∨ 0 < s.b.sta) :=
  decide_eq_true_iff

/-- Where the first fight is over and `a` ahead, the second one is over too and `a` ahead. -/
theorem ahead_last (h : s.Favours t) (hstop : (e.loop .exact powerA powerB).guard s = false)
    (hwon : s.b.hp ≤ s.a.hp) :
    (e.loop .exact powerA' powerB').guard t = false ∧ t.b.hp ≤ t.a.hp := by
  rw [← Bool.not_eq_true, guard_eq_true] at hstop ⊢
  obtain ⟨_, ⟨_, hstaA, _⟩, ⟨_, hstaB, _⟩, hmore, hfewer⟩ := h
  rw [hstaA, hstaB]
  omega

/-- Where the second fight alone is over, `b` is down. -/
theorem ahead_early (h : s.Favours t) (hon : (e.loop .exact powerA powerB).guard s = true)
    (hstop : (e.loop .exact powerA' powerB').guard t = false) : t.b.hp ≤ t.a.hp := by
  rw [← Bool.not_eq_true, guard_eq_true] at hstop
  rw [guard_eq_true] at hon
  obtain ⟨_, ⟨_, hstaA, _⟩, ⟨_, hstaB, _⟩, hmore, hfewer⟩ := h
  rw [hstaA, hstaB] at hstop
  omega

/-- The same, seen by the one who is behind in the second fight. -/
theorem behind_last (h : t.Favours s) (hstop : (e.loop .exact powerA powerB).guard s = false)
    (hwon : s.a.hp < s.b.hp) :
    (e.loop .exact powerA' powerB').guard t = false ∧ t.a.hp < t.b.hp := by
  rw [← Bool.not_eq_true, guard_eq_true] at hstop ⊢
  obtain ⟨_, ⟨_, hstaA, _⟩, ⟨_, hstaB, _⟩, hmore, hfewer⟩ := h
  rw [← hstaA, ← hstaB]
  omega

theorem behind_early (h : t.Favours s) (hon : (e.loop .exact powerA powerB).guard s = true)
    (hstop : (e.loop .exact powerA' powerB').guard t = false) : t.a.hp < t.b.hp := by
  rw [← Bool.not_eq_true, guard_eq_true] at hstop
  rw [guard_eq_true] at hon
  obtain ⟨_, ⟨_, hstaA, _⟩, ⟨_, hstaB, _⟩, hmore, hfewer⟩ := h
  rw [← hstaA, ← hstaB] at hstop
  omega

/-- An `a` that ends ahead also ends ahead after training, and no later. -/
theorem run_raised_left {n : Nat} {r : Fight} (h : a.Raised a')
    (hrun : (e.loop .exact (a.totalPower .exact) (b.totalPower .exact)).run n
      (e.start .exact a b seed) = some r)
    (hwon : r.b.hp ≤ r.a.hp) :
    ∃ r', (e.loop .exact (a'.totalPower .exact) (b.totalPower .exact)).run n
      (e.start .exact a' b seed) = some r' ∧ r'.b.hp ≤ r'.a.hp := by
  apply While.Loop.run_overtake Fight.Favours (fun t => t.b.hp ≤ t.a.hp) ?_ ?_ ?_ hrun
  · exact start_favours h (.refl b)
  · intro s t hst _ _
    exact body_favours h.power (Int.le_refl _) hst
  · intro t hstop ht
    exact ahead_last ht hstop hwon
  · intro s t
    exact ahead_early

/-- A `b` that ends ahead also ends ahead after training, and no later. -/
theorem run_raised_right {n : Nat} {r : Fight} (h : b.Raised b')
    (hrun : (e.loop .exact (a.totalPower .exact) (b.totalPower .exact)).run n
      (e.start .exact a b seed) = some r)
    (hwon : r.a.hp < r.b.hp) :
    ∃ r', (e.loop .exact (a.totalPower .exact) (b'.totalPower .exact)).run n
      (e.start .exact a b' seed) = some r' ∧ r'.a.hp < r'.b.hp := by
  apply While.Loop.run_overtake (fun s t => Fight.Favours t s) (fun t => t.a.hp < t.b.hp)
    ?_ ?_ ?_ hrun
  · exact start_favours (.refl a) h
  · intro s t hst _ _
    exact body_favours (Int.le_refl _) h.power hst
  · intro t hstop ht
    exact behind_last ht hstop hwon
  · intro s t
    exact behind_early

theorem winner_left (hids : a.id ≠ b.id) (s : Fight) : winner a b s = a.id ↔ s.b.hp ≤ s.a.hp := by
  unfold winner
  split
  · next hwon => exact iff_of_true rfl hwon
  · next hlost => exact iff_of_false hids.symm hlost

theorem winner_right (hids : a.id ≠ b.id) (s : Fight) : winner a b s = b.id ↔ s.a.hp < s.b.hp := by
  unfold winner
  split
  · next hwon => exact iff_of_false hids (Int.not_lt.mpr hwon)
  · next hlost => exact iff_of_true rfl (Int.not_le.mp hlost)

/-- **A raise never costs a win.** The creature that wins a fight also wins it, in no more rounds,
with its total power or its total defense raised, in either corner of any board. -/
theorem fight_raised (e : BattleEngine) (a a' b : CreatureStats) (seed : BitVec 32) (n : Nat)
    (hids : a.id ≠ b.id) (hraised : a.Raised a') :
    (e.fight .exact a b seed n = some a.id → e.fight .exact a' b seed n = some a.id) ∧
      (e.fight .exact b a seed n = some a.id → e.fight .exact b a' seed n = some a.id) := by
  have hid := hraised.id
  constructor
  · intro hwins
    obtain ⟨r, hrun, hwinner⟩ := fight_eq_some.mp hwins
    obtain ⟨r', hrun', hwon⟩ := run_raised_left hraised hrun ((winner_left hids r).mp hwinner)
    rw [← hid] at hids ⊢
    exact fight_eq_some.mpr ⟨r', hrun', (winner_left hids r').mpr hwon⟩
  · intro hwins
    obtain ⟨r, hrun, hwinner⟩ := fight_eq_some.mp hwins
    obtain ⟨r', hrun', hwon⟩ :=
      run_raised_right hraised hrun ((winner_right hids.symm r).mp hwinner)
    rw [← hid] at hids ⊢
    exact fight_eq_some.mpr ⟨r', hrun', (winner_right hids.symm r').mpr hwon⟩

/-- Creature 1 beats creature 2, and with a point of power and of defense more it does so again. -/
theorem fight_raised_novice :
    let trained : CreatureStats := ⟨1, 1, 1, 1, [⟨0, 1, 1, 0⟩]⟩
    clearBoard.fight .exact (novice 1) (novice 2) 0 20 = some 1 ∧
      clearBoard.fight .exact trained (novice 2) 0 20 = some 1 := by
  have hwins : clearBoard.fight .exact (novice 1) (novice 2) 0 20 = some 1 := by decide
  have hraised : (novice 1).Raised ⟨1, 1, 1, 1, [⟨0, 1, 1, 0⟩]⟩ := by
    refine ⟨rfl, ?_, ?_, rfl⟩
    · decide
    · decide
  exact ⟨hwins, (fight_raised clearBoard (novice 1) _ (novice 2) 0 20 (by decide) hraised).1 hwins⟩

end BattleEngine

end ChainBeasts.Battle
