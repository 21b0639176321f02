import ChainBeasts.Battle.Agreement

/-! # Battle animations

`BattleAnimator` of `neuropet/battle_animation.hpp`: `run` plays the rule of the matchmaker contract
and records a frame for every strike, `replay` goes through the frames without the coin. As long as
no `int` overflows, `run` goes through the states of the contract's `_fight`, turn by turn
(`run_lockstep`), and what it recorded replays to its winner (`replay_recorded`).

`replay` says 0 to a frame that does not follow, but it does not ask whether the battle was over
after the last frame, nor whether it was over before (`replay_sound_iff`). -/

namespace ChainBeasts.Battle

structure BattleFrame where
  attackerIsA : Bool
  hpA : Int
  hpB : Int
  staminaA : Int
  staminaB : Int
  deriving DecidableEq

structure BattleAnimator where
  frames : List BattleFrame
  winner : BitVec 32
  deriving DecidableEq

namespace BattleAnimator

/-! ## The source -/

/-- The local variables that `run` and `replay` share. -/
structure Score where
  hpA : Int
  hpB : Int
  staA : Int
  staB : Int

def opening (I : IntArith) (a b : CreatureStats) : Score where
  hpA := a.totalDefense I
  hpB := b.totalDefense I
  staA := a.totalStamina I
  staB := b.totalStamina I

namespace Score

/-- One side's strike on the other. -/
def strike (I : IntArith) (a b : CreatureStats) (attackerIsA : Bool) (x : Score) : Score :=
  if attackerIsA then
    { x with hpB := I.wrap (x.hpB - a.totalPower I), staA := I.wrap (x.staA - 1) }
  else { x with hpA := I.wrap (x.hpA - b.totalPower I), staB := I.wrap (x.staB - 1) }

def frame (attackerIsA : Bool) (x : Score) : BattleFrame :=
  ⟨attackerIsA, x.hpA, x.hpB, x.staA, x.staB⟩

/-- `(hpA >= hpB) ? a.id : b.id`. -/
def winner (a b : CreatureStats) (x : Score) : BitVec 32 := if x.hpA ≥ x.hpB then a.id else b.id

/-- Where `replay` leaves its loop. -/
def Decided (x : Score) : Prop := x.hpA ≤ 0 ∨ x.hpB ≤ 0 ∨ (x.staA ≤ 0 ∧ x.staB ≤ 0)

instance (x : Score) : Decidable x.Decided := inferInstanceAs (Decidable (_ ∨ _ ∨ _))

end Score

/-- The lambda `rng`. -/
def rng (state : BitVec 32) : BitVec 32 :=
  let state := state ^^^ (state <<< 13)
  let state := state ^^^ (state >>> 17)
  state ^^^ (state <<< 5)

/-- The variables of `run`. -/
structure Recording where
  score : Score
  state : BitVec 32
  turn : Bool
  frames : List BattleFrame

def Recording.attack (I : IntArith) (a b : CreatureStats) (attackerIsA : Bool) (s : Recording) :
    Recording :=
  let score := s.score.strike I a b attackerIsA
  { s with score, frames := s.frames ++ [score.frame attackerIsA] }

def loop (I : IntArith) (a b : CreatureStats) : While.Loop Recording where
  guard s := decide (0 < s.score.hpA ∧ 0 < s.score.hpB ∧ (0 < s.score.staA ∨ 0 < s.score.staB))
  body s :=
    let s :=
      if s.turn = true ∧ 0 < s.score.staA then s.attack I a b true
      else if s.turn = false ∧ 0 < s.score.staB then s.attack I a b false
      else s
    let state := rng s.state
    { s with state, turn := decide (state &&& 1 ≠ 0) }

def start (I : IntArith) (a b : CreatureStats) (seed : BitVec 32) : Recording :=
  let state := rng (if seed ≠ 0 then seed else a.id ^^^ b.id)
  ⟨opening I a b, state, decide (state &&& 1 ≠ 0), []⟩

/-- The animator after `run(a, b, seed)`, given up after `n` rounds of its loop. -/
def run (I : IntArith) (a b : CreatureStats) (seed : BitVec 32) (n : Nat) : Option BattleAnimator :=
  ((loop I a b).run n (start I a b seed)).map fun s => ⟨s.frames, s.score.winner a b⟩

/-- One frame of `replay`: the score after it, unless the frame is inconsistent. -/
def follow (I : IntArith) (a b : CreatureStats) (x : Score) (f : BattleFrame) : Option Score :=
  if (if f.attackerIsA then x.staA else x.staB) ≤ 0 then none
  else
    let x := x.strike I a b f.attackerIsA
    if f.hpA ≠ x.hpA ∨ f.hpB ≠ x.hpB ∨ f.staminaA ≠ x.staA ∨ f.staminaB ≠ x.staB then none
    else some x

/-- The loop of `replay`. -/
def replayFrom (I : IntArith) (a b : CreatureStats) : Score → List BattleFrame → BitVec 32
  | x, [] => x.winner a b
  | x, f :: frames =>
    match follow I a b x f with
    | none => 0
    | some x => if x.Decided then x.winner a b else replayFrom I a b x frames

def replay (I : IntArith) (a b : CreatureStats) (frames : List BattleFrame) : BitVec 32 :=
  replayFrom I a b (opening I a b) frames

/-! ## One turn -/

variable {I : IntArith} {a b : CreatureStats} {s : Recording} {x : Score}

/-- The stamina of the side whose turn it is. -/
def Recording.able (s : Recording) : Prop := 0 < if s.turn then s.score.staA else s.score.staB

instance (s : Recording) : Decidable s.able := inferInstanceAs (Decidable (_ < _))

/-- A side with stamina left strikes on its turn, and otherwise only the coin is tossed. -/
theorem body_eq : (loop I a b).body s =
    { (if s.able then s.attack I a b s.turn else s) with
      state := rng s.state, turn := decide (rng s.state &&& 1 ≠ 0) } := by
  obtain ⟨x, state, turn, frames⟩ := s
  unfold loop Recording.able
  cases turn with
  | true =>
      by_cases hable : 0 < x.staA
      · simp only [hable, and_self, if_true]
        rfl
      · simp only [hable, and_false, if_false, Bool.true_eq_false, false_and, if_true]
  | false =>
      by_cases hable : 0 < x.staB
      · simp only [hable, Bool.false_eq_true, false_and, and_self, if_false, if_true]
        rfl
      · simp only [hable, Bool.false_eq_true, false_and, and_false, if_false]

theorem guard_iff : (loop I a b).guard s = true ↔ ¬ s.score.Decided := by
  unfold loop Score.Decided
  rw [decide_eq_true_iff]
  omega

/-! ## Replaying a record -/

/-- The frame of a strike follows. -/
theorem follow_attack (hable : s.able) :
    follow I a b s.score ((s.score.strike I a b s.turn).frame s.turn) =
      some (s.score.strike I a b s.turn) := by
  have hsta : ¬ (if s.turn then s.score.staA else s.score.staB) ≤ 0 := Int.not_le.mpr hable
  simp only [follow, Score.frame, ne_eq, not_true_eq_false, or_self, if_false]
  exact if_neg hsta

/-- `replay` is as far as `run`: the frames so far lead to the score at hand, and as long as the
battle is undecided more frames go on from there. -/
structure UpToDate (I : IntArith) (a b : CreatureStats) (s : Recording) : Prop where
  result : replay I a b s.frames = s.score.winner a b
  more : ¬ s.score.Decided → ∀ frames,
    replay I a b (s.frames ++ frames) = replayFrom I a b s.score frames

theorem upToDate_body (hguard : (loop I a b).guard s = true) (hs : UpToDate I a b s) :
    UpToDate I a b ((loop I a b).body s) := by
  have hopen := guard_iff.mp hguard
  rw [body_eq]
  by_cases hable : s.able
  · rw [if_pos hable]
    have hstep : ∀ frames,
        replay I a b (s.frames ++ (s.score.strike I a b s.turn).frame s.turn :: frames) =
          if (s.score.strike I a b s.turn).Decided then
            (s.score.strike I a b s.turn).winner a b
          else replayFrom I a b (s.score.strike I a b s.turn) frames := by
      intro frames
      rw [hs.more hopen, replayFrom, follow_attack hable]
    constructor
    · show replay I a b (s.frames ++ [_]) = (s.score.strike I a b s.turn).winner a b
      rw [hstep]
      split <;> rfl
    · intro hopen' frames
      show replay I a b ((s.frames ++ [_]) ++ frames) =
        replayFrom I a b (s.score.strike I a b s.turn) frames
      rw [List.append_assoc, List.singleton_append, hstep]
      exact if_neg hopen'
  · rw [if_neg hable]
    exact ⟨hs.result, hs.more⟩

/-- **A recorded battle replays to its winner**, however its integers overflow. -/
theorem replay_recorded {I : IntArith} {a b : CreatureStats} {seed : BitVec 32} {n : Nat}
    {anim : BattleAnimator} (h : run I a b seed n = some anim) :
    replay I a b anim.frames = anim.winner := by
  obtain ⟨s, hrun, rfl⟩ := Option.map_eq_some_iff.mp h
  have hstart : UpToDate I a b (start I a b seed) := ⟨rfl, fun _ _ => rfl⟩
  have hreturns : (loop I a b).Returns (start I a b seed) s := ⟨n, hrun⟩
  exact (hreturns.induction _ hstart fun t hg ht => upToDate_body hg ht).1.result

/-- Creature 1 has the first turn, and one strike is enough. -/
theorem replay_recorded_novices :
    replay .int32 (BattleEngine.novice 1) (BattleEngine.novice 2) [⟨true, 1, 0, 0, 1⟩] = 1 := by
  have hrun : run .int32 (BattleEngine.novice 1) (BattleEngine.novice 2) 0 9 =
      some ⟨[⟨true, 1, 0, 0, 1⟩], 1⟩ := by
    decide
  exact replay_recorded hrun

/-! ## Complete records -/

/-- The score after all of `frames`, unless one of them is inconsistent. -/
def play (I : IntArith) (a b : CreatureStats) : Score → List BattleFrame → Option Score
  | x, [] => some x
  | x, f :: frames => (follow I a b x f).bind fun x => play I a b x frames

/-- The frames follow one by one and decide the battle, with the last of them and not before. -/
structure Complete (I : IntArith) (a b : CreatureStats) (frames : List BattleFrame) : Prop where
  decided : ∃ x, play I a b (opening I a b) frames = some x ∧ x.Decided
  first : ∀ part, part <+: frames → part ≠ frames → ∀ x,
    play I a b (opening I a b) part = some x → ¬ x.Decided

/-- The frames follow one by one, and the battle is still undecided. -/
def Truncated (I : IntArith) (a b : CreatureStats) (frames : List BattleFrame) : Prop :=
  ∃ x, play I a b (opening I a b) frames = some x ∧ ¬ x.Decided

/-- There are frames after one that decides the battle, or frames that follow one by one from a
battle that was decided from the first. -/
def Overrun (I : IntArith) (a b : CreatureStats) (frames : List BattleFrame) : Prop :=
  (∃ part, part <+: frames ∧ part ≠ frames ∧ part ≠ [] ∧
    ∃ x, play I a b (opening I a b) part = some x ∧ x.Decided) ∨
  ((opening I a b).Decided ∧ frames ≠ [] ∧ ∃ x, play I a b (opening I a b) frames = some x)

theorem play_cons_eq_some {y : Score} {f : BattleFrame} {frames : List BattleFrame} :
    play I a b x (f :: frames) = some y ↔
      ∃ z, follow I a b x f = some z ∧ play I a b z frames = some y :=
  Option.bind_eq_some_iff

/-- The frames follow one by one to the end, or up to one that decides the battle, whatever comes
after that one. -/
def Accepted (I : IntArith) (a b : CreatureStats) (x : Score) (frames : List BattleFrame) : Prop :=
  (∃ y, play I a b x frames = some y) ∨
    ∃ part, part <+: frames ∧ part ≠ [] ∧ ∃ y, play I a b x part = some y ∧ y.Decided

section Accepted

variable {a b : CreatureStats} {x z : Score} {f : BattleFrame}

theorem not_accepted_cons (hfollow : follow I a b x f = none) (frames : List BattleFrame) :
    ¬ Accepted I a b x (f :: frames) := by
  have hstuck : ∀ rest y, play I a b x (f :: rest) ≠ some y := by
    intro rest y h
    obtain ⟨z, hz, -⟩ := play_cons_eq_some.mp h
    rw [hfollow] at hz
    cases hz
  rintro (⟨y, hy⟩ | ⟨part, hpart, hne, y, hy, -⟩)
  · exact hstuck frames y hy
  · obtain ⟨rest, rfl, -⟩ := (List.prefix_cons_iff.mp hpart).resolve_left hne
    exact hstuck rest y hy

theorem play_cons (hfollow : follow I a b x f = some z) (frames : List BattleFrame) :
    play I a b x (f :: frames) = play I a b z frames := by
  rw [play, hfollow, Option.bind_some]

theorem accepted_cons_of_decided (hfollow : follow I a b x f = some z) (hdecided : z.Decided)
    (frames : List BattleFrame) : Accepted I a b x (f :: frames) := by
  refine Or.inr ⟨[f], ?_, List.cons_ne_nil _ _, z, ?_, hdecided⟩
  · exact List.cons_prefix_cons.mpr ⟨rfl, List.nil_prefix⟩
  · rw [play_cons hfollow, play]

theorem accepted_cons_iff (hfollow : follow I a b x f = some z) (hopen : ¬ z.Decided)
    (frames : List BattleFrame) : Accepted I a b x (f :: frames) ↔ Accepted I a b z frames := by
  constructor
  · rintro (⟨y, hy⟩ | ⟨part, hpart, hne, y, hy, hend⟩)
    · rw [play_cons hfollow] at hy
      exact Or.inl ⟨y, hy⟩
    · obtain ⟨rest, rfl, hrest⟩ := (List.prefix_cons_iff.mp hpart).resolve_left hne
      rw [play_cons hfollow] at hy
      refine Or.inr ⟨rest, hrest, ?_, y, hy, hend⟩
      -- one frame alone does not decide the battle
      rintro rfl
      cases hy
      exact hopen hend
  · rintro (⟨y, hy⟩ | ⟨part, hpart, -, y, hy, hend⟩)
    · refine Or.inl ⟨y, ?_⟩
      rw [play_cons hfollow, hy]
    · refine Or.inr ⟨f :: part, ?_, List.cons_ne_nil _ _, y, ?_, hend⟩
      · exact List.cons_prefix_cons.mpr ⟨rfl, hpart⟩
      · rw [play_cons hfollow, hy]

theorem winner_ne_zero (ha : a.id ≠ 0) (hb : b.id ≠ 0) (x : Score) : x.winner a b ≠ 0 := by
  unfold Score.winner
  split
  · exact ha
  · exact hb

/-- **What `replay` accepts**, from any score on. -/
theorem replayFrom_ne_zero (ha : a.id ≠ 0) (hb : b.id ≠ 0) (x : Score)
    (frames : List BattleFrame) :
    replayFrom I a b x frames ≠ 0 ↔ Accepted I a b x frames := by
  induction frames generalizing x with
  | nil => exact iff_of_true (winner_ne_zero ha hb x) (Or.inl ⟨x, rfl⟩)
  | cons f frames ih =>
      cases hfollow : follow I a b x f with
      | none =>
          simp only [replayFrom, hfollow]
          exact iff_of_false (fun h => h rfl) (not_accepted_cons hfollow frames)
      | some z =>
          simp only [replayFrom, hfollow]
          by_cases hdecided : z.Decided
          · rw [if_pos hdecided]
            exact iff_of_true (winner_ne_zero ha hb z)
              (accepted_cons_of_decided hfollow hdecided frames)
          · rw [if_neg hdecided, accepted_cons_iff hfollow hdecided]
            exact ih z

end Accepted

/-- **When `replay` is sound.** It accepts only complete records, unless what it is given is a record
that breaks off before the battle is decided, or one that goes on afterwards. -/
theorem replay_sound_iff (I : IntArith) {a b : CreatureStats} (ha : a.id ≠ 0) (hb : b.id ≠ 0)
    (frames : List BattleFrame) :
    (replay I a b frames ≠ 0 → Complete I a b frames) ↔
      ¬ Truncated I a b frames ∧ ¬ Overrun I a b frames := by
  have haccepts := replayFrom_ne_zero (I := I) ha hb (opening I a b) frames
  constructor
  · intro hsound
    refine ⟨?_, ?_⟩
    · rintro ⟨x, hx, hopen⟩
      obtain ⟨y, hy, hend⟩ := (hsound (haccepts.mpr (Or.inl ⟨x, hx⟩))).decided
      cases hx.symm.trans hy
      exact hopen hend
    · rintro (⟨part, hpart, hproper, hne, hend⟩ | ⟨hover, hne, hlegal⟩)
      · obtain ⟨x, hx, hdecided⟩ := hend
        have hcomplete := hsound (haccepts.mpr (Or.inr ⟨part, hpart, hne, x, hx, hdecided⟩))
        exact hcomplete.first part hpart hproper x hx hdecided
      · have hcomplete := hsound (haccepts.mpr (Or.inl hlegal))
        exact hcomplete.first [] List.nil_prefix (Ne.symm hne) _ rfl hover
  · rintro ⟨htruncated, hoverrun⟩ haccepted
    have hlegal : ∃ x, play I a b (opening I a b) frames = some x := by
      rcases haccepts.mp haccepted with h | ⟨part, hpart, hne, x, hx, hend⟩
      · exact h
      · by_cases hwhole : part = frames
        · exact ⟨x, hwhole ▸ hx⟩
        · exact absurd (Or.inl ⟨part, hpart, hwhole, hne, x, hx, hend⟩) hoverrun
    obtain ⟨x, hx⟩ := hlegal
    constructor
    · refine ⟨x, hx, ?_⟩
      by_contra hopen
      exact htruncated ⟨x, hx, hopen⟩
    · intro part hpart hproper y hy hend
      apply hoverrun
      by_cases hne : part = []
      · subst hne
        cases hy
        exact Or.inr ⟨hend, Ne.symm hproper, x, hx⟩
      · exact Or.inl ⟨part, hpart, hproper, hne, y, hy, hend⟩

/-- A frame that does not follow is rejected. -/
theorem replay_sound_novices :
    (replay .int32 (BattleEngine.novice 1) (BattleEngine.novice 2) [⟨true, 1, 1, 0, 1⟩] ≠ 0 →
        Complete .int32 (BattleEngine.novice 1) (BattleEngine.novice 2) [⟨true, 1, 1, 0, 1⟩]) ↔
      ¬ Truncated .int32 (BattleEngine.novice 1) (BattleEngine.novice 2) [⟨true, 1, 1, 0, 1⟩] ∧
        ¬ Overrun .int32 (BattleEngine.novice 1) (BattleEngine.novice 2) [⟨true, 1, 1, 0, 1⟩] :=
  replay_sound_iff .int32 (by decide) (by decide) _

/-- The empty record of a battle that has not begun makes creature 1 its winner. -/
theorem empty_record_accepted :
    ¬ (replay .int32 (BattleEngine.novice 1) (BattleEngine.novice 2) [] ≠ 0 →
      Complete .int32 (BattleEngine.novice 1) (BattleEngine.novice 2) []) := by
  intro h
  obtain ⟨x, hx, hdecided⟩ := (h (by decide)).decided
  cases hx
  revert hdecided
  decide

/-! ## The contract's fight -/

section Contract

variable {a b : Matchmaker.Stats} {s : Recording}

/-- The value is one of a 32-bit `int`. -/
def IsInt (x : Int) : Prop := -2 ^ 31 ≤ x ∧ x < 2 ^ 31

/-- `int` has 32 bits. -/
def Is32Bit (I : IntArith) : Prop := ∀ x, IsInt x → I.wrap x = x

/-- The recording without its frames, as the variables of `_fight`. -/
def Recording.onChain (s : Recording) : Matchmaker.Fight where
  hpA := s.score.hpA
  hpB := s.score.hpB
  staA := s.score.staA
  staB := s.score.staB
  state := s.state
  turn := s.turn

/-- The strike of this turn, if there is one, leaves hit points that fit an `int`. -/
def Recording.StrikeFits (I : IntArith) (a b : CreatureStats) (s : Recording) : Prop :=
  s.able → IsInt (if s.turn then s.score.hpB - a.totalPower I else s.score.hpA - b.totalPower I)

/-- `run` stays within 32-bit integers. -/
def RunFits (I : IntArith) (a b : CreatureStats) (seed : BitVec 32) : Prop :=
  ∀ n s, (loop I a b).reach n (start I a b seed) = some s → (loop I a b).guard s = true →
    s.StrikeFits I a b

theorem rng_eq : rng = Matchmaker.rng := rfl

theorem onChain_start (I : IntArith) (a b : Matchmaker.Stats) (seed : BitVec 32) :
    (start I a.engine b.engine seed).onChain = Matchmaker.start a b seed := rfl

/-- A strike that fits is the contract's. -/
theorem onChain_body (hI : Is32Bit I) (hfits : s.StrikeFits I a.engine b.engine)
    (hstaA : s.score.staA < 2 ^ 31) (hstaB : s.score.staB < 2 ^ 31) :
    ((loop I a.engine b.engine).body s).onChain = (Matchmaker.loop a b).body s.onChain := by
  have hpowerA : a.engine.totalPower I = a.power.toInt := rfl
  have hpowerB : b.engine.totalPower I = b.power.toInt := rfl
  obtain ⟨x, state, turn, frames⟩ := s
  unfold Recording.StrikeFits Recording.able at hfits
  cases turn with
  | true =>
      by_cases hable : 0 < x.staA
      · have hhp := hI _ (hfits hable)
        have hsta : I.wrap (x.staA - 1) = x.staA - 1 := hI _ ⟨by omega, by simp at hstaA; omega⟩
        simp only [if_true, hpowerA] at hhp
        simp only [loop, Matchmaker.loop, Recording.onChain, Recording.attack, Score.strike, hable,
          and_self, if_true, hhp, hsta, hpowerA, rng_eq]
      · simp only [loop, Matchmaker.loop, Recording.onChain, hable, and_false, if_false,
          Bool.true_eq_false, false_and, rng_eq]
  | false =>
      by_cases hable : 0 < x.staB
      · have hhp := hI _ (hfits hable)
        have hsta : I.wrap (x.staB - 1) = x.staB - 1 := hI _ ⟨by omega, by simp at hstaB; omega⟩
        simp only [Bool.false_eq_true, if_false, hpowerB] at hhp
        simp only [loop, Matchmaker.loop, Recording.onChain, Recording.attack, Score.strike, hable,
          Bool.false_eq_true, false_and, and_self, if_false, if_true, hhp, hsta, hpowerB, rng_eq]
      · simp only [loop, Matchmaker.loop, Recording.onChain, hable, Bool.false_eq_true, false_and,
          and_false, if_false, rng_eq]

/-- Stamina only falls. -/
theorem reach_stamina {seed : BitVec 32} {n : Nat} (hI : Is32Bit I)
    (hs : (loop I a.engine b.engine).reach n (start I a.engine b.engine seed) = some s) :
    s.score.staA < 2 ^ 31 ∧ s.score.staB < 2 ^ 31 := by
  apply While.Loop.reach_induction (fun t => t.score.staA < 2 ^ 31 ∧ t.score.staB < 2 ^ 31) hs
  · have hA := a.stamina.toInt_lt
    have hB := b.stamina.toInt_lt
    exact ⟨hA, hB⟩
  · rintro t - ⟨hA, hB⟩
    rw [body_eq]
    by_cases hable : t.able
    · rw [if_pos hable]
      unfold Recording.able at hable
      unfold Recording.attack Score.strike
      cases hturn : t.turn with
      | true =>
          simp only [hturn, if_true] at hable
          have hsta : I.wrap (t.score.staA - 1) = t.score.staA - 1 := hI _ ⟨by omega, by omega⟩
          simp only [if_true, hsta]
          exact ⟨by omega, hB⟩
      | false =>
          simp only [hturn, Bool.false_eq_true, if_false] at hable
          have hsta : I.wrap (t.score.staB - 1) = t.score.staB - 1 := hI _ ⟨by omega, by omega⟩
          simp only [Bool.false_eq_true, if_false, hsta]
          exact ⟨hA, by omega⟩
    · rw [if_neg hable]
      exact ⟨hA, hB⟩

/-- **The animation follows the contract**, from guard to guard: a run that stays within 32 bits is
in the contract's state each time, ends after as many turns, and names the same winner. -/
theorem run_lockstep {I : IntArith} (hI : Is32Bit I) {a b : Matchmaker.Stats} {seed : BitVec 32}
    (hfits : RunFits I a.engine b.engine seed) (n : Nat) :
    ((loop I a.engine b.engine).reach n (start I a.engine b.engine seed)).map Recording.onChain =
        (Matchmaker.loop a b).reach n (Matchmaker.start a b seed) ∧
      (run I a.engine b.engine seed n).map winner = Matchmaker.fight a b seed n := by
  have hguard : ∀ n t, (loop I a.engine b.engine).reach n (start I a.engine b.engine seed) = some t →
      (loop I a.engine b.engine).guard t = (Matchmaker.loop a b).guard t.onChain := fun _ _ _ => rfl
  have hbody : ∀ n t, (loop I a.engine b.engine).reach n (start I a.engine b.engine seed) = some t →
      (loop I a.engine b.engine).guard t = true →
      ((loop I a.engine b.engine).body t).onChain = (Matchmaker.loop a b).body t.onChain := by
    intro n t ht hg
    obtain ⟨hA, hB⟩ := reach_stamina hI ht
    exact onChain_body hI (hfits n t ht hg) hA hB
  refine ⟨While.Loop.reach_map Recording.onChain hguard hbody n, ?_⟩
  have hrun := While.Loop.run_map Recording.onChain hguard hbody n
  rw [onChain_start] at hrun
  rw [run, Matchmaker.fight, ← hrun, Option.map_map, Option.map_map]
  rfl

/-- Creatures whose strikes do not heal never leave the 32 bits: a strike meets a positive number of
hit points. -/
theorem runFits_of_nonneg (hI : Is32Bit I) (ha : 0 ≤ a.power.toInt) (hb : 0 ≤ b.power.toInt)
    (seed : BitVec 32) : RunFits I a.engine b.engine seed := by
  have hpowerA : a.engine.totalPower I = a.power.toInt := rfl
  have hpowerB : b.engine.totalPower I = b.power.toInt := rfl
  have hlt := a.power.toInt_lt
  have hlt' := b.power.toInt_lt
  have hstep : ∀ t : Recording, (loop I a.engine b.engine).guard t = true →
      t.score.hpA < 2 ^ 31 ∧ t.score.hpB < 2 ^ 31 → t.StrikeFits I a.engine b.engine := by
    rintro t hg ⟨hA, hB⟩ -
    have hopen := guard_iff.mp hg
    unfold Score.Decided at hopen
    unfold IsInt
    rw [hpowerA, hpowerB]
    split <;> constructor <;> omega
  intro n s hs hg
  apply hstep s hg
  apply While.Loop.reach_induction (fun t => t.score.hpA < 2 ^ 31 ∧ t.score.hpB < 2 ^ 31) hs
  · exact ⟨a.defense.toInt_lt, b.defense.toInt_lt⟩
  · rintro t hg ⟨hA, hB⟩
    have hfits := hstep t hg ⟨hA, hB⟩
    rw [body_eq]
    by_cases hable : t.able
    · have hhp := hI _ (hfits hable)
      rw [if_pos hable]
      unfold Recording.attack Score.strike
      cases hturn : t.turn with
      | true =>
          simp only [hturn, if_true, hpowerA] at hhp
          simp only [if_true, hpowerA, hhp]
          exact ⟨hA, by omega⟩
      | false =>
          simp only [hturn, Bool.false_eq_true, if_false, hpowerB] at hhp
          simp only [Bool.false_eq_true, if_false, hpowerB, hhp]
          exact ⟨by omega, hB⟩
    · rw [if_neg hable]
      exact ⟨hA, hB⟩

theorem int32_is32Bit : Is32Bit .int32 := by
  rintro x ⟨hlo, hhi⟩
  apply Int.bmod_eq_of_le
  · omega
  · omega

theorem run_lockstep_duellists :
    ((loop .int32 (duellist 1 2).engine (duellist 2 1).engine).reach 2
        (start .int32 (duellist 1 2).engine (duellist 2 1).engine 0)).map Recording.onChain =
      (Matchmaker.loop (duellist 1 2) (duellist 2 1)).reach 2
        (Matchmaker.start (duellist 1 2) (duellist 2 1) 0) ∧
    (run .int32 (duellist 1 2).engine (duellist 2 1).engine 0 2).map winner =
      Matchmaker.fight (duellist 1 2) (duellist 2 1) 0 2 :=
  run_lockstep int32_is32Bit (runFits_of_nonneg int32_is32Bit (by decide) (by decide) 0) 2

end Contract

end BattleAnimator

end ChainBeasts.Battle
