import ChainBeasts.Battle.Arena
import ChainBeasts.Battle.Matches

/-! # The offline simulation

`run_simulation` of `neuropet/simulation.hpp`: creatures with random statistics fight battles between
random pairs of them, on one matchmaker with the default board. The generator is a parameter: a state
and the three kinds of draws that are made from it, with the ranges that the distributions promise.
The training between the two phases touches neither the generator nor the ledger.

The second creature of a pair is drawn again until it is another one, so with a single creature the
first battle never begins; with two or more the simulation ends if the generator is `Fair`
(`run_simulation_ends_iff`). -/

namespace ChainBeasts.Offline

open ChainBeasts.Battle
open ChainBeasts.Onchain (MatchResult)

/-! ## The generator -/

/-- `std::mt19937` under the distributions of the simulation. `dist n` draws from 0 to `n - 1`. -/
structure Rng (G : Type) where
  stat : G → Int × G
  dist : Nat → G → Nat × G
  draw : G → BitVec 32 × G
  stat_mem : ∀ g, 1 ≤ (stat g).1 ∧ (stat g).1 ≤ 10
  dist_lt : ∀ n g, 0 < n → (dist n g).1 < n

namespace Rng

variable {G : Type}

/-- `while (a == b) b = dist(rng);` on `b` and the state of the generator. -/
def redraw (r : Rng G) (n a : Nat) : While.Loop (Nat × G) where
  guard s := a == s.1
  body s := r.dist n s.2

/-- Whatever was drawn so far, an index other than `a` is drawn at some time. -/
def Fair (r : Rng G) (n : Nat) : Prop := ∀ a s, a < n → (r.redraw n a).Ends s

end Rng

/-! ## The simulation -/

section Simulation

variable {G : Type}

def randomCreature (r : Rng G) (id : BitVec 32) (g : G) : CreatureStats × G :=
  let power := r.stat g
  let defense := r.stat power.2
  let stamina := r.stat defense.2
  (⟨id, power.1, defense.1, stamina.1, []⟩, stamina.2)

/-- The first `n` creatures; the `i`-th has the id `i + 1`. -/
def spawn (r : Rng G) : Nat → G → List CreatureStats × G
  | 0, g => ([], g)
  | n + 1, g =>
    let earlier := spawn r n g
    let c := randomCreature r (BitVec.ofNat 32 (n + 1)) earlier.2
    (earlier.1 ++ [c.1], c.2)

/-- One matchmaker and the ledger it writes to. -/
abbrev Hall := World Unit Empty Unit

/-- One battle of the simulation; no loop in it may take more than `rounds` rounds. -/
def play (I : IntArith) (r : Rng G) (creatures : List CreatureStats) (n rounds : Nat)
    (s : Hall × G) : Option (Hall × G) := do
  let a := r.dist n s.2
  let b ← (r.redraw n a.1).run rounds (r.dist n a.2)
  let first ← creatures[a.1]?
  let second ← creatures[b.1]?
  let waiting := (s.1.enqueue () first).enqueue () second
  let seed := r.draw b.2
  let matched ← waiting.tryMatch I () seed.1 rounds
  return (matched.2, seed.2)

def plays (I : IntArith) (r : Rng G) (creatures : List CreatureStats) (n rounds : Nat) :
    Nat → Hall × G → Option (Hall × G)
  | 0, s => some s
  | battles + 1, s => (play I r creatures n rounds s).bind (plays I r creatures n rounds battles)

/-- `Matchmaker mm(BattleEngine{}, &ledger);` -/
def openHall (ledger : MatchLedger) : Hall where
  matchmakers _ := ⟨[], .clearBoard, some ()⟩
  arenas := Empty.elim
  ledgers _ := ledger

/-- The ledger after the simulation. -/
def runSimulation (I : IntArith) (r : Rng G) (creatureCount battles : Nat) (ledger : MatchLedger)
    (g : G) (rounds : Nat) : Option MatchLedger := do
  let creatures := spawn r creatureCount g
  let s ← plays I r creatures.1 creatureCount rounds battles (openHall ledger, creatures.2)
  return s.1.ledgers ()

/-! ## The creatures -/

/-- The `i`-th creature, counted from 0. -/
structure Spawned (i : Nat) (c : CreatureStats) : Prop where
  id : c.id = BitVec.ofNat 32 (i + 1)
  power : 1 ≤ c.power ∧ c.power ≤ 10
  defense : 1 ≤ c.defense ∧ c.defense ≤ 10
  stamina : 1 ≤ c.stamina ∧ c.stamina ≤ 10

theorem length_spawn (r : Rng G) (n : Nat) (g : G) : (spawn r n g).1.length = n := by
  induction n with
  | zero => rfl
  | succ n ih => simp [spawn, ih]

theorem spawned (r : Rng G) {n i : Nat} {g : G} {c : CreatureStats}
    (h : (spawn r n g).1[i]? = some c) : Spawned i c := by
  induction n with
  | zero => simp [spawn] at h
  | succ n ih =>
      simp only [spawn, List.getElem?_append, length_spawn] at h
      split at h
      · exact ih h
      · have hi : i = n := by
          have hlt := (List.getElem?_eq_some_iff.mp h).1
          rw [List.length_singleton] at hlt
          omega
        subst hi
        simp only [Nat.sub_self, List.getElem?_cons_zero, Option.some.injEq] at h
        subst h
        exact ⟨rfl, r.stat_mem _, r.stat_mem _, r.stat_mem _⟩

/-- Two of the creatures have different ids. -/
theorem Spawned.id_ne {i j : Nat} {c d : CreatureStats} (hc : Spawned i c) (hd : Spawned j d)
    (hi : i + 1 < 2 ^ 32) (hj : j + 1 < 2 ^ 32) (hne : i ≠ j) : c.id ≠ d.id := by
  rw [hc.id, hd.id]
  intro h
  have hnat := congrArg BitVec.toNat h
  simp only [BitVec.toNat_ofNat] at hnat
  omega

/-- A battle between two of them on the default board ends. -/
theorem Spawned.fight_returns {I : IntArith} (hI : ∀ x, 1 ≤ x → x ≤ 10 → I.Fits x) {i j : Nat}
    {c d : CreatureStats} (hc : Spawned i c) (hd : Spawned j d) (seed : BitVec 32) :
    ∃ n winner, BattleEngine.clearBoard.fight I c d seed n = some winner := by
  have hfits : ∀ {i c}, Spawned i c → c.Fits I := by
    intro i c h
    exact ⟨hI _ h.power.1 h.power.2, hI _ h.defense.1 h.defense.2, hI _ h.stamina.1 h.stamina.2⟩
  have hends := (BattleEngine.ends_iff_no_standoff (hfits hc) (hfits hd) seed).mpr
    (BattleEngine.clear_board_open.no_standoff I c d seed)
  obtain ⟨n, winner, hfight, -⟩ := BattleEngine.fight_returns_iff_ends.mpr hends
  exact ⟨n, winner, hfight⟩

/-! ## One battle -/

variable {I : IntArith} {r : Rng G} {creatures : List CreatureStats} {n rounds : Nat}

/-- The pair drawn consists of two creatures. -/
theorem redraw_cases {a : Nat} {s t : Nat × G} (hs : s.1 < n)
    (h : (r.redraw n a).run rounds s = some t) : t.1 < n ∧ a ≠ t.1 := by
  obtain ⟨hlt, hguard⟩ := While.Loop.Returns.induction (L := r.redraw n a) (fun u => u.1 < n)
    ⟨rounds, h⟩ hs (fun u _ hu => r.dist_lt n u.2 (Nat.zero_lt_of_lt hu))
  exact ⟨hlt, by simpa [Rng.redraw] using hguard⟩

/-- Nobody waits, the board is the default one, and results go to the ledger. -/
def Ready (w : Hall) : Prop := w.matchmakers () = ⟨[], .clearBoard, some ()⟩

/-- The hall after a battle. -/
def concluded (w : Hall) (a b : CreatureStats) (winner : BitVec 32) : Hall :=
  { w with ledgers := fun _ => ((w.ledgers ()).recordResult winner (loser a b winner)).2 }

theorem update_unit {α : Type} (f : Unit → α) (x : α) : Function.update f () x = fun _ => x :=
  funext fun _ => Function.update_self () x f

theorem try_match_pair {w : Hall} (hw : Ready w) (a b : CreatureStats) (seed : BitVec 32) :
    ((w.enqueue () a).enqueue () b).tryMatch I () seed rounds =
      (BattleEngine.clearBoard.fight I a b seed rounds).map
        fun winner => (some winner, concluded w a b winner) := by
  have hmm : w.matchmakers = fun _ => ⟨[], .clearBoard, some ()⟩ := funext fun _ => hw
  simp only [World.tryMatch, World.enqueue, update_unit, hmm, List.nil_append,
    List.singleton_append, record, concluded, Option.bind_eq_bind, Option.pure_def]
  cases BattleEngine.clearBoard.fight I a b seed rounds <;> rfl

/-- **One battle of the simulation**: a pair of different creatures is drawn, and the outcome of
their battle is written down. -/
theorem play_eq_some {s s' : Hall × G} (hs : Ready s.1) :
    play I r creatures n rounds s = some s' ↔
      ∃ b first second winner,
        (r.redraw n (r.dist n s.2).1).run rounds (r.dist n (r.dist n s.2).2) = some b ∧
        creatures[(r.dist n s.2).1]? = some first ∧ creatures[b.1]? = some second ∧
        BattleEngine.clearBoard.fight I first second (r.draw b.2).1 rounds = some winner ∧
        s' = (concluded s.1 first second winner, (r.draw b.2).2) := by
  simp only [play, try_match_pair hs, Option.bind_eq_bind, Option.pure_def,
    Option.bind_eq_some_iff, Option.map_eq_some_iff, Option.some.injEq]
  constructor
  · rintro ⟨b, hb, first, hfirst, second, hsecond, -, ⟨winner, hfight, rfl⟩, rfl⟩
    exact ⟨b, first, second, winner, hb, hfirst, hsecond, hfight, rfl⟩
  · rintro ⟨b, first, second, winner, hb, hfirst, hsecond, hfight, rfl⟩
    exact ⟨b, hb, first, hfirst, second, hsecond, _, ⟨winner, hfight, rfl⟩, rfl⟩

/-- The outcome of a battle between two of the creatures. -/
def Outcome (I : IntArith) (creatures : List CreatureStats) (x : MatchResult) : Prop :=
  ∃ first ∈ creatures, ∃ second ∈ creatures, ∃ seed k,
    BattleEngine.clearBoard.fight I first second seed k = some x.winner ∧
      x.loser = loser first second x.winner ∧ x.winner ≠ x.loser

theorem play_sound {s s' : Hall × G} {g : G} (hs : Ready s.1) (hn : 0 < n) (hids : n < 2 ^ 32)
    (h : play I r (spawn r n g).1 n rounds s = some s') :
    Ready s'.1 ∧ ∃ x, Outcome I (spawn r n g).1 x ∧ x.battleId = (s.1.ledgers ()).nextId ∧
      s'.1.ledgers () =
        ⟨(s.1.ledgers ()).nextId + 1, (s.1.ledgers ()).results ++ [x]⟩ := by
  obtain ⟨b, first, second, winner, hb, hfirst, hsecond, hfight, rfl⟩ := (play_eq_some hs).mp h
  obtain ⟨hlt, hne⟩ := redraw_cases (r.dist_lt n _ hn) hb
  have hids_ne : first.id ≠ second.id := by
    refine (spawned r hfirst).id_ne (spawned r hsecond) ?_ ?_ hne
    · have ha := r.dist_lt n s.2 hn
      omega
    · omega
  refine ⟨hs, ⟨_, winner, loser first second winner⟩, ?_, rfl, rfl⟩
  refine ⟨first, List.mem_of_getElem? hfirst, second, List.mem_of_getElem? hsecond, _, _, hfight,
    rfl, ?_⟩
  obtain ⟨t, -, hwinner⟩ := BattleEngine.fight_eq_some.mp hfight
  show winner ≠ loser first second winner
  unfold loser
  rcases hwinner ▸ BattleEngine.winner_eq first second t with rfl | rfl
  · rw [if_pos rfl]
    exact hids_ne
  · rw [if_neg (Ne.symm hids_ne)]
    exact Ne.symm hids_ne

/-- A battle between two of the creatures is begun and ends, given enough rounds. -/
theorem play_returns (hI : ∀ x, 1 ≤ x → x ≤ 10 → I.Fits x) (hn : 0 < n) (hfair : r.Fair n)
    {s : Hall × G} {g : G} (hs : Ready s.1) :
    ∃ s' N, Ready s'.1 ∧ ∀ rounds, N ≤ rounds →
      play I r (spawn r n g).1 n rounds s = some s' := by
  have ha := r.dist_lt n s.2 hn
  obtain ⟨b, N, hb⟩ := hfair _ (r.dist n (r.dist n s.2).2) ha
  have hlt := (redraw_cases (r.dist_lt n _ hn) hb).1
  obtain ⟨first, hfirst⟩ : ∃ c, (spawn r n g).1[(r.dist n s.2).1]? = some c :=
    ⟨_, List.getElem?_eq_getElem (by rw [length_spawn]; exact ha)⟩
  obtain ⟨second, hsecond⟩ : ∃ c, (spawn r n g).1[b.1]? = some c :=
    ⟨_, List.getElem?_eq_getElem (by rw [length_spawn]; exact hlt)⟩
  obtain ⟨M, winner, hfight⟩ :=
    (spawned r hfirst).fight_returns hI (spawned r hsecond) (r.draw b.2).1
  refine ⟨(concluded s.1 first second winner, (r.draw b.2).2), max N M, hs, ?_⟩
  intro rounds hrounds
  refine (play_eq_some hs).mpr ⟨b, first, second, winner, ?_, hfirst, hsecond, ?_, rfl⟩
  · exact While.Loop.run_mono hb (le_trans (le_max_left N M) hrounds)
  · obtain ⟨t, ht, hwinner⟩ := BattleEngine.fight_eq_some.mp hfight
    exact BattleEngine.fight_eq_some.mpr
      ⟨t, While.Loop.run_mono ht (le_trans (le_max_right N M) hrounds), hwinner⟩

/-! ## All battles -/

/-- Entries of a ledger numbered upwards from `id`. -/
def NumberedFrom (id : BitVec 32) (new : List MatchResult) : Prop :=
  ∀ i x, new[i]? = some x → x.battleId = id + BitVec.ofNat 32 i

theorem NumberedFrom.cons {id : BitVec 32} {new : List MatchResult} {x : MatchResult}
    (hx : x.battleId = id) (h : NumberedFrom (id + 1) new) : NumberedFrom id (x :: new) := by
  intro i y hy
  cases i with
  | zero =>
      cases hy
      simpa using hx
  | succ i =>
      rw [h i y hy, BitVec.add_assoc, BitVec.add_comm 1, BitVec.ofNat_add]
      rfl

theorem plays_sound {g : G} (hn : 0 < n) (hids : n < 2 ^ 32) (battles : Nat) {s s' : Hall × G}
    (hs : Ready s.1) (h : plays I r (spawn r n g).1 n rounds battles s = some s') :
    ∃ new, (s'.1.ledgers ()).results = (s.1.ledgers ()).results ++ new ∧
      new.length = battles ∧ NumberedFrom (s.1.ledgers ()).nextId new ∧
      ∀ x ∈ new, Outcome I (spawn r n g).1 x := by
  induction battles generalizing s with
  | zero =>
      cases h
      exact ⟨[], by simp, rfl, by simp [NumberedFrom], by simp⟩
  | succ battles ih =>
      obtain ⟨t, hplay, hrest⟩ := Option.bind_eq_some_iff.mp h
      obtain ⟨ht, x, hx, hid, hledger⟩ := play_sound hs hn hids hplay
      obtain ⟨new, hresults, hlength, hnumbers, hnew⟩ := ih ht hrest
      rw [hledger] at hresults hnumbers
      refine ⟨x :: new, ?_, by rw [List.length_cons, hlength], hnumbers.cons hid, ?_⟩
      · rw [hresults, List.append_assoc, List.singleton_append]
      · exact List.forall_mem_cons.mpr ⟨hx, hnew⟩

theorem plays_returns {g : G} (hI : ∀ x, 1 ≤ x → x ≤ 10 → I.Fits x) (hn : 0 < n)
    (hfair : r.Fair n) (battles : Nat) {s : Hall × G} (hs : Ready s.1) :
    ∃ s' N, ∀ rounds, N ≤ rounds →
      plays I r (spawn r n g).1 n rounds battles s = some s' := by
  induction battles generalizing s with
  | zero => exact ⟨s, 0, fun _ _ => rfl⟩
  | succ battles ih =>
      obtain ⟨t, N, ht, hplay⟩ := play_returns hI hn hfair (g := g) hs
      obtain ⟨s', M, hrest⟩ := ih ht
      refine ⟨s', max N M, ?_⟩
      intro rounds hrounds
      exact Option.bind_eq_some_iff.mpr ⟨t, hplay rounds (le_trans (le_max_left N M) hrounds),
        hrest rounds (le_trans (le_max_right N M) hrounds)⟩

/-- A single creature is drawn again for ever. -/
theorem redraw_alone (r : Rng G) (s : Nat × G) : ¬ (r.redraw 1 0).Ends (r.dist 1 s.2) := by
  have hzero : ∀ g, (r.dist 1 g).1 = 0 := fun g => Nat.lt_one_iff.mp (r.dist_lt 1 g Nat.one_pos)
  refine While.Loop.not_ends_of_invariant (fun u => u.1 = 0) ?_ (hzero s.2)
  intro u hu
  exact ⟨beq_iff_eq.mpr hu.symm, hzero u.2⟩

variable (creatures) in
theorem play_alone {s : Hall × G} (hs : Ready s.1) : play I r creatures 1 rounds s = none := by
  rw [Option.eq_none_iff_forall_ne_some]
  intro s' h
  obtain ⟨b, -, -, -, hb, -⟩ := (play_eq_some hs).mp h
  have hzero : (r.dist 1 s.2).1 = 0 := Nat.lt_one_iff.mp (r.dist_lt 1 s.2 Nat.one_pos)
  rw [hzero] at hb
  exact redraw_alone r (0, (r.dist 1 s.2).2) ⟨b, rounds, hb⟩

/-- **What the simulation leaves in the ledger, and when it ends.** Whatever it draws, as many
battles are added as were asked for, numbered upwards from the next id; each is between two of the
creatures, with the winner that their battle has and the other one as the loser. With a fair
generator it ends unless battles are asked for and there is only one creature. -/
theorem run_simulation_ends_iff (I : IntArith) (hI : ∀ x, 1 ≤ x → x ≤ 10 → I.Fits x) (r : Rng G)
    {n : Nat} (hn : 0 < n) (hids : n < 2 ^ 32) (hfair : 2 ≤ n → r.Fair n) (battles : Nat)
    (ledger : MatchLedger) (g : G) :
    ((∃ rounds after, runSimulation I r n battles ledger g rounds = some after) ↔
        battles = 0 ∨ 2 ≤ n) ∧
      ∀ rounds after, runSimulation I r n battles ledger g rounds = some after →
        ∃ new, after.results = ledger.results ++ new ∧ new.length = battles ∧
          NumberedFrom ledger.nextId new ∧ ∀ x ∈ new, Outcome I (spawn r n g).1 x := by
  have hready : Ready (openHall ledger) := rfl
  have hrun : ∀ {rounds after}, runSimulation I r n battles ledger g rounds = some after ↔
      ∃ s, plays I r (spawn r n g).1 n rounds battles (openHall ledger, (spawn r n g).2) = some s ∧
        s.1.ledgers () = after := by
    intro rounds after
    simp only [runSimulation, Option.bind_eq_bind, Option.pure_def, Option.bind_eq_some_iff,
      Option.some.injEq]
  refine ⟨⟨?_, ?_⟩, ?_⟩
  · rintro ⟨rounds, after, h⟩
    obtain ⟨s, hs, -⟩ := hrun.mp h
    by_contra hno
    obtain ⟨hbattles, hone⟩ := not_or.mp hno
    obtain rfl : n = 1 := by omega
    obtain ⟨k, rfl⟩ := Nat.exists_eq_succ_of_ne_zero hbattles
    rw [plays, play_alone (spawn r 1 g).1 hready] at hs
    cases hs
  · rintro (rfl | htwo)
    · exact ⟨0, ledger, hrun.mpr ⟨_, rfl, rfl⟩⟩
    · obtain ⟨s, N, hplays⟩ := plays_returns (g := g) hI hn (hfair htwo) battles
        (s := (openHall ledger, (spawn r n g).2)) hready
      exact ⟨N, s.1.ledgers (), hrun.mpr ⟨s, hplays N le_rfl, rfl⟩⟩
  · intro rounds after h
    obtain ⟨s, hs, rfl⟩ := hrun.mp h
    exact plays_sound hn hids battles hready hs

/-- A generator that counts. -/
def counter : Rng Nat where
  stat g := (1, g + 1)
  dist n g := (g % n, g + 1)
  draw g := (BitVec.ofNat 32 g, g + 1)
  stat_mem _ := ⟨le_refl 1, show (1 : Int) ≤ 10 by decide⟩
  dist_lt n g hn := Nat.mod_lt g hn

theorem counter_fair : counter.Fair 2 := by
  intro a s _
  -- a draw and the next are different
  refine While.Loop.ends_of_iterate 1 ?_
  by_cases h : a = s.2 % 2
  · refine While.Loop.ends_of_iterate 1 (While.Loop.ends_done ?_)
    show (a == (s.2 + 1) % 2) = false
    rw [beq_eq_false_iff_ne]
    omega
  · exact While.Loop.ends_done (beq_eq_false_iff_ne.mpr h)

theorem run_simulation_ends_two :
    ∃ rounds after, runSimulation .int32 counter 2 3 .empty 0 rounds = some after :=
  (run_simulation_ends_iff .int32 (fun x hlo hhi => by
    show -2 ^ 31 ≤ x ∧ x < 2 ^ 31
    omega) counter (by decide) (by decide) (fun _ => counter_fair) 3 .empty 0).1.mpr
      (Or.inr (le_refl 2))

end Simulation

end ChainBeasts.Offline
