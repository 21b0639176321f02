import ChainBeasts.Pouw.Chain
import Mathlib.Data.List.Perm.Basic

/-! # `proof_aggregator.hpp`

Nodes that pass proofs on. A node stores what it gets, from its own process or from a peer, sends it
to every open connection and calls its callback, which is how a `Validator` attests. The accepting
thread and the threads that read the connections run on their own, so a state is the nodes with what
is in flight on each connection, and any order of steps is a run.

The nodes are started and none is stopped. Each step is what one call or one received proof does as
a whole; a connection carries whole proofs in order. The bytes of a proof are not modelled here, and
the loss is only carried along. -/

namespace ChainBeasts.Pouw

structure StarkProof (F : Type) where
  root : String
  proof : String
  loss : F
  deriving DecidableEq

/-- An unordered map keyed by the root. -/
structure ProofAggregator (F : Type) where
  proofs : List (StarkProof F)
  unique : (proofs.map StarkProof.root).Nodup

namespace ProofAggregator
variable {F : Type}

def empty : ProofAggregator F := ⟨[], List.nodup_nil⟩

/-- The stored root hashes. -/
def roots (agg : ProofAggregator F) : List String := agg.proofs.map StarkProof.root

/-- An existing entry is overwritten. -/
def submit (agg : ProofAggregator F) (p : StarkProof F) : ProofAggregator F where
  proofs := agg.proofs.filter (fun other => other.root ≠ p.root) ++ [p]
  unique := by
    rw [List.map_append, List.nodup_append]
    refine ⟨agg.unique.sublist (List.filter_sublist.map _), List.nodup_singleton _, ?_⟩
    intro r hr r' hr'
    obtain ⟨other, hother, rfl⟩ := List.mem_map.mp hr
    rw [List.map_singleton, List.mem_singleton] at hr'
    rw [hr']
    exact of_decide_eq_true (List.mem_filter.mp hother).2

theorem mem_roots_submit (agg : ProofAggregator F) (p : StarkProof F) (r : String) :
    r ∈ (agg.submit p).roots ↔ r = p.root ∨ r ∈ agg.roots := by
  simp only [roots, submit, List.map_append, List.mem_append, List.mem_map, List.mem_filter,
    decide_eq_true_eq, List.map_singleton, List.mem_singleton]
  constructor
  · rintro (⟨other, ⟨hother, -⟩, rfl⟩ | rfl)
    · exact Or.inr ⟨other, hother, rfl⟩
    · exact Or.inl rfl
  · rintro (rfl | ⟨other, hother, rfl⟩)
    · exact Or.inr rfl
    · by_cases hsame : other.root = p.root
      · exact Or.inr hsame
      · exact Or.inl ⟨other, ⟨hother, hsame⟩, rfl⟩

end ProofAggregator

/-- The two ends of a connection. -/
inductive End where
  | client
  | server
  deriving DecidableEq

def End.other : End → End
  | .client => .server
  | .server => .client

instance End.decidableForall (P : End → Prop) [∀ e, Decidable (P e)] : Decidable (∀ e, P e) :=
  decidable_of_iff (P .client ∧ P .server)
    ⟨fun ⟨hc, hs⟩ e => match e with | .client => hc | .server => hs, fun h => ⟨h _, h _⟩⟩

@[simp] theorem End.other_other (e : End) : e.other.other = e := by cases e <;> rfl

/-- A connection: `client` called `connect`, `server` listens. -/
structure Link (N : Type) where
  client : N
  server : N
  deriving DecidableEq

def Link.node {N : Type} (l : Link N) : End → N
  | .client => l.client
  | .server => l.server

/-- The nodes `N`, the validators `V` and the connections. Connection `i` carries `flight i e` to its
end `e`; its server end is open once it is accepted. -/
structure Network (N V F : Type) where
  agg : N → ProofAggregator F
  onProof : N → Option V
  validators : V → Validator
  links : List (Link N)
  accepted : Nat → Bool
  flight : Nat → End → List (StarkProof F)

namespace Network
variable {N V F : Type}

/-- Started nodes that know nothing and nobody. -/
def start (validators : V → Validator) : Network N V F :=
  ⟨fun _ => .empty, fun _ => none, validators, [], fun _ => false, fun _ _ => []⟩

/-- The end is among the `clients_` of its node. -/
def isOpen (s : Network N V F) (i : Nat) : End → Bool
  | .client => true
  | .server => s.accepted i

section
variable [DecidableEq N] [DecidableEq V]

/-- Node `n` has an open end of connection `i` whose far end is `e`. -/
def feeds (s : Network N V F) (n : N) (i : Nat) (e : End) : Bool :=
  match s.links[i]? with
  | none => false
  | some l => l.node e.other = n && s.isOpen i e.other

/-- Sends to every open connection of the node, the one the proof came from included. -/
def broadcast (s : Network N V F) (n : N) (p : StarkProof F) : Network N V F :=
  { s with flight := fun i e => if s.feeds n i e then s.flight i e ++ [p] else s.flight i e }

/-- The callback of a `Validator` attests the root. -/
def notify (s : Network N V F) (n : N) (p : StarkProof F) : Network N V F :=
  match s.onProof n with
  | none => s
  | some v => { s with
      validators := Function.update s.validators v ((s.validators v).attest p.root) }

/-- What `submit` does with a local proof, and `handle_client` with a received one. -/
def submit (s : Network N V F) (n : N) (p : StarkProof F) : Network N V F :=
  let stored := { s with agg := Function.update s.agg n ((s.agg n).submit p) }
  (stored.broadcast n p).notify n p

inductive Event (N V F : Type) where
  | setCallback (n : N) (callback : Option V)
  /-- `order` is the order in which the unordered map lists the stored proofs. -/
  | connect (client server : N) (order : List (StarkProof F))
  /-- `accept_loop` takes the connection. -/
  | accept (i : Nat)
  /-- `handle_client` at the end `e` receives the next proof. -/
  | deliver (i : Nat) (e : End)
  | submit (n : N) (p : StarkProof F)

def connect [DecidableEq F] (s : Network N V F) (client server : N)
    (order : List (StarkProof F)) : Option (Network N V F) :=
  if order.Perm (s.agg client).proofs then
    some { s with
      links := s.links ++ [⟨client, server⟩]
      accepted := Function.update s.accepted s.links.length false
      flight := Function.update s.flight s.links.length fun
        | .client => []
        | .server => order }
  else none

def accept (s : Network N V F) (i : Nat) : Option (Network N V F) :=
  if i < s.links.length ∧ s.accepted i = false then
    some { s with accepted := Function.update s.accepted i true }
  else none

/-- The queue of connection `i` toward `e` is `rest`. -/
def setFlight (s : Network N V F) (i : Nat) (e : End) (rest : List (StarkProof F)) :
    Network N V F :=
  { s with flight := Function.update s.flight i (Function.update (s.flight i) e rest) }

def deliver (s : Network N V F) (i : Nat) (e : End) : Option (Network N V F) :=
  match s.links[i]?, s.flight i e with
  | some l, p :: rest =>
      if s.isOpen i e then some ((s.setFlight i e rest).submit (l.node e) p) else none
  | _, _ => none

def step [DecidableEq F] (s : Network N V F) : Event N V F → Option (Network N V F)
  | .setCallback n callback => some { s with onProof := Function.update s.onProof n callback }
  | .connect client server order => s.connect client server order
  | .accept i => s.accept i
  | .deliver i e => s.deliver i e
  | .submit n p => some (s.submit n p)

end

/-! ## What each step changes -/

section
variable {s s' : Network N V F} {n : N} {i j : Nat} {e e' : End} {l : Link N}

@[simp] theorem setFlight_isOpen (s : Network N V F) (i : Nat) (e : End)
    (rest : List (StarkProof F)) (j : Nat) (e' : End) :
    (s.setFlight i e rest).isOpen j e' = s.isOpen j e' := by
  cases e' <;> rfl

theorem setFlight_self (s : Network N V F) (i : Nat) (e : End) (rest : List (StarkProof F)) :
    (s.setFlight i e rest).flight i e = rest := by
  simp [setFlight]

theorem setFlight_of_ne {rest : List (StarkProof F)} (h : (j, e') ≠ (i, e)) :
    (s.setFlight i e rest).flight j e' = s.flight j e' := by
  by_cases hj : j = i
  · subst hj
    have he : e' ≠ e := by
      rintro rfl
      exact h rfl
    simp [setFlight, he]
  · simp [setFlight, hj]

theorem accept_cases (h : s.accept i = some s') :
    i < s.links.length ∧ s.accepted i = false ∧
      s' = { s with accepted := Function.update s.accepted i true } := by
  unfold accept at h
  split at h
  · next hnew => exact ⟨hnew.1, hnew.2, (Option.some.inj h).symm⟩
  · cases h

variable [DecidableEq N]

@[simp] theorem setFlight_feeds (s : Network N V F) (i : Nat) (e : End)
    (rest : List (StarkProof F)) (n : N) (j : Nat) (e' : End) :
    (s.setFlight i e rest).feeds n j e' = s.feeds n j e' := by
  simp only [feeds, setFlight_isOpen]
  rfl

/-- The node at an open end feeds the far end. -/
theorem feeds_iff (hl : s.links[i]? = some l) :
    s.feeds n i e = true ↔ l.node e.other = n ∧ s.isOpen i e.other = true := by
  simp [feeds, hl]

end

section
variable [DecidableEq V]

theorem notify_eq (s : Network N V F) (n : N) (p : StarkProof F) :
    s.notify n p = { s with validators := (s.notify n p).validators } := by
  unfold notify
  split <;> rfl

variable [DecidableEq N] (s : Network N V F) (n : N) (p : StarkProof F) (i : Nat) (e : End)

@[simp] theorem submit_links : (s.submit n p).links = s.links := by
  rw [submit, notify_eq]
  rfl

@[simp] theorem submit_accepted : (s.submit n p).accepted = s.accepted := by
  rw [submit, notify_eq]
  rfl

@[simp] theorem submit_on_proof : (s.submit n p).onProof = s.onProof := by
  rw [submit, notify_eq]
  rfl

@[simp] theorem submit_isOpen : (s.submit n p).isOpen i e = s.isOpen i e := by
  cases e <;> simp [isOpen]

theorem submit_agg :
    (s.submit n p).agg = Function.update s.agg n ((s.agg n).submit p) := by
  rw [submit, notify_eq]
  rfl

theorem submit_flight : (s.submit n p).flight i e =
    if s.feeds n i e then s.flight i e ++ [p] else s.flight i e := by
  rw [submit, notify_eq]
  rfl

theorem submit_validators : (s.submit n p).validators = (s.notify n p).validators := by
  simp only [submit, notify, broadcast]
  split <;> rfl

/-- What is in flight stays in its place, whatever else is sent. -/
theorem exists_flight_append : ∃ sent, (s.submit n p).flight i e = s.flight i e ++ sent := by
  rw [submit_flight]
  split
  · exact ⟨[p], rfl⟩
  · exact ⟨[], (List.append_nil _).symm⟩

variable {s i e} {s' : Network N V F}

theorem deliver_cases (h : s.deliver i e = some s') :
    ∃ l p rest, s.links[i]? = some l ∧ s.flight i e = p :: rest ∧ s.isOpen i e = true ∧
      s' = (s.setFlight i e rest).submit (l.node e) p := by
  unfold deliver at h
  split at h
  · next l p rest hl hflight =>
      split at h
      · next hopen => exact ⟨l, p, rest, hl, hflight, hopen, (Option.some.inj h).symm⟩
      · cases h
  · cases h

end

end Network

end ChainBeasts.Pouw
