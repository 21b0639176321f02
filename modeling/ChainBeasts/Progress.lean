import ChainBeasts.Machine

/-! # Threads that come to rest

Some events of a state machine are its own: its threads go on with what they are about to do. The
others come from outside. This module names nothing of any particular program.

If every event of its own lowers a number, the machine comes to rest unless something more happens
(`length_trace_le`), and what it has done by then can be told from the states in which it cannot go
on (`AtRest`). -/

namespace ChainBeasts.Machine

variable {S C : Type*} {step : S → C → Option S} {own : C → Prop} {work : S → Nat}

/-- No thread can go on. -/
def AtRest (step : S → C → Option S) (own : C → Prop) (s : S) : Prop := ∀ c, own c → step s c = none

/-- Every step of a thread leaves less to do. -/
def Lowers (step : S → C → Option S) (own : C → Prop) (work : S → Nat) : Prop :=
  ∀ ⦃s c s'⦄, own c → step s c = some s' → work s' < work s

/-- As long as nothing comes from outside there are no more steps than there is work. -/
theorem Lowers.length_trace_le (h : Lowers step own work) {s : S} {cs : List C}
    (hcs : ∀ c ∈ cs, own c) : (trace step s cs).length ≤ work s := by
  induction cs generalizing s with
  | nil => exact Nat.zero_le _
  | cons c cs ih =>
      obtain ⟨hc, hrest⟩ := List.forall_mem_cons.mp hcs
      rw [trace]
      split
      · next s' hs =>
          have hless := h hc hs
          have hlater := ih hrest (s := s')
          rw [List.length_cons]
          omega
      · exact ih hrest

end ChainBeasts.Machine
