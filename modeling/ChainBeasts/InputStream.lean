import ChainBeasts.Framing

/-! # Streams that remember a failure

Input in the manner of the C++ streams: a read that finds too little takes what there is, leaves the
rest of its buffer as it was and raises a flag, after which nothing more is read. Nobody has to look
at the flag at once, so a loader may go on with what happens to lie in its buffers. This module names
nothing of any particular file format.

A loader follows a reader (`Framing.Reader`, which gives up at once) when it does the same as long
as there is enough, and keeps the flag up from then on. That is kept by composition, and a loader
that looks at the flag in the end agrees with the reader (`Follows.agrees`). What one that never looks
returns for a stream that breaks off is worked out read by read (`Left`). -/

namespace ChainBeasts.InputStream

open ChainBeasts.Framing

variable {α β γ : Type}

/-- What is left to read, and the flag. -/
structure Input (β : Type) where
  rest : List β
  fail : Bool

/-- A loader throws (`none`) or returns, maybe with the flag up. -/
abbrev Loader (β α : Type) := StateT (Input β) Option α

/-- `in.read(buffer, n)`. -/
def read (n : Nat) (buffer : List β) : Loader β (List β) := fun s =>
  if s.fail then some (buffer, s)
  else if n ≤ s.rest.length then some (s.rest.take n, ⟨s.rest.drop n, false⟩)
  else some (s.rest ++ buffer.drop s.rest.length, ⟨[], true⟩)

/-- `if (!in) throw`. -/
def check : Loader β Unit := fun s => if s.fail then none else some ((), s)

/-- The flag is up, or an exception was thrown. -/
def Spoiled (o : Option (α × Input β)) : Prop := ∀ p, o = some p → p.2.fail = true

/-- The loader does what the reader does, and spoils the stream where the reader gives up. -/
structure Follows (m : Loader β α) (r : Reader β α) : Prop where
  enough : ∀ ⦃s a rest⦄, r s = some (a, rest) → m ⟨s, false⟩ = some (a, ⟨rest, false⟩)
  short : ∀ ⦃s⦄, r s = none → Spoiled (m ⟨s, false⟩)
  sticky : ∀ ⦃x : Input β⦄, x.fail = true → Spoiled (m x)

variable {m : Loader β α} {r : Reader β α}

theorem spoiled_none : Spoiled (none : Option (α × Input β)) := by
  intro p hp
  cases hp

theorem spoiled_some {p : α × Input β} (h : p.2.fail = true) : Spoiled (some p) := by
  intro q hq
  rw [← Option.some.inj hq]
  exact h

theorem follows_read (n : Nat) (buffer : List β) : Follows (read n buffer) (take n) where
  enough s bs rest h := by
    obtain ⟨hle, hs⟩ := Option.ite_none_right_eq_some.mp h
    cases hs
    show (if n ≤ s.length then _ else _) = _
    rw [if_pos hle]
  short s h := by
    have hless : ¬ n ≤ s.length := by
      intro hle
      rw [take, if_pos hle] at h
      cases h
    show Spoiled (if n ≤ s.length then _ else _)
    rw [if_neg hless]
    exact spoiled_some rfl
  sticky x hx := by
    unfold read
    rw [if_pos hx]
    exact spoiled_some hx

theorem follows_pure (a : α) : Follows (pure a : Loader β α) (pure a) where
  enough s c rest h := by
    obtain ⟨rfl, rfl⟩ := pure_eq_some.mp h
    rfl
  short s h := by cases h
  sticky x hx := spoiled_some hx

theorem follows_failure : Follows (failure : Loader β α) (failure : Reader β α) where
  enough s a rest h := by cases h
  short s h := spoiled_none
  sticky x hx := spoiled_none

/-- A look at the flag changes nothing while it is down. -/
theorem Follows.check_bind (h : Follows m r) : Follows (check >>= fun _ => m) r where
  enough s a rest hs := bind_eq_some.mpr ⟨(), ⟨s, false⟩, rfl, h.enough hs⟩
  short s hs p hp := by
    obtain ⟨u, x, hx, hm⟩ := bind_eq_some.mp hp
    obtain ⟨-, hx⟩ := Option.ite_none_left_eq_some.mp hx
    cases hx
    exact h.short hs _ hm
  sticky x hx p hp := by
    obtain ⟨u, y, hy, -⟩ := bind_eq_some.mp hp
    rw [check, if_pos hx] at hy
    cases hy

/-- **One after the other.** -/
theorem Follows.bind {f : α → Loader β γ} {g : α → Reader β γ} (hm : Follows m r)
    (hf : ∀ a, Follows (f a) (g a)) : Follows (m >>= f) (r >>= g) where
  enough s c rest h := by
    obtain ⟨a, s', ha, hc⟩ := bind_eq_some.mp h
    exact bind_eq_some.mpr ⟨a, ⟨s', false⟩, hm.enough ha, (hf a).enough hc⟩
  short s h p hp := by
    obtain ⟨a, x, ha, hc⟩ := bind_eq_some.mp hp
    cases hr : r s with
    | none => exact (hf a).sticky (hm.short hr _ ha) p hc
    | some q =>
        obtain ⟨a', s'⟩ := q
        cases (hm.enough hr).symm.trans ha
        cases hg : g a s' with
        | none => exact (hf a).short hg p hc
        | some q' =>
            have hboth := bind_eq_some.mpr ⟨a, s', hr, hg⟩
            exact absurd (h.symm.trans hboth) (by simp)
  sticky x hx p hp := by
    obtain ⟨a, y, ha, hc⟩ := bind_eq_some.mp hp
    exact (hf a).sticky (hm.sticky hx _ ha) p hc

/-- A loader that returns only with the flag down. -/
def Checked (m : Loader β α) : Prop := ∀ x p, m x = some p → p.2.fail = false

theorem checked_check_pure (a : α) : Checked (check >>= fun _ => pure a : Loader β α) := by
  intro x p h
  obtain ⟨u, y, hy, hp⟩ := bind_eq_some.mp h
  obtain ⟨hdown, hy⟩ := Option.ite_none_left_eq_some.mp hy
  cases hy
  cases hp
  simpa using hdown

theorem checked_failure : Checked (failure : Loader β α) := by
  intro x p h
  cases h

theorem Checked.bind {f : α → Loader β γ} (hf : ∀ a, Checked (f a)) : Checked (m >>= f) := by
  intro x p h
  obtain ⟨a, y, -, hc⟩ := bind_eq_some.mp h
  exact hf a y p hc

/-- **A loader that looks in the end agrees with the reader**: it returns what the reader does, and
throws where the reader gives up. -/
theorem Follows.agrees (h : Follows m r) (hchecked : Checked m) (s : List β) :
    (m ⟨s, false⟩).map Prod.fst = (r s).map Prod.fst := by
  cases hr : r s with
  | some p =>
      obtain ⟨a, rest⟩ := p
      rw [h.enough hr]
      rfl
  | none =>
      cases hm : m ⟨s, false⟩ with
      | none => rfl
      | some p =>
          have hup := h.short hr p hm
          rw [hchecked _ p hm] at hup
          cases hup

/-! ## A stream that breaks off

A loader that never looks at the flag goes on with what lies in its buffers. For a stream that breaks
off after `m` symbols of what it should hold, `Left` says where it is, and each read that follows has
a result that depends on `m` alone: the symbols that came, in front of those of the buffer. -/

/-- `m` symbols of `rest` are left, and nothing behind them; the stream may have been read past its
end already. -/
def Left (x : Input β) (rest : List β) (m : Nat) : Prop :=
  x = ⟨rest.take m, false⟩ ∨ m = 0 ∧ x = ⟨[], true⟩

/-- The first `m` entries of `v`, and then those of `d`. -/
def overlay {n : Nat} (m : Nat) (v d : Vector β n) : Vector β n :=
  Vector.ofFn fun i => if i < m then v[i] else d[i]

/-- From entry `m` on, `v` and `d` are the same. -/
def SameFrom {n : Nat} (m : Nat) (v d : Vector β n) : Prop :=
  ∀ i, (h : i < n) → m ≤ i → v[i] = d[i]

/-- `in.read` into a variable. -/
def readField {n : Nat} (d : Vector β n) : Loader β (Vector β n) := do
  let bs ← read n d.toList
  return Vector.ofFn fun i => bs.getD i d[i]

/-- A reader that throws where it gives up, and on a stream that has failed. -/
def throwing (r : Reader β α) : Loader β α := fun x =>
  if x.fail then none else (r x.rest).map fun p => (p.1, ⟨p.2, false⟩)

/-- `for (auto& a : as) load a`, for `n` entries from entry `i` on. -/
def each (load : Nat → Loader β α) : Nat → Nat → Loader β (List α)
  | _, 0 => pure []
  | i, n + 1 => do
    let a ← load i
    let as ← each load (i + 1) n
    return a :: as

section Torn
variable {n k : Nat} {v d : Vector β n} {x : Input β} {rest : List β}

theorem bind_of_eq {f : α → Loader β γ} {a : α} {x' : Input β} (h : m x = some (a, x')) :
    (m >>= f) x = f a x' := by
  show (m x).bind (fun p => f p.1 p.2) = f a x'
  rw [h]
  rfl

theorem bind_of_none {f : α → Loader β γ} (h : m x = none) : (m >>= f) x = none := by
  show (m x).bind (fun p => f p.1 p.2) = none
  rw [h]
  rfl

theorem overlay_eq_iff : overlay k v d = v ↔ SameFrom k v d := by
  constructor
  · intro h i hi hk
    have hentry := congrArg (fun w : Vector β n => w[i]) h
    simpa [overlay, Nat.not_lt.mpr hk] using hentry.symm
  · intro h
    apply Vector.ext
    intro i hi
    by_cases hk : i < k
    · simp [overlay, hk]
    · simp [overlay, hk, h i hi (Nat.not_lt.mp hk)]

theorem overlay_of_le (h : n ≤ k) : overlay k v d = v :=
  overlay_eq_iff.mpr fun _ hi hk => absurd (Nat.lt_of_lt_of_le hi h) (Nat.not_lt.mpr hk)

theorem overlay_zero : overlay 0 v d = d := by
  apply Vector.ext
  intro i hi
  simp [overlay]

theorem left_start (s : List β) (k : Nat) : Left ⟨s.take k, false⟩ s k := Or.inl rfl

/-- With nothing left it does not matter what is missing. -/
theorem Left.none_left (h : Left x rest 0) (rest' : List β) : Left x rest' 0 := by
  rcases h with rfl | ⟨-, rfl⟩
  · exact Or.inl rfl
  · exact Or.inr ⟨rfl, rfl⟩

/-- **A read** takes what there is of it, and leaves the rest of its buffer. -/
theorem Left.read {bs buffer : List β} (hbuffer : buffer.length = bs.length)
    (h : Left x (bs ++ rest) k) :
    ∃ x', read bs.length buffer x = some (bs.take k ++ buffer.drop k, x') ∧
      Left x' rest (k - bs.length) := by
  rcases h with rfl | ⟨rfl, rfl⟩
  · rw [List.take_append]
    by_cases hk : bs.length ≤ k
    · refine ⟨⟨rest.take (k - bs.length), false⟩, ?_, Or.inl rfl⟩
      rw [List.take_of_length_le hk, List.drop_of_length_le (by omega), List.append_nil]
      simp [InputStream.read]
    · have hlen : (bs.take k).length = k := by
        rw [List.length_take]
        omega
      have hzero : k - bs.length = 0 := by omega
      refine ⟨⟨[], true⟩, ?_, Or.inr ⟨hzero, rfl⟩⟩
      rw [hzero, List.take_zero, List.append_nil]
      simp only [InputStream.read, hlen, hk, if_false, Bool.false_eq_true]
  · refine ⟨⟨[], true⟩, ?_, Or.inr ⟨Nat.zero_sub _, rfl⟩⟩
    simp [InputStream.read]

/-- What lies in a variable that was read into in part. -/
theorem ofFn_patched (v d : Vector β n) (k : Nat) :
    (Vector.ofFn fun i : Fin n => (v.toList.take k ++ d.toList.drop k).getD i d[i]) =
      overlay k v d := by
  apply Vector.ext
  intro i hi
  by_cases hk : i < k
  · have hlt : i < (v.toList.take k).length := by
      rw [List.length_take, Vector.length_toList]
      omega
    have hfront : (v.toList.take k ++ d.toList.drop k)[i]? = v.toList[i]? := by
      rw [List.getElem?_append_left hlt, List.getElem?_take_of_lt hk]
    simp [overlay, hk, hfront, hi]
  · have hlen : (v.toList.take k).length = k := by
      rw [List.length_take, Vector.length_toList]
      omega
    have hback : k + (i - k) = i := by omega
    simp [overlay, hk, List.getElem?_append_right (by omega : (v.toList.take k).length ≤ i), hlen,
      hback, hi]

/-- **A field is read**, or what there is of it. -/
theorem Left.readField (h : Left x (v.toList ++ rest) k) (d : Vector β n) :
    ∃ x', readField d x = some (overlay k v d, x') ∧ Left x' rest (k - n) := by
  have hlen : d.toList.length = v.toList.length := by
    rw [Vector.length_toList, Vector.length_toList]
  obtain ⟨x', hread, hx'⟩ := h.read hlen
  rw [Vector.length_toList] at hread hx'
  refine ⟨x', ?_, hx'⟩
  rw [InputStream.readField, bind_of_eq hread, ofFn_patched]
  rfl

/-- **A value is read whole**, or there is an exception. -/
theorem Left.throwing {F : Format β α} {a : α} (ha : F.Sound a)
    (h : Left x (F.write a ++ rest) k) :
    (k < (F.write a).length → throwing F.read x = none) ∧
      ((F.write a).length ≤ k →
        ∃ x', throwing F.read x = some (a, x') ∧ Left x' rest (k - (F.write a).length)) := by
  have hsome := F.length_write_pos ha
  rcases h with rfl | ⟨rfl, rfl⟩
  · rw [List.take_append]
    refine ⟨fun hk => ?_, fun hk => ?_⟩
    · have hzero : k - (F.write a).length = 0 := by omega
      have hbroken : F.read ((F.write a).take k) = none := by
        apply F.read_broken ha (List.take_prefix k _)
        intro hsame
        have hlen := congrArg List.length hsame
        rw [List.length_take] at hlen
        omega
      simp [InputStream.throwing, hzero, hbroken]
    · refine ⟨⟨rest.take (k - (F.write a).length), false⟩, ?_, Or.inl rfl⟩
      rw [List.take_of_length_le hk]
      simp [InputStream.throwing, F.read_write ha]
  · refine ⟨fun _ => rfl, fun hk => ?_⟩
    omega

/-- At the end of the stream there is no value. -/
theorem Left.throwing_end {F : Format β α} (h : Left x rest 0) :
    InputStream.throwing F.read x = none := by
  rcases h with rfl | ⟨-, rfl⟩
  · simp [InputStream.throwing, F.read_nil]
  · rfl

/-- Nothing but `a` is returned. -/
def OnlyAs (o : Option (α × Input β)) (a : α) : Prop := ∀ p, o = some p → p.1 = a

theorem onlyAs_none (a : α) : OnlyAs (none : Option (α × Input β)) a := by
  intro p hp
  cases hp

theorem onlyAs_some {a b : α} : OnlyAs (some (a, x)) b ↔ a = b :=
  ⟨fun h => h (a, x) rfl, fun h p hp => by cases hp; exact h⟩

/-- What is made of the value by a function of which it can be told. -/
theorem onlyAs_map {f : α → γ} {a : α} (hf : ∀ b, f b = f a → b = a) :
    OnlyAs ((m >>= fun b => pure (f b)) x) (f a) ↔ OnlyAs (m x) a := by
  cases hm : m x with
  | none =>
      rw [bind_of_none hm]
      exact ⟨fun _ => onlyAs_none a, fun _ => onlyAs_none (f a)⟩
  | some p =>
      have hp : m x = some (p.1, p.2) := hm
      rw [bind_of_eq hp]
      exact ⟨fun h => onlyAs_some.mpr (hf p.1 (onlyAs_some.mp h)),
        fun h => onlyAs_some.mpr (congrArg f (onlyAs_some.mp h))⟩

/-- **A loop** over entries that are all there. -/
theorem Left.each {load : Nat → Loader β α} {write : α → List β} {as : List α} {i : Nat}
    (hload : ∀ a ∈ as, ∀ i x rest k, Left x (write a ++ rest) k → (write a).length ≤ k →
      ∃ x', load i x = some (a, x') ∧ Left x' rest (k - (write a).length))
    (h : Left x (as.flatMap write ++ rest) k) (hk : (as.flatMap write).length ≤ k) :
    ∃ x', each load i as.length x = some (as, x') ∧
      Left x' rest (k - (as.flatMap write).length) := by
  induction as generalizing i x k with
  | nil => exact ⟨x, rfl, h⟩
  | cons a as ih =>
      rw [List.flatMap_cons, List.append_assoc] at h
      rw [List.flatMap_cons, List.length_append] at hk
      obtain ⟨x₁, hfirst, hx₁⟩ := hload a List.mem_cons_self i x _ k h (by omega)
      obtain ⟨x₂, hrest, hx₂⟩ := ih (fun b hb => hload b (List.mem_cons_of_mem a hb)) (i := i + 1)
        hx₁ (by omega)
      refine ⟨x₂, ?_, ?_⟩
      · rw [List.length_cons, InputStream.each, bind_of_eq hfirst, bind_of_eq hrest]
        rfl
      · rw [List.flatMap_cons, List.length_append, ← Nat.sub_sub]
        exact hx₂

/-- `m` entries, and then `n`. -/
theorem each_add {load : Nat → Loader β α} (m n i : Nat) :
    InputStream.each load i (m + n) = InputStream.each load i m >>= fun as =>
      InputStream.each load (i + m) n >>= fun bs => pure (as ++ bs) := by
  induction m generalizing i with
  | zero => simp [InputStream.each]
  | succ m ih =>
      have hindex : i + 1 + m = i + (m + 1) := by omega
      rw [Nat.add_right_comm, InputStream.each, ih (i + 1), hindex, InputStream.each]
      simp only [bind_assoc, pure_bind, List.cons_append]

/-- An entry that throws. -/
theorem each_of_none {load : Nat → Loader β α} {i m : Nat} (hm : m ≠ 0) (h : load i x = none) :
    InputStream.each load i m x = none := by
  obtain ⟨m, rfl⟩ := Nat.exists_eq_succ_of_ne_zero hm
  exact bind_of_none h

/-- The entry in which there is a cut. -/
theorem exists_cut {write : α → List β} {as : List α} (hk : k < (as.flatMap write).length) :
    ∃ front a later, as = front ++ a :: later ∧ (front.flatMap write).length ≤ k ∧
      k - (front.flatMap write).length < (write a).length := by
  induction as generalizing k with
  | nil => exact absurd hk (Nat.not_lt_zero k)
  | cons a as ih =>
      by_cases hfirst : k < (write a).length
      · exact ⟨[], a, as, rfl, Nat.zero_le k, hfirst⟩
      · rw [List.flatMap_cons, List.length_append] at hk
        obtain ⟨front, b, later, rfl, hfront, hb⟩ := ih (k := k - (write a).length) (by omega)
        refine ⟨a :: front, b, later, rfl, ?_, ?_⟩
        · rw [List.flatMap_cons, List.length_append]
          omega
        · rwa [List.flatMap_cons, List.length_append, ← Nat.sub_sub]

/-- **A loop** that breaks off in an entry goes as far as that entry. -/
theorem Left.each_cut (load : Nat → Loader β α) {write : α → List β} {front later : List α} {a : α}
    {i : Nat}
    (hload : ∀ a ∈ front, ∀ i x rest k, Left x (write a ++ rest) k → (write a).length ≤ k →
      ∃ x', load i x = some (a, x') ∧ Left x' rest (k - (write a).length))
    (h : Left x ((front ++ a :: later).flatMap write ++ rest) k)
    (hk : (front.flatMap write).length ≤ k) :
    ∃ x', InputStream.each load i (front ++ a :: later).length x =
        (load (i + front.length) >>= fun b =>
          InputStream.each load (i + front.length + 1) later.length >>= fun bs =>
            pure (front ++ b :: bs)) x' ∧
      Left x' (write a ++ (later.flatMap write ++ rest)) (k - (front.flatMap write).length) := by
  rw [List.flatMap_append, List.flatMap_cons, List.append_assoc, List.append_assoc] at h
  obtain ⟨x', hfront, hx'⟩ := Left.each (i := i) hload h hk
  refine ⟨x', ?_, hx'⟩
  rw [List.length_append, List.length_cons, each_add, bind_of_eq hfront, InputStream.each]
  simp only [bind_assoc, pure_bind]

end Torn

end ChainBeasts.InputStream
