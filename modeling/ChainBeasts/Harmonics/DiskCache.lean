import ChainBeasts.Framing
import ChainBeasts.Machine

/-! # `disk_cache_producer.hpp`

A producer whose samples are kept in a file. The constructor reads the records it finds there; if
there are none it writes all samples of the base producer, and if the base has more it appends as
many as are missing. It takes them from the base as it is, and a fresh base starts at its first
sample: what is appended after `k` records are the samples `0, 1, …` and not `k, k + 1, …`. And it
appends at the end of the file, also behind a record that was cut off.

How a tensor is written and read is a parameter: any `Format`. -/

namespace ChainBeasts.Harmonics

open ChainBeasts.Framing ChainBeasts.Machine

variable {α β : Type}

/-! ## The producers -/

/-- The base: its samples, and the one that comes next. -/
structure Producer (α : Type) where
  samples : List α
  cursor : Nat

namespace Producer

/-- A fresh producer starts at its first sample. -/
def fresh (samples : List α) : Producer α := ⟨samples, 0⟩

def size (base : Producer α) : Nat := base.samples.length

/-- The loops below ask for no more than `size()` samples. -/
def next (base : Producer α) : Option α × Producer α :=
  (base.samples[base.cursor]?, { base with cursor := base.cursor + 1 })

/-- `n` times `next()`. -/
def pull : Nat → Producer α → List α
  | 0, _ => []
  | n + 1, base => base.next.1.toList ++ pull n base.next.2

theorem pull_eq (n : Nat) (base : Producer α) :
    pull n base = (base.samples.drop base.cursor).take n := by
  induction n generalizing base with
  | zero => rfl
  | succ n ih =>
      rw [pull, ih]
      show base.samples[base.cursor]?.toList ++ (base.samples.drop (base.cursor + 1)).take n = _
      cases hnext : base.samples[base.cursor]? with
      | none =>
          have hend := List.getElem?_eq_none_iff.mp hnext
          rw [List.drop_eq_nil_of_le hend, List.drop_eq_nil_of_le (Nat.le_succ_of_le hend)]
          simp
      | some a =>
          obtain ⟨hlt, rfl⟩ := List.getElem?_eq_some_iff.mp hnext
          rw [List.drop_eq_getElem_cons hlt]
          rfl

theorem pull_fresh (n : Nat) (samples : List α) : pull n (fresh samples) = samples.take n :=
  pull_eq n (fresh samples)

end Producer

/-- The cache file and the token file, if there are any. -/
structure Disk (β : Type) where
  cache : Option (List β)
  token : Option (List Char)

namespace DiskCacheProducer

/-- `std::getline`. -/
def getline (s : List Char) : List Char := s.takeWhile (· ≠ '\n')

/-- A token that differs from the last one removes both files. -/
def invalidate (disk : Disk β) (cur : List Char) : Disk β :=
  let prev := (disk.token.map getline).getD []
  if cur ≠ [] ∧ prev ≠ cur then ⟨none, none⟩ else disk

/-- Whether any record was found, and the records. -/
def loadCache (F : Format β α) (disk : Disk β) : Bool × List α :=
  match disk.cache with
  | none => (false, [])
  | some bytes =>
      let records := readAll F.read bytes
      (!records.isEmpty, records)

/-- `opens` is whether the file can be opened for writing. -/
def populateCache (F : Format β α) (opens : Bool) (base : Producer α) (count : Nat)
    (disk : Disk β) : List α × Disk β :=
  if opens then
    let records := base.pull count
    (records, { disk with cache := some (records.flatMap F.write) })
  else ([], disk)

def appendCache (F : Format β α) (opens : Bool) (base : Producer α) (start : Nat)
    (records : List α) (disk : Disk β) : List α × Disk β :=
  if opens then
    let added := base.pull (base.size - start)
    (records ++ added,
      { disk with cache := some (disk.cache.getD [] ++ added.flatMap F.write) })
  else (records, disk)

/-- The constructor: `records_`, and what it leaves on the disk. -/
def construct (F : Format β α) (disk : Disk β) (base : Producer α) (cur : List Char)
    (opens : Bool) : List α × Disk β :=
  let disk := invalidate disk cur
  let loaded := loadCache F disk
  let built :=
    if ¬ loaded.1 then populateCache F opens base base.size disk
    else if loaded.2.length < base.size then
      appendCache F opens base loaded.2.length loaded.2 disk
    else (loaded.2, disk)
  (built.1, if cur ≠ [] then { built.2 with token := some cur } else built.2)

/-- The records in the cache file. -/
def decoded (F : Format β α) (disk : Disk β) : List α := readAll F.read (disk.cache.getD [])

/-! ## One construction -/

variable {F : Format β α} {disk : Disk β} {data old : List α} {cur : List Char} {opens : Bool}

theorem load_cache_records (F : Format β α) (disk : Disk β) :
    (loadCache F disk).2 = decoded F disk := by
  unfold loadCache decoded
  cases disk.cache with
  | none => exact (readAll_none F.read_nil).symm
  | some bytes => rfl

theorem load_cache_found (F : Format β α) (disk : Disk β) :
    (loadCache F disk).1 = true ↔ decoded F disk ≠ [] := by
  unfold loadCache decoded
  cases disk.cache with
  | none => simp [readAll_none F.read_nil]
  | some bytes => simp

/-- What the constructor finds in the file. -/
def found (F : Format β α) (disk : Disk β) (cur : List Char) : List α :=
  decoded F (invalidate disk cur)

theorem construct_populates (data : List α) (opens : Bool) (h : found F disk cur = []) :
    (construct F disk (.fresh data) cur opens).1 = (if opens then data else []) ∧
      (construct F disk (.fresh data) cur opens).2.cache =
        if opens then some (data.flatMap F.write) else (invalidate disk cur).cache := by
  have hnone : ¬ (loadCache F (invalidate disk cur)).1 = true := by
    rw [load_cache_found, not_not]
    exact h
  have hall : (Producer.fresh data).pull (Producer.fresh data).size = data := by
    rw [Producer.pull_fresh]
    exact List.take_length
  unfold construct
  simp only [if_pos hnone, populateCache, hall]
  cases opens <;> simp <;> split <;> rfl

/-- The samples that `append_cache` takes for the missing ones. -/
def appended (F : Format β α) (disk : Disk β) (cur : List Char) (data : List α) (opens : Bool) :
    List α :=
  if opens then data.take (data.length - (found F disk cur).length) else []

theorem construct_appends (data : List α) (opens : Bool) (h : found F disk cur ≠ []) :
    (construct F disk (.fresh data) cur opens).1 =
        found F disk cur ++ appended F disk cur data opens ∧
      (construct F disk (.fresh data) cur opens).2.cache.getD [] =
        (invalidate disk cur).cache.getD [] ++
          (appended F disk cur data opens).flatMap F.write := by
  have hsome : ¬ ¬ (loadCache F (invalidate disk cur)).1 = true := by
    rw [not_not, load_cache_found]
    exact h
  have hrecords : (loadCache F (invalidate disk cur)).2 = found F disk cur := load_cache_records _ _
  unfold construct appended
  simp only [if_neg hsome, hrecords, appendCache, Producer.pull_fresh]
  by_cases hfewer : (found F disk cur).length < data.length
  · have hsize : (found F disk cur).length < (Producer.fresh data).size := hfewer
    rw [if_pos hsize]
    cases opens <;> simp [Producer.size, Producer.fresh] <;> split <;> rfl
  · have hsize : ¬ (found F disk cur).length < (Producer.fresh data).size := hfewer
    have hnone : data.length - (found F disk cur).length = 0 := by omega
    rw [if_neg hsize, hnone]
    cases opens <;> simp <;> split <;> rfl

/-- `records_` and the file are the samples of the base. -/
def Agrees (F : Format β α) (built : List α × Disk β) (data : List α) : Prop :=
  built.1 = data ∧ decoded F built.2 = data

/-- The file goes on behind its last record. -/
def Torn (F : Format β α) (disk : Disk β) (cur : List Char) : Prop :=
  (invalidate disk cur).cache.getD [] ≠ (found F disk cur).flatMap F.write

/-- No record is found and the file can be written, or there are as many as samples, or those
missing are the first samples over again and their place is right behind the last record. -/
def Steady (F : Format β α) (disk : Disk β) (cur : List Char) (data : List α) (opens : Bool) :
    Prop :=
  let k := (found F disk cur).length
  if k = 0 then opens = true ∨ data = []
  else data.length ≤ k ∨
    (opens = true ∧ ¬ Torn F disk cur ∧ data.drop k = data.take (data.length - k))

section
variable [DecidableEq α] [DecidableEq β]

instance (built : List α × Disk β) : Decidable (Agrees F built data) :=
  inferInstanceAs (Decidable (_ ∧ _))

instance : Decidable (Torn F disk cur) := inferInstanceAs (Decidable (_ ≠ _))

instance : Decidable (Steady F disk cur data opens) :=
  inferInstanceAs (Decidable (ite _ (_ ∨ _) (_ ∨ (_ ∧ _ ∧ _))))

end

/-- The file is what is left of the samples `old` after a cut. -/
def Truncated (F : Format β α) (disk : Disk β) (old : List α) : Prop :=
  disk.cache.getD [] <+: old.flatMap F.write

theorem Truncated.invalidate (h : Truncated F disk old) (hgrows : old <+: data)
    (cur : List Char) : Truncated F (invalidate disk cur) data := by
  obtain ⟨more, rfl⟩ := hgrows
  unfold Truncated at h ⊢
  rw [List.flatMap_append]
  unfold DiskCacheProducer.invalidate
  dsimp only
  split
  · exact List.nil_prefix
  · exact h.trans (List.prefix_append _ _)

/-- What is found are the first samples, and all of them only in a whole file. -/
theorem found_of_truncated (hsound : ∀ a, F.Sound a) (h : Truncated F disk old)
    (hgrows : old <+: data) (cur : List Char) :
    found F disk cur <+: data ∧
      ((found F disk cur).length = data.length → ¬ Torn F disk cur) := by
  obtain ⟨k, tail, hk, hbytes, htail, hall⟩ :=
    Format.exists_take_of_prefix (fun a _ => hsound a) (h.invalidate hgrows cur)
  have hfound : found F disk cur = data.take k := by
    unfold found decoded
    rw [hbytes]
    exact Format.readAll_written (fun a _ => hsound a) htail
  unfold Torn
  rw [hfound, hbytes]
  refine ⟨List.take_prefix k data, ?_⟩
  intro hlength htorn
  rw [List.length_take, Nat.min_eq_left hk] at hlength
  rw [hall hlength, List.append_nil] at htorn
  exact htorn rfl

theorem decoded_whole (hsound : ∀ a, F.Sound a) {samples : List α}
    (h : disk.cache.getD [] = samples.flatMap F.write) : decoded F disk = samples := by
  unfold decoded
  rw [h]
  rw [← List.append_nil (samples.flatMap F.write)]
  exact Format.readAll_written (fun a _ => hsound a) F.read_nil

/-- A whole file and the records that complete it. -/
theorem agrees_of_whole (hsound : ∀ a, F.Sound a) (hsome : found F disk cur ≠ [])
    (hwhole : ¬ Torn F disk cur)
    (hcomplete : found F disk cur ++ appended F disk cur data opens = data) :
    Agrees F (construct F disk (.fresh data) cur opens) data ∧
      Truncated F (construct F disk (.fresh data) cur opens).2 data := by
  obtain ⟨hrecords, hbytes⟩ := construct_appends data opens hsome
  have hcache : (construct F disk (.fresh data) cur opens).2.cache.getD [] =
      data.flatMap F.write := by
    unfold Torn at hwhole
    rw [not_not] at hwhole
    rw [hbytes, hwhole, ← List.flatMap_append, hcomplete]
  refine ⟨⟨hrecords.trans hcomplete, decoded_whole hsound hcache⟩, ?_⟩
  unfold Truncated
  rw [hcache]

theorem agrees_of_steady (hsound : ∀ a, F.Sound a) (h : Truncated F disk old)
    (hgrows : old <+: data) (hsteady : Steady F disk cur data opens) :
    Agrees F (construct F disk (.fresh data) cur opens) data ∧
      Truncated F (construct F disk (.fresh data) cur opens).2 data := by
  unfold Steady at hsteady
  dsimp only at hsteady
  by_cases hnone : found F disk cur = []
  · obtain ⟨hrecords, hcache⟩ := construct_populates data opens hnone
    have hempty : (found F disk cur).length = 0 := List.length_eq_zero_iff.mpr hnone
    rw [if_pos hempty] at hsteady
    cases opens with
    | true =>
        have hbytes : (construct F disk (.fresh data) cur true).2.cache.getD [] =
            data.flatMap F.write := by
          rw [hcache]
          rfl
        refine ⟨⟨hrecords, decoded_whole hsound hbytes⟩, ?_⟩
        unfold Truncated
        rw [hbytes]
    | false =>
        obtain rfl : data = [] := hsteady.resolve_left Bool.false_ne_true
        have hbytes : (construct F disk (.fresh []) cur false).2.cache.getD [] = [] := by
          rw [hcache]
          exact List.prefix_nil.mp (h.invalidate hgrows cur)
        refine ⟨⟨hrecords, decoded_whole hsound hbytes⟩, ?_⟩
        unfold Truncated
        rw [hbytes]
        exact List.nil_prefix
  · have hsome : (found F disk cur).length ≠ 0 := mt List.length_eq_zero_iff.mp hnone
    obtain ⟨hpre, hwhole⟩ := found_of_truncated hsound h hgrows cur
    rw [if_neg hsome] at hsteady
    rcases hsteady with hall | ⟨rfl, hclean, hperiod⟩
    · have hfound : found F disk cur = data := hpre.eq_of_length_le hall
      have hnothing : appended F disk cur data opens = [] := by
        unfold appended
        rw [hfound, Nat.sub_self, List.take_zero, ite_self]
      apply agrees_of_whole hsound hnone (hwhole (by rw [hfound]))
      rw [hnothing, List.append_nil, hfound]
    · apply agrees_of_whole hsound hnone hclean
      unfold appended
      rw [if_pos rfl, ← hperiod]
      exact List.prefix_iff_eq_append.mp hpre

theorem steady_of_agrees (h : ¬ Torn F disk cur)
    (hagrees : Agrees F (construct F disk (.fresh data) cur opens) data) :
    Steady F disk cur data opens := by
  have hrecords := hagrees.1
  unfold Steady
  dsimp only
  by_cases hnone : found F disk cur = []
  · rw [if_pos (List.length_eq_zero_iff.mpr hnone)]
    rw [(construct_populates data opens hnone).1] at hrecords
    cases opens with
    | true => exact Or.inl rfl
    | false => exact Or.inr hrecords.symm
  · rw [if_neg (mt List.length_eq_zero_iff.mp hnone)]
    rw [(construct_appends data opens hnone).1] at hrecords
    rcases Nat.lt_or_ge (found F disk cur).length data.length with hfewer | hall
    · cases opens with
      | true =>
          refine Or.inr ⟨rfl, h, ?_⟩
          have hdrop := congrArg (List.drop (found F disk cur).length) hrecords
          rw [List.drop_left] at hdrop
          exact hdrop.symm
      | false =>
          have hlength := congrArg List.length hrecords
          simp [appended] at hlength
          omega
    · exact Or.inl hall

/-! ## Runs -/

/-- What happens to a cache: a construction over a fresh base, or the file loses its end. -/
inductive Event (α : Type) where
  | construct (samples : List α) (token : List Char) (opens : Bool)
  | cut (n : Nat)

/-- The disk, and the records and the samples of the last construction. -/
structure Site (α β : Type) where
  disk : Disk β
  records : List α
  samples : List α

def next (F : Format β α) (s : Site α β) : Event α → Site α β
  | .construct samples token opens =>
      let built := construct F s.disk (.fresh samples) token opens
      ⟨built.2, built.1, samples⟩
  | .cut n => { s with disk := { s.disk with cache := s.disk.cache.map (List.take n) } }

/-- No cache yet. -/
def start : Site α β := ⟨⟨none, none⟩, [], []⟩

abbrev Step (α β : Type) := Move (Site α β) (Event α)

/-- The dataset extends the previous one. -/
def Grows (m : Step α β) : Prop :=
  match m.call with
  | .construct samples _ _ => m.pre.samples <+: samples
  | .cut _ => True

/-- After a construction `records_` and the file are the dataset. -/
def Cached (F : Format β α) (m : Step α β) : Prop :=
  match m.call with
  | .construct samples _ _ => Agrees F (m.post.records, m.post.disk) samples
  | .cut _ => True

/-- The construction is `Steady`. -/
def SteadyStep (F : Format β α) (m : Step α β) : Prop :=
  match m.call with
  | .construct samples token opens => Steady F m.pre.disk token samples opens
  | .cut _ => True

/-- The construction finds a file that ends with a record. -/
def CleanStep (F : Format β α) (m : Step α β) : Prop :=
  match m.call with
  | .construct _ token _ => ¬ Torn F m.pre.disk token
  | .cut _ => True

instance [DecidableEq α] : (m : Step α β) → Decidable (Grows m)
  | ⟨pre, .construct samples _ _, _⟩ => inferInstanceAs (Decidable (pre.samples <+: samples))
  | ⟨_, .cut _, _⟩ => .isTrue trivial

instance [DecidableEq α] [DecidableEq β] : (m : Step α β) → Decidable (Cached F m)
  | ⟨_, .construct samples _ _, post⟩ =>
      inferInstanceAs (Decidable (Agrees F (post.records, post.disk) samples))
  | ⟨_, .cut _, _⟩ => .isTrue trivial

instance [DecidableEq α] [DecidableEq β] : (m : Step α β) → Decidable (SteadyStep F m)
  | ⟨pre, .construct samples token opens, _⟩ =>
      inferInstanceAs (Decidable (Steady F pre.disk token samples opens))
  | ⟨_, .cut _, _⟩ => .isTrue trivial

variable {s : Site α β}

theorem truncated_cut {n : Nat} (h : Truncated F s.disk s.samples) :
    Truncated F (next F s (.cut n)).disk s.samples := by
  have hcut : (s.disk.cache.map (List.take n)).getD [] = (s.disk.cache.getD []).take n := by
    cases s.disk.cache with
    | none => exact List.take_nil.symm
    | some bytes => rfl
  unfold Truncated
  show (s.disk.cache.map (List.take n)).getD [] <+: _
  rw [hcut]
  exact (List.take_prefix n _).trans h

/-- One step of a cache that has been steady so far. -/
theorem next_truncated (hsound : ∀ a, F.Sound a) {e : Event α}
    (h : Truncated F s.disk s.samples) (hgrows : Grows ⟨s, e, next F s e⟩)
    (hsteady : SteadyStep F ⟨s, e, next F s e⟩) :
    Truncated F (next F s e).disk (next F s e).samples ∧ Cached F ⟨s, e, next F s e⟩ := by
  cases e with
  | construct samples token opens =>
      exact (agrees_of_steady hsound h hgrows hsteady).symm
  | cut n => exact ⟨truncated_cut h, trivial⟩

/-- **When the cache is the dataset.** In every run of constructions over growing datasets, with the
file cut off anywhere in between: if every construction is `Steady`, then after each of them
`records_` and the file are the dataset. As long as no construction meets a torn record, the cache
is the dataset after every construction only if they all are. -/
theorem cached_of_steady (F : Format β α) (hsound : ∀ a, F.Sound a) (events : List (Event α))
    (hgrows : ∀ m ∈ history (next F) start events, Grows m) :
    ((∀ m ∈ history (next F) start events, SteadyStep F m) →
        ∀ m ∈ history (next F) start events, Cached F m) ∧
      ((∀ m ∈ history (next F) start events, CleanStep F m) →
        (∀ m ∈ history (next F) start events, Cached F m) →
        ∀ m ∈ history (next F) start events, SteadyStep F m) := by
  have hstart : Truncated F (start : Site α β).disk (start : Site α β).samples := List.nil_prefix
  constructor
  · intro hsteady
    refine (history_induction (fun m => Grows m ∧ SteadyStep F m)
      (fun s tr => Truncated F s.disk s.samples ∧ ∀ m ∈ tr, Cached F m)
      ⟨hstart, by simp⟩ ?_ events (fun m hm => ⟨hgrows m hm, hsteady m hm⟩)).2
    rintro s tr e ⟨htruncated, hcached⟩ ⟨hgrow, hstep⟩
    obtain ⟨hkept, hnow⟩ := next_truncated hsound htruncated hgrow hstep
    refine ⟨hkept, ?_⟩
    intro m hm
    rcases List.mem_append.mp hm with hold | hnew
    · exact hcached m hold
    · rw [List.mem_singleton.mp hnew]
      exact hnow
  · intro hclean hcached
    refine (history_induction (fun m => Grows m ∧ CleanStep F m ∧ Cached F m)
      (fun s tr => Truncated F s.disk s.samples ∧ ∀ m ∈ tr, SteadyStep F m)
      ⟨hstart, by simp⟩ ?_ events
      (fun m hm => ⟨hgrows m hm, hclean m hm, hcached m hm⟩)).2
    rintro s tr e ⟨htruncated, hsteady⟩ ⟨hgrow, hwhole, hagrees⟩
    have hnow : SteadyStep F ⟨s, e, next F s e⟩ := by
      cases e with
      | construct samples token opens => exact steady_of_agrees hwhole hagrees
      | cut n => exact trivial
    refine ⟨(next_truncated hsound htruncated hgrow hnow).1, ?_⟩
    intro m hm
    rcases List.mem_append.mp hm with hold | hnew
    · exact hsteady m hold
    · rw [List.mem_singleton.mp hnew]
      exact hnow

/-- Tensors of two numbers, written one after the other. -/
def pairs : Format Nat (Nat × Nat) where
  write p := [p.1, p.2]
  read := fun
    | x :: y :: rest => some ((x, y), rest)
    | _ => none
  Sound _ := True
  stable := by
    intro s a rest h more
    match s with
    | [] => cases h
    | [_] => cases h
    | x :: y :: s =>
        cases h
        rfl
  productive := by
    intro s a rest h
    match s with
    | [] => cases h
    | [_] => cases h
    | x :: y :: s =>
        cases h
        exact Nat.lt_succ_of_lt (Nat.lt_succ_self _)
  read_write _ _ _ := rfl

/-- Two samples; the file is cut off in the first one; three samples under a new token. -/
def renewed : List (Event (Nat × Nat)) :=
  [.construct [(0, 0), (1, 1)] ['0'] true, .cut 1, .construct [(0, 0), (1, 1)] ['0'] true,
    .construct [(0, 0), (1, 1), (2, 2)] ['1'] true]

theorem cached_of_steady_renewed :
    renewed ≠ [] ∧ ∀ m ∈ history (next pairs) start renewed, Cached pairs m :=
  ⟨by decide, (cached_of_steady pairs (fun _ => trivial) renewed (by decide)).1 (by decide)⟩

/-- A dataset that has grown by one sample. -/
def grown : List (Event (Nat × Nat)) :=
  [.construct [(0, 0)] [] true, .construct [(0, 0), (1, 1)] [] true]

/-- A dataset whose file was cut off in the middle of the second sample. -/
def torn : List (Event (Nat × Nat)) :=
  [.construct [(0, 0), (1, 1)] [] true, .cut 3, .construct [(0, 0), (1, 1)] [] true]

/-- In either case the first sample is appended again. -/
theorem first_sample_again :
    ((∀ m ∈ history (next pairs) start grown, Grows m) ∧
        ¬ ∀ m ∈ history (next pairs) start grown, Cached pairs m) ∧
      (∀ m ∈ history (next pairs) start torn, Grows m) ∧
        ¬ ∀ m ∈ history (next pairs) start torn, Cached pairs m := by
  decide

end DiskCacheProducer

end ChainBeasts.Harmonics
