import ChainedTable.Proofs.Failure
import ChainedTable.Statistics.Basic

set_option autoImplicit false

/-!
The counters of a table, in every run of calls. The traffic of a table counts the calls that
succeeded, whatever their arguments and whatever failed in between. The count of its entries is the
difference, as long as no entry is added when the counter of additions is full; that takes as many
additions as there are words.
-/

namespace ChainedTable

variable {α β : Type}

@[simp] theorem isOk_ok (b : β) : (Except.ok b : Except Fault β).isOk = true := rfl

@[simp] theorem isOk_error (f : Fault) : (Except.error f : Except Fault β).isOk = false := rfl

@[simp] theorem isOk_map {γ : Type} (r : Except Fault β) (g : β → γ) :
    (r.map g).isOk = r.isOk := by cases r <;> rfl

theorem exists_of_bind_eq_ok {γ : Type} {r : Except Fault β} {f : β → Except Fault γ} {x : γ}
    (h : r >>= f = .ok x) : ∃ b, r = .ok b ∧ f b = .ok x := by
  cases r with
  | error e => simp [bind, Except.bind] at h
  | ok b => exact ⟨b, rfl, h⟩

def Call.removes : Call α → Bool
  | .freeEntry _ => true
  | _ => false

theorem Call.counts_eq (c : Call α) : c.counts = (c.adds || c.removes) := by cases c <;> rfl

theorem Arena.free_result_ne (a : Arena α) (id : EntryId) :
    (a.free id).result ≠ .error .subtractionOverflow := by
  cases hs : a.slots[id.index]? with
  | none => simp [free, hs]
  | some s =>
    cases s with
    | occupied e => cases he : e.isShared <;> simp [free, hs, he]
    | free next => simp [free, hs]

namespace Table

def succeeded [SlotSize α] [Memory] (t : Table α) (kind : Call α → Bool) (cs : List (Call α)) :
    Nat :=
  (cs.zip (t.results cs)).countP fun x => kind x.1 && x.2.isOk

/-- What is counted is what was added and not removed, in the table and in its statistics. -/
structure InStep [SlotSize α] (t : Table α) : Prop where
  removed_le : t.traffic.removed ≤ t.traffic.added
  count : t.count = t.traffic.added - t.traffic.removed
  /-- Where the count is lowered, there is an entry to take off. -/
  lowered : ∀ id, (t.freeEntry id).result ≠ .error .subtractionOverflow ∧
    ∀ x u, t.freeEntry id = .ok x u → u.count + 1 = t.count
  reported : ∀ size s, t.statistics size = .ok s →
    s.removedItems ≤ s.addedItems ∧ s.addedItems - s.removedItems = t.count

variable {t : Table α} {c : Call α} {cs : List (Call α)} {n : Nat} {tag : MemoryTag}
  {kind : Call α → Bool}

theorem traffic_increment (t : Table α) :
    t.increment.state.traffic =
      ⟨t.traffic.added + (if t.increment.result.isOk then 1 else 0), t.traffic.removed⟩ ∧
    (t.increment.result.isOk → t.traffic.added + 1 < wordLimit) := by
  cases hn : addWord t.count 1 with
  | error f => simp [increment, hn]
  | ok n =>
    cases hr : t.traffic.recordAdd with
    | error f => simp [increment, hn, hr]
    | ok r =>
      obtain ⟨rfl, hroom⟩ := Traffic.recordAdd_eq_ok.mp hr
      simp [increment, hn, hr, hroom]

theorem traffic_addEntry (t : Table α) (i : Nat) (id : EntryId) :
    (t.addEntry i id).state.traffic =
      ⟨t.traffic.added + (if (t.addEntry i id).result.isOk then 1 else 0), t.traffic.removed⟩ ∧
    ((t.addEntry i id).result.isOk → t.traffic.added + 1 < wordLimit) := by
  cases hi : t.checkIndex i with
  | error f => simp [addEntry, hi]
  | ok _ =>
    cases he : t.arena.get? id with
    | none => simp [addEntry, hi, he]
    | some e =>
      have hprepend := (t.prepend i id e).traffic_increment
      rw [(relinked_prepend i he).traffic] at hprepend
      simpa only [addEntry, hi, he] using hprepend

theorem traffic_freeEntry (t : Table α) (id : EntryId) :
    (t.freeEntry id).state.traffic =
      ⟨t.traffic.added, t.traffic.removed + if (t.freeEntry id).result.isOk then 1 else 0⟩ := by
  rcases t.freeEntry_cases id with hnone | ⟨f, a, -, hfail⟩ | ⟨x, a, -, hok | ⟨-, hfull⟩⟩
  · simp [hnone]
  · simp [hfail]
  · simp [hok]
  · simp [hfull]

theorem addsOf_le [Memory] (t : Table α) (c : Call α) : t.addsOf c ≤ 1 := by
  rw [addsOf]
  split <;> omega

/-- The one place where the count is lowered is behind a look at it. -/
theorem freeEntry_result_ne (t : Table α) (id : EntryId) :
    (t.freeEntry id).result ≠ .error .subtractionOverflow := by
  rcases t.freeEntry_cases id with hnone | ⟨f, a, ha, hfail⟩ | ⟨x, a, -, hok | ⟨-, hfull⟩⟩
  · simp [hnone]
  · have hfree := t.arena.free_result_ne id
    simpa [hfail, ha] using hfree
  · simp [hok]
  · simp [hfull]

theorem count_freeEntry {id : EntryId} {x : α} {u : Table α} (h : t.freeEntry id = .ok x u) :
    u.count + 1 = t.count := by
  by_cases hc : t.count = 0
  · simp [freeEntry, hc] at h
  · rcases t.freeEntry_cases id with hnone | ⟨f, a, -, hfail⟩ | ⟨y, a, -, hok | ⟨-, hfull⟩⟩
    · simp [hnone] at h
    · simp [hfail] at h
    · obtain ⟨-, rfl⟩ := Outcome.ok.inj (hok.symm.trans h)
      exact Nat.sub_one_add_one hc
    · simp [hfull] at h

theorem traffic_of_ofSummary {summary : Summary} {bytes entrySize : Nat} {r : Traffic}
    {s : Statistics} (h : Statistics.ofSummary summary bytes entrySize r = .ok s) :
    s.addedItems = r.added ∧ s.removedItems = r.removed := by
  rw [Statistics.ofSummary] at h
  obtain ⟨inBuckets, -, h⟩ := exists_of_bind_eq_ok h
  obtain ⟨inEntries, -, h⟩ := exists_of_bind_eq_ok h
  obtain ⟨withBuckets, -, h⟩ := exists_of_bind_eq_ok h
  obtain ⟨total, -, h⟩ := exists_of_bind_eq_ok h
  obtain rfl := Except.ok.inj h
  exact ⟨rfl, rfl⟩

theorem traffic_of_statistics [SlotSize α] {size : α → Nat} {s : Statistics}
    (h : t.statistics size = .ok s) :
    s.addedItems = t.traffic.added ∧ s.removedItems = t.traffic.removed := by
  rw [statistics, askStatistics] at h
  cases hc : t.askChains size (List.range t.size) .zero 0 #[] with
  | fail f asked => simp [hc] at h
  | ok sampled asked =>
    rw [hc, Outcome.bind_ok, Outcome.result_ofExcept] at h
    exact traffic_of_ofSummary h

section
variable [SlotSize α]

theorem succeeded_cons [Memory] : t.succeeded kind (c :: cs) =
    (if kind c && (t.perform c).result.isOk then 1 else 0) +
      (t.perform c).state.succeeded kind cs := by
  rw [succeeded, results_cons, List.zip_cons_cons, List.countP_cons, Nat.add_comm, succeeded]

theorem traffic_perform [Memory] (t : Table α) (c : Call α) : (t.perform c).state.traffic =
    ⟨t.traffic.added + (if c.adds && (t.perform c).result.isOk then 1 else 0),
      t.traffic.removed + if c.removes && (t.perform c).result.isOk then 1 else 0⟩ := by
  cases hc : c.counts with
  | false =>
    obtain ⟨hadds, hremoves⟩ := Bool.or_eq_false_iff.mp (c.counts_eq.symm.trans hc)
    simp [hadds, hremoves, (t.sameCounts_perform hc).2]
  | true =>
    cases c with
    | addEntry i id =>
      simp [perform, Call.adds, Call.removes, (t.traffic_addEntry i id).1, Outcome.result_map]
    | increment =>
      simp [perform, Call.adds, Call.removes, t.traffic_increment.1, Outcome.result_map]
    | freeEntry id => simp [perform, Call.adds, Call.removes, traffic_freeEntry, Outcome.result_map]
    | _ => simp [Call.counts, Call.adds] at hc

theorem traffic_run [Memory] (t : Table α) (cs : List (Call α)) : (t.run cs).traffic =
    ⟨t.traffic.added + t.succeeded Call.adds cs,
      t.traffic.removed + t.succeeded Call.removes cs⟩ := by
  induction cs generalizing t with
  | nil => rfl
  | cons c cs ih =>
    rw [run_cons, ih, traffic_perform, succeeded_cons, succeeded_cons]
    simp only [Nat.add_assoc]

theorem added_lt_perform [Memory] (h : t.traffic.added < wordLimit) (c : Call α) :
    (t.perform c).state.traffic.added < wordLimit := by
  have hadded := congrArg Traffic.added (t.traffic_perform c)
  cases hone : c.adds && (t.perform c).result.isOk with
  | false =>
    simp only [hone, Bool.false_eq_true, ↓reduceIte, Nat.add_zero] at hadded
    rwa [hadded]
  | true =>
    simp only [hone, ↓reduceIte] at hadded
    obtain ⟨hkind, hok⟩ := Bool.and_eq_true_iff.mp hone
    rw [hadded]
    cases c with
    | addEntry i id =>
      rw [perform, Outcome.result_map, isOk_map] at hok
      exact (t.traffic_addEntry i id).2 hok
    | increment =>
      rw [perform, Outcome.result_map, isOk_map] at hok
      exact t.traffic_increment.2 hok
    | _ => simp [Call.adds] at hkind

/-- An addition is stopped at the counter only when all words are used up. From then on no addition
succeeds, so the counter stays there. -/
theorem added_of_full [Memory] (hb : t.Balanced) (h : wordLimit ≤ t.traffic.added + t.addsMade cs) :
    (t.run cs).traffic.added + 1 = wordLimit := by
  induction cs generalizing t with
  | nil =>
    have hlt := hb.added_lt
    simp only [addsMade] at h
    omega
  | cons c cs ih =>
    rw [addsMade] at h
    by_cases hroom : t.traffic.added + t.addsOf c < wordLimit
    · obtain ⟨hstep, hadded⟩ := balanced_perform hb hroom
      rw [run_cons]
      refine ih hstep ?_
      rw [hadded]
      omega
    · -- the counter is at its last word already, and what follows can only leave it there
      have hone := t.addsOf_le c
      have hlt : (t.run (c :: cs)).traffic.added < wordLimit :=
        Outcome.run_induction (P := fun t => t.traffic.added < wordLimit) perform t (c :: cs)
          (fun _ c h => added_lt_perform h c) hb.added_lt
      have hadded := congrArg Traffic.added (t.traffic_run (c :: cs))
      simp only at hadded
      omega

theorem Balanced.inStep (hb : t.Balanced) : t.InStep := by
  have hadded := hb.added_eq
  constructor
  case removed_le => omega
  case count => omega
  case lowered => exact fun id => ⟨t.freeEntry_result_ne id, fun x u h => count_freeEntry h⟩
  case reported =>
    intro size s hs
    obtain ⟨ha, hr⟩ := traffic_of_statistics hs
    omega

/-- In every run of calls, whatever their arguments and whichever of them fail, the traffic counts
the calls that succeeded, and no call but an addition or a removal changes a counter. The count is
in step with it, unless an addition that passes its checks is stopped at the counter; by then all
words but the last are used up by additions that succeeded. -/
theorem run_counts_successes [Memory] (ht : create n tag = .ok t) (cs : List (Call α)) :
    (t.run cs).traffic = ⟨t.succeeded Call.adds cs, t.succeeded Call.removes cs⟩ ∧
    (∀ c : Call α, c.adds = false → c.removes = false →
      SameCounts (t.run cs) ((t.run cs).perform c).state) ∧
    (t.addsMade cs < wordLimit → t.succeeded Call.adds cs = t.addsMade cs) ∧
    (wordLimit ≤ t.addsMade cs → t.succeeded Call.adds cs + 1 = wordLimit) ∧
    (t.addsMade cs < wordLimit ∨ t.succeeded Call.adds cs + 1 < wordLimit →
      (t.run cs).InStep) := by
  obtain ⟨-, hb, -, hzero⟩ := represents_create ht
  have htraffic := t.traffic_run cs
  rw [(create_eq_ok ht).2.2.2] at htraffic
  simp only [Traffic.zero, Nat.zero_add] at htraffic
  have hroom : t.addsMade cs < wordLimit →
      (t.run cs).Balanced ∧ t.succeeded Call.adds cs = t.addsMade cs := by
    intro h
    have hfits : t.traffic.added + t.addsMade cs < wordLimit := by omega
    obtain ⟨hbal, hadded⟩ := balanced_run hb hfits
    rw [htraffic, hzero, Nat.zero_add] at hadded
    exact ⟨hbal, hadded⟩
  -- the traffic counts what succeeded, which is the adds made or one less than all words
  have hfull : wordLimit ≤ t.addsMade cs → t.succeeded Call.adds cs + 1 = wordLimit := by
    intro h
    have hpassed : wordLimit ≤ t.traffic.added + t.addsMade cs := by omega
    have hadded := added_of_full hb hpassed
    rwa [htraffic] at hadded
  refine ⟨htraffic, fun c hadds hremoves => sameCounts_perform _ ?_, fun h => (hroom h).2, hfull,
    fun h => ?_⟩
  · rw [Call.counts_eq, hadds, hremoves, Bool.or_false]
  · have hmade : t.addsMade cs < wordLimit := by
      rcases h with h | h
      · exact h
      · by_contra hmany
        have hlast := hfull (Nat.le_of_not_lt hmany)
        omega
    exact (hroom hmade).1.inStep

end

theorem run_counts_successes_refused :
    ∃ (_ : Memory) (t : Table UInt32) (a : EntryId) (cs : List (Call UInt32)),
      create 2 .symbol = .ok t ∧
      cs = [.newEntry 1 10, .addEntry 7 a, .addEntry 1 a, .increment, .unlink 1 a, .freeEntry a,
        .freeEntry a, .addEntry 1 a, .resize 5, .maybeGrow 9 0] ∧
      t.addsMade cs < wordLimit ∧
      t.succeeded Call.adds cs = 2 ∧ t.succeeded Call.removes cs = 1 ∧
      (t.run cs).traffic = ⟨2, 1⟩ ∧ (t.run cs).count = 1 ∧ (t.run cs).InStep := by
  let mem : Memory := .below 100 (by decide)
  let a : EntryId := .ofIndex 0 (by decide)
  let cs : List (Call UInt32) := [.newEntry 1 10, .addEntry 7 a, .addEntry 1 a, .increment,
    .unlink 1 a, .freeEntry a, .freeEntry a, .addEntry 1 a, .resize 5, .maybeGrow 9 0]
  let t : Table UInt32 := ⟨emptyBuckets 2, 0, .empty, .symbol, .zero, by decide⟩
  have ht : create 2 .symbol = .ok t := rfl
  have hadds : t.addsMade cs < wordLimit := by decide +kernel
  have hadded : t.succeeded Call.adds cs = 2 := by decide +kernel
  have hremoved : t.succeeded Call.removes cs = 1 := by decide +kernel
  obtain ⟨htraffic, -, -, -, hstep⟩ := run_counts_successes ht cs
  rw [hadded, hremoved] at htraffic
  have hin := hstep (.inl hadds)
  exact ⟨mem, t, a, cs, ht, rfl, hadds, hadded, hremoved, htraffic,
    by simp [hin.count, htraffic], hin⟩

end Table

end ChainedTable
